import KafkaAddIn.RecordFlow
import KafkaAddIn.Narrowing

namespace KafkaAddIn

open Foundation

variable {platform : Platform} {history : History} {a : Answers} {c : HostCall} {obj : ObjId}
  {s t : Process}

/-- A text of the host. Its length in units fits into a variant. -/
structure HostText where
  text : String
  fits : (utf16Units text.toList).length < 2 ^ 32

def HostText.variant (x : HostText) : TVariant :=
  { vt := vtypePwstr, pwstrVal := utf16Units x.text.toList
    strLen := UInt32.ofNat (utf16Units x.text.toList).length }

def HostText.utf8 (x : HostText) : Bytes := utf8Encode x.text.toList

/-- The units can be read, and decode to the text they were made from. -/
theorem HostText.paramText_eq (x : HostText) {paParams : Nat → TVariant} {i : Nat}
    (hi : paParams i = x.variant) (hmem : a.memory i = true) :
    paramText a paParams i = .ok x.utf8 := by
  have hlen : (paParams i).strLen.toNat = (paParams i).pwstrVal.length := by
    rw [hi]
    exact UInt32.toNat_ofNat_of_lt' x.fits
  have hunits : ((paParams i).pwstrVal.map UInt16.toUInt32).map UInt32.toNat =
      x.text.toList.flatMap utf16EncodeChar := by
    rw [hi, HostText.variant, utf16Units, List.map_map, List.map_map]
    refine (List.map_congr_left ?_).trans (List.map_id _)
    intro u hu
    have hsmall : u < 2 ^ 16 := by
      obtain ⟨c, _, hc⟩ := List.mem_flatMap.mp hu
      exact utf16EncodeChar_lt hc
    simp only [Function.comp_apply, UInt16.toNat_toUInt32, UInt16.toNat_ofNat_of_lt' hsmall, id]
  have hbytes : toBytes ((paParams i).pwstrVal.map UInt16.toUInt32) = some x.utf8 := by
    rw [toBytes, hunits, utf16Decode_encode]
    rfl
  unfold paramText uint16ToString
  rw [if_neg (by simp [hmem]), if_neg (by omega), hlen, List.take_length, hbytes]

/-- There is memory wherever it is asked for, and a client can be made. -/
structure Answers.Healthy (a : Answers) : Prop where
  memory : ∀ i, a.memory i = true
  confSet : ∀ name, a.confSet name = .ok
  new : a.new = true
  buildMessage : a.buildMessage = true
  buildKey : a.buildKey = true
  alloc : a.alloc = true

/-- A text for each parameter, and what the outside answers to the call. -/
inductive Errand
  | send (texts : Nat → HostText) (pvar : TVariant) (size : Int) (answers : Answers)
  | receive (texts : Nat → HostText) (pvar : TVariant) (size : Int) (record : Record)
      (answers : Answers)

def Errand.call (obj : ObjId) : Errand → HostCall
  | .send texts pvar size answers =>
    ⟨obj, .request (.callAsFunc 1 pvar (fun i => (texts i).variant) size), answers⟩
  | .receive texts pvar size _ answers =>
    ⟨obj, .request (.callAsFunc 2 pvar (fun i => (texts i).variant) size), answers⟩

/-- The queue takes what is to be sent; what is to be received is there, and still in place
when it is copied. -/
def Errand.Granted : Errand → Prop
  | .send _ _ _ answers => answers.Healthy ∧ answers.producev = respErrNoError
  | .receive _ _ _ record answers => answers.Healthy ∧ answers.subscribe = respErrNoError ∧
      answers.poll = some ⟨respErrNoError, record⟩ ∧
      answers.stalePayload = record.payloadBytes ∧ answers.staleKey = record.keyBytes

/-- The texts are with librdkafka, in UTF-8 and for the topic up to its first zero; or the
record is with the host. -/
def Errand.Done (e : Entry Process HostCall Outcome) : Errand → Prop
  | .send texts _ _ _ =>
    e.outcome.trace.filterMap Event.enqueued = [(e.before.next + 1, cString 0 (texts 1).utf8,
        (texts 4).utf8, (texts 5).utf8)] ∧
      ∃ val, e.outcome.result = .ok (.variant true (returned (ascii "Persisted") val))
  | .receive _ _ _ record _ => e.outcome.answers true ∧ e.after.Carries record

/-- The process is there and the object can hand strings to the host. -/
def Ready (obj : ObjId) (s : Process) : Prop :=
  s.dead = false ∧ ∃ this, s.objects obj = some this ∧ this.mIMemory = true

theorem Answers.Healthy.decoded (h : a.Healthy) (texts : Nat → HostText) (n : Nat) :
    Decoded a (fun i => (texts i).variant) n fun i => (texts i).utf8 := by
  intro i _
  exact (texts i).paramText_eq rfl (h.memory i)

theorem Answers.Healthy.opened (h : a.Healthy) (texts : Nat → HostText) :
    Opened a (fun i => (texts i).variant) fun i => (texts i).utf8 :=
  ⟨h.decoded texts 6, fun x _ => h.confSet x.name, h.new⟩

theorem Answers.Healthy.subscribed (h : a.Healthy) (hsub : a.subscribe = respErrNoError)
    (texts : Nat → HostText) :
    Subscribed a (fun i => (texts i).variant) fun i => (texts i).utf8 :=
  ⟨h.decoded texts 5, fun x _ => h.confSet x.name, h.new, hsub⟩

/-- A request of a living process is taken, and leaves the objects alone. -/
theorem step_request (platform : Platform) (c : HostCall) {this : CKafka} {request : Request}
    (hlive : s.dead = false) (hobj : s.objects c.obj = some this)
    (hop : c.op = .request request) :
    ∃ o t, stepProcess platform c s = some (o, t) ∧ t.objects = s.objects ∧
      (o.result.isOk = true → t.dead = false) := by
  cases hrun : (runRequest platform this c.answers request).run s.world with
  | mk r w =>
    refine ⟨⟨r, w.trace⟩, s.finish r w, ?_, rfl, ?_⟩
    · simp [stepProcess, hlive, hop, hobj, hrun]
    · intro hok
      simpa [Process.finish] using hok

theorem send_step (platform : Platform) (hready : Ready obj s) {texts : Nat → HostText}
    {pvar : TVariant} {size : Int} (hgranted : (Errand.send texts pvar size a).Granted) :
    ∃ o t, stepProcess platform ((Errand.send texts pvar size a).call obj) s = some (o, t) ∧
      Ready obj t ∧ (Errand.send texts pvar size a).Done
        ⟨s, (Errand.send texts pvar size a).call obj, o, t⟩ := by
  obtain ⟨hlive, this, hobj, hmem⟩ := hready
  obtain ⟨hhealthy, henq⟩ := hgranted
  obtain ⟨o, t, hstep, hobjects, halive⟩ :=
    step_request platform ((Errand.send texts pvar size a).call obj) hlive hobj rfl
  obtain ⟨r, w, es, hexit, htrace, hes, _, _, _, hhost, _⟩ := produce_step hstep rfl
  have hopen := hhealthy.opened texts
  refine ⟨o, t, hstep, ?_⟩
  rcases hexit.cases with ⟨p, hopen', _, rfl, hw⟩ | ⟨_, _, hbad, _⟩ | ⟨hnot, _⟩
  · obtain ⟨val, hresult⟩ := hhost ⟨⟨this, hobj, hmem⟩, hhealthy.alloc⟩ "Persisted" rfl
    have hlives : t.dead = false := halive (by rw [hresult]; rfl)
    have htaken : (enqueueEvents a p s.next ++ deliverEvents a (s.next + 1)).filterMap
        Event.enqueued = [(s.next + 1, cString 0 (p 1), p 4, p 5)] :=
      (sendsThrough_persisted hopen' henq).record
    have hworld : w.trace = enqueueEvents a p s.next ++ deliverEvents a (s.next + 1) := by
      rw [hw]
      rfl
    have hsilent : es.filterMap Event.enqueued = [] :=
      List.filterMap_eq_nil_iff.mpr fun e he => (plain_ofHost (hes e he)).enqueued
    have hsame : ∀ i < 6, p i = (texts i).utf8 := by
      intro i hi
      have hdec := hopen.decoded i hi
      exact Except.ok.inj ((hopen'.decoded i hi).symm.trans hdec)
    refine ⟨⟨hlives, this, by rw [hobjects]; exact hobj, hmem⟩, ?_, val, hresult⟩
    show o.trace.filterMap Event.enqueued = _
    rw [htrace, List.filterMap_append, hsilent, hworld, htaken, List.append_nil]
    rw [hsame 1 (by omega), hsame 4 (by omega), hsame 5 (by omega)]
  · exact absurd henq hbad
  · exact absurd hopen (hnot _)

theorem receive_step (platform : Platform) (hready : Ready obj s) {texts : Nat → HostText}
    {pvar : TVariant} {size : Int} {record : Record}
    (hgranted : (Errand.receive texts pvar size record a).Granted) :
    ∃ o t, stepProcess platform ((Errand.receive texts pvar size record a).call obj) s =
        some (o, t) ∧
      Ready obj t ∧ (Errand.receive texts pvar size record a).Done
        ⟨s, (Errand.receive texts pvar size record a).call obj, o, t⟩ := by
  obtain ⟨hlive, this, hobj, hmem⟩ := hready
  obtain ⟨hhealthy, hsub, hpoll, hpayload, hkey⟩ := hgranted
  obtain ⟨o, t, hstep, hobjects, halive⟩ :=
    step_request platform ((Errand.receive texts pvar size record a).call obj) hlive hobj rfl
  obtain ⟨r, hleaves, hans, hok⟩ := consume_step_leaves hstep rfl
  have hget : GetsRecord a (fun i => (texts i).variant) record :=
    ⟨⟨_, hhealthy.subscribed hsub texts⟩, hpoll⟩
  obtain ⟨hr, hm, hk⟩ :=
    hleaves.unique (ConsumeLeaves.both hget hhealthy.buildMessage hhealthy.buildKey)
  have hlives : t.dead = false := halive (by rw [hok, hr]; rfl)
  exact ⟨o, t, hstep, ⟨hlives, this, by rw [hobjects]; exact hobj, hmem⟩, (hans true).mpr hr,
    hm.trans hpayload, hk.trans hkey⟩

/-- Whatever has happened before, an errand that is granted can be run. -/
theorem errand_step (platform : Platform) (hready : Ready obj s) (x : Errand)
    (hgranted : x.Granted) :
    ∃ o t, stepProcess platform (x.call obj) s = some (o, t) ∧ Ready obj t ∧
      x.Done ⟨s, x.call obj, o, t⟩ := by
  cases x with
  | send texts pvar size a => exact send_step platform hready hgranted
  | receive texts pvar size record a => exact receive_step platform hready hgranted

/-- From every state with a living process and an object that has its memory manager, any
errands that are granted can be run one after the other: each text that is sent reaches
librdkafka and each record that is there reaches the host. -/
theorem errands_done (h : ProcessRun platform history s) (hready : Ready obj s)
    (errands : List Errand) (hgranted : ∀ x ∈ errands, x.Granted) :
    ∃ rest t, ProcessRun platform (history ++ rest) t ∧ Ready obj t ∧
      List.Forall₂ (fun x e => e.call = x.call obj ∧ x.Done e) errands rest := by
  induction errands generalizing history s with
  | nil => exact ⟨[], s, by simpa using h, hready, List.Forall₂.nil⟩
  | cons x errands ih =>
    obtain ⟨o, t, hstep, hready', hdone⟩ :=
      errand_step platform hready x (hgranted x List.mem_cons_self)
    have hrun := Run.snoc h hstep
    obtain ⟨rest, u, hwhole, hlast, hall⟩ :=
      ih hrun hready' fun y hy => hgranted y (List.mem_cons_of_mem x hy)
    refine ⟨⟨s, x.call obj, o, t⟩ :: rest, u, ?_, hlast, List.Forall₂.cons ⟨rfl, hdone⟩ hall⟩
    simpa using hwhole

/-- The letter "t". -/
def tText : HostText := ⟨"t", by decide⟩

def sendAndReceive : List Errand :=
  [.send (fun _ => tText) {} 6 {},
    .receive (fun _ => tText) {} 5 hiRecord hiAnswers]

theorem errands_done_hiRecord :
    ∃ rest t, ProcessRun .other ((execCalls (newObject 0)).1 ++ rest) t ∧ Ready 0 t ∧
      List.Forall₂ (fun x e => e.call = x.call 0 ∧ x.Done e) sendAndReceive rest := by
  refine errands_done (run_execFrom Run.nil _) ⟨by decide +kernel, _, rfl, rfl⟩ _ ?_
  have hhealthy : ({} : Answers).Healthy := ⟨fun _ => rfl, fun _ => rfl, rfl, rfl, rfl, rfl⟩
  have hhealthy' : hiAnswers.Healthy := ⟨fun _ => rfl, fun _ => rfl, rfl, rfl, rfl, rfl⟩
  intro x hx
  simp only [sendAndReceive, List.mem_cons, List.not_mem_nil, or_false] at hx
  rcases hx with rfl | rfl
  · exact ⟨hhealthy, rfl⟩
  · exact ⟨hhealthy', rfl, rfl, rfl, rfl⟩

end KafkaAddIn
