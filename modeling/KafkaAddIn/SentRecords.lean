import KafkaAddIn.ProduceExit
import KafkaAddIn.Process

namespace KafkaAddIn

open Foundation

variable {a : Answers} {paParams : Nat → TVariant} {w w' : World}

def units (paParams : Nat → TVariant) (i : Nat) : List ShortWchar :=
  (paParams i).pwstrVal.take (paParams i).strLen.toNat

/-- `bytes` is the UTF-8 form of the whole of `us`. -/
def Utf8Of (us : List ShortWchar) (bytes : Bytes) : Prop :=
  (utf16Decode (us.map UInt16.toNat)).map utf8Encode = some bytes

theorem paramText_utf8Of {i : Nat} {bytes : Bytes} (h : paramText a paParams i = .ok bytes) :
    Utf8Of (units paParams i) bytes := by
  unfold paramText uint16ToString at h
  split at h
  next => cases h
  next =>
    split at h
    next => cases h
    next =>
      split at h
      next s hs =>
        cases h
        have hwiden : (units paParams i).map (UInt32.toNat ∘ UInt16.toUInt32) =
            (units paParams i).map UInt16.toNat := by
          apply List.map_congr_left
          intro u _
          simp
        unfold toBytes at hs
        rw [List.map_map] at hs
        change (utf16Decode ((units paParams i).map _)).map utf8Encode = some bytes at hs
        rw [hwiden] at hs
        exact hs
      next => cases h

theorem units_lt (us : List ShortWchar) : ∀ u ∈ us.map UInt16.toNat, u < 0x10000 := by
  intro u hu
  obtain ⟨x, _, rfl⟩ := List.mem_map.mp hu
  exact x.toNat_lt

theorem Utf8Of.unique {us : List ShortWchar} {b c : Bytes} (hb : Utf8Of us b)
    (hc : Utf8Of us c) : b = c :=
  Option.some.inj (hb.symm.trans hc)

theorem Utf8Of.injective {us vs : List ShortWchar} {b : Bytes} (hu : Utf8Of us b)
    (hv : Utf8Of vs b) : us = vs := by
  obtain ⟨cs, hcs, hb⟩ := Option.map_eq_some_iff.mp hu
  obtain ⟨ds, hds, hb'⟩ := Option.map_eq_some_iff.mp hv
  have hsame : cs = ds := utf8Encode_injective (hb.trans hb'.symm)
  rw [← hsame] at hds
  have hnat := utf16Decode_injective (units_lt us) (units_lt vs) hcs hds
  exact List.map_injective_iff.mpr (fun _ _ h => UInt16.toNat_inj.mp h) hnat

theorem Utf8Of.zero_mem_iff {us : List ShortWchar} {b : Bytes} (h : Utf8Of us b) :
    0 ∈ b ↔ 0 ∈ us := by
  obtain ⟨cs, hcs, rfl⟩ := Option.map_eq_some_iff.mp h
  rw [zero_mem_utf8Encode_iff (units_lt us) hcs]
  constructor
  · intro hm
    obtain ⟨u, hu, hzero⟩ := List.mem_map.mp hm
    have hu0 : u = 0 := UInt16.toNat_inj.mp hzero
    rwa [← hu0]
  · intro hm
    exact List.mem_map.mpr ⟨0, hm, rfl⟩

theorem Utf8Of.cString_iff {us : List ShortWchar} {b : Bytes} (h : Utf8Of us b) :
    Utf8Of us (cString 0 b) ↔ 0 ∉ us := by
  rw [← h.zero_mem_iff, ← cString_eq_self_iff]
  constructor
  · intro hcut
    exact hcut.unique h
  · intro hself
    rw [hself]
    exact h

def Event.setting (conf : Handle) (name : String) : Event → Option Bytes
  | .confSet conf' name' value res =>
    if conf' = conf ∧ name' = name ∧ res = .ok then some value else none
  | _ => none

/-- A record and the settings of the client it goes out through. -/
structure Sent where
  brokers : Bytes
  username : Bytes
  password : Bytes
  topic : Bytes
  key : Bytes
  value : Bytes
  deriving DecidableEq, Repr

/-- These calls enqueue `sent` and nothing else, through a client whose configuration was set
up before the client took it. -/
structure SendsThrough (trace : List Event) (conf rk : Handle) (sent : Sent) : Prop where
  client : ∃ before after, trace = before ++ .new .producer conf (some rk) :: after ∧
    ∀ name, after.filterMap (Event.setting conf name) = []
  record : trace.filterMap Event.enqueued = [(rk, sent.topic, sent.key, sent.value)]
  brokers : trace.filterMap (Event.setting conf "bootstrap.servers") = [sent.brokers]
  username : trace.filterMap (Event.setting conf "sasl.username") = [sent.username]
  password : trace.filterMap (Event.setting conf "sasl.password") = [sent.password]

/-- `sent` is the whole of the six parameters. -/
structure Sent.Whole (sent : Sent) (paParams : Nat → TVariant) : Prop where
  brokers : Utf8Of (units paParams 0) sent.brokers
  topic : Utf8Of (units paParams 1) sent.topic
  username : Utf8Of (units paParams 2) sent.username
  password : Utf8Of (units paParams 3) sent.password
  key : Utf8Of (units paParams 4) sent.key
  value : Utf8Of (units paParams 5) sent.value

/-- What is sent of the decoded texts: only key and value are counted. -/
def sentOf (p : Nat → Bytes) : Sent :=
  ⟨cString 0 (p 0), cString 0 (p 2), cString 0 (p 3), cString 0 (p 1), p 4, p 5⟩

theorem reads_filterMap {α : Type} {f : Event → Option α} (hf : ∀ i, f (.readWstr i) = none)
    (n : Nat) : (reads n).filterMap f = [] := by
  simp [reads, hf]

theorem deliverEvents_enqueued {rk : Handle} :
    (deliverEvents a rk).filterMap Event.enqueued = [] := by
  apply List.filterMap_eq_nil_iff.mpr
  intro e he
  rcases mem_deliverEvents he with rfl | ⟨err, rfl⟩ | rfl | rfl <;> rfl

theorem deliverEvents_setting {rk conf : Handle} {name : String} :
    (deliverEvents a rk).filterMap (Event.setting conf name) = [] := by
  apply List.filterMap_eq_nil_iff.mpr
  intro e he
  rcases mem_deliverEvents he with rfl | ⟨err, rfl⟩ | rfl | rfl <;> rfl

theorem sendsThrough_persisted {p : Nat → Bytes} {n : Handle} (hopen : Opened a paParams p)
    (henq : a.producev = respErrNoError) :
    SendsThrough (enqueueEvents a p n ++ deliverEvents a (n + 1)) n (n + 1) (sentOf p) := by
  have hacc := hopen.accepted
  simp only [Accepted, produceSettingsOf, produceSettings, List.mem_cons, List.not_mem_nil,
    or_false, forall_eq_or_imp, forall_eq] at hacc
  obtain ⟨hbrokers, _, _, husername, hpassword⟩ := hacc
  have hreads : ∀ name, (reads 6).filterMap (Event.setting n name) = [] := fun _ =>
    reads_filterMap (fun _ => rfl) 6
  refine ⟨?_, ?_, ?_, ?_, ?_⟩
  · refine ⟨reads 6 ++ .confNew n :: settingEvents a n (produceSettingsOf p),
      [.confSetDrMsgCb n, .signal, .producev (n + 1) (cString 0 (p 1)) (p 4) (p 5) a.producev] ++
        deliverEvents a (n + 1), ?_, ?_⟩
    · simp [enqueueEvents, openEvents]
    · intro name
      rw [List.filterMap_append, deliverEvents_setting]
      rfl
  · have hread : (reads 6).filterMap Event.enqueued = [] := reads_filterMap (fun _ => rfl) 6
    simp [enqueueEvents, openEvents, settingEvents, produceSettingsOf, produceSettings, hread, List.filterMap_cons,
      deliverEvents_enqueued, Event.enqueued, henq, sentOf]
  · simp [enqueueEvents, openEvents, settingEvents, produceSettingsOf, produceSettings, hreads, List.filterMap_cons,
      deliverEvents_setting, Event.setting, hbrokers, sentOf]
  · simp [enqueueEvents, openEvents, settingEvents, produceSettingsOf, produceSettings, hreads, List.filterMap_cons,
      deliverEvents_setting, Event.setting, husername, sentOf]
  · simp [enqueueEvents, openEvents, settingEvents, produceSettingsOf, produceSettings, hreads, List.filterMap_cons,
      deliverEvents_setting, Event.setting, hpassword, sentOf]

theorem new_mem_persisted {p : Nat → Bytes} {n conf rk : Handle} {type : ClientType}
    (h : .new type conf (some rk) ∈ enqueueEvents a p n ++ deliverEvents a (n + 1)) :
    conf = n ∧ rk = n + 1 := by
  rcases List.mem_append.mp h with h | h
  · rcases mem_enqueueEvents h with ⟨_, h⟩ | h | ⟨_, _, _, h⟩ | h | h | h | h
    · cases h
    · cases h
    · cases h
    · cases h
      exact ⟨rfl, rfl⟩
    · cases h
    · cases h
    · cases h
  · rcases mem_deliverEvents h with h | ⟨err, h⟩ | h | h <;> cases h

theorem SendsThrough.unique {trace : List Event} {conf rk rk' : Handle} {x y : Sent}
    (hx : SendsThrough trace conf rk x) (hy : SendsThrough trace conf rk' y) : x = y := by
  obtain ⟨b, u, q, t, k, v⟩ := x
  obtain ⟨b', u', q', t', k', v'⟩ := y
  have hrecord := hx.record.symm.trans hy.record
  have hbrokers := hx.brokers.symm.trans hy.brokers
  have husername := hx.username.symm.trans hy.username
  have hpassword := hx.password.symm.trans hy.password
  simp_all

/-- A record that is sent is the whole of the parameters exactly when those passed on as
terminated strings hold no zero unit. -/
theorem sentOf_whole_iff {p : Nat → Bytes} (hdec : Decoded a paParams 6 p) :
    (sentOf p).Whole paParams ↔ ∀ i < 4, 0 ∉ units paParams i := by
  have hutf : ∀ i < 6, Utf8Of (units paParams i) (p i) := fun i hi =>
    paramText_utf8Of (hdec i hi)
  constructor
  · intro h i hi
    have hcut : Utf8Of (units paParams i) (cString 0 (p i)) := by
      have hcases : i = 0 ∨ i = 1 ∨ i = 2 ∨ i = 3 := by omega
      rcases hcases with rfl | rfl | rfl | rfl
      · exact h.brokers
      · exact h.topic
      · exact h.username
      · exact h.password
    exact (hutf i (by omega)).cString_iff.mp hcut
  · intro h
    have hcut : ∀ i < 4, Utf8Of (units paParams i) (cString 0 (p i)) := fun i hi =>
      (hutf i (by omega)).cString_iff.mpr (h i hi)
    exact ⟨hcut 0 (by omega), hcut 1 (by omega), hcut 2 (by omega), hcut 3 (by omega),
      hutf 4 (by omega), hutf 5 (by omega)⟩

theorem Sent.Whole.injective {x : Sent} {other : Nat → TVariant} (h : x.Whole paParams)
    (h' : x.Whole other) : ∀ i < 6, units paParams i = units other i := by
  intro i hi
  have hcases : i = 0 ∨ i = 1 ∨ i = 2 ∨ i = 3 ∨ i = 4 ∨ i = 5 := by omega
  rcases hcases with rfl | rfl | rfl | rfl | rfl | rfl
  · exact h.brokers.injective h'.brokers
  · exact h.topic.injective h'.topic
  · exact h.username.injective h'.username
  · exact h.password.injective h'.password
  · exact h.key.injective h'.key
  · exact h.value.injective h'.value

/-- A finished call of `produce` on six wide strings, each as long as it says. -/
structure Sending where
  answers : Answers
  paParams : Nat → TVariant
  readable : ∀ i < 6, (paParams i).strLen.toNat ≤ (paParams i).pwstrVal.length
  start : Process
  result : Except Exit String
  finish : World
  ends : Ends (produce answers paParams) start.world result finish

def Sending.Sends (c : Sending) (sent : Sent) : Prop :=
  ∃ conf rk, SendsThrough c.finish.trace conf rk sent

def Sending.WholeOrException (c : Sending) : Prop :=
  (∃ sent, c.Sends sent ∧ sent.Whole c.paParams) ∨
    ((∃ what, c.result = .ok ("Exception: " ++ what)) ∧
      c.finish.trace.filterMap Event.enqueued = [])

theorem Sending.not_sends {c : Sending} (h : c.finish.trace.filterMap Event.enqueued = [])
    (sent : Sent) : ¬ c.Sends sent := by
  intro hsent
  obtain ⟨conf, rk, hthrough⟩ := hsent
  have hrecord := hthrough.record
  rw [h] at hrecord
  cases hrecord

theorem Sending.paramText_ne_fault (c : Sending) {i : Nat} (hi : i < 6) :
    paramText c.answers c.paParams i ≠ .error .fault := by
  intro h
  have hlong := c.readable i hi
  rcases paramText_error h with h | h | ⟨_, hshort⟩
  · cases h
  · cases h
  · omega

/-- The two ways a call can go: it enqueues what it has decoded, or it enqueues nothing
and returns an exception's text. -/
theorem Sending.cases (c : Sending) :
    (∃ p, Decoded c.answers c.paParams 6 p ∧ Enqueues c.answers c.paParams ∧ c.result = .ok "Persisted" ∧
      c.Sends (sentOf p) ∧ ∀ sent, c.Sends sent → sent = sentOf p) ∨
    (¬ Enqueues c.answers c.paParams ∧ c.finish.trace.filterMap Event.enqueued = [] ∧
      ∃ what, c.result = .ok ("Exception: " ++ what)) := by
  have hexit := produce_exit (w := c.start.world) rfl c.ends
  rcases hexit.cases with ⟨p, hopen, henq, hok, hw⟩ | ⟨p, _, hbad, hok, _⟩ |
    ⟨hclosed, _, hres⟩
  · have htrace : c.finish.trace = enqueueEvents c.answers p c.start.world.next ++
        deliverEvents c.answers (c.start.world.next + 1) := by
      rw [hw]
      rfl
    have hsend := sendsThrough_persisted (n := c.start.world.next) hopen henq
    rw [← htrace] at hsend
    refine Or.inl ⟨p, hopen.decoded, ⟨⟨p, hopen⟩, henq⟩, hok, ⟨_, _, hsend⟩, ?_⟩
    intro sent hsent
    obtain ⟨conf, rk, hthrough⟩ := hsent
    obtain ⟨before, after, hsplit, _⟩ := hthrough.client
    have hclient : .new .producer conf (some rk) ∈ c.finish.trace :=
      hsplit ▸ List.mem_append_right _ List.mem_cons_self
    rw [htrace] at hclient
    obtain ⟨rfl, rfl⟩ := new_mem_persisted hclient
    exact hthrough.unique hsend
  · have hnot : ¬ Enqueues c.answers c.paParams := fun henq => hbad henq.2
    have hnone := hexit.enqueued_none rfl hnot
    exact Or.inr ⟨hnot, List.filterMap_eq_nil_iff.mpr hnone, ⟨_, hok⟩⟩
  · have hnot : ¬ Enqueues c.answers c.paParams := by
      intro henq
      obtain ⟨p, hopen⟩ := henq.1
      exact hclosed p hopen
    refine Or.inr ⟨hnot, List.filterMap_eq_nil_iff.mpr (hexit.enqueued_none rfl hnot), ?_⟩
    rcases hres with ⟨_, i, hi, hfault⟩ | hres
    · exact absurd hfault (c.paramText_ne_fault hi)
    · exact hres

def Sending.ZeroFree (c : Sending) : Prop :=
  Enqueues c.answers c.paParams → ∀ i < 4, 0 ∉ units c.paParams i

theorem Sending.wholeOrException_iff (c : Sending) : c.WholeOrException ↔ c.ZeroFree := by
  rcases c.cases with ⟨p, hdec, henq, hok, hsends, hall⟩ | ⟨hnot, hnone, hexc⟩
  · constructor
    · intro h _
      rcases h with ⟨sent, hsent, hwhole⟩ | ⟨⟨what, hexc⟩, hnone⟩
      · rw [hall sent hsent] at hwhole
        exact (sentOf_whole_iff hdec).mp hwhole
      · exact absurd hsends (Sending.not_sends hnone _)
    · intro h
      exact Or.inl ⟨sentOf p, hsends, (sentOf_whole_iff hdec).mpr (h henq)⟩
  · exact ⟨fun _ henq => absurd henq hnot, fun _ => Or.inr ⟨hexc, hnone⟩⟩

/-- Two calls that send the same were given the same. -/
def ToldApart (c d : Sending) : Prop :=
  ∀ sent, c.Sends sent → d.Sends sent → ∀ i < 6, units c.paParams i = units d.paParams i

theorem toldApart_of_whole {c d : Sending} (hc : c.WholeOrException) (hd : d.WholeOrException) :
    ToldApart c d := by
  intro sent hcs hds
  have hwhole : ∀ {c : Sending}, c.WholeOrException → c.Sends sent → sent.Whole c.paParams := by
    intro c hc hcs
    rcases c.cases with ⟨p, _, _, _, _, hall⟩ | ⟨_, hnone, _⟩
    · rcases hc with ⟨x, hx, hw⟩ | ⟨_, hnone⟩
      · rw [hall sent hcs, ← hall x hx]
        exact hw
      · exact absurd hcs (Sending.not_sends hnone _)
    · exact absurd hcs (Sending.not_sends hnone _)
  exact (hwhole hc hcs).injective (hwhole hd hds)

/-- Key and value are passed with their lengths, the rest as terminated strings: any two
calls send the whole of what they are given, and different things for different
parameters, exactly when neither has a zero unit in the rest. -/
theorem sending_whole_iff (c d : Sending) :
    c.WholeOrException ∧ d.WholeOrException ∧ ToldApart c d ↔ c.ZeroFree ∧ d.ZeroFree := by
  constructor
  · intro h
    exact ⟨c.wholeOrException_iff.mp h.1, d.wholeOrException_iff.mp h.2.1⟩
  · intro h
    have hc := c.wholeOrException_iff.mpr h.1
    have hd := d.wholeOrException_iff.mpr h.2
    exact ⟨hc, hd, toldApart_of_whole hc hd⟩

/-- Six wide strings: a topic, a key and a value, and the letter "u" for the rest. -/
def recordParams (topic key value : List ShortWchar) (i : Nat) : TVariant :=
  let us := if i = 1 then topic else if i = 4 then key else if i = 5 then value else [117]
  { vt := vtypePwstr, pwstrVal := us ++ [0], strLen := UInt32.ofNat us.length }

def recordSending (topic key value : List ShortWchar) : Sending where
  answers := {}
  paParams := recordParams topic key value
  readable := by
    intro i _
    simp only [recordParams, List.length_append, List.length_singleton, UInt32.toNat_ofNat']
    omega
  start := {}
  result := ((produce {} (recordParams topic key value)).run ({} : Process).world).1
  finish := ((produce {} (recordParams topic key value)).run ({} : Process).world).2
  ends := ends_run _ _

/-- A record for the topic "t", NUL, "x" goes to the topic "t" instead. -/
theorem cutTopic_not_whole :
    ¬ ((recordSending [116, 0, 120] [107] [118]).WholeOrException ∧
      (recordSending [116] [107] [118]).WholeOrException ∧
      ToldApart (recordSending [116, 0, 120] [107] [118]) (recordSending [116] [107] [118])) := by
  intro h
  have hfree := (recordSending [116, 0, 120] [107] [118]).wholeOrException_iff.mp h.1
  have henq : Enqueues {} (recordParams [116, 0, 120] [107] [118]) := by
    rcases (recordSending [116, 0, 120] [107] [118]).cases with ⟨_, _, henq, _⟩ | ⟨_, hnone, _⟩
    · exact henq
    · exact absurd hnone (by decide)
  exact absurd (hfree henq 1 (by omega)) (by decide)

end KafkaAddIn
