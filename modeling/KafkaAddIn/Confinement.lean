import KafkaAddIn.Acknowledgement
import KafkaAddIn.Foundation.Agreement

namespace KafkaAddIn

open Foundation

/-- A place in the calls on librdkafka that takes a text. -/
inductive Slot
  | setting (name : String)
  | topic
  | key
  | value
  deriving DecidableEq, Repr

variable {platform : Platform} {this : CKafka} {a : Answers} {w w' : World} {c c' : HostCall}
  {s t : Process} {o : Outcome} {history : History} {paParams paParams' : Nat → TVariant}
  {hidden : Slot → Bool}

def shown (hidden : Slot → Bool) (x : Slot) (text : Bytes) : Bytes :=
  if hidden x then [] else text

/-- The event without the texts in the slots that are hidden. -/
def Event.hide (hidden : Slot → Bool) : Event → Event
  | .confSet conf name value res => .confSet conf name (shown hidden (.setting name) value) res
  | .listAdd list topic => .listAdd list (shown hidden .topic topic)
  | .producev rk topic key value err =>
    .producev rk (shown hidden .topic topic) (shown hidden .key key) (shown hidden .value value) err
  | e => e

/-- The slot that takes the parameter of an index. -/
def Methods.slot : Methods → Nat → Slot
  | .eConsume, 0 => .setting "bootstrap.servers"
  | .eConsume, 1 => .topic
  | .eConsume, 2 => .setting "group.id"
  | .eConsume, 3 => .setting "sasl.username"
  | .eConsume, _ => .setting "sasl.password"
  | _, 0 => .setting "bootstrap.servers"
  | _, 1 => .topic
  | _, 2 => .setting "sasl.username"
  | _, 3 => .setting "sasl.password"
  | _, 4 => .key
  | _, _ => .value

/-- The two texts may be told apart only where the slot is hidden. -/
def SlotText (hidden : Slot → Bool) (x : Slot) (text text' : Bytes) : Prop :=
  hidden x = false → text' = text

theorem SlotText.shown {x : Slot} {text text' : Bytes} (h : SlotText hidden x text text')
    (f : Bytes → Bytes) : shown hidden x (f text') = shown hidden x (f text) := by
  unfold KafkaAddIn.shown
  cases hx : hidden x with
  | true => rfl
  | false => rw [h hx]

structure World.Like (hidden : Slot → Bool) (w w' : World) : Prop where
  gMessage : w'.gMessage = w.gMessage
  gKey : w'.gKey = w.gKey
  next : w'.next = w.next
  trace : w'.trace.map (Event.hide hidden) = w.trace.map (Event.hide hidden)

/-- The program does not look at the texts that are hidden. -/
def Blind (hidden : Slot → Bool) {α : Type} (x : Call α) : Prop :=
  Agree (World.Like hidden) Eq x x

theorem World.like_refl (w : World) : w.Like hidden w := ⟨rfl, rfl, rfl, rfl⟩

theorem World.Like.after {es es' : List Event} (h : w.Like hidden w') (k : Nat)
    (hes : es'.map (Event.hide hidden) = es.map (Event.hide hidden)) :
    (w.after k es).Like hidden (w'.after k es') := by
  refine ⟨h.gMessage, h.gKey, ?_, ?_⟩
  · rw [World.after_next, World.after_next, h.next]
  · rw [World.after_trace, World.after_trace, List.map_append, List.map_append, h.trace, hes]

theorem agree_emit {e e' : Event} (he : e'.hide hidden = e.hide hidden) :
    Agree (World.Like hidden) Eq (emit e) (emit e') := by
  apply agree_modify
  intro w w' h
  exact h.after 0 (congrArg (fun e => [e]) he)

theorem blind_emit (e : Event) : Blind hidden (emit e) := agree_emit rfl

theorem blind_pure {α : Type} (v : α) : Blind hidden (pure v : Call α) := agree_pure rfl

theorem blind_throw {α : Type} (e : Exit) : Blind hidden (throw e : Call α) := agree_throw e

theorem Blind.bind {α β : Type} {x : Call α} {f : α → Call β} (hx : Blind hidden x)
    (hf : ∀ v, Blind hidden (f v)) : Blind hidden (x >>= f) := by
  refine Agree.bind hx ?_
  rintro v _ rfl
  exact hf v

theorem blind_fresh : Blind hidden fresh := by
  intro w u r w' r' u' h hw hu
  obtain ⟨rfl, rfl⟩ := ends_fresh.mp hw
  obtain ⟨rfl, rfl⟩ := ends_fresh.mp hu
  exact ⟨SameEnd.ok h.next.symm, h.after 1 rfl⟩

theorem Uniform.blind {α : Type} {x : Call α} (hx : Uniform x) : Blind hidden x := by
  obtain ⟨r, es, _, hx⟩ := hx
  intro w u r₁ w' r₂ u' h hw hu
  obtain ⟨rfl, rfl⟩ := hw.unique (hx w)
  obtain ⟨rfl, rfl⟩ := hu.unique (hx u)
  exact ⟨sameEnd_refl _, h.after 0 rfl⟩

theorem blind_setMessage (text : Bytes) : Blind hidden (setMessage text) :=
  agree_modify fun _ _ h => ⟨rfl, h.gKey, h.next, h.trace⟩

theorem blind_setKey (text : Bytes) : Blind hidden (setKey text) :=
  agree_modify fun _ _ h => ⟨h.gMessage, rfl, h.next, h.trace⟩

theorem outstanding_hide (hidden : Slot → Bool) (rk : Handle) (es : List Event) :
    outstanding rk (es.map (Event.hide hidden)) = outstanding rk es := by
  have henq : Event.enqueues rk ∘ Event.hide hidden = Event.enqueues rk := by
    funext e
    cases e <;> rfl
  have hrep : Event.reports rk ∘ Event.hide hidden = Event.reports rk := by
    funext e
    cases e <;> rfl
  unfold outstanding
  rw [List.any_map, List.any_map, henq, hrep]

theorem World.Like.outstanding (h : w.Like hidden w') (rk : Handle) :
    outstanding rk w'.trace = outstanding rk w.trace := by
  rw [← outstanding_hide hidden rk w'.trace, h.trace, outstanding_hide]

theorem hide_eq_messageDestroy {e : Event} {rkm : Handle} :
    e.hide hidden = .messageDestroy rkm ↔ e = .messageDestroy rkm := by
  cases e <;> simp [Event.hide]

theorem World.Like.given (h : w.Like hidden w') (rkm : Handle) :
    .messageDestroy rkm ∈ w'.trace ↔ .messageDestroy rkm ∈ w.trace := by
  have hmem : ∀ es : List Event, .messageDestroy rkm ∈ es.map (Event.hide hidden) ↔
      .messageDestroy rkm ∈ es := by
    intro es
    rw [List.mem_map]
    constructor
    · rintro ⟨e, he, hhide⟩
      rwa [← hide_eq_messageDestroy.mp hhide]
    · intro he
      exact ⟨_, he, rfl⟩
  rw [← hmem, h.trace, hmem]

theorem blind_rdKafkaNew (type : ClientType) (conf : Handle) :
    Blind hidden (rdKafkaNew a type conf) := by
  unfold rdKafkaNew
  by_cases hnew : a.new = true
  · rw [if_pos hnew]
    exact blind_fresh.bind fun rk => (blind_emit _).bind fun _ => blind_pure _
  · rw [if_neg hnew]
    exact (blind_emit _).bind fun _ => blind_pure _

theorem blind_rdKafkaConsumerPoll (rk : Handle) : Blind hidden (rdKafkaConsumerPoll a rk) := by
  unfold rdKafkaConsumerPoll
  cases a.poll with
  | none => exact (blind_emit _).bind fun _ => blind_pure _
  | some polled => exact blind_fresh.bind fun handle => (blind_emit _).bind fun _ => blind_pure _

/-- A message is read after it has been given back, or before, in both worlds. -/
theorem blind_read (rkm : Handle) (stale held : Bytes) : Blind hidden (do
    let w ← get
    emit (.messageRead rkm)
    return if Event.messageDestroy rkm ∈ w.trace then stale else held : Call Bytes) := by
  apply agree_get_bind
  intro w w' h
  have hsame : (Event.messageDestroy rkm ∈ w'.trace) = (Event.messageDestroy rkm ∈ w.trace) :=
    propext (h.given rkm)
  simp only [hsame]
  exact (blind_emit _).bind fun _ => blind_pure _

theorem blind_messagePayload (rkm : Message) : Blind hidden (messagePayload a rkm) :=
  blind_read rkm.handle a.stalePayload rkm.record.payloadBytes

theorem blind_messageKey (rkm : Message) : Blind hidden (messageKey a rkm) :=
  blind_read rkm.handle a.staleKey rkm.record.keyBytes

theorem blind_serveReports (rk : Handle) (arrival : Arrival) :
    Blind hidden (serveReports a rk arrival) := by
  apply agree_get_bind
  intro w w' h
  rw [h.outstanding rk]
  cases a.delivery with
  | none => exact blind_pure _
  | some delivery =>
    by_cases hserved : delivery.arrival = arrival ∧ outstanding rk w.trace = true
    · simp only [if_pos hserved]
      exact blind_emit _
    · simp only [if_neg hserved]
      exact blind_pure _

theorem blind_rdKafkaPoll (rk : Handle) (timeout : Nat) : Blind hidden (rdKafkaPoll a rk timeout) :=
  (blind_emit _).bind fun _ => blind_serveReports _ _

theorem blind_rdKafkaFlush (rk : Handle) (timeout : Nat) :
    Blind hidden (rdKafkaFlush a rk timeout) := by
  refine (blind_serveReports _ _).bind fun _ => ?_
  apply agree_get_bind
  intro w w' h
  rw [h.outstanding rk]
  exact (blind_emit _).bind fun _ => blind_pure _

theorem blind_buildString (memory : Bool) (text : Bytes) :
    Blind hidden (buildString memory text) := by
  cases memory with
  | false => exact blind_throw _
  | true => exact blind_pure _

theorem blind_pollRecord (rk : Handle) : Blind hidden (pollRecord a rk) := by
  refine (blind_rdKafkaConsumerPoll rk).bind fun polled => ?_
  cases polled with
  | none => exact blind_pure _
  | some rkm =>
    refine Blind.bind ((blind_emit _).bind fun _ => blind_pure _) fun err => ?_
    by_cases hbad : err ≠ respErrNoError
    · simp only [if_pos hbad]
      exact (blind_emit _).bind fun _ => blind_throw _
    · simp only [if_neg hbad]
      refine (blind_emit _).bind fun _ => (blind_emit _).bind fun _ => (blind_emit _).bind fun _ => ?_
      refine (blind_messagePayload rkm).bind fun payload => ?_
      refine (blind_buildString _ _).bind fun message => (blind_setMessage _).bind fun _ => ?_
      refine (blind_messageKey rkm).bind fun keyBytes => ?_
      exact (blind_buildString _ _).bind fun key => (blind_setKey _).bind fun _ => blind_pure _

/-- Two settings of one name, told apart only where the slot is hidden. -/
structure SameSetting (hidden : Slot → Bool) (s s' : Setting) : Prop where
  name : s'.name = s.name
  what : s'.what = s.what
  value : SlotText hidden (.setting s.name) s.value s'.value

theorem agree_rdKafkaConfSet {name : String} {value value' : Bytes} (conf : Handle)
    (h : SlotText hidden (.setting name) value value') :
    Agree (World.Like hidden) Eq (rdKafkaConfSet a conf name value)
      (rdKafkaConfSet a conf name value') := by
  refine Agree.bind (agree_emit ?_) fun _ _ _ => agree_pure rfl
  simp only [Event.hide, h.shown (cString 0)]

theorem agree_applySettings {settings settings' : List Setting} (conf : Handle)
    (h : List.Forall₂ (SameSetting hidden) settings settings') :
    Agree (World.Like hidden) Eq (applySettings a conf settings)
      (applySettings a conf settings') := by
  induction h with
  | nil => exact blind_pure _
  | @cons s s' rest rest' hs _ ih =>
    obtain ⟨name', value', what'⟩ := s'
    obtain ⟨rfl, rfl, hvalue⟩ := hs
    unfold applySettings
    refine Agree.bind (agree_rdKafkaConfSet conf hvalue) ?_
    rintro res _ rfl
    by_cases hbad : res ≠ .ok
    · simp only [if_pos hbad]
      exact (blind_emit _).bind fun _ => blind_throw _
    · simp only [if_neg hbad]
      exact ih

theorem agree_openClient {settings settings' : List Setting} (type : ClientType)
    (failed : String) (h : List.Forall₂ (SameSetting hidden) settings settings') :
    Agree (World.Like hidden) Eq (openClient a type settings failed)
      (openClient a type settings' failed) := by
  refine Agree.bind (Blind.bind blind_fresh fun conf => (blind_emit _).bind fun _ => blind_pure _) ?_
  rintro conf _ rfl
  refine Agree.bind (agree_applySettings conf h) ?_
  rintro _ _ rfl
  refine Blind.bind (blind_rdKafkaNew type conf) fun rk => ?_
  cases rk with
  | none => exact (blind_emit _).bind fun _ => blind_throw _
  | some rk => exact blind_pure _

theorem agree_subscribeTopic {topic topic' : Bytes} (rk : Handle)
    (h : SlotText hidden .topic topic topic') :
    Agree (World.Like hidden) Eq (subscribeTopic a rk topic) (subscribeTopic a rk topic') := by
  refine Agree.bind (blind_emit _) fun _ _ _ => ?_
  refine Agree.bind (Blind.bind blind_fresh fun list => (blind_emit _).bind fun _ => blind_pure _) ?_
  rintro list _ rfl
  have hadd : Agree (World.Like hidden) Eq (rdKafkaTopicPartitionListAdd list topic)
      (rdKafkaTopicPartitionListAdd list topic') := by
    refine agree_emit ?_
    simp only [Event.hide, h.shown (cString 0)]
  refine Agree.bind hadd fun _ _ _ => ?_
  refine Blind.bind ((blind_emit _).bind fun _ => blind_pure _) fun err => ?_
  by_cases hbad : err ≠ respErrNoError
  · simp only [if_pos hbad]
    exact (blind_emit _).bind fun _ => (blind_emit _).bind fun _ => blind_throw _
  · simp only [if_neg hbad]
    exact blind_pure _

/-- The parameters of a method are decoded alike: to texts that may be told apart where their
slots are hidden only, or not at all for the same reason. -/
def SameParams (hidden : Slot → Bool) (a : Answers) (slot : Nat → Slot) (n : Nat)
    (paParams paParams' : Nat → TVariant) : Prop :=
  ∀ i < n, SameEnd (SlotText hidden (slot i)) (paramText a paParams i) (paramText a paParams' i)

theorem agree_lift {α β : Type} {V : α → β → Prop} {x : Except Exit α} {y : Except Exit β}
    (h : SameEnd V x y) : Agree (World.Like hidden) V (lift x) (lift y) := by
  cases h with
  | ok hab => exact agree_pure hab
  | error => exact agree_throw _

theorem agree_decodeParams {slot : Nat → Slot} {n : Nat}
    (h : SameParams hidden a slot n paParams paParams') :
    Agree (World.Like hidden) (fun p q => ∀ i < n, SlotText hidden (slot i) (p i) (q i))
      (decodeParams a paParams n) (decodeParams a paParams' n) := by
  induction n with
  | zero =>
    refine agree_pure ?_
    intro i hi
    omega
  | succ n ih =>
    have hbefore : SameParams hidden a slot n paParams paParams' := fun i hi => h i (by omega)
    refine Agree.bind (ih hbefore) fun p q hpq => ?_
    refine Agree.bind (Agree.bind (blind_emit _) fun _ _ _ => agree_lift (h n (by omega))) ?_
    intro text text' htext
    refine agree_pure ?_
    intro i hi
    by_cases hin : i = n
    · subst i
      rw [Function.update_self, Function.update_self]
      exact htext
    · rw [Function.update_of_ne hin, Function.update_of_ne hin]
      exact hpq i (by omega)

theorem slotText_refl (x : Slot) (text : Bytes) : SlotText hidden x text text := fun _ => rfl

theorem sameSettings_consume {p q : Nat → Bytes}
    (h : ∀ i < 5, SlotText hidden (Methods.eConsume.slot i) (p i) (q i)) :
    List.Forall₂ (SameSetting hidden) (consumeSettings (p 0) (p 2) (p 3) (p 4))
      (consumeSettings (q 0) (q 2) (q 3) (q 4)) := by
  refine .cons ⟨rfl, rfl, h 0 (by omega)⟩ (.cons ⟨rfl, rfl, h 2 (by omega)⟩ ?_)
  refine .cons ⟨rfl, rfl, slotText_refl _ _⟩ (.cons ⟨rfl, rfl, slotText_refl _ _⟩ ?_)
  refine .cons ⟨rfl, rfl, slotText_refl _ _⟩ ?_
  exact .cons ⟨rfl, rfl, h 3 (by omega)⟩ (.cons ⟨rfl, rfl, h 4 (by omega)⟩ .nil)

theorem sameSettings_produce {p q : Nat → Bytes}
    (h : ∀ i < 6, SlotText hidden (Methods.eProduce.slot i) (p i) (q i)) :
    List.Forall₂ (SameSetting hidden) (produceSettings (p 0) (p 2) (p 3))
      (produceSettings (q 0) (q 2) (q 3)) := by
  refine .cons ⟨rfl, rfl, h 0 (by omega)⟩ (.cons ⟨rfl, rfl, slotText_refl _ _⟩ ?_)
  refine .cons ⟨rfl, rfl, slotText_refl _ _⟩ ?_
  exact .cons ⟨rfl, rfl, h 2 (by omega)⟩ (.cons ⟨rfl, rfl, h 3 (by omega)⟩ .nil)

theorem agree_tryStd {α : Type} {x y : Call α} {handler : String → Call α}
    (hx : Agree (World.Like hidden) Eq x y) (hf : ∀ what, Blind hidden (handler what)) :
    Agree (World.Like hidden) Eq (tryStd x handler) (tryStd y handler) := by
  refine Agree.tryCatch hx ?_
  intro e
  cases e.what with
  | none => exact blind_throw e
  | some what => exact hf what

theorem agree_consume (h : SameParams hidden a Methods.eConsume.slot 5 paParams paParams') :
    Agree (World.Like hidden) Eq (consume a paParams) (consume a paParams') := by
  refine agree_tryStd ?_ fun _ => blind_pure _
  refine Agree.bind (blind_setMessage _) fun _ _ _ => Agree.bind (blind_setKey _) fun _ _ _ => ?_
  refine Agree.bind (agree_decodeParams h) fun p q hpq => ?_
  refine Agree.bind (agree_openClient .consumer _ (sameSettings_consume hpq)) ?_
  rintro ⟨conf, rk⟩ _ rfl
  exact Agree.bind (agree_subscribeTopic rk (hpq 1 (by omega))) fun _ _ _ => blind_pollRecord rk

theorem agree_produce (h : SameParams hidden a Methods.eProduce.slot 6 paParams paParams') :
    Agree (World.Like hidden) Eq (produce a paParams) (produce a paParams') := by
  refine agree_tryStd ?_ fun _ => blind_pure _
  refine Agree.bind (agree_decodeParams h) fun p q hpq => ?_
  refine Agree.bind (agree_openClient .producer _ (sameSettings_produce hpq)) ?_
  rintro ⟨conf, rk⟩ _ rfl
  refine Agree.bind (blind_emit _) fun _ _ _ => Agree.bind (blind_emit _) fun _ _ _ => ?_
  have hsend : Agree (World.Like hidden) Eq
      (rdKafkaProducev a rk (p 1) (p 4) (p 4).length (p 5) (p 5).length)
      (rdKafkaProducev a rk (q 1) (q 4) (q 4).length (q 5) (q 5).length) := by
    refine Agree.bind (agree_emit ?_) fun _ _ _ => agree_pure rfl
    have htopic : SlotText hidden .topic (p 1) (q 1) := hpq 1 (by omega)
    have hkey : shown hidden .key (q 4) = shown hidden .key (p 4) :=
      SlotText.shown (hpq 4 (by omega)) id
    have hvalue : shown hidden .value (q 5) = shown hidden .value (p 5) :=
      SlotText.shown (hpq 5 (by omega)) id
    simp only [Event.hide, List.take_length, htopic.shown (cString 0), hkey, hvalue]
  refine Agree.bind hsend ?_
  rintro err _ rfl
  by_cases hbad : err ≠ respErrNoError
  · simp only [if_pos hbad]
    by_cases hfull : err = respErrQueueFull
    · simp only [if_pos hfull]
      exact (blind_rdKafkaPoll rk 1000).bind fun _ => blind_throw _
    · simp only [if_neg hfull]
      exact blind_throw _
  · simp only [if_neg hbad]
    refine (blind_rdKafkaPoll rk 0).bind fun _ => (blind_rdKafkaFlush rk 1000).bind fun _ => ?_
    exact (blind_emit _).bind fun _ => blind_pure _

theorem agree_callAsFunc {lMethodNum : Int} (pvar : TVariant) (lSizeArray : Int)
    (h : ∀ m, Methods.ofLong lMethodNum = some m →
      SameParams hidden a m.slot (getNParams lMethodNum) paParams paParams') :
    Agree (World.Like hidden) Eq (callAsFunc this a lMethodNum pvar paParams lSizeArray)
      (callAsFunc this a lMethodNum pvar paParams' lSizeArray) := by
  unfold callAsFunc getNParams at *
  cases hm : Methods.ofLong lMethodNum with
  | none => exact blind_pure _
  | some m =>
    have hsame := h m hm
    rw [hm] at hsame
    cases m with
    | eGetInfo => exact (uniform_stringToTVariant _ _).blind.bind fun _ => blind_pure _
    | eProduce =>
      refine Agree.bind (agree_produce hsame) ?_
      rintro text _ rfl
      exact (uniform_stringToTVariant _ _).blind.bind fun _ => blind_pure _
    | eConsume =>
      refine Agree.bind (agree_consume hsame) ?_
      rintro result _ rfl
      exact blind_pure _

/-- The same call, but for texts of its parameters that go to slots that are hidden. -/
inductive Op.Like (hidden : Slot → Bool) (a : Answers) : Op → Op → Prop
  | same (op : Op) : Op.Like hidden a op op
  | call {lMethodNum lSizeArray : Int} {pvar : TVariant} {paParams paParams' : Nat → TVariant} :
      (∀ m, Methods.ofLong lMethodNum = some m →
        SameParams hidden a m.slot (getNParams lMethodNum) paParams paParams') →
      Op.Like hidden a (.request (.callAsFunc lMethodNum pvar paParams lSizeArray))
        (.request (.callAsFunc lMethodNum pvar paParams' lSizeArray))

structure HostCall.Like (hidden : Slot → Bool) (c c' : HostCall) : Prop where
  obj : c'.obj = c.obj
  answers : c'.answers = c.answers
  op : c.op.Like hidden c.answers c'.op

/-- The host cannot tell the two outcomes apart, and librdkafka by the hidden texts only. -/
structure Outcome.Like (hidden : Slot → Bool) (o o' : Outcome) : Prop where
  result : o'.result = o.result
  trace : o'.trace.map (Event.hide hidden) = o.trace.map (Event.hide hidden)

theorem like_finish {request request' : Request} {r : Except Exit Ret}
    (hagree : Agree (World.Like hidden) Eq (runRequest platform this a request)
      (runRequest platform this a request'))
    (h : Ends (runRequest platform this a request) w r w') :
    ∃ u, Ends (runRequest platform this a request') w r u ∧ w'.Like hidden u := by
  have hrun := ends_run (runRequest platform this a request') w
  obtain ⟨hend, hlike⟩ := hagree _ _ _ _ _ _ w.like_refl h hrun
  rw [hend.eq] at hrun
  exact ⟨_, hrun, hlike⟩

theorem like_step (hlike : c.Like hidden c') (h : stepProcess platform c s = some (o, t)) :
    ∃ o', stepProcess platform c' s = some (o', t) ∧ o.Like hidden o' := by
  obtain ⟨obj, op, answers⟩ := c
  obtain ⟨obj', op', answers'⟩ := c'
  obtain ⟨rfl, rfl, hop⟩ := hlike
  cases hop with
  | same _ => exact ⟨o, h, ⟨rfl, rfl⟩⟩
  | @call num size pvar ps ps' hsame =>
    obtain ⟨hlive, ⟨l, _, _, hl, _⟩ | ⟨request, this, r, w, hreq, hthis, hrun, rfl, rfl⟩⟩ :=
      stepProcess_cases h
    · cases hl
    · cases hreq
      have hagree : Agree (World.Like hidden) Eq
          (runRequest platform this answers' (.callAsFunc num pvar ps size))
          (runRequest platform this answers' (.callAsFunc num pvar ps' size)) := by
        refine Agree.bind (agree_callAsFunc pvar size hsame) ?_
        rintro p _ rfl
        exact blind_pure _
      obtain ⟨u, hu, hworld⟩ := like_finish hagree hrun
      have hfinish : s.finish r u = s.finish r w := by
        unfold Process.finish
        rw [hworld.gMessage, hworld.gKey, hworld.next]
      have hrun' : (runRequest platform this answers' (.callAsFunc num pvar ps' size)).run s.world =
          (r, u) := hu
      refine ⟨⟨r, u.trace⟩, ?_, ⟨rfl, hworld.trace⟩⟩
      simp only [stepProcess, hlive, Bool.false_eq_true, if_false, hthis, Option.map_some, hrun',
        hfinish]

/-- What the host passes for a slot is seen in this slot and nowhere else: with other texts,
that can be decoded as well, in any calls of a run, the same run goes through the same states,
gives the host the same results and makes the same calls outside, up to the texts in the slot. -/
theorem texts_confined (hidden : Slot → Bool) (h : ProcessRun platform history s)
    {calls : List HostCall}
    (hlike : List.Forall₂ (HostCall.Like hidden) (history.map Entry.call) calls) :
    ∃ history', ProcessRun platform history' s ∧ history'.map Entry.call = calls ∧
      List.Forall₂ (fun e e' => e.outcome.Like hidden e'.outcome) history history' := by
  refine Run.replay ?_ h hlike
  intro c c' s o t hc hs
  exact like_step hc hs

/-- The password of a call of `produce`, among other texts. -/
def withPassword (password : List ShortWchar) (i : Nat) : TVariant :=
  { vt := vtypePwstr
    pwstrVal := if i = 3 then password else [0x75]
    strLen := if i = 3 then UInt32.ofNat password.length else 1 }

def passwordCalls (password : List ShortWchar) : List HostCall :=
  newObject 0 ++ [⟨0, .request (.callAsFunc 1 {} (withPassword password) 6), {}⟩]

def hidePassword (x : Slot) : Bool := x = .setting "sasl.password"

theorem sameParams_password {u v : List ShortWchar} {text text' : Bytes}
    (hu : paramText a (withPassword u) 3 = .ok text)
    (hv : paramText a (withPassword v) 3 = .ok text') (hmem : ∀ i, a.memory i = true) :
    SameParams hidePassword a Methods.eProduce.slot 6 (withPassword u) (withPassword v) := by
  intro i _
  by_cases hi : i = 3
  · subst i
    rw [hu, hv]
    exact SameEnd.ok fun hshown => absurd hshown (by decide)
  · have hother : ∀ password, paramText a (withPassword password) i = .ok (ascii "u") := by
      intro password
      have hbytes : uint16ToString true [0x75] 1 = .ok (ascii "u") := by decide
      simp [paramText, withPassword, hi, hmem, hbytes]
    rw [hother, hother]
    exact SameEnd.ok (slotText_refl _ _)

theorem texts_confined_password :
    ∃ history', ProcessRun .other history' (execCalls (passwordCalls [0x61])).2 ∧
      history'.map Entry.call = passwordCalls [0x62] ∧
      List.Forall₂ (fun e e' => e.outcome.Like hidePassword e'.outcome)
        (execCalls (passwordCalls [0x61])).1 history' := by
  have hcalls : (execCalls (passwordCalls [0x61])).1.map Entry.call = passwordCalls [0x61] :=
    map_call_execFrom (by decide +kernel)
  have hsame : SameParams hidePassword {} Methods.eProduce.slot 6 (withPassword [0x61])
      (withPassword [0x62]) := sameParams_password rfl rfl fun _ => rfl
  have hlast : (Op.request (.callAsFunc 1 {} (withPassword [0x61]) 6)).Like hidePassword {}
      (.request (.callAsFunc 1 {} (withPassword [0x62]) 6)) := by
    refine Op.Like.call ?_
    intro m hm
    cases hm
    exact hsame
  have hlike : List.Forall₂ (HostCall.Like hidePassword)
      ((execCalls (passwordCalls [0x61])).1.map Entry.call) (passwordCalls [0x62]) := by
    rw [hcalls]
    refine .cons ⟨rfl, rfl, Op.Like.same _⟩ (.cons ⟨rfl, rfl, Op.Like.same _⟩ ?_)
    exact .cons ⟨rfl, rfl, hlast⟩ .nil
  exact texts_confined hidePassword (run_execFrom Run.nil _) hlike

end KafkaAddIn
