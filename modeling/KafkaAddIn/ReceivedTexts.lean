import KafkaAddIn.LogsAndOffsets

namespace KafkaAddIn

open Foundation

variable {platform : Platform} {kafka : Kafka} {group topic : Bytes} {history : History}
  {s : Process} {c : HostCall}

def Record.bytes (r : Record) : Bytes × Bytes := (r.payloadBytes, r.keyBytes)

def Outcome.saysTrue (o : Outcome) : Bool :=
  match o.result with
  | .ok (.variant true val) => val.vt = vtypeBool && val.bVal
  | _ => false

theorem saysTrue_iff (o : Outcome) : o.saysTrue = true ↔ o.answers true := by
  unfold Outcome.saysTrue Outcome.answers
  split
  next val hres =>
    rw [Bool.and_eq_true, decide_eq_true_iff]
    constructor
    · intro h
      exact ⟨val, hres, h⟩
    · rintro ⟨val', hval, h⟩
      rw [hres] at hval
      cases hval
      exact h
  next hnot =>
    refine iff_of_false nofun ?_
    rintro ⟨val, hval, _⟩
    exact hnot val hval

/-- The group and the topic that a call of `consume` is about. -/
def HostCall.asks (c : HostCall) : Option (Bytes × Bytes) :=
  (c.op.calls .eConsume).map fun paParams =>
    (cString 0 (texts c.answers paParams 2), cString 0 (texts c.answers paParams 1))

/-- Message and Key after a call for the group on the topic that answers true. -/
def receivedAt (group topic : Bytes) (e : Entry Process HostCall Outcome) : List (Bytes × Bytes) :=
  if e.call.asks = some (group, topic) ∧ e.outcome.saysTrue = true then
    [(e.after.gMessage, e.after.gKey)]
  else []

def receivedBy (group topic : Bytes) (history : History) : List (Bytes × Bytes) :=
  history.flatMap (receivedAt group topic)

/-- A call that gets a record of the topic copies it and commits it for its group. -/
def TakesWhole (group topic : Bytes) (c : HostCall) : Prop :=
  ∀ record, c.gets = some (group, topic, record) →
    CopiesRecord c ∧ (c.answers.closeCommits || c.answers.destroyCommits) = true

theorem not_answers_of_no_record {paParams : Nat → TVariant} {t : Process} {o : Outcome}
    (h : stepProcess platform c s = some (o, t)) (hc : c.op.calls .eConsume = some paParams)
    (hgets : c.gets = none) : ¬ o.answers true := by
  intro hans
  obtain ⟨r, hleaves, hiff, _⟩ := consume_step_leaves h hc
  have hr := (hiff true).mp hans
  subst r
  generalize t.gMessage = m at hleaves
  generalize t.gKey = k at hleaves
  cases hleaves with
  | both hget _ _ =>
    have hsome := (gets_eq_some hc).mpr ⟨hget, rfl, rfl⟩
    rw [hgets] at hsome
    cases hsome

/-- What a call brings the host is what it commits. -/
theorem receivedAt_eq {t : Process} {o : Outcome} (h : stepProcess platform c s = some (o, t))
    (hwhole : TakesWhole group topic c) :
    receivedAt group topic ⟨s, c, o, t⟩ =
      (onGroup group topic c.commits).map Record.bytes := by
  simp only [receivedAt]
  cases hc : c.op.calls .eConsume with
  | none => simp [HostCall.asks, hc, HostCall.commits, gets_none hc, onGroup]
  | some ps =>
    cases hgets : c.gets with
    | none =>
      have hnot : o.saysTrue = false := by
        rw [Bool.eq_false_iff, ne_eq, saysTrue_iff]
        exact not_answers_of_no_record h hc hgets
      simp [hnot, HostCall.commits, hgets, onGroup]
    | some got =>
      obtain ⟨group', topic', record⟩ := got
      obtain ⟨hget, hgroup, htopic⟩ := (gets_eq_some hc).mp hgets
      by_cases hname : group' = group ∧ topic' = topic
      · obtain ⟨rfl, rfl⟩ := hname
        obtain ⟨⟨ps', record', hps, hget', hbuilt, hbuilt', hpayload, hkey⟩, hdone⟩ :=
          hwhole record hgets
        rw [hc] at hps
        cases hps
        cases hget.unique hget'
        obtain ⟨r, hleaves, hiff, _⟩ := consume_step_leaves h hc
        obtain ⟨hr, hm, hk⟩ := hleaves.unique (ConsumeLeaves.both hget hbuilt hbuilt')
        have hyes : o.saysTrue = true := (saysTrue_iff o).mpr ((hiff true).mpr hr)
        simp [HostCall.asks, hc, ← hgroup, ← htopic, hyes, HostCall.commits, hdone, hgets, onGroup,
          hm, hk, hpayload, hkey, Record.bytes]
      · have hother : c.asks ≠ some (group, topic) := by
          intro hasks
          rw [HostCall.asks, hc, Option.map_some, ← hgroup, ← htopic] at hasks
          cases hasks
          exact hname ⟨rfl, rfl⟩
        have hnone : onGroup group topic c.commits = [] := by
          unfold HostCall.commits
          split
          · simp [hgets, onGroup, hname]
          · rfl
        simp [hother, hnone]

theorem received_run (h : ProcessRun platform history s)
    (hwhole : ∀ e ∈ history, TakesWhole group topic e.call) :
    receivedBy group topic history = (committedBy group topic history).map Record.bytes := by
  rw [committedBy, List.map_flatMap]
  refine List.flatMap_congr ?_
  intro e he
  obtain ⟨before, rest, hh⟩ := List.append_of_mem he
  exact receivedAt_eq (h.split hh).2 (hwhole e he)

/-- The texts of the value and of the key of a call of `produce` on the topic. -/
def HostCall.textsTo (topic : Bytes) (c : HostCall) :
    List (List ShortWchar × List ShortWchar) :=
  match c.op.calls .eProduce with
  | some paParams =>
    if cString 0 (texts c.answers paParams 1) = topic then [(units paParams 5, units paParams 4)]
    else []
  | none => []

def textsTo (topic : Bytes) (history : History) : List (List ShortWchar × List ShortWchar) :=
  history.flatMap fun e => e.call.textsTo topic

/-- The two byte strings are the UTF-8 forms of the two texts. -/
def Utf8Pair (text : List ShortWchar × List ShortWchar) (bytes : Bytes × Bytes) : Prop :=
  Utf8Of text.1 bytes.1 ∧ Utf8Of text.2 bytes.2

theorem textsTo_delivers (h : c.textsTo topic ≠ [] → c.delivers ≠ none) :
    List.Forall₂ (fun text record => Utf8Pair text (Record.bytes record)) (c.textsTo topic)
      (onTopic topic c.delivers) := by
  unfold HostCall.textsTo at h ⊢
  cases hc : c.op.calls .eProduce with
  | none =>
    have hnone : c.delivers = none := by simp [HostCall.delivers, sends_none hc]
    rw [hnone]
    exact List.Forall₂.nil
  | some ps =>
    simp only [hc] at h ⊢
    cases hd : c.delivers with
    | none =>
      have hother : ¬ cString 0 (texts c.answers ps 1) = topic := by
        intro htopic
        simp [htopic, hd] at h
      rw [if_neg hother]
      exact List.Forall₂.nil
    | some sent =>
      have hsends := (HostCall.sends_of_delivers hd).1
      simp only [HostCall.sends, hc, Option.ite_none_right_eq_some] at hsends
      obtain ⟨⟨hopen, _⟩, hsent⟩ := hsends
      have hvalue := paramText_utf8Of (hopen.decoded 5 (by omega))
      have hkey := paramText_utf8Of (hopen.decoded 4 (by omega))
      cases hsent
      by_cases ht : (recordOf (texts c.answers ps)).1 = topic
      · have hone : Utf8Pair (units ps 5, units ps 4)
            (recordOf (texts c.answers ps)).2.bytes := ⟨hvalue, hkey⟩
        have htopic : cString 0 (texts c.answers ps 1) = topic := ht
        simpa [onTopic, ht, htopic] using hone
      · have htopic : ¬ cString 0 (texts c.answers ps 1) = topic := ht
        simp [onTopic, ht, htopic]

theorem textsTo_history
    (h : ∀ e ∈ history, e.call.textsTo topic ≠ [] → e.call.delivers ≠ none) :
    List.Forall₂ (fun text record => Utf8Pair text (Record.bytes record)) (textsTo topic history)
      (deliveredTo topic history) := by
  unfold textsTo deliveredTo
  induction history with
  | nil => exact List.Forall₂.nil
  | cons e history ih =>
    simp only [List.flatMap_cons]
    have hlast := textsTo_delivers (h e List.mem_cons_self)
    exact List.rel_append hlast (ih fun x hx => h x (List.mem_cons_of_mem e hx))

/-- A call that hands a record to librdkafka for the topic is one of `produce` on it. -/
theorem textsTo_of_sends {record : Record} (h : c.sends = some (topic, record)) :
    c.textsTo topic ≠ [] := by
  unfold HostCall.sends at h
  unfold HostCall.textsTo
  cases hc : c.op.calls .eProduce with
  | none => simp [hc] at h
  | some ps =>
    simp only [hc, Option.ite_none_right_eq_some] at h
    have htopic := congrArg Prod.fst (Option.some.inj h.2)
    simp only [recordOf] at htopic
    simp [htopic]

/-- What the host receives for a group is a front of the topic's log from the group's offset on.
When nobody else writes to the topic, and each call of `produce` on it is told its record is
delivered, this is what the log held before, and behind it the texts of those calls in UTF-8,
one for one and in their order. -/
theorem texts_received (h : ProcessRun platform history s)
    (hstores : Throughout (kafka.Stores topic) history.trace)
    (hserves : Throughout (kafka.Serves group topic) history.trace)
    (hwhole : ∀ e ∈ history, TakesWhole group topic e.call) :
    receivedBy group topic history <+:
        ((kafka.log history.trace topic).drop (kafka.offset [] group topic)).map Record.bytes ∧
      (kafka.Sole topic history.trace →
        (∀ e ∈ history, e.call.textsTo topic ≠ [] → e.call.delivers ≠ none) →
        kafka.offset [] group topic ≤ (kafka.log [] topic).length →
        ∃ sent, List.Forall₂ Utf8Pair (textsTo topic history) sent ∧
          receivedBy group topic history <+:
            ((kafka.log [] topic).drop (kafka.offset [] group topic)).map Record.bytes ++ sent) := by
  have hfront := (group_front h hstores hserves).2.map Record.bytes
  rw [← received_run h hwhole] at hfront
  refine ⟨hfront, ?_⟩
  intro hsole htold hbehind
  have hall : AllDelivered topic history := by
    intro e he record hsends
    have hdelivers := htold e he (textsTo_of_sends hsends)
    unfold HostCall.delivers at hdelivers
    by_contra hnot
    exact hdelivers (if_neg hnot)
  refine ⟨(deliveredTo topic history).map Record.bytes, ?_, ?_⟩
  · rw [List.forall₂_map_right_iff]
    exact textsTo_history htold
  · rw [log_sole h hstores hsole hall, List.drop_append_of_le_length hbehind,
      List.map_append] at hfront
    exact hfront

theorem takesWhole_throughKafka : ∀ e ∈ throughKafka.1, TakesWhole [117] [116] e.call := by
  have hcalls : throughKafka.1.map Entry.call = newObject 0 ++
      [produceCall 0 { delivery := some ⟨.inFlush, 0⟩ }, consumeCall 0 vAnswers] :=
    map_call_execFrom (by decide +kernel)
  intro e he
  have hcall := List.mem_map_of_mem (f := Entry.call) he
  rw [hcalls] at hcall
  generalize e.call = c at hcall
  simp only [newObject, List.cons_append, List.nil_append, List.mem_cons, List.not_mem_nil,
    or_false] at hcall
  intro record hgets
  rcases hcall with rfl | rfl | rfl | rfl
  · cases hgets
  · cases hgets
  · cases hgets
  · have hsub : Subscribed vAnswers (recordParams [116] [112] [])
        (texts vAnswers (recordParams [116] [112] [])) := by decide +kernel
    exact ⟨⟨_, _, rfl, ⟨⟨_, hsub⟩, rfl⟩, rfl, rfl, rfl, rfl⟩, rfl⟩

theorem texts_received_throughKafka :
    receivedBy [117] [116] throughKafka.1 <+:
        ((promptKafka.log throughKafka.1.trace [116]).drop
          (promptKafka.offset [] [117] [116])).map Record.bytes ∧
      ∃ sent, List.Forall₂ Utf8Pair (textsTo [116] throughKafka.1) sent ∧
        receivedBy [117] [116] throughKafka.1 <+:
          ((promptKafka.log [] [116]).drop (promptKafka.offset [] [117] [116])).map Record.bytes ++
            sent := by
  obtain ⟨hfront, hsent⟩ := texts_received run_throughKafka stores_throughKafka serves_throughKafka
    takesWhole_throughKafka
  exact ⟨hfront, hsent sole_throughKafka (by decide +kernel) (by decide)⟩

end KafkaAddIn
