import KafkaAddIn.Delivery
import KafkaAddIn.Kafka
import KafkaAddIn.Foundation.Feed
import Mathlib.Data.List.Flatten
import Mathlib.Data.List.Infix

namespace KafkaAddIn

open Foundation

variable {platform : Platform} {a : Answers} {paParams : Nat → TVariant} {c : HostCall}
  {p : Nat → Bytes} {n rk : Handle} {e : Event} {trace es : List Event} {group topic : Bytes}
  {record : Record} {kafka : Kafka} {s t : Process} {o : Outcome} {history : History}

/-- The texts of the parameters, as far as they can be decoded. -/
def texts (a : Answers) (paParams : Nat → TVariant) (i : Nat) : Bytes :=
  (paramText a paParams i).toOption.getD []

theorem Decoded.eq_texts (h : Decoded a paParams n p) {i : Nat} (hi : i < n) :
    p i = texts a paParams i := by
  simp [texts, h i hi, Except.toOption]

theorem Decoded.texts (h : Decoded a paParams n p) : Decoded a paParams n (texts a paParams) := by
  intro i hi
  rw [← h.eq_texts hi]
  exact h i hi

theorem Opened.texts (h : Opened a paParams p) : Opened a paParams (texts a paParams) :=
  ⟨h.decoded.texts, h.accepted.produce, h.created⟩

theorem Subscribed.texts (h : Subscribed a paParams p) : Subscribed a paParams (texts a paParams) :=
  ⟨h.decoded.texts, h.accepted.consume, h.created, h.subscribed⟩

instance (n : Nat) : Decidable (Decoded a paParams n p) :=
  inferInstanceAs (Decidable (∀ i < n, paramText a paParams i = .ok (p i)))

instance (settings : List Setting) : Decidable (Accepted a settings) :=
  inferInstanceAs (Decidable (∀ s ∈ settings, a.confSet s.name = .ok))

instance : Decidable (Opened a paParams p) :=
  decidable_of_iff (Decoded a paParams 6 p ∧ Accepted a (produceSettingsOf p) ∧ a.new = true)
    ⟨fun h => ⟨h.1, h.2.1, h.2.2⟩, fun h => ⟨h.decoded, h.accepted, h.created⟩⟩

instance : Decidable (Subscribed a paParams p) :=
  decidable_of_iff (Decoded a paParams 5 p ∧ Accepted a (consumeSettingsOf p) ∧ a.new = true ∧
      a.subscribe = respErrNoError)
    ⟨fun h => ⟨h.1, h.2.1, h.2.2.1, h.2.2.2⟩,
      fun h => ⟨h.decoded, h.accepted, h.created, h.subscribed⟩⟩

instance : Decidable (Delivered a) :=
  decidable_of_iff (a.delivery.map Delivery.err = some respErrNoError) (by simp [Delivered])

/-- The record that the decoded texts make, with its topic. -/
def recordOf (p : Nat → Bytes) : Bytes × Record := (cString 0 (p 1), ⟨some (p 5), some (p 4)⟩)

/-- The record that a call of `produce` hands to librdkafka, with its topic. -/
def HostCall.sends (c : HostCall) : Option (Bytes × Record) :=
  match c.op.calls .eProduce with
  | some paParams =>
    if Opened c.answers paParams (texts c.answers paParams) ∧
        c.answers.producev = respErrNoError then
      some (recordOf (texts c.answers paParams))
    else none
  | none => none

/-- The record it sends, when a report without an error comes in for it. -/
def HostCall.delivers (c : HostCall) : Option (Bytes × Record) :=
  if Delivered c.answers then c.sends else none

/-- The record that a call of `consume` gets, with its group and topic. -/
def HostCall.gets (c : HostCall) : Option (Bytes × Bytes × Record) :=
  match c.op.calls .eConsume, c.answers.poll with
  | some paParams, some ⟨err, record⟩ =>
    let p := texts c.answers paParams
    if Subscribed c.answers paParams p ∧ err = respErrNoError then
      some (cString 0 (p 2), cString 0 (p 1), record)
    else none
  | _, _ => none

/-- The record it gets, when it commits it for its group. -/
def HostCall.commits (c : HostCall) : Option (Bytes × Bytes × Record) :=
  if c.answers.closeCommits || c.answers.destroyCommits then c.gets else none

def onTopic (topic : Bytes) (sent : Option (Bytes × Record)) : List Record :=
  (sent.bind fun (topic', record) => if topic' = topic then some record else none).toList

def onGroup (group topic : Bytes) (got : Option (Bytes × Bytes × Record)) : List Record :=
  (got.bind fun (group', topic', record) =>
    if group' = group ∧ topic' = topic then some record else none).toList

theorem recordOf_texts (h : Decoded a paParams 6 p) : recordOf p = recordOf (texts a paParams) := by
  simp only [recordOf, h.eq_texts (show 1 < 6 by omega), h.eq_texts (show 4 < 6 by omega),
    h.eq_texts (show 5 < 6 by omega)]

theorem sends_of_opened (hc : c.op.calls .eProduce = some paParams)
    (hopen : Opened c.answers paParams p) : c.sends =
      if c.answers.producev = respErrNoError then some (recordOf p) else none := by
  simp only [HostCall.sends, hc, hopen.texts, true_and, recordOf_texts hopen.decoded]

theorem sends_of_not_enqueues (hc : c.op.calls .eProduce = some paParams)
    (hnot : ¬ Enqueues c.answers paParams) : c.sends = none := by
  have hnone : ¬ (Opened c.answers paParams (texts c.answers paParams) ∧
      c.answers.producev = respErrNoError) := fun h => hnot ⟨⟨_, h.1⟩, h.2⟩
  simp [HostCall.sends, hc, hnone]

theorem sends_none (hc : c.op.calls .eProduce = none) : c.sends = none := by
  simp [HostCall.sends, hc]

theorem gets_none (hc : c.op.calls .eConsume = none) : c.gets = none := by
  simp [HostCall.gets, hc]

theorem gets_eq_some (hc : c.op.calls .eConsume = some paParams) :
    c.gets = some (group, topic, record) ↔ GetsRecord c.answers paParams record ∧
      group = cString 0 (texts c.answers paParams 2) ∧
      topic = cString 0 (texts c.answers paParams 1) := by
  unfold HostCall.gets
  rw [hc]
  cases hp : c.answers.poll with
  | none => simp [GetsRecord, hp]
  | some polled =>
    obtain ⟨err, record'⟩ := polled
    simp only [Option.ite_none_right_eq_some, Option.some.injEq, Prod.mk.injEq, GetsRecord, hp,
      Polled.mk.injEq]
    constructor
    · rintro ⟨⟨hsub, rfl⟩, rfl, rfl, rfl⟩
      exact ⟨⟨⟨_, hsub⟩, rfl, rfl⟩, rfl, rfl⟩
    · rintro ⟨⟨⟨p, hsub⟩, rfl, rfl⟩, rfl, rfl⟩
      exact ⟨⟨hsub.texts, rfl⟩, rfl, rfl, rfl⟩

theorem gets_of_no_record (hnone : ∀ record, ¬ GetsRecord c.answers paParams record)
    (hc : c.op.calls .eConsume = some paParams) : c.gets = none := by
  cases hgets : c.gets with
  | none => rfl
  | some got =>
    obtain ⟨group, topic, record⟩ := got
    exact absurd ((gets_eq_some hc).mp hgets).1 (hnone record)

theorem HostCall.sends_of_delivers {sent : Bytes × Record} (h : c.delivers = some sent) :
    c.sends = some sent ∧ Delivered c.answers := by
  unfold HostCall.delivers at h
  split at h
  next hdone => exact ⟨h, hdone⟩
  next => cases h

theorem onTopic_cases (topic : Bytes) (sent : Option (Bytes × Record)) :
    onTopic topic sent = [] ∨ ∃ record, sent = some (topic, record) ∧
      onTopic topic sent = [record] := by
  cases sent with
  | none => exact Or.inl rfl
  | some pair =>
    obtain ⟨topic', record⟩ := pair
    by_cases ht : topic' = topic
    · subst ht
      exact Or.inr ⟨record, rfl, by simp [onTopic]⟩
    · exact Or.inl (by simp [onTopic, ht])

/-- Whichever call serves it, at most one report comes in. -/
theorem reportEvents_once (rk : Handle) :
    reportEvents a rk .atPoll ++ reportEvents a rk .inFlush =
      (a.delivery.map fun delivery => .deliveryReport rk delivery.err).toList := by
  cases hd : a.delivery with
  | none => simp [reportEvents, hd]
  | some delivery =>
    obtain ⟨arrival, err⟩ := delivery
    cases arrival <;> simp [reportEvents, hd]

theorem deliverEvents_eq (rk : Handle) : deliverEvents a rk = .poll rk 0 ::
    (a.delivery.map fun delivery => .deliveryReport rk delivery.err).toList ++
      [.flush rk 1000 (flushErr a), .destroy rk a.destroyCommits] := by
  rw [← reportEvents_once]
  simp [deliverEvents]

/-- By the time its report comes in, the client of `produce` has accepted one record. -/
theorem accepted_enqueued (henq : a.producev = respErrNoError) (trace : List Event) (n : Nat) :
    ∃ since, trace <+: since ∧
      since <+: trace ++ (enqueueEvents a p n ++ [.poll (n + 1) 0]) ∧
      (told (trace ++ (enqueueEvents a p n ++ [.poll (n + 1) 0]))).accepted (n + 1) =
        [(since, recordOf p)] := by
  have hsplit : trace ++ (enqueueEvents a p n ++ [.poll (n + 1) 0]) =
      trace ++ (reads 6 ++ openEvents a .producer n (produceSettingsOf p)) ++
        [.confSetDrMsgCb n, .signal,
          .producev (n + 1) (cString 0 (p 1)) (p 4) (p 5) a.producev, .poll (n + 1) 0] := by
    simp [enqueueEvents]
  have hopen := accepted_opened (a := a) (n := n) trace 6 .producer (produceSettingsOf p)
  refine ⟨trace ++ (reads 6 ++ openEvents a .producer n (produceSettingsOf p)) ++
    [.confSetDrMsgCb n, .signal], ?_, ?_, ?_⟩
  · rw [List.append_assoc]
    exact List.prefix_append _ _
  · refine ⟨[.producev (n + 1) (cString 0 (p 1)) (p 4) (p 5) a.producev, .poll (n + 1) 0], ?_⟩
    rw [hsplit]
    simp
  · rw [hsplit, told_append]
    simp [Told.run, Told.after, Told.note, henq, hopen, recordOf]

theorem mem_drop_of_prefix {l l' : List Record} {i j : Nat} (h : l <+: l') (hle : i ≤ j)
    (hmem : record ∈ l.drop j) : record ∈ l'.drop i := by
  have hdrop : record ∈ l'.drop j := (List.IsPrefix.drop h j).subset hmem
  have hsplit : l'.drop j = (l'.drop i).drop (j - i) := by
    rw [List.drop_drop]
    congr 1
    omega
  rw [hsplit] at hdrop
  exact List.mem_of_mem_drop hdrop

/-- The record that is reported on has come into the log since the call began. -/
theorem Kafka.log_delivered
    (h : Throughout (kafka.Stores topic)
      (trace ++ (enqueueEvents a p n ++ deliverEvents a (n + 1))))
    (henq : a.producev = respErrNoError) (hdone : Delivered a) (htopic : cString 0 (p 1) = topic) :
    (recordOf p).2 ∈ (kafka.log (trace ++ (enqueueEvents a p n ++ deliverEvents a (n + 1)))
      topic).drop (kafka.log trace topic).length := by
  obtain ⟨delivery, hdelivery, herr⟩ := hdone
  obtain ⟨since, hbegun, hput, hacc⟩ := accepted_enqueued (p := p) henq trace n
  have hsplit : trace ++ (enqueueEvents a p n ++ deliverEvents a (n + 1)) =
      trace ++ (enqueueEvents a p n ++ [.poll (n + 1) 0]) ++ .deliveryReport (n + 1) 0 ::
        [.flush (n + 1) 1000 (flushErr a), .destroy (n + 1) a.destroyCommits] := by
    rw [deliverEvents_eq, hdelivery]
    simp [herr, respErrNoError]
  rw [hsplit] at h ⊢
  have hstored := (h _ _ _ rfl).reported (n + 1) rfl (since, recordOf p) (by simp [hacc]) hacc htopic
  obtain ⟨mid, hmid⟩ := hbegun
  obtain ⟨rest, hrest⟩ := hput
  have hearly : kafka.log trace topic <+: kafka.log since topic := by
    have hshort : Throughout (kafka.Stores topic) (since ++ rest) := by
      rw [hrest]
      exact h.left
    rw [← hmid] at hshort ⊢
    exact Kafka.log_grows hshort.left
  have hlate : kafka.log (trace ++ (enqueueEvents a p n ++ [.poll (n + 1) 0]) ++
      [.deliveryReport (n + 1) 0]) topic <+: kafka.log (trace ++ (enqueueEvents a p n ++
        [.poll (n + 1) 0]) ++ [.deliveryReport (n + 1) 0] ++
          [.flush (n + 1) 1000 (flushErr a), .destroy (n + 1) a.destroyCommits]) topic :=
    Kafka.log_grows (by simpa using h)
  rw [List.append_assoc _ [_]] at hlate
  exact mem_drop_of_prefix hlate hearly.length_le hstored

/-- What a call does to the log: what it is told has been delivered is among what comes in. -/
theorem stored_step (h : stepProcess platform c s = some (o, t))
    (hstores : Throughout (kafka.Stores topic) (trace ++ o.trace)) :
    ∃ new, kafka.log (trace ++ o.trace) topic = kafka.log trace topic ++ new ∧
      List.Sublist (onTopic topic c.delivers) new := by
  obtain ⟨new, hnew⟩ := Kafka.log_grows hstores
  refine ⟨new, hnew.symm, ?_⟩
  rcases onTopic_cases topic c.delivers with hnone | ⟨record, hsome, hone⟩
  · rw [hnone]
    exact List.nil_sublist new
  · rw [hone, List.singleton_sublist]
    obtain ⟨hsends, hdone⟩ := HostCall.sends_of_delivers hsome
    cases hc : c.op.calls .eProduce with
    | none =>
      rw [sends_none hc] at hsends
      cases hsends
    | some ps =>
      obtain ⟨r, w, es, hexit, htrace, _⟩ := produce_step h hc
      rcases hexit.cases with ⟨p, hopen, henq, _, rfl⟩ | ⟨p, hopen, hbad, _⟩ | ⟨hnot, _⟩
      · rw [sends_of_opened hc hopen, if_pos henq] at hsends
        have hrecord := Option.some.inj hsends
        have htopic : cString 0 (p 1) = topic := congrArg Prod.fst hrecord
        have hvalue : (recordOf p).2 = record := congrArg Prod.snd hrecord
        have hevents : o.trace = enqueueEvents c.answers p s.next ++
            deliverEvents c.answers (s.next + 1) ++ es := htrace
        rw [hevents, ← List.append_assoc] at hstores hnew
        have hin := Kafka.log_delivered hstores.left henq hdone htopic
        have hmem := mem_drop_of_prefix (Kafka.log_grows hstores) (Nat.le_refl _) hin
        rw [← hnew, List.drop_left, hvalue] at hmem
        exact hmem
      · rw [sends_of_opened hc hopen, if_neg hbad] at hsends
        cases hsends
      · rw [sends_of_not_enqueues hc fun henq => henq.1.elim hnot] at hsends
        cases hsends

theorem acceptedFor_append (topic : Bytes) (es fs : List Event) :
    acceptedFor topic (es ++ fs) = acceptedFor topic es ++ acceptedFor topic fs := by
  simp [acceptedFor]

theorem acceptedFor_nil (h : ∀ e ∈ es, e.enqueued = none) : acceptedFor topic es = [] := by
  rw [acceptedFor, List.filterMap_eq_nil_iff.mpr h]
  rfl

theorem ConsumeExit.enqueued_none {w w' : World} {r : Except Exit Bool}
    (h : ConsumeExit a paParams w r w') (htr : w.trace = []) : ∀ e ∈ w'.trace, e.enqueued = none := by
  have hsubscribed : ∀ p, ∀ e ∈ subscribedEvents a p w.next, e.enqueued = none := fun p e he =>
    (plain_subscribedEvents e he).enqueued
  rcases h.cases with ⟨_, _, es, hw, hes⟩ | ⟨_, _, p, hw⟩ | ⟨_, _, p, es, _, hw, hes⟩ |
    ⟨record, _, _, p, es, _, hw, hes⟩
  · rw [hw, htr, List.nil_append]
    exact fun e he => (plain_early (hes e he)).enqueued
  · rw [hw, htr, List.nil_append]
    intro e he
    rcases List.mem_append.mp he with he | he
    · exact hsubscribed p e he
    · simp only [List.mem_cons, List.not_mem_nil, or_false] at he
      rcases he with rfl | rfl <;> rfl
  · rw [hw, htr, List.nil_append]
    intro e he
    rcases List.mem_append.mp he with he | he
    · exact hsubscribed p e he
    · rcases hes with rfl | ⟨rkm, _, rfl⟩
      · rw [List.mem_singleton.mp he]
        rfl
      · simp only [List.mem_cons, List.not_mem_nil, or_false] at he
        rcases he with rfl | rfl | rfl <;> rfl
  · rw [hw, htr, List.nil_append]
    intro e he
    rcases List.mem_append.mp he with he | he
    · rcases List.mem_append.mp he with he | he
      · exact hsubscribed p e he
      · simp only [closeEvents, List.mem_cons, List.not_mem_nil, or_false] at he
        rcases he with rfl | rfl | rfl | rfl | rfl <;> rfl
    · rw [hes e he]
      rfl

/-- What librdkafka accepts during a call is what the call sends. -/
theorem accepted_step (h : stepProcess platform c s = some (o, t)) (topic : Bytes) :
    acceptedFor topic o.trace = onTopic topic c.sends := by
  cases hp : c.op.calls .eProduce with
  | none =>
    rw [sends_none hp]
    refine acceptedFor_nil ?_
    cases hc : c.op.calls .eConsume with
    | none => exact fun e he => (plain_ofHost ((quiet_step h hc hp).2 e he)).enqueued
    | some ps =>
      obtain ⟨r, w, hexit, htrace, _⟩ := consume_step h hc
      rw [htrace]
      exact hexit.enqueued_none rfl
  | some ps =>
    obtain ⟨r, w, es, hexit, htrace, hes, _⟩ := produce_step h hp
    rw [htrace, acceptedFor_append, acceptedFor_nil fun e he => (plain_ofHost (hes e he)).enqueued,
      List.append_nil]
    by_cases henq : Enqueues c.answers ps
    · rcases hexit.cases with ⟨p, hopen, hok, _, hw⟩ | ⟨p, _, hbad, _⟩ | ⟨hnot, _⟩
      · have htaken : w.trace.filterMap Event.enqueued =
            [(s.next + 1, cString 0 (p 1), p 4, p 5)] := by
          rw [hw]
          exact (sendsThrough_persisted (n := s.next) hopen hok).record
        rw [acceptedFor, htaken, sends_of_opened hp hopen, if_pos hok]
        by_cases ht : cString 0 (p 1) = topic <;> simp [onTopic, recordOf, ht]
      · exact absurd henq.2 hbad
      · exact absurd henq.1 (not_exists.mpr hnot)
    · rw [sends_of_not_enqueues hp henq]
      exact acceptedFor_nil (hexit.enqueued_none rfl henq)

/-- A member that closes commits how far it has read, if the commit succeeds. -/
theorem Kafka.Serves.commit {done : Bool} (h : kafka.Serves group topic trace e)
    (he : e.commits = if done then some rk else none) :
    kafka.offset (trace ++ [e]) group topic =
      if done = true ∧ (told trace).Member rk group topic then kafka.position group topic trace rk
      else kafka.offset trace group topic := by
  by_cases hmember : done = true ∧ (told trace).Member rk group topic
  · rw [if_pos hmember]
    refine h.commits rk ?_ hmember.2
    rw [he, if_pos hmember.1]
    rfl
  · rw [if_neg hmember]
    refine h.stays ?_
    intro rk' hrk' hmem
    rw [he] at hrk'
    split at hrk'
    next hdone =>
      cases hrk'
      exact hmember ⟨hdone, hmem⟩
    next => cases hrk'

theorem polled_record (rk rkm : Handle) (record : Record) :
    (Event.consumerPoll rk (some ⟨rkm, respErrNoError, record⟩)).polled = some (rk, record) := by
  simp [Event.polled]

theorem told_consumerClose (trace : List Event) (rk : Handle) (done : Bool) :
    told (trace ++ [.consumerClose rk done]) =
      { told trace with calls := trace ++ [.consumerClose rk done] } := by
  rw [told_snoc]
  simp [Told.after, Told.note]

/-- The calls on a record up to its return. -/
def takeEvents (rk rkm : Handle) (record : Record) : List Event :=
  [.consumerPoll rk (some ⟨rkm, respErrNoError, record⟩), .messageRead rkm, .messageDestroy rkm]

theorem polls_taken (rkm : Handle) (record : Record) (h : (told trace).polls rk = []) :
    (told (trace ++ takeEvents rk rkm record)).polls rk = [trace] := by
  simp [takeEvents, told_append, Told.run, Told.after, Told.note, h]

theorem member_taken (trace : List Event) (rk rkm : Handle) (record : Record) :
    (told (trace ++ takeEvents rk rkm record)).Member rk group topic ↔
      (told trace).Member rk group topic := by
  simp [takeEvents, told_append, Told.run, Told.after, Told.note, Told.Member]

/-- A client that polls once and closes moves its group on by one, if either commit succeeds. -/
theorem Kafka.offset_closed {rkm : Handle}
    (h : Throughout (kafka.Serves group topic) (trace ++ closeEvents a rk rkm record))
    (hpolls : (told trace).polls rk = []) :
    kafka.offset (trace ++ closeEvents a rk rkm record) group topic =
      if (a.closeCommits || a.destroyCommits) = true ∧ (told trace).Member rk group topic then
        kafka.offset trace group topic + 1
      else kafka.offset trace group topic := by
  have hsplit : trace ++ closeEvents a rk rkm record = trace ++ takeEvents rk rkm record ++
      [.consumerClose rk a.closeCommits] ++ [.destroy rk a.destroyCommits] := by
    simp [closeEvents, takeEvents]
  have hgot := polls_taken rkm record hpolls
  have hmember : (told (trace ++ takeEvents rk rkm record)).Member rk group topic ↔
      (told trace).Member rk group topic := member_taken trace rk rkm record
  rw [hsplit] at h ⊢
  have hstays : kafka.offset (trace ++ takeEvents rk rkm record) group topic =
      kafka.offset trace group topic := by
    refine Kafka.offset_silent h.left.left ?_
    intro e he
    simp only [takeEvents, List.mem_cons, List.not_mem_nil, or_false] at he
    rcases he with rfl | rfl | rfl <;> rfl
  have hclose := (h.left _ _ [] rfl).commit
    (show (Event.consumerClose rk a.closeCommits).commits = if a.closeCommits then some rk else none
      from rfl)
  have hdestroy := (h _ _ [] rfl).commit
    (show (Event.destroy rk a.destroyCommits).commits = if a.destroyCommits then some rk else none
      from rfl)
  simp only [told_consumerClose, Kafka.position, hgot, Told.Member, List.length_nil,
    Nat.zero_add] at hclose hdestroy hmember ⊢
  simp only [hmember, hstays] at hclose hdestroy
  rw [hdestroy, hclose]
  cases a.closeCommits <;> cases a.destroyCommits <;> simp

/-- The offset after the subscription is the one the call has started with. -/
theorem Kafka.offset_subscribed
    (h : Throughout (kafka.Serves group topic) (trace ++ subscribedEvents a p n)) :
    kafka.offset (trace ++ subscribedEvents a p n) group topic = kafka.offset trace group topic :=
  Kafka.offset_silent h fun e he => (plain_subscribedEvents e he).commits

theorem member_subscribed (hsub : Subscribed a paParams p) (trace : List Event) (n : Nat) :
    (told (trace ++ subscribedEvents a p n)).Member (n + 1) group topic ↔
      cString 0 (p 2) = group ∧ cString 0 (p 1) = topic := by
  obtain ⟨⟨hgroup, htopic⟩, _⟩ := told_subscribed hsub.accepted hsub.subscribed trace n
  rw [Told.Member, hgroup, htopic]

theorem Kafka.offset_consumed {rkm : Handle} (hsub : Subscribed a paParams p)
    (h : Throughout (kafka.Serves group topic)
      (trace ++ subscribedEvents a p n ++ closeEvents a (n + 1) rkm record)) :
    kafka.offset (trace ++ subscribedEvents a p n ++ closeEvents a (n + 1) rkm record) group topic =
      if (a.closeCommits || a.destroyCommits) = true ∧ cString 0 (p 2) = group ∧
          cString 0 (p 1) = topic then
        kafka.offset trace group topic + 1
      else kafka.offset trace group topic := by
  have hclosed := Kafka.offset_closed h (polls_subscribed trace)
  rw [hclosed, Kafka.offset_subscribed h.left]
  simp only [member_subscribed hsub]

/-- The first poll gives the record at the offset that the call has started with. -/
theorem Kafka.record_consumed {rkm : Handle} (hsub : Subscribed a paParams p)
    (h : Throughout (kafka.Serves (cString 0 (p 2)) (cString 0 (p 1)))
      (trace ++ subscribedEvents a p n ++ closeEvents a (n + 1) rkm record)) :
    (kafka.log (trace ++ subscribedEvents a p n ++
        [.consumerPoll (n + 1) (some ⟨rkm, respErrNoError, record⟩)]) (cString 0 (p 1)))[
      kafka.offset trace (cString 0 (p 2)) (cString 0 (p 1))]? = some record := by
  obtain ⟨hmember, hreset⟩ := told_subscribed hsub.accepted hsub.subscribed trace n
  have hfirst := (h _ _ _ rfl).reads _ (polled_record _ _ _) hmember hreset
  rw [Kafka.position_nil (polls_subscribed trace), Kafka.offset_subscribed h.left] at hfirst
  exact hfirst

/-- What a call of `consume` does to the offset of a group, and which record it gets. -/
theorem served_consume (h : stepProcess platform c s = some (o, t))
    (hc : c.op.calls .eConsume = some paParams)
    (hserves : Throughout (kafka.Serves group topic) (trace ++ o.trace)) :
    kafka.offset (trace ++ o.trace) group topic =
        kafka.offset trace group topic + (onGroup group topic c.commits).length ∧
      ∀ record, c.gets = some (group, topic, record) → ∃ early late, o.trace = early ++ late ∧
        (kafka.log (trace ++ early) topic)[kafka.offset trace group topic]? = some record := by
  obtain ⟨r, w, hexit, htrace, _⟩ := consume_step h hc
  rw [htrace] at hserves ⊢
  have hidle : (∀ record, ¬ GetsRecord c.answers paParams record) →
      kafka.offset (trace ++ w.trace) group topic = kafka.offset trace group topic →
      kafka.offset (trace ++ w.trace) group topic =
          kafka.offset trace group topic + (onGroup group topic c.commits).length ∧
        ∀ record, c.gets = some (group, topic, record) → ∃ early late, w.trace = early ++ late ∧
          (kafka.log (trace ++ early) topic)[kafka.offset trace group topic]? = some record := by
    intro hnone hsame
    have hgets := gets_of_no_record hnone hc
    refine ⟨by simp [hsame, HostCall.commits, hgets, onGroup], ?_⟩
    intro record hgot
    rw [hgets] at hgot
    cases hgot
  rcases hexit.cases with ⟨hnot, _, es, hw, hes⟩ | ⟨hnot, _, p, hw⟩ |
    ⟨hnone, _, p, es, _, hw, hes⟩ | ⟨got, hpoll, _, p, es, hsub, hw, hes⟩
  · refine hidle (fun record hget => hget.1.elim hnot) ?_
    change w.trace = es at hw
    rw [hw] at hserves ⊢
    exact Kafka.offset_silent hserves fun e he => (plain_early (hes e he)).commits
  · refine hidle (fun record hget => hget.1.elim hnot) ?_
    change w.trace = subscribedEvents c.answers p s.next ++ _ at hw
    rw [hw, ← List.append_assoc] at hserves ⊢
    have hfailed := Kafka.offset_unpolled hserves (polls_subscribed trace) (by simp [Event.polled])
      (by simp [Event.commits, Process.world])
    exact hfailed.trans (Kafka.offset_subscribed hserves.left)
  · refine hidle (fun record hget => hnone record hget.2) ?_
    change w.trace = subscribedEvents c.answers p s.next ++ es at hw
    rw [hw, ← List.append_assoc] at hserves ⊢
    have hsilent : ∀ e ∈ es, e.commits = none := by
      rcases hes with rfl | ⟨rkm, _, rfl⟩ <;> simp [Event.commits]
    exact (Kafka.offset_silent hserves hsilent).trans (Kafka.offset_subscribed hserves.left)
  · have hlast : ∀ e ∈ es, e.commits = none := fun e he => by rw [hes e he]; rfl
    change w.trace = subscribedEvents c.answers p s.next ++
      closeEvents c.answers (s.next + 1) (s.next + 3) got ++ es at hw
    rw [hw, ← List.append_assoc, ← List.append_assoc] at hserves
    have hgets : c.gets = some (cString 0 (p 2), cString 0 (p 1), got) := by
      refine (gets_eq_some hc).mpr ⟨⟨⟨p, hsub⟩, hpoll⟩, ?_, ?_⟩
      · rw [hsub.decoded.eq_texts (show 2 < 5 by omega)]
      · rw [hsub.decoded.eq_texts (show 1 < 5 by omega)]
    refine ⟨?_, ?_⟩
    · rw [hw, ← List.append_assoc, ← List.append_assoc, Kafka.offset_silent hserves hlast,
        Kafka.offset_consumed hsub hserves.left, HostCall.commits, hgets]
      by_cases hdone : (c.answers.closeCommits || c.answers.destroyCommits) = true
      · by_cases hname : cString 0 (p 2) = group ∧ cString 0 (p 1) = topic <;>
          simp [hdone, hname, onGroup]
      · simp [hdone, onGroup]
    · intro record hgot
      rw [hgets] at hgot
      cases hgot
      have hfirst := Kafka.record_consumed hsub hserves.left
      rw [List.append_assoc] at hfirst
      refine ⟨_, (closeEvents c.answers (s.next + 1) (s.next + 3) got).tail ++ es, ?_, hfirst⟩
      rw [hw]
      simp [closeEvents]

theorem served_produce (h : stepProcess platform c s = some (o, t))
    (hc : c.op.calls .eProduce = some paParams)
    (hserves : Throughout (kafka.Serves group topic) (trace ++ o.trace)) :
    kafka.offset (trace ++ o.trace) group topic = kafka.offset trace group topic := by
  obtain ⟨r, w, es, hexit, htrace, hes, _⟩ := produce_step h hc
  rw [htrace, ← List.append_assoc] at hserves ⊢
  rw [Kafka.offset_silent hserves fun e he => (plain_ofHost (hes e he)).commits]
  have hopened : ∀ p rest, w.trace = enqueueEvents c.answers p s.next ++ rest →
      (∀ e ∈ rest, e.polled = none) → (∀ e ∈ rest, ∀ rk ∈ e.commits, rk = s.next + 1) →
      kafka.offset (trace ++ w.trace) group topic = kafka.offset trace group topic := by
    intro p rest hw hpolled hcommits
    have hsplit : trace ++ w.trace =
        trace ++ (reads 6 ++ openEvents c.answers .producer s.next (produceSettingsOf p)) ++
          ([.confSetDrMsgCb s.next, .signal, .producev (s.next + 1) (cString 0 (p 1)) (p 4) (p 5)
            c.answers.producev] ++ rest) := by
      simp [hw, enqueueEvents]
    have hrun := hserves.left
    rw [hsplit] at hrun ⊢
    have hquiet : ∀ e ∈ reads 6 ++
        openEvents c.answers .producer s.next (produceSettingsOf p), e.commits = none := by
      intro e he
      rcases List.mem_append.mp he with he | he
      · exact (plain_early (early_reads 6 e he)).commits
      · exact (plain_openEvents e he).commits
    rw [← Kafka.offset_silent hrun.left hquiet]
    refine Kafka.offset_unpolled hrun (polls_opened trace 6 .producer _) ?_ ?_
    · intro e he
      rcases List.mem_append.mp he with he | he
      · simp only [List.mem_cons, List.not_mem_nil, or_false] at he
        rcases he with rfl | rfl | rfl <;> rfl
      · exact hpolled e he
    · intro e he
      rcases List.mem_append.mp he with he | he
      · simp only [List.mem_cons, List.not_mem_nil, or_false] at he
        rcases he with rfl | rfl | rfl <;> simp [Event.commits]
      · exact hcommits e he
  rcases hexit.cases with ⟨p, _, _, _, rfl⟩ | ⟨p, _, _, _, rfl⟩ |
    ⟨_, ⟨k, early, rfl, hearly⟩, _⟩
  · refine hopened p (deliverEvents c.answers (s.next + 1)) rfl ?_ ?_
    · intro e he
      rcases mem_deliverEvents he with rfl | ⟨err, rfl⟩ | rfl | rfl <;> rfl
    · intro e he
      rcases mem_deliverEvents he with rfl | ⟨err, rfl⟩ | rfl | rfl <;> simp [Event.commits]
  · refine hopened p _ rfl ?_ ?_
    · intro e he
      split at he
      · rw [List.mem_singleton.mp he]
        rfl
      · cases he
    · intro e he
      split at he
      · rw [List.mem_singleton.mp he]
        simp [Event.commits]
      · cases he
  · exact Kafka.offset_silent hserves.left fun e he => (plain_early (hearly e he)).commits

/-- Only a call of `consume` that commits its record moves the group on, and by one; what a
call gets is the record at the group's offset. -/
theorem served_step (h : stepProcess platform c s = some (o, t))
    (hserves : Throughout (kafka.Serves group topic) (trace ++ o.trace)) :
    kafka.offset (trace ++ o.trace) group topic =
        kafka.offset trace group topic + (onGroup group topic c.commits).length ∧
      ∀ record, c.gets = some (group, topic, record) → ∃ early late, o.trace = early ++ late ∧
        (kafka.log (trace ++ early) topic)[kafka.offset trace group topic]? = some record := by
  cases hc : c.op.calls .eConsume with
  | some ps => exact served_consume h hc hserves
  | none =>
    have hgets := gets_none hc
    have hsame : kafka.offset (trace ++ o.trace) group topic = kafka.offset trace group topic := by
      cases hp : c.op.calls .eProduce with
      | some ps => exact served_produce h hp hserves
      | none =>
        have hquiet := (quiet_step h hc hp).2
        exact Kafka.offset_silent hserves fun e he => (plain_ofHost (hquiet e he)).commits
    refine ⟨by simp [hsame, HostCall.commits, hgets, onGroup], ?_⟩
    intro record hgot
    rw [hgets] at hgot
    cases hgot

theorem getElem?_of_prefix {l l' : List Record} {i : Nat} (h : l <+: l')
    (hi : l[i]? = some record) : l'[i]? = some record := by
  obtain ⟨rest, rfl⟩ := h
  rw [List.getElem?_append_left (List.getElem?_eq_some_iff.mp hi).1]
  exact hi

theorem gets_next (h : stepProcess platform c s = some (o, t))
    (hstores : Throughout (kafka.Stores topic) (trace ++ o.trace))
    (hserves : Throughout (kafka.Serves group topic) (trace ++ o.trace))
    (hgets : c.gets = some (group, topic, record)) :
    (kafka.log (trace ++ o.trace) topic)[kafka.offset trace group topic]? = some record := by
  obtain ⟨early, late, htrace, hnext⟩ := (served_step h hserves).2 record hgets
  rw [htrace, ← List.append_assoc] at hstores ⊢
  exact getElem?_of_prefix (Kafka.log_grows hstores) hnext

end KafkaAddIn
