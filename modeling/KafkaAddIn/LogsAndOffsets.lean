import KafkaAddIn.RecordFlow

namespace KafkaAddIn

open Foundation

variable {platform : Platform} {kafka : Kafka} {group topic : Bytes} {history : History}
  {s : Process}

/-- What the calls of `produce` have been told is delivered to the topic. -/
def deliveredTo (topic : Bytes) (history : History) : List Record :=
  history.flatMap fun e => onTopic topic e.call.delivers

/-- What the calls of `consume` have got and committed for the group. -/
def committedBy (group topic : Bytes) (history : History) : List Record :=
  history.flatMap fun e => onGroup group topic e.call.commits

theorem trace_snoc (history : History) (e : Entry Process HostCall Outcome) :
    History.trace (history ++ [e]) = history.trace ++ e.outcome.trace := by
  simp [History.trace]

theorem trace_split {before rest : History} {e : Entry Process HostCall Outcome}
    (hh : history = before ++ e :: rest) :
    history.trace = before.trace ++ e.outcome.trace ++ History.trace rest := by
  simp [hh, History.trace]

/-- What holds of a whole run's trace holds of the trace up to and with one of its calls. -/
theorem throughout_call {C : List Event → Event → Prop} {before rest : History}
    {e : Entry Process HostCall Outcome} (h : Throughout C history.trace)
    (hh : history = before ++ e :: rest) :
    Throughout C (History.trace before ++ e.outcome.trace) := by
  rw [trace_split hh] at h
  exact h.left

/-- Kafka as one group sees one topic. -/
def Kafka.feed (kafka : Kafka) (group topic : Bytes) (trace : List Event) : Feed Record :=
  ⟨kafka.log trace topic, kafka.offset trace group topic⟩

/-- A call takes the record that it commits, and what it is told is delivered is appended. -/
structure Moves (group topic : Bytes) (e : Entry Process HostCall Outcome)
    (ops : List (FeedOp Record)) : Prop where
  takes : takes ops = onGroup group topic e.call.commits
  appends : List.Sublist (onTopic topic e.call.delivers) (appends ops)

theorem onGroup_cases (group topic : Bytes) (c : HostCall) :
    onGroup group topic c.commits = [] ∨
      ∃ record, c.gets = some (group, topic, record) ∧
        onGroup group topic c.commits = [record] := by
  unfold HostCall.commits
  split
  · cases hgets : c.gets with
    | none => exact Or.inl rfl
    | some got =>
      obtain ⟨group', topic', record⟩ := got
      by_cases hname : group' = group ∧ topic' = topic
      · obtain ⟨rfl, rfl⟩ := hname
        exact Or.inr ⟨record, rfl, by simp [onGroup]⟩
      · exact Or.inl (by simp [onGroup, hname])
  · exact Or.inl rfl

/-- A call can only take what comes next, once what comes in meanwhile is appended. -/
theorem feed_step {before : History} {e : Entry Process HostCall Outcome}
    (h : stepProcess platform e.call e.before = some (e.outcome, e.after))
    (hstores : Throughout (kafka.Stores topic) (before.trace ++ e.outcome.trace))
    (hserves : Throughout (kafka.Serves group topic) (before.trace ++ e.outcome.trace)) :
    ∃ ops, (kafka.feed group topic before.trace).exec ops =
        some (kafka.feed group topic (History.trace (before ++ [e]))) ∧ Moves group topic e ops := by
  obtain ⟨new, hnew, hdelivered⟩ := stored_step h hstores
  obtain ⟨hoffset, _⟩ := served_step h hserves
  refine ⟨new.map .append ++ (onGroup group topic e.call.commits).map .take, ?_, ?_⟩
  · rw [Feed.exec_append, Feed.exec_appends, trace_snoc, Option.bind_some]
    rcases onGroup_cases group topic e.call with hnone | ⟨record, hgets, hone⟩
    · rw [hnone] at hoffset ⊢
      simp [Feed.exec, Kafka.feed, hnew, hoffset]
    · have hnext := gets_next h hstores hserves hgets
      rw [hnew] at hnext
      rw [hone] at hoffset ⊢
      simp [Feed.exec, Feed.apply, Feed.next, Kafka.feed, hnew, hoffset, hnext]
  · refine ⟨?_, ?_⟩
    · simp [takes_append]
    · simpa [appends_append] using hdelivered

theorem feed_steps (hstores : Throughout (kafka.Stores topic) history.trace)
    (hserves : Throughout (kafka.Serves group topic) history.trace) :
    ∀ before e rest, history = before ++ e :: rest → ProcessRun platform before e.before →
      stepProcess platform e.call e.before = some (e.outcome, e.after) →
      ∃ ops, ops.foldlM Feed.apply (kafka.feed group topic (History.trace before)) =
          some (kafka.feed group topic (History.trace (before ++ [e]))) ∧
        Moves group topic e ops := by
  intro before e rest hh _ hs
  exact feed_step hs (throughout_call hstores hh) (throughout_call hserves hh)

/-- However the calls of the host follow each other, what they come to for a group and a topic
is a feed: records are appended, those that are reported as delivered among them, and each
call takes the one that it commits, which is always the next. -/
theorem kafka_refines (h : ProcessRun platform history s)
    (hstores : Throughout (kafka.Stores topic) history.trace)
    (hserves : Throughout (kafka.Serves group topic) history.trace) :
    ∃ opss, List.Forall₂ (Moves group topic) history opss ∧
      ∀ before rest, history = before ++ rest →
        (kafka.feed group topic []).exec (opss.take before.length).flatten =
          some (kafka.feed group topic (History.trace before)) :=
  h.simulates (feed_steps hstores hserves)

/-- A record is in the log as soon as it is accepted, and the group "u" on the topic "t" moves
on with each commit that closes a client. -/
def promptKafka : Kafka where
  log trace topic := acceptedFor topic trace
  offset trace group topic :=
    if group = [117] ∧ topic = [116] then
      trace.countP fun
        | .consumerClose _ committed => committed
        | _ => false
    else 0

/-- A poll that gives the record with payload "v" and key "k". -/
def vAnswers : Answers :=
  { poll := some ⟨0, ⟨some [118], some [107]⟩⟩, stalePayload := [118], staleKey := [107] }

/-- One record is sent and received again. -/
def throughKafka : History × Process :=
  execCalls (newObject 0 ++
    [produceCall 0 { delivery := some ⟨.inFlush, 0⟩ }, consumeCall 0 vAnswers])

theorem run_throughKafka : ProcessRun .other throughKafka.1 throughKafka.2 :=
  run_execFrom Run.nil _

theorem stores_throughKafka : Throughout (promptKafka.Stores [116]) throughKafka.1.trace := by
  refine throughout_of_take ?_
  decide +kernel

theorem serves_throughKafka : Throughout (promptKafka.Serves [117] [116]) throughKafka.1.trace := by
  refine throughout_of_take ?_
  decide +kernel

theorem kafka_refines_throughKafka :
    ∃ opss, List.Forall₂ (Moves [117] [116]) throughKafka.1 opss ∧
      ∀ before rest, throughKafka.1 = before ++ rest →
        (promptKafka.feed [117] [116] []).exec (opss.take before.length).flatten =
          some (promptKafka.feed [117] [116] (History.trace before)) :=
  kafka_refines run_throughKafka stores_throughKafka serves_throughKafka

theorem takes_moves {opss : List (List (FeedOp Record))}
    (h : List.Forall₂ (Moves group topic) history opss) :
    takes opss.flatten = committedBy group topic history := by
  rw [takes_flatten]
  induction h with
  | nil => rfl
  | @cons e ops history opss hhead _ ih =>
    rw [List.flatMap_cons, hhead.takes, ih]
    rfl

/-- What lies between the group's first offset and its offset now is what its calls have
committed. -/
theorem group_front (h : ProcessRun platform history s)
    (hstores : Throughout (kafka.Stores topic) history.trace)
    (hserves : Throughout (kafka.Serves group topic) history.trace) :
    kafka.offset history.trace group topic =
        kafka.offset [] group topic + (committedBy group topic history).length ∧
      committedBy group topic history <+:
        (kafka.log history.trace topic).drop (kafka.offset [] group topic) := by
  obtain ⟨opss, hmoves, hexec⟩ := h.simulates (feed_steps hstores hserves)
  have hwhole := hexec history [] (List.append_nil history).symm
  rw [hmoves.length_eq, List.take_length] at hwhole
  obtain ⟨hoffset, _, htakes⟩ := Feed.exec_takes hwhole
  rw [takes_moves hmoves] at hoffset htakes
  exact ⟨hoffset, htakes⟩

/-- A group moves through a topic record by record: what its calls have committed is what lies
behind its offset, each record once and in its order, and what a call gets, committed or not, is
the record that comes next. -/
theorem group_takes (h : ProcessRun platform history s)
    (hstores : Throughout (kafka.Stores topic) history.trace)
    (hserves : Throughout (kafka.Serves group topic) history.trace) :
    kafka.offset history.trace group topic =
        kafka.offset [] group topic + (committedBy group topic history).length ∧
      committedBy group topic history <+:
        (kafka.log history.trace topic).drop (kafka.offset [] group topic) ∧
      ∀ before e rest record, history = before ++ e :: rest →
        e.call.gets = some (group, topic, record) →
        (kafka.log history.trace topic)[kafka.offset [] group topic +
          (committedBy group topic before).length]? = some record := by
  obtain ⟨hoffset, hfront⟩ := group_front h hstores hserves
  refine ⟨hoffset, hfront, ?_⟩
  intro before e rest record hh hgets
  obtain ⟨hrun, hs⟩ := h.split hh
  have hstores' := throughout_call hstores hh
  have hserves' := throughout_call hserves hh
  have hbehind := (group_front hrun hstores'.left hserves'.left).1
  have hnext := gets_next hs hstores' hserves' hgets
  rw [hbehind] at hnext
  -- The log only grows from that call on.
  rw [trace_split hh] at hstores ⊢
  exact getElem?_of_prefix (Kafka.log_grows hstores) hnext

theorem group_takes_throughKafka :
    let calls := throughKafka.1.trace
    promptKafka.offset calls [117] [116] =
        promptKafka.offset [] [117] [116] + (committedBy [117] [116] throughKafka.1).length ∧
      committedBy [117] [116] throughKafka.1 <+:
        (promptKafka.log calls [116]).drop (promptKafka.offset [] [117] [116]) ∧
      ∀ before e rest record, throughKafka.1 = before ++ e :: rest →
        e.call.gets = some ([117], [116], record) →
        (promptKafka.log calls [116])[promptKafka.offset [] [117] [116] +
          (committedBy [117] [116] before).length]? = some record :=
  group_takes run_throughKafka stores_throughKafka serves_throughKafka

/-- The log of a topic keeps what it holds, and what is reported as delivered comes in behind
it, in the order of the calls. -/
theorem log_run (h : ProcessRun platform history s)
    (hstores : Throughout (kafka.Stores topic) history.trace) :
    ∃ new, kafka.log history.trace topic = kafka.log [] topic ++ new ∧
      List.Sublist (deliveredTo topic history) new := by
  induction h with
  | nil => exact ⟨[], (List.append_nil _).symm, List.nil_sublist []⟩
  | @snoc history s t c o _ hs ih =>
    rw [trace_snoc] at hstores ⊢
    obtain ⟨new, hnew, hdelivered⟩ := ih hstores.left
    obtain ⟨more, hmore, hdelivers⟩ := stored_step hs hstores
    refine ⟨new ++ more, ?_, ?_⟩
    · rw [hmore, hnew, List.append_assoc]
    · have hboth := hdelivered.append hdelivers
      simpa [deliveredTo] using hboth

/-- Each record that is handed to librdkafka for the topic is reported on without an error. -/
def AllDelivered (topic : Bytes) (history : History) : Prop :=
  ∀ e ∈ history, ∀ record, e.call.sends = some (topic, record) → Delivered e.call.answers

theorem onTopic_delivered {c : HostCall}
    (h : ∀ record, c.sends = some (topic, record) → Delivered c.answers) :
    onTopic topic c.delivers = onTopic topic c.sends := by
  rcases onTopic_cases topic c.sends with hnone | ⟨record, hsends, _⟩
  · rw [hnone, HostCall.delivers]
    split
    · exact hnone
    · rfl
  · rw [HostCall.delivers, if_pos (h record hsends)]

theorem accepted_run (h : ProcessRun platform history s) (topic : Bytes) :
    acceptedFor topic history.trace = history.flatMap fun e => onTopic topic e.call.sends := by
  induction h with
  | nil => rfl
  | @snoc history s t c o _ hs ih =>
    rw [trace_snoc, acceptedFor_append, ih, accepted_step hs]
    simp

theorem log_sole (h : ProcessRun platform history s)
    (hstores : Throughout (kafka.Stores topic) history.trace)
    (hsole : kafka.Sole topic history.trace) (hall : AllDelivered topic history) :
    kafka.log history.trace topic = kafka.log [] topic ++ deliveredTo topic history := by
  obtain ⟨new, hnew, hdelivered⟩ := log_run h hstores
  have haccepted : acceptedFor topic history.trace = deliveredTo topic history := by
    rw [accepted_run h topic]
    refine List.flatMap_congr ?_
    intro e he
    exact (onTopic_delivered (hall e he)).symm
  have hlength : new.length ≤ (deliveredTo topic history).length := by
    have hroom := hsole
    rw [Kafka.Sole, hnew, haccepted, List.length_append] at hroom
    omega
  rw [hnew, hdelivered.eq_of_length_le hlength]

/-- The log of a topic keeps what it holds, and takes in what is reported as delivered, in the
order of the calls; when nobody else writes and every record is reported on, it takes in just
that. -/
theorem log_of_sends (h : ProcessRun platform history s)
    (hstores : Throughout (kafka.Stores topic) history.trace) :
    (∃ new, kafka.log history.trace topic = kafka.log [] topic ++ new ∧
        List.Sublist (deliveredTo topic history) new) ∧
      (kafka.Sole topic history.trace → AllDelivered topic history →
        kafka.log history.trace topic = kafka.log [] topic ++ deliveredTo topic history) :=
  ⟨log_run h hstores, log_sole h hstores⟩

theorem sole_throughKafka : promptKafka.Sole [116] throughKafka.1.trace := by decide +kernel

theorem delivered_throughKafka : ∀ e ∈ throughKafka.1, Delivered e.call.answers ∨
    e.call.sends = none := by
  decide +kernel

theorem log_of_sends_throughKafka :
    (∃ new, promptKafka.log throughKafka.1.trace [116] = promptKafka.log [] [116] ++ new ∧
        List.Sublist (deliveredTo [116] throughKafka.1) new) ∧
      promptKafka.log throughKafka.1.trace [116] =
        promptKafka.log [] [116] ++ deliveredTo [116] throughKafka.1 := by
  obtain ⟨hgrows, hjust⟩ := log_of_sends run_throughKafka stores_throughKafka
  refine ⟨hgrows, hjust sole_throughKafka ?_⟩
  intro e he record hsends
  rcases delivered_throughKafka e he with hdone | hnone
  · exact hdone
  · rw [hsends] at hnone
    cases hnone

end KafkaAddIn
