import KafkaAddIn.ConsumeExit
import KafkaAddIn.SentRecords

namespace KafkaAddIn

open Foundation

variable {a : Answers} {p : Nat → Bytes} {n rk : Handle} {e : Event} {trace es : List Event}
  {group topic : Bytes} {record : Record}

/-- What librdkafka has been told by the calls made so far. -/
structure Told where
  calls : List Event := []
  /-- The group of a configuration, and of the client made from it. -/
  group : Handle → Bytes := fun _ => []
  /-- Its `auto.offset.reset`. -/
  reset : Handle → Bytes := fun _ => ascii "largest"
  /-- The topic of a list, and of the client subscribed with it. -/
  topic : Handle → Bytes := fun _ => []
  /-- For each record that a client has polled, the calls made before. -/
  polls : Handle → List (List Event) := fun _ => []
  /-- For each record that a client has accepted, the calls made before, and its topic. -/
  accepted : Handle → List (List Event × Bytes × Record) := fun _ => []

def Told.note (k : Told) : Event → Told
  | .confNew conf =>
    { k with
      group := Function.update k.group conf []
      reset := Function.update k.reset conf (ascii "largest") }
  | .confSet conf name value res =>
    if res ≠ .ok then k
    else if name = "group.id" then { k with group := Function.update k.group conf value }
    else if name = "auto.offset.reset" then { k with reset := Function.update k.reset conf value }
    else k
  | .new _ conf (some rk) =>
    { k with
      group := Function.update k.group rk (k.group conf)
      reset := Function.update k.reset rk (k.reset conf)
      polls := Function.update k.polls rk []
      accepted := Function.update k.accepted rk [] }
  | .listAdd list topic => { k with topic := Function.update k.topic list topic }
  | .subscribe rk list err =>
    if err = respErrNoError then { k with topic := Function.update k.topic rk (k.topic list) }
    else k
  | .consumerPoll rk (some rkm) =>
    if rkm.err = respErrNoError then
      { k with polls := Function.update k.polls rk (k.polls rk ++ [k.calls]) }
    else k
  | .producev rk topic key value err =>
    if err = respErrNoError then
      { k with
        accepted := Function.update k.accepted rk
          (k.accepted rk ++ [(k.calls, topic, ⟨some value, some key⟩)]) }
    else k
  | _ => k

def Told.after (k : Told) (e : Event) : Told := { k.note e with calls := k.calls ++ [e] }

def Told.run (k : Told) (es : List Event) : Told := es.foldl Told.after k

def told (trace : List Event) : Told := Told.run {} trace

/-- The client is one of the group and has subscribed to the topic. -/
def Told.Member (k : Told) (rk : Handle) (group topic : Bytes) : Prop :=
  k.group rk = group ∧ k.topic rk = topic

instance (k : Told) (rk : Handle) (group topic : Bytes) : Decidable (k.Member rk group topic) :=
  inferInstanceAs (Decidable (_ ∧ _))

/-- The record that a poll gives. -/
def Event.polled : Event → Option (Handle × Record)
  | .consumerPoll rk (some rkm) => if rkm.err = respErrNoError then some (rk, rkm.record) else none
  | _ => none

/-- A client commits what it has polled. -/
def Event.commits : Event → Option Handle
  | .consumerClose rk committed => if committed then some rk else none
  | .destroy rk committed => if committed then some rk else none
  | _ => none

/-- A report without an error. -/
def Event.reported : Event → Option Handle
  | .deliveryReport rk err => if err = respErrNoError then some rk else none
  | _ => none

/-- The records for the topic that librdkafka has accepted. -/
def acceptedFor (topic : Bytes) (trace : List Event) : List Record :=
  (trace.filterMap Event.enqueued).filterMap fun (_, topic', key, value) =>
    if topic' = topic then some ⟨some value, some key⟩ else none

/-- Kafka behind librdkafka: how the logs of the topics, of one partition each, and the offsets
of the groups, zero while nothing is committed, stand once the calls of a trace have been
made. -/
structure Kafka where
  log : List Event → Bytes → List Record
  offset : List Event → Bytes → Bytes → Nat

/-- Where a client reads on: behind what it has polled since it looked up the offset. -/
def Kafka.position (kafka : Kafka) (group topic : Bytes) (trace : List Event) (rk : Handle) : Nat :=
  match (told trace).polls rk with
  | [] => kafka.offset trace group topic
  | since :: rest => kafka.offset since group topic + (rest.length + 1)

/-- The log of the topic only grows, and a record that is reported on without an error has
been put into it. -/
structure Kafka.Stores (kafka : Kafka) (topic : Bytes) (before : List Event) (e : Event) :
    Prop where
  grows : kafka.log before topic <+: kafka.log (before ++ [e]) topic
  reported : ∀ rk ∈ e.reported, ∀ sent ∈ (told before).accepted rk,
    (told before).accepted rk = [sent] → sent.2.1 = topic →
      sent.2.2 ∈ (kafka.log (before ++ [e]) topic).drop (kafka.log sent.1 topic).length

/-- A member of the group that starts from the earliest record gets the records from the
group's offset on, what it commits is how far it has read, and nobody else moves the group. -/
structure Kafka.Serves (kafka : Kafka) (group topic : Bytes) (before : List Event) (e : Event) :
    Prop where
  reads : ∀ got ∈ e.polled, (told before).Member got.1 group topic →
    (told before).reset got.1 = ascii "earliest" →
      (kafka.log (before ++ [e]) topic)[kafka.position group topic before got.1]? = some got.2
  commits : ∀ rk ∈ e.commits, (told before).Member rk group topic →
    kafka.offset (before ++ [e]) group topic = kafka.position group topic before rk
  stays : (∀ rk ∈ e.commits, ¬ (told before).Member rk group topic) →
    kafka.offset (before ++ [e]) group topic = kafka.offset before group topic

/-- Nobody else writes to the topic, and no record is written twice. -/
def Kafka.Sole (kafka : Kafka) (topic : Bytes) (trace : List Event) : Prop :=
  (kafka.log trace topic).length ≤ (kafka.log [] topic).length + (acceptedFor topic trace).length

instance (kafka : Kafka) (topic : Bytes) (before : List Event) (e : Event) :
    Decidable (kafka.Stores topic before e) :=
  decidable_of_iff (kafka.log before topic <+: kafka.log (before ++ [e]) topic ∧
    ∀ rk ∈ e.reported, ∀ sent ∈ (told before).accepted rk,
      (told before).accepted rk = [sent] → sent.2.1 = topic →
        sent.2.2 ∈ (kafka.log (before ++ [e]) topic).drop (kafka.log sent.1 topic).length)
    ⟨fun h => ⟨h.1, h.2⟩, fun h => ⟨h.grows, h.reported⟩⟩

instance (kafka : Kafka) (group topic : Bytes) (before : List Event) (e : Event) :
    Decidable (kafka.Serves group topic before e) :=
  decidable_of_iff ((∀ got ∈ e.polled, (told before).Member got.1 group topic →
      (told before).reset got.1 = ascii "earliest" →
        (kafka.log (before ++ [e]) topic)[kafka.position group topic before got.1]? =
          some got.2) ∧
    (∀ rk ∈ e.commits, (told before).Member rk group topic →
      kafka.offset (before ++ [e]) group topic = kafka.position group topic before rk) ∧
    ((∀ rk ∈ e.commits, ¬ (told before).Member rk group topic) →
      kafka.offset (before ++ [e]) group topic = kafka.offset before group topic))
    ⟨fun h => ⟨h.1, h.2.1, h.2.2⟩, fun h => ⟨h.reads, h.commits, h.stays⟩⟩

instance (kafka : Kafka) (topic : Bytes) (trace : List Event) : Decidable (kafka.Sole topic trace) :=
  inferInstanceAs (Decidable (_ ≤ _))

theorem Told.run_append (k : Told) (es fs : List Event) :
    k.run (es ++ fs) = (k.run es).run fs :=
  List.foldl_append

theorem told_append (trace es : List Event) : told (trace ++ es) = (told trace).run es :=
  Told.run_append {} trace es

theorem told_snoc (trace : List Event) (e : Event) :
    told (trace ++ [e]) = (told trace).after e :=
  told_append trace [e]

@[simp] theorem Told.after_calls (k : Told) (e : Event) : (k.after e).calls = k.calls ++ [e] := rfl

theorem Told.run_calls (k : Told) (es : List Event) : (k.run es).calls = k.calls ++ es := by
  induction es generalizing k with
  | nil => exact (List.append_nil _).symm
  | cons e es ih =>
    have hrest := ih (k.after e)
    show ((k.after e).run es).calls = _
    rw [hrest]
    simp

@[simp] theorem told_calls (trace : List Event) : (told trace).calls = trace :=
  Told.run_calls {} trace

/-- A client that has polled nothing stays so without a poll. -/
theorem polls_snoc (h : (told trace).polls rk = []) (hpoll : e.polled = none) :
    (told (trace ++ [e])).polls rk = [] := by
  rw [told_snoc]
  show ((told trace).note e).polls rk = []
  cases e with
  | confSet conf name value res =>
    simp only [Told.note]
    split
    · exact h
    · split
      · exact h
      · split <;> exact h
  | new type conf rk' =>
    cases rk' with
    | none => exact h
    | some rk' => simp [Told.note, Function.update_apply, h]
  | subscribe rk' list err =>
    simp only [Told.note]
    split <;> exact h
  | consumerPoll rk' rkm =>
    cases rkm with
    | none => exact h
    | some rkm =>
      have hbad : rkm.err ≠ respErrNoError := by
        intro hok
        simp [Event.polled, hok] at hpoll
      simp only [Told.note, if_neg hbad]
      exact h
  | producev rk' topic key value err =>
    simp only [Told.note]
    split <;> exact h
  | _ => exact h

theorem polls_append (h : (told trace).polls rk = []) (hpoll : ∀ e ∈ es, e.polled = none) :
    (told (trace ++ es)).polls rk = [] := by
  induction es generalizing trace with
  | nil => simpa using h
  | cons e es ih =>
    have hone := polls_snoc h (hpoll e List.mem_cons_self)
    have hrest := ih hone fun x hx => hpoll x (List.mem_cons_of_mem e hx)
    simpa using hrest

variable {kafka : Kafka}

theorem Kafka.position_nil (h : (told trace).polls rk = []) :
    kafka.position group topic trace rk = kafka.offset trace group topic := by
  simp [Kafka.position, h]

theorem Kafka.log_grows (h : Throughout (kafka.Stores topic) (trace ++ es)) :
    kafka.log trace topic <+: kafka.log (trace ++ es) topic := by
  induction es generalizing trace with
  | nil => simp
  | cons e es ih =>
    have hone := (h trace e es rfl).grows
    have hlater : Throughout (kafka.Stores topic) (trace ++ [e] ++ es) := by simpa using h
    have hrest := ih hlater
    rw [List.append_assoc] at hrest
    exact hone.trans hrest

/-- A commit by a client that has polled nothing leaves its group where it is. -/
theorem Kafka.Serves.unpolled (h : kafka.Serves group topic trace e)
    (hnone : ∀ rk ∈ e.commits, (told trace).polls rk = []) :
    kafka.offset (trace ++ [e]) group topic = kafka.offset trace group topic := by
  by_cases hmember : ∃ rk ∈ e.commits, (told trace).Member rk group topic
  · obtain ⟨rk, hrk, hmember⟩ := hmember
    rw [h.commits rk hrk hmember, Kafka.position_nil (hnone rk hrk)]
  · exact h.stays fun rk hrk hmem => hmember ⟨rk, hrk, hmem⟩

/-- One client may commit, but has polled nothing. -/
theorem Kafka.offset_unpolled (h : Throughout (kafka.Serves group topic) (trace ++ es))
    (hpolls : (told trace).polls rk = []) (hpoll : ∀ e ∈ es, e.polled = none)
    (honly : ∀ e ∈ es, ∀ rk' ∈ e.commits, rk' = rk) :
    kafka.offset (trace ++ es) group topic = kafka.offset trace group topic := by
  induction es generalizing trace with
  | nil => simp
  | cons e es ih =>
    have hone : kafka.offset (trace ++ [e]) group topic = kafka.offset trace group topic := by
      refine (h trace e es rfl).unpolled ?_
      intro rk' hrk'
      rw [honly e List.mem_cons_self rk' hrk']
      exact hpolls
    have hlater : Throughout (kafka.Serves group topic) (trace ++ [e] ++ es) := by simpa using h
    have hrest := ih hlater (polls_snoc hpolls (hpoll e List.mem_cons_self))
      (fun x hx => hpoll x (List.mem_cons_of_mem e hx))
      fun x hx => honly x (List.mem_cons_of_mem e hx)
    rw [List.append_assoc] at hrest
    exact hrest.trans hone

theorem Kafka.offset_silent (h : Throughout (kafka.Serves group topic) (trace ++ es))
    (hnone : ∀ e ∈ es, e.commits = none) :
    kafka.offset (trace ++ es) group topic = kafka.offset trace group topic := by
  induction es generalizing trace with
  | nil => simp
  | cons e es ih =>
    have hone : kafka.offset (trace ++ [e]) group topic = kafka.offset trace group topic := by
      refine (h trace e es rfl).unpolled ?_
      rw [hnone e List.mem_cons_self]
      simp
    have hlater : Throughout (kafka.Serves group topic) (trace ++ [e] ++ es) := by simpa using h
    have hrest := ih hlater fun x hx => hnone x (List.mem_cons_of_mem e hx)
    rw [List.append_assoc] at hrest
    exact hrest.trans hone

/-- An event that is neither a poll that gives a record nor a commit, nor one that enqueues
a record. -/
structure Event.Plain (e : Event) : Prop where
  polled : e.polled = none
  commits : e.commits = none
  enqueued : e.enqueued = none

theorem plain_ofHost (h : e.ofHost = true) : e.Plain := by
  cases e <;> first | exact ⟨rfl, rfl, rfl⟩ | cases h

theorem plain_early (h : e.early = true) : e.Plain := by
  cases e <;> first | exact ⟨rfl, rfl, rfl⟩ | cases h

theorem plain_openEvents {type : ClientType} {settings : List Setting} :
    ∀ e ∈ openEvents a type n settings, e.Plain := by
  intro e he
  simp only [openEvents, List.mem_append, List.mem_cons, List.not_mem_nil, or_false] at he
  rcases he with (rfl | he) | rfl
  · exact ⟨rfl, rfl, rfl⟩
  · exact plain_early (early_settingEvents n settings e he)
  · exact ⟨rfl, rfl, rfl⟩

theorem plain_subscribedEvents : ∀ e ∈ subscribedEvents a p n, e.Plain := by
  intro e he
  rw [subscribedEvents] at he
  rcases List.mem_append.mp he with he | he
  · rcases List.mem_append.mp he with he | he
    · exact plain_early (early_reads 5 e he)
    · exact plain_openEvents e he
  · simp only [subscribeEvents, List.mem_cons, List.not_mem_nil, or_false] at he
    rcases he with rfl | rfl | rfl | rfl <;> exact ⟨rfl, rfl, rfl⟩

theorem told_opened (trace : List Event) (m : Nat) (type : ClientType) (settings : List Setting) :
    ∃ k : Told, told (trace ++ (reads m ++ openEvents a type n settings)) =
      k.after (.new type n (some (n + 1))) := by
  have hsplit : trace ++ (reads m ++ openEvents a type n settings) =
      (trace ++ reads m ++ .confNew n :: settingEvents a n settings) ++
        [.new type n (some (n + 1))] := by
    simp [openEvents]
  exact ⟨_, by rw [hsplit, told_snoc]⟩

/-- A client that has just been made has polled nothing. -/
theorem polls_opened (trace : List Event) (m : Nat) (type : ClientType) (settings : List Setting) :
    (told (trace ++ (reads m ++ openEvents a type n settings))).polls (n + 1) = [] := by
  obtain ⟨k, hk⟩ := told_opened (a := a) (n := n) trace m type settings
  rw [hk]
  exact Function.update_self _ _ _

theorem accepted_opened (trace : List Event) (m : Nat) (type : ClientType)
    (settings : List Setting) :
    (told (trace ++ (reads m ++ openEvents a type n settings))).accepted (n + 1) = [] := by
  obtain ⟨k, hk⟩ := told_opened (a := a) (n := n) trace m type settings
  rw [hk]
  exact Function.update_self _ _ _

theorem polls_subscribed (trace : List Event) :
    (told (trace ++ subscribedEvents a p n)).polls (n + 1) = [] := by
  have hopen := polls_opened (a := a) (n := n) trace 5 .consumer (consumeSettingsOf p)
  have hquiet : ∀ e ∈ subscribeEvents a (n + 1) (n + 2) (p 1), e.polled = none := by
    intro e he
    simp only [subscribeEvents, List.mem_cons, List.not_mem_nil, or_false] at he
    rcases he with rfl | rfl | rfl | rfl <;> rfl
  have hrest := polls_append hopen hquiet
  rw [List.append_assoc] at hrest
  exact hrest

/-- A client that has been subscribed is one of the group, and on the topic, that the texts
name, and starts from the earliest record. -/
theorem told_subscribed (hacc : Accepted a (consumeSettingsOf p))
    (hsub : a.subscribe = respErrNoError) (trace : List Event) (n : Nat) :
    (told (trace ++ subscribedEvents a p n)).Member (n + 1) (cString 0 (p 2)) (cString 0 (p 1)) ∧
      (told (trace ++ subscribedEvents a p n)).reset (n + 1) = ascii "earliest" := by
  have hgroup : a.confSet "group.id" = .ok :=
    hacc ⟨"group.id", p 2, "error group.id"⟩ (by simp [consumeSettingsOf, consumeSettings])
  have hreset : a.confSet "auto.offset.reset" = .ok :=
    hacc ⟨"auto.offset.reset", ascii "earliest", "error auto.offset.reset"⟩
      (by simp [consumeSettingsOf, consumeSettings])
  have hearliest : cString 0 (ascii "earliest") = ascii "earliest" := by decide
  have hsplit : trace ++ subscribedEvents a p n = (trace ++ reads 5) ++
      (openEvents a .consumer n (consumeSettingsOf p) ++
        subscribeEvents a (n + 1) (n + 2) (p 1)) := by
    simp [subscribedEvents]
  rw [hsplit, told_append]
  generalize told (trace ++ reads 5) = k
  simp [Told.run, openEvents, settingEvents, consumeSettingsOf, consumeSettings, subscribeEvents,
    Told.after, Told.note, Told.Member, hgroup, hreset, hsub, hearliest]

end KafkaAddIn
