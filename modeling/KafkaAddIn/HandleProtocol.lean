import KafkaAddIn.ConsumeExit
import KafkaAddIn.SentRecords
import KafkaAddIn.Foundation.Handles

namespace KafkaAddIn

open Foundation

variable {a : Answers} {paParams : Nat → TVariant} {w w' : World}

/-- `rd_kafka_conf_t`, `rd_kafka_topic_partition_list_t` and `rd_kafka_message_t`. -/
inductive HandleKind
  | conf
  | list
  | message
  deriving DecidableEq, Repr

/-- A client that is made takes its configuration; the subscription only borrows the list. -/
def HandleKind.protocol : HandleKind → Protocol Event Nat
  | .conf =>
    { acquires := fun
        | .confNew h => some h
        | _ => none
      releases := fun
        | .new _ h (some _) => some h
        | .confDestroy h => some h
        | _ => none
      uses := fun
        | .confSet h _ _ _ => some h
        | .confSetDrMsgCb h => some h
        | .confDestroy h => some h
        | .new _ h _ => some h
        | _ => none }
  | .list =>
    { acquires := fun
        | .listNew h => some h
        | _ => none
      releases := fun
        | .listDestroy h => some h
        | _ => none
      uses := fun
        | .listAdd h _ => some h
        | .listDestroy h => some h
        | .subscribe _ h _ => some h
        | _ => none }
  | .message =>
    { acquires := fun
        | .consumerPoll _ (some rkm) => some rkm.handle
        | _ => none
      releases := fun
        | .messageDestroy h => some h
        | _ => none
      uses := fun
        | .messageRead h => some h
        | .messageDestroy h => some h
        | _ => none }

def FollowsProtocol (trace : List Event) : Prop :=
  ∀ kind : HandleKind, kind.protocol.Kept trace

/-- The event neither obtains nor gives up a handle of this kind. -/
def Event.outside (kind : HandleKind) (e : Event) : Prop :=
  kind.protocol.acquires e = none ∧ kind.protocol.releases e = none

/-- Nor is it made on one. -/
def Event.apart (kind : HandleKind) (e : Event) : Prop :=
  e.outside kind ∧ kind.protocol.uses e = none

theorem outside_reads (kind : HandleKind) (n : Nat) : ∀ e ∈ reads n, e.outside kind := by
  intro e he
  obtain ⟨i, _, rfl⟩ := List.mem_map.mp he
  cases kind <;> exact ⟨rfl, rfl⟩

theorem outside_settingEvents (kind : HandleKind) (conf : Handle) (settings : List Setting) :
    ∀ e ∈ settingEvents a conf settings, e.outside kind := by
  intro e he
  obtain ⟨s, _, rfl⟩ := List.mem_map.mp he
  cases kind <;> exact ⟨rfl, rfl⟩

/-- Before there is a client, no list and no message is obtained. -/
theorem outside_early {kind : HandleKind} {e : Event} (h : e.early = true) (hkind : kind ≠ .conf) :
    e.outside kind := by
  cases kind with
  | conf => exact absurd rfl hkind
  | list => cases e <;> first | exact ⟨rfl, rfl⟩ | cases h
  | message => cases e <;> first | exact ⟨rfl, rfl⟩ | cases h

/-- The configuration `n` from its making to its last setting. -/
def confEvents (a : Answers) (k : Nat) (n : Handle) (settings : List Setting) : List Event :=
  reads k ++ .confNew n :: settingEvents a n settings

theorem acquired_confEvents (k : Nat) (n : Nat) (settings : List Setting) :
    HandleKind.conf.protocol.acquired (confEvents a k n settings) = [n] := by
  have hreads : HandleKind.conf.protocol.acquired (reads k) = [] :=
    (HandleKind.conf.protocol.idle (outside_reads .conf k)).1
  have hset : HandleKind.conf.protocol.acquired (settingEvents a n settings) = [] :=
    (HandleKind.conf.protocol.idle (outside_settingEvents .conf n settings)).1
  have hnew : HandleKind.conf.protocol.acquired (.confNew n :: settingEvents a n settings) =
      n :: HandleKind.conf.protocol.acquired (settingEvents a n settings) := rfl
  rw [confEvents, Ownership.acquired_append, hreads, hnew, hset]
  rfl

theorem releases_confEvents (k : Nat) (n : Handle) (settings : List Setting) :
    ∀ e ∈ confEvents a k n settings, HandleKind.conf.protocol.releases e = none := by
  intro e he
  rcases List.mem_append.mp he with he | he
  · exact (outside_reads .conf k e he).2
  · rcases List.mem_cons.mp he with rfl | he
    · rfl
    · exact (outside_settingEvents .conf n settings e he).2

/-- A setting is refused: the configuration is destroyed. -/
theorem conf_kept_refused (k : Nat) (n : Handle) (settings : List Setting) :
    HandleKind.conf.protocol.Kept
      (reads k ++ .confNew n :: settingEvents a n settings ++ [.confDestroy n]) :=
  Protocol.kept_of_lifetime (acquired_confEvents k n settings) (releases_confEvents k n settings)
    rfl rfl (by simp)

/-- The client cannot be made: the configuration has stayed with the caller. -/
theorem conf_kept_notCreated (k : Nat) (type : ClientType) (n : Nat) (settings : List Setting) :
    HandleKind.conf.protocol.Kept (reads k ++ .confNew n :: settingEvents a n settings ++
      [.new type n none, .confDestroy n]) := by
  have hacq : HandleKind.conf.protocol.acquired
      (confEvents a k n settings ++ [.new type n none]) = [n] := by
    rw [Ownership.acquired_append, acquired_confEvents]
    rfl
  have hopen : ∀ e ∈ confEvents a k n settings ++ [.new type n none],
      HandleKind.conf.protocol.releases e = none := by
    intro e he
    rcases List.mem_append.mp he with he | he
    · exact releases_confEvents k n settings e he
    · rw [List.mem_singleton.mp he]
      rfl
  have hkept : HandleKind.conf.protocol.Kept
      (confEvents a k n settings ++ [.new type n none] ++ .confDestroy n :: []) :=
    Protocol.kept_of_lifetime hacq hopen rfl rfl (by simp)
  simpa [confEvents] using hkept

/-- The client has taken the configuration, and nothing after it uses it. -/
theorem conf_kept_opened {post : List Event} (k : Nat) (type : ClientType) (n : Nat)
    (settings : List Setting) (hpost : ∀ e ∈ post, e.apart .conf) :
    HandleKind.conf.protocol.Kept (reads k ++ openEvents a type n settings ++ post) := by
  have hsplit : reads k ++ openEvents a type n settings ++ post =
      confEvents a k n settings ++ .new type n (some (n + 1)) :: post := by
    simp [openEvents, confEvents]
  rw [hsplit]
  apply Protocol.kept_of_lifetime (acquired_confEvents k n settings)
    (releases_confEvents k n settings) rfl rfl
  intro e he
  obtain ⟨⟨hacq, hrel⟩, huse⟩ := hpost e he
  refine ⟨hacq, hrel, ?_⟩
  rw [huse]
  simp

theorem conf_kept_subscribed {post : List Event} (p : Nat → Bytes) (n : Nat)
    (hpost : ∀ e ∈ post, e.apart .conf) :
    HandleKind.conf.protocol.Kept (subscribedEvents a p n ++ post) := by
  have hall : ∀ e ∈ subscribeEvents a (n + 1) (n + 2) (p 1) ++ post, e.apart .conf := by
    intro e he
    rcases List.mem_append.mp he with he | he
    · simp only [subscribeEvents, List.mem_cons, List.not_mem_nil, or_false] at he
      rcases he with rfl | rfl | rfl | rfl <;> exact ⟨⟨rfl, rfl⟩, rfl⟩
    · exact hpost e he
  have hkept := conf_kept_opened (a := a) 5 .consumer n (consumeSettingsOf p) hall
  rwa [← List.append_assoc] at hkept

theorem conf_kept_closed {post : List Event} (p : Nat → Bytes) (n : Nat) (record : Record)
    (hpost : ∀ e ∈ post, e = .messageRead (n + 3)) :
    HandleKind.conf.protocol.Kept
      (subscribedEvents a p n ++ closeEvents a (n + 1) (n + 3) record ++ post) := by
  rw [List.append_assoc]
  apply conf_kept_subscribed
  intro e he
  rcases List.mem_append.mp he with he | he
  · simp only [closeEvents, List.mem_cons, List.not_mem_nil, or_false] at he
    rcases he with rfl | rfl | rfl | rfl | rfl <;> exact ⟨⟨rfl, rfl⟩, rfl⟩
  · rw [hpost e he]
    exact ⟨⟨rfl, rfl⟩, rfl⟩

theorem ConsumeExit.conf_kept {r : Except Exit Bool} (h : ConsumeExit a paParams w r w') :
    ∃ es, w'.trace = w.trace ++ es ∧ HandleKind.conf.protocol.Kept es := by
  cases h with
  | unreadable _ _ _ => exact ⟨_, rfl, Protocol.kept_of_idle (outside_reads .conf _)⟩
  | undecodable _ _ _ _ => exact ⟨_, rfl, Protocol.kept_of_idle (outside_reads .conf _)⟩
  | refused _ _ _ _ => exact ⟨_, rfl, conf_kept_refused 5 _ _⟩
  | notCreated _ _ _ => exact ⟨_, rfl, conf_kept_notCreated 5 _ _ _⟩
  | notSubscribed _ _ _ _ =>
    refine ⟨_, rfl, conf_kept_subscribed _ _ ?_⟩
    intro e he
    rcases List.mem_pair.mp he with rfl | rfl <;> exact ⟨⟨rfl, rfl⟩, rfl⟩
  | timedOut _ _ =>
    refine ⟨_, rfl, conf_kept_subscribed _ _ ?_⟩
    intro e he
    rw [List.mem_singleton.mp he]
    exact ⟨⟨rfl, rfl⟩, rfl⟩
  | pollError _ _ _ =>
    refine ⟨_, rfl, conf_kept_subscribed _ _ ?_⟩
    intro e he
    simp only [List.mem_cons, List.not_mem_nil, or_false] at he
    rcases he with rfl | rfl | rfl <;> exact ⟨⟨rfl, rfl⟩, rfl⟩
  | messageLost _ _ _ => exact ⟨_, rfl, conf_kept_closed _ _ _ (by simp)⟩
  | keyLost _ _ _ _ => exact ⟨_, rfl, conf_kept_closed _ _ _ (by simp)⟩
  | done _ _ _ _ => exact ⟨_, rfl, conf_kept_closed _ _ _ (by simp)⟩

theorem outside_opened {kind : HandleKind} (hkind : kind ≠ .conf) (k : Nat) (type : ClientType)
    (n : Nat) (settings : List Setting) :
    ∀ e ∈ reads k ++ openEvents a type n settings, e.outside kind := by
  intro e he
  simp only [openEvents, List.mem_append, List.mem_cons, List.not_mem_nil, or_false] at he
  rcases he with he | (rfl | he) | rfl
  · exact outside_reads kind k e he
  · exact outside_early rfl hkind
  · exact outside_settingEvents kind n settings e he
  · cases kind with
    | conf => exact absurd rfl hkind
    | list => exact ⟨rfl, rfl⟩
    | message => exact ⟨rfl, rfl⟩

theorem list_subscribedEvents (p : Nat → Bytes) (n : Nat) :
    HandleKind.list.protocol.acquired (subscribedEvents a p n) = [n + 2] ∧
      ∀ e ∈ subscribedEvents a p n, HandleKind.list.protocol.releases e = none := by
  have hopen := outside_opened (a := a) (by decide : HandleKind.list ≠ .conf) 5 .consumer n
    (consumeSettingsOf p)
  have hnone : HandleKind.list.protocol.acquired
      (reads 5 ++ openEvents a .consumer n (consumeSettingsOf p)) = [] :=
    (HandleKind.list.protocol.idle hopen).1
  refine ⟨?_, ?_⟩
  · rw [subscribedEvents, Ownership.acquired_append, hnone]
    rfl
  · intro e he
    rcases List.mem_append.mp he with he | he
    · exact (hopen e he).2
    · simp only [subscribeEvents, List.mem_cons, List.not_mem_nil, or_false] at he
      rcases he with rfl | rfl | rfl | rfl <;> rfl

/-- A list that a subscription has been made with is never destroyed. -/
theorem list_leaked {post : List Event} (p : Nat → Bytes) (n : Nat)
    (hpost : ∀ e ∈ post, HandleKind.list.protocol.releases e = none) :
    ¬ HandleKind.list.protocol.Kept (subscribedEvents a p n ++ post) := by
  intro hkept
  obtain ⟨hacq, hrel⟩ := list_subscribedEvents (a := a) p n
  have hmem : n + 2 ∈ HandleKind.list.protocol.acquired (subscribedEvents a p n ++ post) := by
    rw [Ownership.acquired_append, hacq]
    exact List.mem_append_left _ (List.mem_singleton.mpr rfl)
  obtain ⟨e, he, hback⟩ := List.mem_filterMap.mp (hkept.released hmem)
  rcases List.mem_append.mp he with he | he
  · rw [hrel e he] at hback
    cases hback
  · rw [hpost e he] at hback
    cases hback

theorem ConsumeExit.list_kept_iff {r : Except Exit Bool} (h : ConsumeExit a paParams w r w')
    (htr : w.trace = []) :
    HandleKind.list.protocol.Kept w'.trace ↔ ∀ p, ¬ Subscribed a paParams p := by
  rcases h.cases with ⟨hnot, _, es, hw, hes⟩ | ⟨hnot, _, p, hw⟩ |
    ⟨_, _, p, es, hsub, hw, hes⟩ | ⟨record, _, _, p, es, hsub, hw, hes⟩
  · rw [hw, htr, List.nil_append]
    refine iff_of_true ?_ hnot
    exact Protocol.kept_of_idle fun e he => outside_early (hes e he) (by decide)
  · rw [hw, htr, List.nil_append]
    refine iff_of_true ?_ hnot
    obtain ⟨hacq, hrel⟩ := list_subscribedEvents (a := a) p w.next
    apply Protocol.kept_of_lifetime hacq hrel rfl rfl
    intro e he
    rw [List.mem_singleton.mp he]
    exact ⟨rfl, rfl, by simp [HandleKind.protocol]⟩
  · rw [hw, htr, List.nil_append]
    refine iff_of_false ?_ fun hnot => hnot p hsub
    apply list_leaked
    rcases hes with rfl | ⟨rkm, _, rfl⟩
    · simp [HandleKind.protocol]
    · simp [HandleKind.protocol]
  · rw [hw, htr, List.nil_append, List.append_assoc]
    refine iff_of_false ?_ fun hnot => hnot p hsub
    apply list_leaked
    intro e he
    rcases List.mem_append.mp he with he | he
    · simp only [closeEvents, List.mem_cons, List.not_mem_nil, or_false] at he
      rcases he with rfl | rfl | rfl | rfl | rfl <;> rfl
    · rw [hes e he]
      rfl

theorem outside_message_subscribedEvents (p : Nat → Bytes) (n : Nat) :
    ∀ e ∈ subscribedEvents a p n, e.outside .message := by
  intro e he
  rcases List.mem_append.mp he with he | he
  · exact outside_opened (by decide) 5 .consumer n _ e he
  · simp only [subscribeEvents, List.mem_cons, List.not_mem_nil, or_false] at he
    rcases he with rfl | rfl | rfl | rfl <;> exact ⟨rfl, rfl⟩

/-- The message is looked into after it has been destroyed. -/
theorem message_misused {post : List Event} (p : Nat → Bytes) (n : Nat) (record : Record) :
    ¬ HandleKind.message.protocol.Kept (subscribedEvents a p n ++
      closeEvents a (n + 1) (n + 3) record ++ .messageRead (n + 3) :: post) := by
  intro hkept
  have hdestroy : .messageDestroy (n + 3) ∈
      subscribedEvents a p n ++ closeEvents a (n + 1) (n + 3) record :=
    List.mem_append_right _ (by simp [closeEvents])
  exact hkept.not_used hdestroy List.mem_cons_self rfl rfl

theorem ConsumeExit.message_misused {r : Except Exit Bool} {record : Record}
    (h : ConsumeExit a paParams w r w') (hget : GetsRecord a paParams record) :
    ∃ es, w'.trace = w.trace ++ es ∧ ¬ HandleKind.message.protocol.Kept es := by
  obtain ⟨⟨q, hq⟩, hrecord⟩ := hget
  cases h with
  | unreadable hk _ herr => exact absurd hq (not_subscribed_of_error hk herr q)
  | undecodable hk _ herr _ => exact absurd hq (not_subscribed_of_error hk herr q)
  | refused _ hl _ hbad => exact absurd hq (not_subscribed_of_refused hl hbad q)
  | notCreated _ _ hnew => exact absurd hq (not_subscribed_of_notCreated hnew q)
  | notSubscribed _ _ _ hbad => exact absurd hq.subscribed hbad
  | timedOut _ hpoll =>
    rw [hrecord] at hpoll
    cases hpoll
  | pollError _ hpoll hbad =>
    rw [hrecord] at hpoll
    cases hpoll
    exact absurd rfl hbad
  | messageLost _ _ _ => exact ⟨_, rfl, KafkaAddIn.message_misused _ _ _⟩
  | keyLost _ _ _ _ => exact ⟨_, rfl, KafkaAddIn.message_misused _ _ _⟩
  | done _ _ _ _ => exact ⟨_, rfl, KafkaAddIn.message_misused _ _ _⟩

theorem ConsumeExit.message_kept {r : Except Exit Bool} (h : ConsumeExit a paParams w r w')
    (hnone : ∀ record, ¬ GetsRecord a paParams record) :
    ∃ es, w'.trace = w.trace ++ es ∧ HandleKind.message.protocol.Kept es := by
  rcases h.cases with ⟨_, _, es, hw, hes⟩ | ⟨_, _, p, hw⟩ |
    ⟨_, _, p, es, _, hw, hes⟩ | ⟨record, hpoll, _, p, _, hsub, _, _⟩
  · refine ⟨es, hw, Protocol.kept_of_idle ?_⟩
    exact fun e he => outside_early (hes e he) (by decide)
  · refine ⟨_, hw, Protocol.kept_of_idle ?_⟩
    intro e he
    rcases List.mem_append.mp he with he | he
    · exact outside_message_subscribedEvents p w.next e he
    · rcases List.mem_pair.mp he with rfl | rfl <;> exact ⟨rfl, rfl⟩
  · have hsubscribed := outside_message_subscribedEvents (a := a) p w.next
    refine ⟨_, hw, ?_⟩
    rcases hes with rfl | ⟨rkm, _, rfl⟩
    · apply Protocol.kept_of_idle
      intro e he
      rcases List.mem_append.mp he with he | he
      · exact hsubscribed e he
      · rw [List.mem_singleton.mp he]
        exact ⟨rfl, rfl⟩
    · have hsplit : subscribedEvents a p w.next ++ [.consumerPoll (w.next + 1) (some rkm),
            .messageRead rkm.handle, .messageDestroy rkm.handle] =
          subscribedEvents a p w.next ++ [.consumerPoll (w.next + 1) (some rkm),
            .messageRead rkm.handle] ++ [.messageDestroy rkm.handle] := by
        simp
      have hnothing : HandleKind.message.protocol.acquired (subscribedEvents a p w.next) = [] :=
        (HandleKind.message.protocol.idle hsubscribed).1
      rw [hsplit]
      refine Protocol.kept_of_lifetime ?_ ?_ rfl rfl (by simp)
      · rw [Ownership.acquired_append, hnothing]
        rfl
      · intro e he
        rcases List.mem_append.mp he with he | he
        · exact (hsubscribed e he).2
        · rcases List.mem_pair.mp he with rfl | rfl <;> rfl
  · exact absurd ⟨⟨p, hsub⟩, hpoll⟩ (hnone record)

/-- In `consume` the configuration is handled well, the list unless it is subscribed with,
the message unless it is a record. -/
theorem kept_consume (s : Process) (a : Answers) (paParams : Nat → TVariant) :
    let trace := ((consume a paParams).run s.world).2.trace
    HandleKind.conf.protocol.Kept trace ∧
      (HandleKind.list.protocol.Kept trace ↔ ∀ p, ¬ Subscribed a paParams p) ∧
      (HandleKind.message.protocol.Kept trace ↔ ∀ record, ¬ GetsRecord a paParams record) := by
  intro trace
  have hexit := consume_exit (ends_run (consume a paParams) s.world)
  refine ⟨?_, hexit.list_kept_iff rfl, ?_⟩
  · obtain ⟨es, hw, hkept⟩ := hexit.conf_kept
    have htrace : trace = es := hw
    rwa [htrace]
  · constructor
    · intro hkept record hget
      obtain ⟨es, hw, hbad⟩ := hexit.message_misused hget
      have htrace : trace = es := hw
      rw [htrace] at hkept
      exact hbad hkept
    · intro hnone
      obtain ⟨es, hw, hkept⟩ := hexit.message_kept hnone
      have htrace : trace = es := hw
      rwa [htrace]

theorem followsProtocol_consume (s : Process) (a : Answers) (paParams : Nat → TVariant) :
    FollowsProtocol ((consume a paParams).run s.world).2.trace ↔
      ∀ p, ¬ Subscribed a paParams p := by
  obtain ⟨hconf, hlist, hmessage⟩ := kept_consume s a paParams
  constructor
  · intro hall
    exact hlist.mp (hall .list)
  · intro hnot kind
    cases kind with
    | conf => exact hconf
    | list => exact hlist.mpr hnot
    | message => exact hmessage.mpr fun record hget => hget.1.elim hnot

theorem ProduceExit.conf_kept {r : Except Exit String} (h : ProduceExit a paParams w r w')
    (hnot : ∀ p, ¬ Opened a paParams p) :
    ∃ es, w'.trace = w.trace ++ es ∧ HandleKind.conf.protocol.Kept es := by
  cases h with
  | unreadable _ _ _ => exact ⟨_, rfl, Protocol.kept_of_idle (outside_reads .conf _)⟩
  | undecodable _ _ _ _ => exact ⟨_, rfl, Protocol.kept_of_idle (outside_reads .conf _)⟩
  | refused _ _ _ _ => exact ⟨_, rfl, conf_kept_refused 6 _ _⟩
  | notCreated _ _ _ => exact ⟨_, rfl, conf_kept_notCreated 6 _ _ _⟩
  | notEnqueued hopen _ => exact absurd hopen (hnot _)
  | persisted hopen _ => exact absurd hopen (hnot _)

/-- The callback is set on a configuration that the client has taken. -/
theorem conf_misused {post : List Event} (p : Nat → Bytes) (n : Nat) :
    ¬ HandleKind.conf.protocol.Kept (enqueueEvents a p n ++ post) := by
  intro hkept
  rw [enqueueEvents, List.append_assoc] at hkept
  have hnew : .new .producer n (some (n + 1)) ∈
      reads 6 ++ openEvents a .producer n (produceSettingsOf p) :=
    List.mem_append_right _ (by simp [openEvents])
  have hset : .confSetDrMsgCb n ∈ [.confSetDrMsgCb n, .signal,
      .producev (n + 1) (cString 0 (p 1)) (p 4) (p 5) a.producev] ++ post :=
    List.mem_append_left _ List.mem_cons_self
  exact hkept.not_used hnew hset rfl rfl

theorem ProduceExit.conf_kept_iff {r : Except Exit String} (h : ProduceExit a paParams w r w')
    (htr : w.trace = []) :
    HandleKind.conf.protocol.Kept w'.trace ↔ ∀ p, ¬ Opened a paParams p := by
  constructor
  · intro hkept q hopen
    rcases h.cases with ⟨p, _, _, _, rfl⟩ | ⟨p, _, _, _, rfl⟩ | ⟨hnot, _, _⟩
    · rw [World.after_trace, htr, List.nil_append] at hkept
      exact conf_misused p w.next hkept
    · rw [World.after_trace, htr, List.nil_append] at hkept
      exact conf_misused p w.next hkept
    · exact hnot q hopen
  · intro hnot
    obtain ⟨es, hw, hkept⟩ := h.conf_kept hnot
    rwa [hw, htr, List.nil_append]

theorem outside_enqueueEvents {kind : HandleKind} (hkind : kind ≠ .conf) (p : Nat → Bytes)
    (n : Nat) : ∀ e ∈ enqueueEvents a p n, e.outside kind := by
  intro e he
  rcases List.mem_append.mp he with he | he
  · exact outside_opened hkind 6 .producer n _ e he
  · simp only [List.mem_cons, List.not_mem_nil, or_false] at he
    rcases he with rfl | rfl | rfl <;> cases kind <;> exact ⟨rfl, rfl⟩

/-- `produce` obtains neither a list nor a message. -/
theorem ProduceExit.outside {r : Except Exit String} {kind : HandleKind}
    (h : ProduceExit a paParams w r w') (hkind : kind ≠ .conf) (htr : w.trace = []) :
    ∀ e ∈ w'.trace, e.outside kind := by
  rcases h.cases with ⟨p, _, _, _, rfl⟩ | ⟨p, _, _, _, rfl⟩ | ⟨_, ⟨k, es, rfl, hes⟩, _⟩
  · intro e he
    rw [World.after_trace, htr, List.nil_append] at he
    rcases List.mem_append.mp he with he | he
    · exact outside_enqueueEvents hkind p w.next e he
    · rcases mem_deliverEvents he with rfl | ⟨_, rfl⟩ | rfl | rfl <;>
        cases kind <;> exact ⟨rfl, rfl⟩
  · intro e he
    rw [World.after_trace, htr, List.nil_append] at he
    rcases List.mem_append.mp he with he | he
    · exact outside_enqueueEvents hkind p w.next e he
    · split at he
      · rw [List.mem_singleton.mp he]
        cases kind <;> exact ⟨rfl, rfl⟩
      · cases he
  · intro e he
    rw [World.after_trace, htr, List.nil_append] at he
    exact outside_early (hes e he) hkind

theorem followsProtocol_produce (s : Process) (a : Answers) (paParams : Nat → TVariant) :
    FollowsProtocol ((produce a paParams).run s.world).2.trace ↔ ∀ p, ¬ Opened a paParams p := by
  have hexit := produce_exit rfl (ends_run (produce a paParams) s.world)
  constructor
  · intro hall
    exact (hexit.conf_kept_iff rfl).mp (hall .conf)
  · intro hnot kind
    by_cases hkind : kind = .conf
    · rw [hkind]
      exact (hexit.conf_kept_iff rfl).mpr hnot
    · exact Protocol.kept_of_idle (hexit.outside hkind rfl)

/-- A list that has been subscribed with is left behind, and a producer's configuration is
used after the client has taken it. -/
theorem followsProtocol_iff (s : Process) (a : Answers) (paParams : Nat → TVariant) :
    (FollowsProtocol ((consume a paParams).run s.world).2.trace ↔
        ∀ p, ¬ Subscribed a paParams p) ∧
      (FollowsProtocol ((produce a paParams).run s.world).2.trace ↔
        ∀ p, ¬ Opened a paParams p) :=
  ⟨followsProtocol_consume s a paParams, followsProtocol_produce s a paParams⟩

theorem handles_misused :
    let paParams : Nat → TVariant := recordParams [116] [112] [118]
    ¬ FollowsProtocol ((consume {} paParams).run ({} : Process).world).2.trace ∧
      ¬ FollowsProtocol ((produce {} paParams).run ({} : Process).world).2.trace := by
  refine ⟨?_, ?_⟩
  · intro hall
    have hsettled := (hall .list).settled 2 (by decide +kernel)
    exact absurd hsettled (by decide +kernel)
  · intro hall
    have hpair := List.pairwise_iff_getElem.mp (hall .conf).noUseAfter
    exact hpair 12 13 (by decide +kernel) (by decide +kernel) (by decide) 0 rfl rfl

end KafkaAddIn
