import KafkaAddIn.CallRules

namespace KafkaAddIn

open Foundation

variable {a : Answers} {paParams : Nat → TVariant} {w w' : World}

/-- What `subscribeTopic` calls before the answer to the subscription is looked at. -/
def subscribeEvents (a : Answers) (rk list : Handle) (p_topic : Bytes) : List Event :=
  [.pollSetConsumer rk, .listNew list, .listAdd list (cString 0 p_topic),
    .subscribe rk list a.subscribe]

theorem ends_subscribeTopic {rk : Handle} {p_topic : Bytes} {r : Except Exit Unit}
    (h : Ends (subscribeTopic a rk p_topic) w r w') :
    (a.subscribe = respErrNoError ∧ r = .ok () ∧
      w' = w.after 1 (subscribeEvents a rk w.next p_topic)) ∨
    (a.subscribe ≠ respErrNoError ∧
      r = .error (.runtimeError "error Failed to subscribe to topic") ∧
      w' = w.after 1 (subscribeEvents a rk w.next p_topic ++
        [.listDestroy w.next, .destroy rk a.destroyCommits])) := by
  simp only [subscribeTopic, rdKafkaPollSetConsumer, rdKafkaTopicPartitionListNew,
    rdKafkaTopicPartitionListAdd, rdKafkaSubscribe, rdKafkaTopicPartitionListDestroy,
    rdKafkaDestroy, bind_assoc, pure_bind, ends_fresh_bind, ends_emit_bind, World.after_after,
    World.after_next] at h
  split at h
  next hbad =>
    simp only [ends_emit_bind, ends_throw, World.after_after] at h
    obtain ⟨rfl, rfl⟩ := h
    exact Or.inr ⟨hbad, rfl, by simp [subscribeEvents]⟩
  next hgood =>
    obtain ⟨rfl, rfl⟩ := ends_pure.mp h
    exact Or.inl ⟨not_not.mp hgood, rfl, by simp [subscribeEvents]⟩

/-- The calls made on a record that was polled: it is given back and the client
closed, and only then is the message looked into again. -/
def closeEvents (a : Answers) (rk rkm : Handle) (record : Record) : List Event :=
  [.consumerPoll rk (some ⟨rkm, respErrNoError, record⟩), .messageRead rkm, .messageDestroy rkm,
    .consumerClose rk a.closeCommits, .destroy rk a.destroyCommits]

inductive PollExit (a : Answers) (rk : Handle) (w : World) : Except Exit Bool → World → Prop
  | timedOut : a.poll = none → PollExit a rk w (.ok false) (w.after 0 [.consumerPoll rk none])
  | pollError {polled : Polled} : a.poll = some polled → polled.err ≠ respErrNoError →
      PollExit a rk w (.error (.runtimeError "Consumer error"))
        (w.after 1 [.consumerPoll rk (some ⟨w.next, polled.err, polled.record⟩),
          .messageRead w.next, .messageDestroy w.next])
  | messageLost {record : Record} : a.poll = some ⟨respErrNoError, record⟩ →
      a.buildMessage = false →
      PollExit a rk w (.error .badAlloc)
        (w.after 1 (closeEvents a rk w.next record ++ [.messageRead w.next]))
  | keyLost {record : Record} : a.poll = some ⟨respErrNoError, record⟩ →
      a.buildMessage = true → a.buildKey = false →
      PollExit a rk w (.error .badAlloc)
        { w.after 1 (closeEvents a rk w.next record ++
            [.messageRead w.next, .messageRead w.next]) with gMessage := a.stalePayload }
  | done {record : Record} : a.poll = some ⟨respErrNoError, record⟩ →
      a.buildMessage = true → a.buildKey = true →
      PollExit a rk w (.ok true)
        { w.after 1 (closeEvents a rk w.next record ++
            [.messageRead w.next, .messageRead w.next]) with
          gMessage := a.stalePayload, gKey := a.staleKey }

theorem ends_pollRecord {rk : Handle} {r : Except Exit Bool}
    (h : Ends (pollRecord a rk) w r w') : PollExit a rk w r w' := by
  simp only [pollRecord, rdKafkaConsumerPoll] at h
  cases hp : a.poll with
  | none =>
    simp only [hp, bind_assoc, pure_bind, ends_emit_bind, ends_pure] at h
    obtain ⟨rfl, rfl⟩ := h
    exact PollExit.timedOut hp
  | some polled =>
    simp only [hp, bind_assoc, pure_bind, ends_fresh_bind, ends_emit_bind, messageErr,
      rdKafkaMessageDestroy, World.after_after] at h
    split at h
    next hbad =>
      simp only [ends_emit_bind, ends_throw, World.after_after] at h
      obtain ⟨rfl, rfl⟩ := h
      exact PollExit.pollError hp hbad
    next hgood =>
      have hrec : a.poll = some ⟨respErrNoError, polled.record⟩ := by
        rw [hp, ← not_not.mp hgood]
      -- The message has been given back by now, so both reads are of stale memory.
      simp only [rdKafkaConsumerClose, rdKafkaDestroy, messagePayload, messageKey, bind_assoc,
        pure_bind, ends_emit_bind, ends_get_bind, World.after_after, World.after_trace] at h
      cases hm : a.buildMessage with
      | false =>
        simp only [hm, buildString, Bool.false_eq_true, if_false, ends_throw_bind] at h
        obtain ⟨rfl, rfl⟩ := h
        simpa [closeEvents, not_not.mp hgood] using PollExit.messageLost hrec hm
      | true =>
        simp only [hm, buildString, if_true, pure_bind, ends_setMessage_bind, ends_emit_bind,
          ends_get_bind] at h
        cases hk : a.buildKey with
        | false =>
          simp only [hk, Bool.false_eq_true, if_false, ends_throw_bind] at h
          obtain ⟨rfl, rfl⟩ := h
          simpa [closeEvents, not_not.mp hgood, World.after] using PollExit.keyLost hrec hm hk
        | true =>
          simp only [hk, if_true, pure_bind, ends_setKey_bind, ends_pure] at h
          obtain ⟨rfl, rfl⟩ := h
          simpa [closeEvents, not_not.mp hgood, World.after] using PollExit.done hrec hm hk

def World.cleared (w : World) : World := { w with gMessage := [], gKey := [] }

@[simp] theorem World.cleared_next (w : World) : w.cleared.next = w.next := rfl

@[simp] theorem World.cleared_trace (w : World) : w.cleared.trace = w.trace := rfl

def consumeSettingsOf (p : Nat → Bytes) : List Setting :=
  consumeSettings (p 0) (p 2) (p 3) (p 4)

/-- The calls of `consume` up to and with the subscription: the configuration is
handle `n`, the client `n + 1` and the list `n + 2`. -/
def subscribedEvents (a : Answers) (p : Nat → Bytes) (n : Handle) : List Event :=
  reads 5 ++ openEvents a .consumer n (consumeSettingsOf p) ++
    subscribeEvents a (n + 1) (n + 2) (p 1)

structure Subscribed (a : Answers) (paParams : Nat → TVariant) (p : Nat → Bytes) : Prop where
  decoded : Decoded a paParams 5 p
  accepted : Accepted a (consumeSettingsOf p)
  created : a.new = true
  subscribed : a.subscribe = respErrNoError

/-- Where `consume` can end, with all that it has done by then. -/
inductive ConsumeExit (a : Answers) (paParams : Nat → TVariant) (w : World) :
    Except Exit Bool → World → Prop
  | unreadable {k p} : k < 5 → Decoded a paParams k p → paramText a paParams k = .error .fault →
      ConsumeExit a paParams w (.error .fault) (w.cleared.after 0 (reads (k + 1)))
  | undecodable {k p e} : k < 5 → Decoded a paParams k p → paramText a paParams k = .error e →
      e ≠ .fault → ConsumeExit a paParams w (.ok false) (w.cleared.after 0 (reads (k + 1)))
  | refused {p before s rest} : Decoded a paParams 5 p →
      consumeSettingsOf p = before ++ s :: rest → Accepted a before → a.confSet s.name ≠ .ok →
      ConsumeExit a paParams w (.ok false) (w.cleared.after 1 (reads 5 ++ .confNew w.next ::
        settingEvents a w.next (before ++ [s]) ++ [.confDestroy w.next]))
  | notCreated {p} : Decoded a paParams 5 p → Accepted a (consumeSettingsOf p) → a.new = false →
      ConsumeExit a paParams w (.ok false) (w.cleared.after 1 (reads 5 ++ .confNew w.next ::
        settingEvents a w.next (consumeSettingsOf p) ++
          [.new .consumer w.next none, .confDestroy w.next]))
  | notSubscribed {p} : Decoded a paParams 5 p → Accepted a (consumeSettingsOf p) →
      a.new = true → a.subscribe ≠ respErrNoError →
      ConsumeExit a paParams w (.ok false) (w.cleared.after 3 (subscribedEvents a p w.next ++
        [.listDestroy (w.next + 2), .destroy (w.next + 1) a.destroyCommits]))
  | timedOut {p} : Subscribed a paParams p → a.poll = none →
      ConsumeExit a paParams w (.ok false)
        (w.cleared.after 3 (subscribedEvents a p w.next ++ [.consumerPoll (w.next + 1) none]))
  | pollError {p polled} : Subscribed a paParams p → a.poll = some polled →
      polled.err ≠ respErrNoError →
      ConsumeExit a paParams w (.ok false) (w.cleared.after 4 (subscribedEvents a p w.next ++
        [.consumerPoll (w.next + 1) (some ⟨w.next + 3, polled.err, polled.record⟩),
          .messageRead (w.next + 3), .messageDestroy (w.next + 3)]))
  | messageLost {p record} : Subscribed a paParams p → a.poll = some ⟨respErrNoError, record⟩ →
      a.buildMessage = false →
      ConsumeExit a paParams w (.ok false) (w.cleared.after 4 (subscribedEvents a p w.next ++
        closeEvents a (w.next + 1) (w.next + 3) record ++ [.messageRead (w.next + 3)]))
  | keyLost {p record} : Subscribed a paParams p → a.poll = some ⟨respErrNoError, record⟩ →
      a.buildMessage = true → a.buildKey = false →
      ConsumeExit a paParams w (.ok false)
        { w.cleared.after 4 (subscribedEvents a p w.next ++
            closeEvents a (w.next + 1) (w.next + 3) record ++
            [.messageRead (w.next + 3), .messageRead (w.next + 3)]) with
          gMessage := a.stalePayload }
  | done {p record} : Subscribed a paParams p → a.poll = some ⟨respErrNoError, record⟩ →
      a.buildMessage = true → a.buildKey = true →
      ConsumeExit a paParams w (.ok true)
        { w.cleared.after 4 (subscribedEvents a p w.next ++
            closeEvents a (w.next + 1) (w.next + 3) record ++
            [.messageRead (w.next + 3), .messageRead (w.next + 3)]) with
          gMessage := a.stalePayload, gKey := a.staleKey }

def caught : Except Exit Bool → Except Exit Bool
  | .ok b => .ok b
  | .error .fault => .error .fault
  | .error _ => .ok false

theorem ends_consume {r : Except Exit Bool} (h : Ends (consume a paParams) w r w') :
    ∃ r₀, Ends (consumeBody a paParams) w r₀ w' ∧ r = caught r₀ := by
  rcases ends_tryStd h with ⟨b, hbody, rfl⟩ | ⟨e, what, t, hw, hbody, hcatch⟩ | ⟨e, hw, hbody, rfl⟩
  · exact ⟨_, hbody, rfl⟩
  · obtain ⟨rfl, rfl⟩ := ends_pure.mp hcatch
    refine ⟨_, hbody, ?_⟩
    cases e <;> first | rfl | simp [Exit.what] at hw
  · cases Exit.what_eq_none_iff.mp hw
    exact ⟨_, hbody, rfl⟩

theorem caught_error {e : Exit} (h : e ≠ .fault) : caught (.error e) = .ok false := by
  cases e <;> first | rfl | exact absurd rfl h

theorem subscribed_exit {p : Nat → Bytes} {r : Except Exit Bool}
    (hdec : Decoded a paParams 5 p) (hacc : Accepted a (consumeSettingsOf p))
    (hnew : a.new = true)
    (h : Ends (subscribeTopic a (w.next + 1) (p 1) >>= fun _ => pollRecord a (w.next + 1))
      (w.cleared.after 2 (reads 5 ++ openEvents a .consumer w.next (consumeSettingsOf p))) r w') :
    ConsumeExit a paParams w (caught r) w' := by
  rcases ends_bind.mp h with ⟨_, t, hs, h⟩ | ⟨e, hs, rfl⟩
  · rcases ends_subscribeTopic hs with ⟨hsub, _, rfl⟩ | ⟨_, herr, _⟩
    · have hall : Subscribed a paParams p := ⟨hdec, hacc, hnew, hsub⟩
      simp only [World.after_after, World.after_next, World.cleared_next] at h
      cases ends_pollRecord h with
      | timedOut hp => simpa [subscribedEvents, caught] using ConsumeExit.timedOut hall hp
      | pollError hp hbad => simpa [subscribedEvents, caught] using ConsumeExit.pollError hall hp hbad
      | messageLost hp hm => simpa [subscribedEvents, caught] using ConsumeExit.messageLost hall hp hm
      | keyLost hp hm hk => simpa [subscribedEvents, caught] using ConsumeExit.keyLost hall hp hm hk
      | done hp hm hk => simpa [subscribedEvents, caught] using ConsumeExit.done hall hp hm hk
    · cases herr
  · rcases ends_subscribeTopic hs with ⟨_, hok, _⟩ | ⟨hsub, herr, rfl⟩
    · cases hok
    · cases herr
      simpa [subscribedEvents, caught] using ConsumeExit.notSubscribed hdec hacc hnew hsub

theorem consumeBody_exit {r : Except Exit Bool} (h : Ends (consumeBody a paParams) w r w') :
    ConsumeExit a paParams w (caught r) w' := by
  simp only [consumeBody, ends_setMessage_bind, ends_setKey_bind] at h
  change Ends _ w.cleared r w' at h
  rcases ends_bind.mp h with ⟨p, t, hp, h⟩ | ⟨e, hp, rfl⟩
  · rcases ends_decodeParams hp with ⟨p', hok, hdec, rfl⟩ | ⟨_, _, _, _, _, _, herr, _⟩
    · cases hok
      rcases ends_bind.mp h with ⟨⟨conf, rk⟩, u, ho, h⟩ | ⟨e, ho, rfl⟩
      · rcases ends_openClient ho with ⟨hnew, hacc, hok, rfl⟩ | ⟨_, _, _, _, _, _, herr, _⟩ |
          ⟨_, _, herr, _⟩
        · cases hok
          simp only [World.after_after, World.after_next, World.cleared_next] at h
          exact subscribed_exit hdec hacc hnew h
        · cases herr
        · cases herr
      · rcases ends_openClient ho with ⟨_, _, hok, _⟩ |
          ⟨before, s, rest, hl, hacc, hbad, herr, rfl⟩ | ⟨hnew, hacc, herr, rfl⟩
        · cases hok
        · cases herr
          simpa [caught] using ConsumeExit.refused hdec hl hacc hbad
        · cases herr
          simpa [caught, consumeSettingsOf] using ConsumeExit.notCreated hdec hacc hnew
    · cases herr
  · rcases ends_decodeParams hp with ⟨_, hok, _, _⟩ | ⟨k, p, e', hk, hdec, hke, herr, rfl⟩
    · cases hok
    · cases herr
      by_cases he : e = .fault
      · subst e
        exact ConsumeExit.unreadable hk hdec hke
      · rw [caught_error he]
        exact ConsumeExit.undecodable hk hdec hke he

theorem consume_exit {r : Except Exit Bool} (h : Ends (consume a paParams) w r w') :
    ConsumeExit a paParams w r w' := by
  obtain ⟨r₀, hbody, rfl⟩ := ends_consume h
  exact consumeBody_exit hbody

theorem Accepted.consume {p q : Nat → Bytes} (h : Accepted a (consumeSettingsOf p)) :
    Accepted a (consumeSettingsOf q) := by
  simpa [Accepted, consumeSettingsOf, consumeSettings] using h

theorem not_subscribed_of_error {k : Nat} {e : Exit} (hk : k < 5)
    (herr : paramText a paParams k = .error e) (p : Nat → Bytes) : ¬ Subscribed a paParams p := by
  intro hsub
  rw [hsub.decoded k hk] at herr
  cases herr

theorem not_subscribed_of_refused {q : Nat → Bytes} {before rest : List Setting} {s : Setting}
    (hl : consumeSettingsOf q = before ++ s :: rest) (hbad : a.confSet s.name ≠ .ok)
    (p : Nat → Bytes) : ¬ Subscribed a paParams p := by
  intro hsub
  have hmem : s ∈ consumeSettingsOf q := hl ▸ List.mem_append_right _ List.mem_cons_self
  exact hbad (hsub.accepted.consume s hmem)

theorem not_subscribed_of_notCreated (hnew : a.new = false) (p : Nat → Bytes) :
    ¬ Subscribed a paParams p := by
  intro hsub
  rw [hsub.created] at hnew
  cases hnew

/-- No client is made, or the subscription fails and costs it, or it is left without a
record, or it is closed with one. -/
theorem ConsumeExit.cases {r : Except Exit Bool} (h : ConsumeExit a paParams w r w') :
    ((∀ p, ¬ Subscribed a paParams p) ∧ w.next ≤ w'.next ∧
      ∃ es, w'.trace = w.trace ++ es ∧ ∀ e ∈ es, e.early = true) ∨
    ((∀ p, ¬ Subscribed a paParams p) ∧ w'.next = w.next + 3 ∧
      ∃ p, w'.trace = w.trace ++ (subscribedEvents a p w.next ++
        [.listDestroy (w.next + 2), .destroy (w.next + 1) a.destroyCommits])) ∨
    ((∀ record, a.poll ≠ some ⟨respErrNoError, record⟩) ∧ w.next + 3 ≤ w'.next ∧
      ∃ p es, Subscribed a paParams p ∧ w'.trace = w.trace ++ (subscribedEvents a p w.next ++ es) ∧
        (es = [.consumerPoll (w.next + 1) none] ∨
          ∃ rkm, rkm.err ≠ respErrNoError ∧ es = [.consumerPoll (w.next + 1) (some rkm),
            .messageRead rkm.handle, .messageDestroy rkm.handle])) ∨
    (∃ record, a.poll = some ⟨respErrNoError, record⟩ ∧ w'.next = w.next + 4 ∧
      ∃ p es, Subscribed a paParams p ∧ w'.trace = w.trace ++ (subscribedEvents a p w.next ++
          closeEvents a (w.next + 1) (w.next + 3) record ++ es) ∧
        ∀ e ∈ es, e = .messageRead (w.next + 3)) := by
  cases h with
  | unreadable hk _ herr =>
    exact Or.inl ⟨not_subscribed_of_error hk herr, Nat.le_refl _, _, rfl, early_reads _⟩
  | undecodable hk _ herr _ =>
    exact Or.inl ⟨not_subscribed_of_error hk herr, Nat.le_refl _, _, rfl, early_reads _⟩
  | @refused p before s rest _ hl _ hbad =>
    exact Or.inl ⟨not_subscribed_of_refused hl hbad, Nat.le_succ _, _, rfl, early_refused 5 _ _⟩
  | notCreated _ _ hnew =>
    exact Or.inl ⟨not_subscribed_of_notCreated hnew, Nat.le_succ _, _, rfl,
      early_notCreated 5 _ _ _⟩
  | notSubscribed _ _ _ hbad =>
    exact Or.inr (Or.inl ⟨fun q hsub => hbad hsub.subscribed, rfl, _, rfl⟩)
  | timedOut hsub hpoll =>
    refine Or.inr (Or.inr (Or.inl ⟨?_, Nat.le_refl _, _, _, hsub, rfl, Or.inl rfl⟩))
    intro record hrec
    rw [hpoll] at hrec
    cases hrec
  | pollError hsub hpoll hbad =>
    refine Or.inr (Or.inr (Or.inl ⟨?_, Nat.le_succ _, _, _, hsub, rfl, Or.inr ⟨_, hbad, rfl⟩⟩))
    intro record hrec
    rw [hpoll] at hrec
    cases hrec
    exact hbad rfl
  | messageLost hsub hpoll _ =>
    exact Or.inr (Or.inr (Or.inr ⟨_, hpoll, rfl, _, _, hsub, rfl, by simp⟩))
  | keyLost hsub hpoll _ _ =>
    exact Or.inr (Or.inr (Or.inr ⟨_, hpoll, rfl, _, _, hsub, rfl, by simp⟩))
  | done hsub hpoll _ _ =>
    exact Or.inr (Or.inr (Or.inr ⟨_, hpoll, rfl, _, _, hsub, rfl, by simp⟩))

def GetsRecord (a : Answers) (paParams : Nat → TVariant) (record : Record) : Prop :=
  (∃ p, Subscribed a paParams p) ∧ a.poll = some ⟨respErrNoError, record⟩

theorem GetsRecord.unique {x y : Record} (hx : GetsRecord a paParams x)
    (hy : GetsRecord a paParams y) : x = y := by
  have hpoll := hx.2.symm.trans hy.2
  cases hpoll
  rfl

theorem GetsRecord.not_unreadable {record : Record} (h : GetsRecord a paParams record) :
    ¬ Unreadable a paParams 5 := by
  obtain ⟨⟨p, hsub⟩, _⟩ := h
  exact hsub.decoded.not_unreadable

/-- What `consume` answers and leaves in the two globals, whatever they held before: the
answers alone decide it. -/
inductive ConsumeLeaves (a : Answers) (paParams : Nat → TVariant) :
    Except Exit Bool → Bytes → Bytes → Prop
  | unreadable : Unreadable a paParams 5 → ConsumeLeaves a paParams (.error .fault) [] []
  | nothing : ¬ Unreadable a paParams 5 →
      (∀ record, GetsRecord a paParams record → a.buildMessage = false) →
      ConsumeLeaves a paParams (.ok false) [] []
  | message {record} : GetsRecord a paParams record → a.buildMessage = true →
      a.buildKey = false → ConsumeLeaves a paParams (.ok false) a.stalePayload []
  | both {record} : GetsRecord a paParams record → a.buildMessage = true →
      a.buildKey = true → ConsumeLeaves a paParams (.ok true) a.stalePayload a.staleKey

theorem ConsumeLeaves.nothing_of_not_subscribed (hread : ¬ Unreadable a paParams 5)
    (hnot : ∀ p, ¬ Subscribed a paParams p) : ConsumeLeaves a paParams (.ok false) [] [] := by
  refine ConsumeLeaves.nothing hread ?_
  intro record hget
  obtain ⟨⟨p, hsub⟩, _⟩ := hget
  exact absurd hsub (hnot p)

theorem ConsumeExit.leaves {r : Except Exit Bool} (h : ConsumeExit a paParams w r w') :
    ConsumeLeaves a paParams r w'.gMessage w'.gKey := by
  cases h with
  | @unreadable k p hk hdec herr => exact ConsumeLeaves.unreadable ⟨k, hk, ⟨p, hdec⟩, herr⟩
  | @undecodable k p e hk hdec herr hne =>
    exact ConsumeLeaves.nothing_of_not_subscribed (not_unreadable_of_error hdec herr hne)
      (not_subscribed_of_error hk herr)
  | @refused p before s rest hdec hl _ hbad =>
    exact ConsumeLeaves.nothing_of_not_subscribed hdec.not_unreadable
      (not_subscribed_of_refused hl hbad)
  | notCreated hdec _ hnew =>
    exact ConsumeLeaves.nothing_of_not_subscribed hdec.not_unreadable
      (not_subscribed_of_notCreated hnew)
  | notSubscribed hdec _ _ hbad =>
    exact ConsumeLeaves.nothing_of_not_subscribed hdec.not_unreadable
      fun p hsub => hbad hsub.subscribed
  | timedOut hsub hpoll =>
    refine ConsumeLeaves.nothing hsub.decoded.not_unreadable ?_
    intro record hget
    rw [hget.2] at hpoll
    cases hpoll
  | pollError hsub hpoll hbad =>
    refine ConsumeLeaves.nothing hsub.decoded.not_unreadable ?_
    intro record hget
    rw [hget.2] at hpoll
    cases hpoll
    exact absurd rfl hbad
  | messageLost hsub _ hm =>
    exact ConsumeLeaves.nothing hsub.decoded.not_unreadable fun _ _ => hm
  | keyLost hsub hpoll hm hk => exact ConsumeLeaves.message ⟨⟨_, hsub⟩, hpoll⟩ hm hk
  | done hsub hpoll hm hk => exact ConsumeLeaves.both ⟨⟨_, hsub⟩, hpoll⟩ hm hk

theorem ConsumeLeaves.unique {r r' : Except Exit Bool} {m m' k k' : Bytes}
    (h : ConsumeLeaves a paParams r m k) (h' : ConsumeLeaves a paParams r' m' k') :
    r = r' ∧ m = m' ∧ k = k' := by
  cases h with
  | unreadable hun =>
    cases h' with
    | unreadable _ => exact ⟨rfl, rfl, rfl⟩
    | nothing hno _ => exact absurd hun hno
    | message hget _ _ => exact absurd hun hget.not_unreadable
    | both hget _ _ => exact absurd hun hget.not_unreadable
  | nothing hno hnone =>
    cases h' with
    | unreadable hun => exact absurd hun hno
    | nothing _ _ => exact ⟨rfl, rfl, rfl⟩
    | message hget hm _ => simp [hnone _ hget] at hm
    | both hget hm _ => simp [hnone _ hget] at hm
  | message hget hm hk =>
    cases h' with
    | unreadable hun => exact absurd hun hget.not_unreadable
    | nothing _ hnone => simp [hnone _ hget] at hm
    | message _ _ _ => exact ⟨rfl, rfl, rfl⟩
    | both _ _ hk' => simp [hk'] at hk
  | both hget hm hk =>
    cases h' with
    | unreadable hun => exact absurd hun hget.not_unreadable
    | nothing _ hnone => simp [hnone _ hget] at hm
    | message _ _ hk' => simp [hk'] at hk
    | both _ _ _ => exact ⟨rfl, rfl, rfl⟩

end KafkaAddIn
