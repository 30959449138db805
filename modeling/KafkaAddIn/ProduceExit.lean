import KafkaAddIn.CallRules
import Mathlib.Algebra.Group.Nat.Defs

namespace KafkaAddIn

open Foundation

variable {a : Answers} {paParams : Nat → TVariant} {w w' : World}

/-- The delivery report served by a call of this kind, while a record is waiting. -/
def reportEvents (a : Answers) (rk : Handle) (arrival : Arrival) : List Event :=
  match a.delivery with
  | some delivery => if delivery.arrival = arrival then [.deliveryReport rk delivery.err] else []
  | none => []

theorem ends_serveReports {rk : Handle} {arrival : Arrival} {r : Except Exit Unit}
    (h : Ends (serveReports a rk arrival) w r w') :
    r = .ok () ∧ w' = w.after 0
      (if outstanding rk w.trace then reportEvents a rk arrival else []) := by
  simp only [serveReports, ends_get_bind] at h
  unfold reportEvents
  cases hd : a.delivery with
  | none =>
    simp only [hd] at h
    obtain ⟨rfl, rfl⟩ := ends_pure.mp h
    exact ⟨rfl, by simp [World.after_zero_nil]⟩
  | some delivery =>
    simp only [hd] at h
    split at h
    next hserved =>
      obtain ⟨rfl, rfl⟩ := ends_emit.mp h
      exact ⟨rfl, by simp [hserved.1, hserved.2]⟩
    next hnot =>
      obtain ⟨rfl, rfl⟩ := ends_pure.mp h
      refine ⟨rfl, ?_⟩
      by_cases ho : outstanding rk w'.trace = true
      · have ha : delivery.arrival ≠ arrival := fun ha => hnot ⟨ha, ho⟩
        simp [ha, World.after_zero_nil]
      · simp [ho, World.after_zero_nil]

/-- The answer of the flush: a timeout exactly when no report has come by its
deadline. -/
def flushErr (a : Answers) : RespErr :=
  if a.delivery.isSome then respErrNoError else respErrTimedOut

def produceSettingsOf (p : Nat → Bytes) : List Setting := produceSettings (p 0) (p 2) (p 3)

/-- The calls of `produce` up to and with the attempt to enqueue: the configuration
is handle `n` and the client `n + 1`. -/
def enqueueEvents (a : Answers) (p : Nat → Bytes) (n : Handle) : List Event :=
  reads 6 ++ openEvents a .producer n (produceSettingsOf p) ++
    [.confSetDrMsgCb n, .signal,
      .producev (n + 1) (cString 0 (p 1)) (p 4) (p 5) a.producev]

def deliverEvents (a : Answers) (rk : Handle) : List Event :=
  .poll rk 0 :: reportEvents a rk .atPoll ++ reportEvents a rk .inFlush ++
    [.flush rk 1000 (flushErr a), .destroy rk a.destroyCommits]

theorem mem_deliverEvents {rk : Handle} {e : Event} (h : e ∈ deliverEvents a rk) :
    e = .poll rk 0 ∨ (∃ err, e = .deliveryReport rk err) ∨ e = .flush rk 1000 (flushErr a) ∨
      e = .destroy rk a.destroyCommits := by
  have hreport : ∀ arrival, e ∈ reportEvents a rk arrival → ∃ err, e = .deliveryReport rk err := by
    intro arrival he
    unfold reportEvents at he
    split at he
    · split at he
      · exact ⟨_, List.mem_singleton.mp he⟩
      · simp at he
    · simp at he
  simp only [deliverEvents, List.mem_append, List.mem_cons, List.not_mem_nil, or_false] at h
  rcases h with ((rfl | h) | h) | rfl | rfl
  · exact Or.inl rfl
  · exact Or.inr (Or.inl (hreport _ h))
  · exact Or.inr (Or.inl (hreport _ h))
  · exact Or.inr (Or.inr (Or.inl rfl))
  · exact Or.inr (Or.inr (Or.inr rfl))

structure Opened (a : Answers) (paParams : Nat → TVariant) (p : Nat → Bytes) : Prop where
  decoded : Decoded a paParams 6 p
  accepted : Accepted a (produceSettingsOf p)
  created : a.new = true

/-- Where `produce` can end, with all that it has done by then. -/
inductive ProduceExit (a : Answers) (paParams : Nat → TVariant) (w : World) :
    Except Exit String → World → Prop
  | unreadable {k p} : k < 6 → Decoded a paParams k p → paramText a paParams k = .error .fault →
      ProduceExit a paParams w (.error .fault) (w.after 0 (reads (k + 1)))
  | undecodable {k p e what} : k < 6 → Decoded a paParams k p →
      paramText a paParams k = .error e → e.what = some what →
      ProduceExit a paParams w (.ok ("Exception: " ++ what)) (w.after 0 (reads (k + 1)))
  | refused {p before s rest} : Decoded a paParams 6 p →
      produceSettingsOf p = before ++ s :: rest → Accepted a before → a.confSet s.name ≠ .ok →
      ProduceExit a paParams w (.ok ("Exception: " ++ s.what)) (w.after 1 (reads 6 ++
        .confNew w.next :: settingEvents a w.next (before ++ [s]) ++ [.confDestroy w.next]))
  | notCreated {p} : Decoded a paParams 6 p → Accepted a (produceSettingsOf p) → a.new = false →
      ProduceExit a paParams w (.ok ("Exception: " ++ "error Failed to create new producer"))
        (w.after 1 (reads 6 ++ .confNew w.next ::
          settingEvents a w.next (produceSettingsOf p) ++
            [.new .producer w.next none, .confDestroy w.next]))
  | notEnqueued {p} : Opened a paParams p → a.producev ≠ respErrNoError →
      ProduceExit a paParams w (.ok ("Exception: " ++ "Failed to produce to topic"))
        (w.after 2 (enqueueEvents a p w.next ++
          if a.producev = respErrQueueFull then [.poll (w.next + 1) 1000] else []))
  | persisted {p} : Opened a paParams p → a.producev = respErrNoError →
      ProduceExit a paParams w (.ok "Persisted")
        (w.after 2 (enqueueEvents a p w.next ++ deliverEvents a (w.next + 1)))

theorem mem_enqueueEvents {p : Nat → Bytes} {n : Handle} {e : Event}
    (h : e ∈ enqueueEvents a p n) :
    (∃ i, e = .readWstr i) ∨ e = .confNew n ∨ (∃ name value res, e = .confSet n name value res) ∨
      e = .new .producer n (some (n + 1)) ∨ e = .confSetDrMsgCb n ∨ e = .signal ∨
      e = .producev (n + 1) (cString 0 (p 1)) (p 4) (p 5) a.producev := by
  simp only [enqueueEvents, openEvents, settingEvents, reads, List.mem_append, List.mem_cons,
    List.mem_map, List.not_mem_nil, or_false] at h
  rcases h with (⟨i, _, rfl⟩ | (rfl | ⟨s, _, rfl⟩) | rfl) | rfl | rfl | rfl
  · exact Or.inl ⟨i, rfl⟩
  · exact Or.inr (Or.inl rfl)
  · exact Or.inr (Or.inr (Or.inl ⟨_, _, _, rfl⟩))
  · exact Or.inr (Or.inr (Or.inr (Or.inl rfl)))
  · exact Or.inr (Or.inr (Or.inr (Or.inr (Or.inl rfl))))
  · exact Or.inr (Or.inr (Or.inr (Or.inr (Or.inr (Or.inl rfl)))))
  · exact Or.inr (Or.inr (Or.inr (Or.inr (Or.inr (Or.inr rfl)))))

theorem enqueueEvents_reports {p : Nat → Bytes} {n rk : Handle} :
    (enqueueEvents a p n).any (Event.reports rk) = false := by
  apply List.any_eq_false.mpr
  intro e he
  rcases mem_enqueueEvents he with ⟨_, rfl⟩ | rfl | ⟨_, _, _, rfl⟩ | rfl | rfl | rfl | rfl <;>
    simp [Event.reports]

theorem outstanding_enqueueEvents {p : Nat → Bytes} {n : Handle}
    (henq : a.producev = respErrNoError) (post : List Event) :
    outstanding (n + 1) (enqueueEvents a p n ++ post) = !post.any (Event.reports (n + 1)) := by
  have hput : (enqueueEvents a p n).any (Event.enqueues (n + 1)) = true := by
    apply List.any_eq_true.mpr
    exact ⟨.producev (n + 1) (cString 0 (p 1)) (p 4) (p 5) a.producev, by simp [enqueueEvents],
      by simp [Event.enqueues, henq]⟩
  simp [outstanding, hput, enqueueEvents_reports]

theorem outstanding_refused {p : Nat → Bytes} {n : Handle} (hbad : a.producev ≠ respErrNoError) :
    outstanding (n + 1) (enqueueEvents a p n) = false := by
  have hnone : (enqueueEvents a p n).any (Event.enqueues (n + 1)) = false := by
    apply List.any_eq_false.mpr
    intro e he
    rcases mem_enqueueEvents he with ⟨_, rfl⟩ | rfl | ⟨_, _, _, rfl⟩ | rfl | rfl | rfl | rfl <;>
      simp [Event.enqueues, hbad]
  simp [outstanding, hnone]

theorem ends_rdKafkaPoll {rk : Handle} {timeout : Nat} {r : Except Exit Unit}
    (h : Ends (rdKafkaPoll a rk timeout) w r w') :
    r = .ok () ∧ w' = w.after 0 (.poll rk timeout ::
      if outstanding rk w.trace then reportEvents a rk .atPoll else []) := by
  simp only [rdKafkaPoll, ends_emit_bind] at h
  obtain ⟨rfl, rfl⟩ := ends_serveReports h
  refine ⟨rfl, ?_⟩
  have hsame : outstanding rk (w.trace ++ [.poll rk timeout]) = outstanding rk w.trace := by
    simp [outstanding, Event.enqueues, Event.reports]
  simp [hsame]

theorem ends_rdKafkaFlush {rk : Handle} {timeout : Nat} {r : Except Exit RespErr}
    (h : Ends (rdKafkaFlush a rk timeout) w r w') :
    ∃ served err, served = (if outstanding rk w.trace then reportEvents a rk .inFlush else []) ∧
      err = (if outstanding rk (w.trace ++ served) then respErrTimedOut else respErrNoError) ∧
      r = .ok err ∧ w' = w.after 0 (served ++ [.flush rk timeout err]) := by
  simp only [rdKafkaFlush] at h
  rcases ends_bind.mp h with ⟨_, t, hs, h⟩ | ⟨e, hs, _⟩
  · obtain ⟨_, rfl⟩ := ends_serveReports hs
    simp only [ends_get_bind, ends_emit_bind, ends_pure, World.after_after,
      World.after_trace] at h
    obtain ⟨rfl, rfl⟩ := h
    exact ⟨_, _, rfl, rfl, rfl, rfl⟩
  · exact absurd (ends_serveReports hs).1 (by simp)

theorem ends_deliver {p : Nat → Bytes} {r : Except Exit String} (htr : w.trace = [])
    (henq : a.producev = respErrNoError)
    (h : Ends (do
        rdKafkaPoll a (w.next + 1) 0
        let _ ← rdKafkaFlush a (w.next + 1) 1000
        rdKafkaDestroy a (w.next + 1)
        return "Persisted") (w.after 2 (enqueueEvents a p w.next)) r w') :
    r = .ok "Persisted" ∧
      w' = w.after 2 (enqueueEvents a p w.next ++ deliverEvents a (w.next + 1)) := by
  have hstart : (w.after 2 (enqueueEvents a p w.next)).trace = enqueueEvents a p w.next ++ [] := by
    simp [htr]
  rcases ends_bind.mp h with ⟨_, t, hpoll, h⟩ | ⟨e, hpoll, _⟩
  · obtain ⟨_, rfl⟩ := ends_rdKafkaPoll hpoll
    rw [hstart, outstanding_enqueueEvents henq] at h
    rcases ends_bind.mp h with ⟨err, u, hflush, h⟩ | ⟨e, hflush, _⟩
    · obtain ⟨served, err', hserved, herr, _, rfl⟩ := ends_rdKafkaFlush hflush
      simp only [rdKafkaDestroy, ends_emit_bind, ends_pure] at h
      obtain ⟨rfl, rfl⟩ := h
      simp only [World.after_after, World.after_trace, htr, List.nil_append, List.append_assoc,
        outstanding_enqueueEvents henq] at hserved herr
      -- Which of the two calls serves the report, if any.
      rcases hd : a.delivery with _ | ⟨arrival, derr⟩
      · simp_all [reportEvents, Event.reports, deliverEvents, flushErr]
      · cases arrival <;>
          simp_all [reportEvents, Event.reports, deliverEvents, flushErr]
    · obtain ⟨_, _, _, _, hbad, _⟩ := ends_rdKafkaFlush hflush
      cases hbad
  · exact absurd (ends_rdKafkaPoll hpoll).1 (by simp)

theorem ends_enqueue {p : Nat → Bytes} {r : Except Exit String} (htr : w.trace = [])
    (h : Ends (do
        rdKafkaConfSetDrMsgCb w.next
        emit .signal
        let err ← rdKafkaProducev a (w.next + 1) (p 1) (p 4) (p 4).length (p 5) (p 5).length
        if err ≠ respErrNoError then
          if err = respErrQueueFull then
            rdKafkaPoll a (w.next + 1) 1000
          throw (.runtimeError "Failed to produce to topic")
        else
          rdKafkaPoll a (w.next + 1) 0
          let _ ← rdKafkaFlush a (w.next + 1) 1000
          rdKafkaDestroy a (w.next + 1)
          return "Persisted")
      (w.after 2 (reads 6 ++ openEvents a .producer w.next (produceSettingsOf p))) r w') :
    (a.producev = respErrNoError ∧ r = .ok "Persisted" ∧
      w' = w.after 2 (enqueueEvents a p w.next ++ deliverEvents a (w.next + 1))) ∨
    (a.producev ≠ respErrNoError ∧ r = .error (.runtimeError "Failed to produce to topic") ∧
      w' = w.after 2 (enqueueEvents a p w.next ++
        if a.producev = respErrQueueFull then [.poll (w.next + 1) 1000] else [])) := by
  have hevents : ∀ es : List Event, reads 6 ++ openEvents a .producer w.next (produceSettingsOf p) ++
      ([.confSetDrMsgCb w.next, .signal,
        .producev (w.next + 1) (cString 0 (p 1)) (p 4) (p 5) a.producev] ++ es) =
      enqueueEvents a p w.next ++ es := by
    intro es
    simp [enqueueEvents]
  simp only [rdKafkaConfSetDrMsgCb, rdKafkaProducev, bind_assoc, pure_bind, ends_emit_bind,
    World.after_after, List.append_assoc, List.cons_append, List.nil_append,
    List.take_length] at h
  have hworld := hevents []
  simp only [List.append_nil, List.append_assoc] at hworld
  rw [hworld] at h
  split at h
  next hbad =>
    refine Or.inr ⟨hbad, ?_⟩
    split at h
    next hfull =>
      rcases ends_bind.mp h with ⟨_, t, hpoll, h⟩ | ⟨e, hpoll, _⟩
      · obtain ⟨_, rfl⟩ := ends_rdKafkaPoll hpoll
        obtain ⟨rfl, rfl⟩ := ends_throw.mp h
        exact ⟨rfl, by simp [hfull, htr, outstanding_refused hbad]⟩
      · exact absurd (ends_rdKafkaPoll hpoll).1 (by simp)
    next hother =>
      obtain ⟨rfl, rfl⟩ := ends_throw.mp h
      exact ⟨rfl, by simp [hother]⟩
  next hgood =>
    have henq : a.producev = respErrNoError := not_not.mp hgood
    exact Or.inl ⟨henq, ends_deliver htr henq h⟩

def reported : Except Exit String → Except Exit String
  | .ok text => .ok text
  | .error e =>
    match e.what with
    | some what => .ok ("Exception: " ++ what)
    | none => .error e

theorem ends_produce {r : Except Exit String} (h : Ends (produce a paParams) w r w') :
    ∃ r₀, Ends (produceBody a paParams) w r₀ w' ∧ r = reported r₀ := by
  rcases ends_tryStd h with ⟨b, hbody, rfl⟩ | ⟨e, what, t, hw, hbody, hcatch⟩ | ⟨e, hw, hbody, rfl⟩
  · exact ⟨_, hbody, rfl⟩
  · obtain ⟨rfl, rfl⟩ := ends_pure.mp hcatch
    exact ⟨_, hbody, by simp [reported, hw]⟩
  · exact ⟨_, hbody, by simp [reported, hw]⟩

theorem produceBody_exit {r : Except Exit String} (htr : w.trace = [])
    (h : Ends (produceBody a paParams) w r w') :
    ProduceExit a paParams w (reported r) w' := by
  unfold produceBody at h
  rcases ends_bind.mp h with ⟨p, t, hp, h⟩ | ⟨e, hp, rfl⟩
  · rcases ends_decodeParams hp with ⟨p', hok, hdec, rfl⟩ | ⟨_, _, _, _, _, _, herr, _⟩
    · cases hok
      rcases ends_bind.mp h with ⟨⟨conf, rk⟩, u, ho, h⟩ | ⟨e, ho, rfl⟩
      · rcases ends_openClient ho with ⟨hnew, hacc, hok, rfl⟩ | ⟨_, _, _, _, _, _, herr, _⟩ |
          ⟨_, _, herr, _⟩
        · cases hok
          have hopen : Opened a paParams p := ⟨hdec, hacc, hnew⟩
          simp only [World.after_after, World.after_next] at h
          rcases ends_enqueue htr h with ⟨henq, rfl, rfl⟩ | ⟨hbad, rfl, rfl⟩
          · exact ProduceExit.persisted hopen henq
          · exact ProduceExit.notEnqueued hopen hbad
        · cases herr
        · cases herr
      · rcases ends_openClient ho with ⟨_, _, hok, _⟩ |
          ⟨before, s, rest, hl, hacc, hbad, herr, rfl⟩ | ⟨hnew, hacc, herr, rfl⟩
        · cases hok
        · cases herr
          simpa [reported, Exit.what] using ProduceExit.refused hdec hl hacc hbad
        · cases herr
          simpa [reported, Exit.what, produceSettingsOf] using
            ProduceExit.notCreated hdec hacc hnew
    · cases herr
  · rcases ends_decodeParams hp with ⟨_, hok, _, _⟩ | ⟨k, p, e', hk, hdec, hke, herr, rfl⟩
    · cases hok
    · cases herr
      cases hw : e.what with
      | none =>
        cases Exit.what_eq_none_iff.mp hw
        exact ProduceExit.unreadable hk hdec hke
      | some what =>
        simpa [reported, hw] using ProduceExit.undecodable hk hdec hke hw

theorem produce_exit {r : Except Exit String} (htr : w.trace = [])
    (h : Ends (produce a paParams) w r w') : ProduceExit a paParams w r w' := by
  obtain ⟨r₀, hbody, rfl⟩ := ends_produce h
  exact produceBody_exit htr hbody

theorem Accepted.produce {p q : Nat → Bytes} (h : Accepted a (produceSettingsOf p)) :
    Accepted a (produceSettingsOf q) := by
  simpa [Accepted, produceSettingsOf, produceSettings] using h

/-- The record is enqueued and the call says "Persisted", or it is refused, or there is
no client at all; the last two are told as exceptions. -/
theorem ProduceExit.cases {r : Except Exit String} (h : ProduceExit a paParams w r w') :
    (∃ p, Opened a paParams p ∧ a.producev = respErrNoError ∧ r = .ok "Persisted" ∧
      w' = w.after 2 (enqueueEvents a p w.next ++ deliverEvents a (w.next + 1))) ∨
    (∃ p, Opened a paParams p ∧ a.producev ≠ respErrNoError ∧
      r = .ok ("Exception: " ++ "Failed to produce to topic") ∧
      w' = w.after 2 (enqueueEvents a p w.next ++
        if a.producev = respErrQueueFull then [.poll (w.next + 1) 1000] else [])) ∨
    ((∀ p, ¬ Opened a paParams p) ∧
      (∃ k es, w' = w.after k es ∧ ∀ e ∈ es, e.early = true) ∧
      ((r = .error .fault ∧ ∃ i < 6, paramText a paParams i = .error .fault) ∨
        ∃ what, r = .ok ("Exception: " ++ what))) := by
  cases h with
  | unreadable hk _ herr =>
    refine Or.inr (Or.inr ⟨?_, ⟨_, _, rfl, early_reads _⟩, Or.inl ⟨rfl, _, hk, herr⟩⟩)
    intro p hopen
    rw [hopen.decoded _ hk] at herr
    cases herr
  | undecodable hk _ herr _ =>
    refine Or.inr (Or.inr ⟨?_, ⟨_, _, rfl, early_reads _⟩, Or.inr ⟨_, rfl⟩⟩)
    intro p hopen
    rw [hopen.decoded _ hk] at herr
    cases herr
  | @refused p before s rest _ hl _ hbad =>
    refine Or.inr (Or.inr ⟨?_, ⟨_, _, rfl, ?_⟩, Or.inr ⟨_, rfl⟩⟩)
    · intro q hopen
      have hmem : s ∈ produceSettingsOf p := hl ▸ List.mem_append_right _ List.mem_cons_self
      exact hbad (hopen.accepted.produce s hmem)
    · exact early_refused 6 _ _
  | notCreated _ _ hnew =>
    refine Or.inr (Or.inr ⟨?_, ⟨_, _, rfl, ?_⟩, Or.inr ⟨_, rfl⟩⟩)
    · intro q hopen
      rw [hopen.created] at hnew
      cases hnew
    · exact early_notCreated 6 _ _ _
  | notEnqueued hopen hbad => exact Or.inr (Or.inl ⟨_, hopen, hbad, rfl, rfl⟩)
  | persisted hopen henq => exact Or.inl ⟨_, hopen, henq, rfl, rfl⟩

/-- The record of an event that enqueues one, with its client. -/
def Event.enqueued : Event → Option (Handle × Bytes × Bytes × Bytes)
  | .producev rk topic key value err =>
    if err = respErrNoError then some (rk, topic, key, value) else none
  | _ => none

def Enqueues (a : Answers) (paParams : Nat → TVariant) : Prop :=
  (∃ p, Opened a paParams p) ∧ a.producev = respErrNoError

theorem ProduceExit.enqueued_none {r : Except Exit String} (h : ProduceExit a paParams w r w')
    (htr : w.trace = []) (hnot : ¬ Enqueues a paParams) :
    ∀ e ∈ w'.trace, e.enqueued = none := by
  intro e he
  rcases h.cases with ⟨p, hopen, henq, _⟩ | ⟨p, _, hbad, _, rfl⟩ | ⟨_, ⟨k, es, rfl, hearly⟩, _⟩
  · exact absurd ⟨⟨p, hopen⟩, henq⟩ hnot
  · rw [World.after_trace, htr, List.nil_append] at he
    rcases List.mem_append.mp he with he | he
    · rcases mem_enqueueEvents he with ⟨_, rfl⟩ | rfl | ⟨_, _, _, rfl⟩ | rfl | rfl | rfl | rfl
      all_goals first | rfl | exact if_neg hbad
    · split at he
      · cases List.mem_singleton.mp he
        rfl
      · cases he
  · rw [World.after_trace, htr, List.nil_append] at he
    have hquiet := hearly e he
    cases e <;> first | rfl | cases hquiet

theorem exception_ne_persisted (what : String) : "Exception: " ++ what ≠ "Persisted" := by
  intro h
  have hhead := congrArg (fun text : String => text.toList.head?) h
  simp at hhead

def produceTexts : List String :=
  "Persisted" :: (["std::bad_alloc", "wstring_convert::to_bytes",
    "error Failed to create new producer", "Failed to produce to topic"] ++
      (produceSettings [] [] []).map Setting.what).map ("Exception: " ++ ·)

theorem produceSettingsOf_what {p : Nat → Bytes} {s : Setting} (h : s ∈ produceSettingsOf p) :
    s.what ∈ (produceSettings [] [] []).map Setting.what := by
  have hsame : (produceSettingsOf p).map Setting.what =
      (produceSettings [] [] []).map Setting.what := rfl
  rw [← hsame]
  exact List.mem_map_of_mem h

theorem produce_text {text : String} (h : ProduceExit a paParams w (.ok text) w') :
    text ∈ produceTexts := by
  cases h with
  | undecodable _ _ herr hwhat =>
    rcases paramText_error herr with rfl | rfl | ⟨rfl, _⟩
    · cases hwhat
      simp [produceTexts]
    · cases hwhat
      simp [produceTexts]
    · cases hwhat
  | refused _ hl _ _ =>
    have hmem : _ ∈ produceSettingsOf _ := hl ▸ List.mem_append_right _ List.mem_cons_self
    have hwhat := produceSettingsOf_what hmem
    exact List.mem_cons_of_mem _ (List.mem_map_of_mem (List.mem_append_right _ hwhat))
  | notCreated _ _ _ => simp [produceTexts]
  | notEnqueued _ _ => simp [produceTexts]
  | persisted _ _ => simp [produceTexts]

/-- The texts are plain: short, without a zero byte, and only one of them reads
"Persisted". -/
theorem produceTexts_plain : ∀ text ∈ produceTexts, (ascii text).length < 2 ^ 32 - 1 ∧
    0 ∉ ascii text ∧ (ascii text = ascii "Persisted" → text = "Persisted") := by
  decide +kernel

end KafkaAddIn
