import KafkaAddIn.Acknowledgement
import KafkaAddIn.Foundation.Handles

namespace KafkaAddIn

open Foundation

variable {platform : Platform} {a : Answers} {paParams : Nat → TVariant} {c : HostCall}
  {s t : Process} {o : Outcome} {history : History}

def clients : Ownership Event Nat where
  acquires
    | .new _ _ rk => rk
    | _ => none
  releases
    | .destroy rk _ => some rk
    | _ => none

/-- A call of `consume` that gets as far as polling gets a record, and one of `produce`
that gets as far as enqueuing has its record taken. -/
structure ClosesClient (c : HostCall) : Prop where
  consume : ∀ paParams, c.op.calls .eConsume = some paParams →
    (∃ p, Subscribed c.answers paParams p) → ∃ record, c.answers.poll = some ⟨respErrNoError, record⟩
  produce : ∀ paParams, c.op.calls .eProduce = some paParams →
    (∃ p, Opened c.answers paParams p) → c.answers.producev = respErrNoError

/-- What a call does with clients; `n` and `n'` are the next handles before and after. -/
inductive ClientUse (c : HostCall) (n n' : Nat) (trace : List Event) : Prop
  | without : n ≤ n' → clients.acquired trace = [] → clients.released trace = [] →
      ClosesClient c → ClientUse c n n' trace
  | closed : n + 2 ≤ n' → clients.acquired trace = [n + 1] → clients.released trace = [n + 1] →
      ClosesClient c → ClientUse c n n' trace
  | left : n + 2 ≤ n' → clients.acquired trace = [n + 1] → clients.released trace = [] →
      ¬ ClosesClient c → ClientUse c n n' trace

theorem ClientUse.le {n n' : Nat} {trace : List Event} (h : ClientUse c n n' trace) :
    n ≤ n' := by
  cases h with
  | without hle => exact hle
  | closed hle => omega
  | left hle => omega

theorem ClientUse.handles {n n' : Nat} {trace : List Event} (h : ClientUse c n n' trace) :
    clients.From n trace ∧ clients.Below n' trace := by
  have hcase : ∀ x, x ∈ clients.acquired trace ∨ x ∈ clients.released trace →
      x = n + 1 ∧ n + 2 ≤ n' := by
    intro x hx
    cases h with
    | without _ hacq hrel => simp [hacq, hrel] at hx
    | closed hle hacq hrel => exact ⟨by simpa [hacq, hrel] using hx, hle⟩
    | left hle hacq hrel => exact ⟨by simpa [hacq, hrel] using hx, hle⟩
  refine ⟨?_, ?_⟩
  · intro x hx
    have heq := (hcase x hx).1
    omega
  · intro x hx
    have heq := hcase x hx
    omega

theorem ClientUse.settled_iff {n n' : Nat} {trace : List Event}
    (h : ClientUse c n n' trace) : clients.Settled trace ↔ ClosesClient c := by
  cases h with
  | without _ hacq _ hcloses =>
    refine iff_of_true ?_ hcloses
    intro x hx
    rw [hacq] at hx
    cases hx
  | closed _ hacq hrel hcloses =>
    refine iff_of_true ?_ hcloses
    intro x hx
    rw [hacq] at hx
    rw [hrel, List.mem_singleton.mp hx]
    simp
  | left _ hacq hrel hopen =>
    refine iff_of_false ?_ hopen
    intro hsettled
    have hone := hsettled (n + 1) (by simp [hacq])
    simp [hrel] at hone

theorem clients_ofHost {e : Event} (h : e.ofHost = true) :
    clients.acquires e = none ∧ clients.releases e = none := by
  cases e <;> first | exact ⟨rfl, rfl⟩ | cases h

theorem clients_early {e : Event} (h : e.early = true) :
    clients.acquires e = none ∧ clients.releases e = none := by
  cases e with
  | new type conf rk =>
    cases rk with
    | none => exact ⟨rfl, rfl⟩
    | some rk => cases h
  | _ => first | exact ⟨rfl, rfl⟩ | cases h

theorem clients_openEvents {type : ClientType} {n : Nat} {settings : List Setting} :
    clients.acquired (openEvents a type n settings) = [n + 1] ∧
      clients.released (openEvents a type n settings) = [] := by
  have hset := clients.idle fun e he => clients_early (early_settingEvents (a := a) n settings e he)
  have hnew : clients.acquired [.new type n (some (n + 1))] = [n + 1] ∧
      clients.released [.new type n (some (n + 1))] = [] := ⟨rfl, rfl⟩
  exact Ownership.append_eq hset hnew

theorem clients_subscribedEvents (p : Nat → Bytes) (n : Nat) :
    clients.acquired (subscribedEvents a p n) = [n + 1] ∧
      clients.released (subscribedEvents a p n) = [] := by
  have hreads := clients.idle fun e he => clients_early (early_reads 5 e he)
  have hsubscribe : clients.acquired (subscribeEvents a (n + 1) (n + 2) (p 1)) = [] ∧
      clients.released (subscribeEvents a (n + 1) (n + 2) (p 1)) = [] := ⟨rfl, rfl⟩
  exact Ownership.append_eq (Ownership.append_eq hreads clients_openEvents) hsubscribe

theorem clients_enqueueEvents (p : Nat → Bytes) (n : Nat) :
    clients.acquired (enqueueEvents a p n) = [n + 1] ∧
      clients.released (enqueueEvents a p n) = [] := by
  have hreads := clients.idle fun e he => clients_early (early_reads 6 e he)
  have hput : ∀ err, clients.acquired [.confSetDrMsgCb n, .signal,
        .producev (n + 1) (cString 0 (p 1)) (p 4) (p 5) err] = [] ∧
      clients.released [.confSetDrMsgCb n, .signal,
        .producev (n + 1) (cString 0 (p 1)) (p 4) (p 5) err] = [] := fun _ => ⟨rfl, rfl⟩
  exact Ownership.append_eq (Ownership.append_eq hreads clients_openEvents) (hput _)

theorem clients_deliverEvents (rk : Nat) :
    clients.acquired (deliverEvents a rk) = [] ∧ clients.released (deliverEvents a rk) = [rk] := by
  have hreport : ∀ arrival, clients.acquired (reportEvents a rk arrival) = [] ∧
      clients.released (reportEvents a rk arrival) = [] := by
    intro arrival
    unfold reportEvents
    split
    · split <;> exact ⟨rfl, rfl⟩
    · exact ⟨rfl, rfl⟩
  have hpoll : clients.acquired [.poll rk 0] = [] ∧ clients.released [.poll rk 0] = [] :=
    ⟨rfl, rfl⟩
  have hend : clients.acquired [.flush rk 1000 (flushErr a), .destroy rk a.destroyCommits] = [] ∧
      clients.released [.flush rk 1000 (flushErr a), .destroy rk a.destroyCommits] = [rk] :=
    ⟨rfl, rfl⟩
  have hreports := Ownership.append_eq (hreport .atPoll) (hreport .inFlush)
  have hall := Ownership.append_eq (Ownership.append_eq hpoll hreports) hend
  simpa [deliverEvents] using hall

theorem closesClient_consume (hc : c.op.calls .eConsume = some paParams) :
    ClosesClient c ↔ ((∃ p, Subscribed c.answers paParams p) →
      ∃ record, c.answers.poll = some ⟨respErrNoError, record⟩) := by
  constructor
  · intro h
    exact h.consume paParams hc
  · intro h
    refine ⟨?_, ?_⟩
    · intro ps hps
      rw [hc] at hps
      cases hps
      exact h
    · intro ps hps
      rw [Op.calls_other hc (by decide)] at hps
      cases hps

theorem closesClient_produce (hc : c.op.calls .eProduce = some paParams) :
    ClosesClient c ↔ ((∃ p, Opened c.answers paParams p) →
      c.answers.producev = respErrNoError) := by
  constructor
  · intro h
    exact h.produce paParams hc
  · intro h
    refine ⟨?_, ?_⟩
    · intro ps hps
      rw [Op.calls_other hc (by decide)] at hps
      cases hps
    · intro ps hps
      rw [hc] at hps
      cases hps
      exact h

theorem clientUse_consume (h : stepProcess platform c s = some (o, t))
    (hc : c.op.calls .eConsume = some paParams) : ClientUse c s.next t.next o.trace := by
  obtain ⟨r, w, hexit, htrace, rfl, _⟩ := consume_step h hc
  have hcloses := closesClient_consume hc
  rw [htrace]
  rcases hexit.cases with ⟨hnot, hle, es, hw, hes⟩ | ⟨hnot, hnext, p, hw⟩ |
    ⟨hnone, hle, p, es, hsub, hw, hes⟩ | ⟨record, hpoll, hnext, p, es, hsub, hw, hes⟩
  · have huse := clients.idle fun e he => clients_early (hes e he)
    rw [hw]
    refine ClientUse.without hle huse.1 huse.2 (hcloses.mpr ?_)
    intro hsub
    obtain ⟨p, hsub⟩ := hsub
    exact absurd hsub (hnot p)
  · have hend : clients.acquired [.listDestroy (s.next + 2),
          .destroy (s.next + 1) c.answers.destroyCommits] = [] ∧
        clients.released [.listDestroy (s.next + 2),
          .destroy (s.next + 1) c.answers.destroyCommits] = [s.next + 1] := ⟨rfl, rfl⟩
    have huse := Ownership.append_eq (clients_subscribedEvents (a := c.answers) p s.next) hend
    have hroom : s.next + 2 ≤ w.next := hnext ▸ Nat.le_succ _
    rw [hw]
    refine ClientUse.closed hroom huse.1 huse.2 (hcloses.mpr ?_)
    intro hsub
    obtain ⟨p, hsub⟩ := hsub
    exact absurd hsub (hnot p)
  · have hrest : clients.acquired es = [] ∧ clients.released es = [] := by
      rcases hes with rfl | ⟨rkm, _, rfl⟩ <;> exact ⟨rfl, rfl⟩
    have huse := Ownership.append_eq (clients_subscribedEvents (a := c.answers) p s.next) hrest
    rw [hw]
    refine ClientUse.left (Nat.le_trans (Nat.le_succ _) hle) huse.1 huse.2 ?_
    intro hall
    obtain ⟨record, hpoll⟩ := hcloses.mp hall ⟨p, hsub⟩
    exact hnone record hpoll
  · have hclose : clients.acquired (closeEvents c.answers (s.next + 1) (s.next + 3) record) =
          [] ∧
        clients.released (closeEvents c.answers (s.next + 1) (s.next + 3) record) =
          [s.next + 1] := ⟨rfl, rfl⟩
    have hrest : clients.acquired es = [] ∧ clients.released es = [] :=
      clients.idle fun e he => by rw [hes e he]; exact ⟨rfl, rfl⟩
    have hopen := Ownership.append_eq (clients_subscribedEvents (a := c.answers) p s.next) hclose
    have huse := Ownership.append_eq hopen hrest
    have hroom : s.next + 2 ≤ w.next := hnext ▸ Nat.le_add_right _ 2
    rw [hw]
    exact ClientUse.closed hroom huse.1 huse.2 (hcloses.mpr fun _ => ⟨record, hpoll⟩)

theorem clientUse_produce (h : stepProcess platform c s = some (o, t))
    (hc : c.op.calls .eProduce = some paParams) : ClientUse c s.next t.next o.trace := by
  obtain ⟨r, w, es, hexit, htrace, hes, hnext, _⟩ := produce_step h hc
  have hcloses := closesClient_produce hc
  have hhost := clients.idle fun e he => clients_ofHost (hes e he)
  rw [htrace, hnext]
  rcases hexit.cases with ⟨p, _, henq, _, rfl⟩ | ⟨p, hopen, hbad, _, rfl⟩ |
    ⟨hnot, ⟨k, early, rfl, hearly⟩, _⟩
  · have hdone := Ownership.append_eq (clients_enqueueEvents (a := c.answers) p s.next)
      (clients_deliverEvents (a := c.answers) (s.next + 1))
    have huse := Ownership.append_eq hdone hhost
    exact ClientUse.closed (Nat.le_refl _) huse.1 huse.2 (hcloses.mpr fun _ => henq)
  · have hpoll : clients.acquired (if c.answers.producev = respErrQueueFull then
          [.poll (s.next + 1) 1000] else []) = [] ∧
        clients.released (if c.answers.producev = respErrQueueFull then
          [.poll (s.next + 1) 1000] else []) = [] := by
      split <;> exact ⟨rfl, rfl⟩
    have hopened := Ownership.append_eq (clients_enqueueEvents (a := c.answers) p s.next) hpoll
    have huse := Ownership.append_eq hopened hhost
    exact ClientUse.left (Nat.le_refl _) huse.1 huse.2 fun hall => hbad (hcloses.mp hall ⟨p, hopen⟩)
  · have huse := Ownership.append_eq (clients.idle fun e he => clients_early (hearly e he)) hhost
    refine ClientUse.without (Nat.le_add_right _ _) huse.1 huse.2 (hcloses.mpr ?_)
    intro hopen
    obtain ⟨p, hopen⟩ := hopen
    exact absurd hopen (hnot p)

theorem clientUse_step (h : stepProcess platform c s = some (o, t)) :
    ClientUse c s.next t.next o.trace := by
  cases hc : c.op.calls .eConsume with
  | some ps => exact clientUse_consume h hc
  | none =>
    cases hp : c.op.calls .eProduce with
    | some ps => exact clientUse_produce h hp
    | none =>
      obtain ⟨hnext, hquiet⟩ := quiet_step h hc hp
      have huse := clients.idle fun e he => clients_ofHost (hquiet e he)
      refine ClientUse.without (Nat.le_of_eq hnext.symm) huse.1 huse.2 ⟨?_, ?_⟩
      · intro ps hps
        rw [hc] at hps
        cases hps
      · intro ps hps
        rw [hp] at hps
        cases hps

def History.trace (history : History) : List Event := history.flatMap fun e => e.outcome.trace

/-- A client is destroyed on some of the ways out and on others not: every call destroys
the one it has made exactly once, and none is left between calls, exactly when every poll
gives a record and every record is enqueued. -/
theorem clientsSettled_iff (h : ProcessRun platform history s) :
    ((∀ e ∈ history, clients.Settled e.outcome.trace) ∧ clients.Settled history.trace ∧
      ∀ rk, ¬ clients.Live history.trace rk) ↔ ∀ e ∈ history, ClosesClient e.call := by
  have hentry : (∀ e ∈ history, clients.Settled e.outcome.trace) ↔
      ∀ e ∈ history, ClosesClient e.call := by
    apply h.forall_entry_iff
    intro c s o t hs
    exact (clientUse_step hs).settled_iff
  have hwhole : clients.Settled history.trace ↔ ∀ e ∈ history, clients.Settled e.outcome.trace :=
    h.settled_iff Process.next Outcome.trace fun _ _ _ _ hs =>
      ⟨(clientUse_step hs).le, (clientUse_step hs).handles⟩
  constructor
  · intro hall
    exact hentry.mp hall.1
  · intro hall
    have hsettled := hentry.mpr hall
    have htrace := hwhole.mpr hsettled
    exact ⟨hsettled, htrace, htrace.not_live⟩

theorem clientsSettled_oneRecord :
    let run := execCalls (newObject 0 ++ [consumeCall 0 hiAnswers])
    ((∀ e ∈ run.1, clients.Settled e.outcome.trace) ∧ clients.Settled (History.trace run.1) ∧
      ∀ rk, ¬ clients.Live (History.trace run.1) rk) ↔ ∀ e ∈ run.1, ClosesClient e.call :=
  clientsSettled_iff (run_execFrom Run.nil _)

theorem timedOut_left :
    let run := execCalls (newObject 0 ++ [consumeCall 0 {}])
    ProcessRun .other run.1 run.2 ∧ run.2.dead = false ∧
      ¬ ((∀ e ∈ run.1, clients.Settled e.outcome.trace) ∧ clients.Settled (History.trace run.1) ∧
        ∀ rk, ¬ clients.Live (History.trace run.1) rk) := by
  intro run
  refine ⟨run_execFrom Run.nil _, by decide +kernel, ?_⟩
  intro h
  have hlive : clients.Live (History.trace run.1) 1 := by
    unfold Ownership.Live
    decide +kernel
  exact h.2.2 1 hlive

end KafkaAddIn
