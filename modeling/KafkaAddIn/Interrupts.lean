import KafkaAddIn.ClientLifetime
import KafkaAddIn.Acknowledgement

namespace KafkaAddIn

open Foundation

variable {platform : Platform} {c : HostCall} {s t : Process} {o : Outcome} {history : History}
  {paParams : Nat → TVariant} {resets : Bool} {x y : Console} {mixed rest : List Happening}

/-- What becomes of a SIGINT. -/
inductive Disposition
  /-- The host's own handler has it. -/
  | host
  | stop
  /-- The process ends. -/
  | default
  deriving DecidableEq, Repr

/-- The host's process as far as `stop` reaches. -/
structure Console where
  disposition : Disposition := .host
  run : Int := 1
  /-- How often `fclose(stdin)` has been called; only the first time there is a stream to close. -/
  closes : Nat := 0
  /-- The interrupts that the host has had. -/
  hostTook : Nat := 0
  deriving DecidableEq, Repr

/-- A step of a call, or an interrupt of the user. -/
inductive Happening
  | made (e : Event)
  | sigint
  deriving DecidableEq, Repr

def Happening.event : Happening → Option Event
  | .made e => some e
  | .sigint => none

/-- `signal(SIGINT, stop)` -/
def Console.set (x : Console) : Console := { x with disposition := .stop }

def Console.stop (x : Console) : Console := { x with run := 0, closes := x.closes + 1 }

theorem Console.set_disposition (x : Console) : x.set.disposition ≠ .host := nofun

@[simp] theorem Console.stop_disposition (x : Console) : x.stop.disposition = x.disposition := rfl

@[simp] theorem Console.stop_closes (x : Console) : x.stop.closes = x.closes + 1 := rfl

@[simp] theorem Console.stop_run (x : Console) : x.stop.run = 0 := rfl

@[simp] theorem Console.stop_hostTook (x : Console) : x.stop.hostTook = x.hostTook := rfl

/-- Some systems put the default back before they call a handler that `signal` has set. -/
def Console.after (resets : Bool) (x : Console) : Happening → Option Console
  | .made .signal => some x.set
  | .made _ => some x
  | .sigint =>
    match x.disposition with
    | .host => some { x with hostTook := x.hostTook + 1 }
    | .stop => some { x with disposition := if resets then .default else .stop }.stop
    | .default => none

def Console.exec (resets : Bool) (x : Console) (mixed : List Happening) : Option Console :=
  mixed.foldlM (Console.after resets) x

theorem Console.exec_cons (h : Happening) :
    x.exec resets (h :: rest) = (x.after resets h).bind fun y => y.exec resets rest :=
  List.foldlM_cons

theorem Console.exec_append :
    x.exec resets (mixed ++ rest) = (x.exec resets mixed).bind fun y => y.exec resets rest :=
  List.foldlM_append

theorem count_sigint_made (e : Event) :
    (Happening.made e :: rest).count .sigint = rest.count .sigint := by
  rw [List.count_cons, if_neg (by simp), Nat.add_zero]

theorem Console.after_made {e : Event} (he : e ≠ .signal) :
    x.after resets (.made e) = some x := by
  cases e <;> first | rfl | exact absurd rfl he

def Console.told (x : Console) (n : Nat) : Console := { x with hostTook := x.hostTook + n }

theorem Console.told_told (m n : Nat) : (x.told m).told n = x.told (m + n) := by
  simp [Console.told, Nat.add_assoc]

/-- Until the handler is set the host has every interrupt. -/
theorem Console.exec_unset (resets : Bool) (hx : x.disposition = .host)
    (hunset : .made .signal ∉ mixed) :
    x.exec resets mixed = some (x.told (mixed.count .sigint)) := by
  induction mixed generalizing x with
  | nil => rfl
  | cons h mixed ih =>
    have hrest : .made .signal ∉ mixed := fun hm => hunset (List.mem_cons_of_mem h hm)
    rw [Console.exec_cons]
    cases h with
    | made e =>
      have he : e ≠ .signal := by
        rintro rfl
        exact hunset List.mem_cons_self
      rw [Console.after_made he, Option.bind_some, ih hx hrest, count_sigint_made]
    | sigint =>
      have htook : x.after resets .sigint = some (x.told 1) := by
        simp [Console.after, hx, Console.told]
      have hlater := ih (x := x.told 1) hx hrest
      rw [htook, Option.bind_some, hlater, Console.told_told, List.count_cons_self, Nat.add_comm]

/-- An interrupt comes before the handler is set again. -/
def Exposed (late : List Happening) : Prop :=
  ∃ a c, late = a ++ .sigint :: c ∧ .made .signal ∉ a

/-- Two interrupts come without the handler being set between them. -/
def Unguarded (late : List Happening) : Prop :=
  ∃ a c, late = a ++ .sigint :: c ∧ Exposed c

theorem not_exposed_nil : ¬ Exposed [] := by
  rintro ⟨a, c, h, _⟩
  simp at h

theorem not_unguarded_nil : ¬ Unguarded [] := by
  rintro ⟨a, c, h, _⟩
  simp at h

theorem exposed_made {e : Event} : Exposed (.made e :: rest) ↔ e ≠ .signal ∧ Exposed rest := by
  constructor
  · rintro ⟨a, c, h, ha⟩
    cases a with
    | nil => cases h
    | cons k a =>
      obtain ⟨rfl, hrest⟩ := List.cons.inj h
      refine ⟨?_, a, c, hrest, fun hm => ha (List.mem_cons_of_mem _ hm)⟩
      rintro rfl
      exact ha List.mem_cons_self
  · rintro ⟨he, a, c, rfl, ha⟩
    refine ⟨.made e :: a, c, rfl, ?_⟩
    intro hm
    rcases List.mem_cons.mp hm with hsame | hm
    · exact he (Happening.made.inj hsame).symm
    · exact ha hm

theorem exposed_sigint : Exposed (.sigint :: rest) := ⟨[], rest, rfl, List.not_mem_nil⟩

theorem unguarded_made {e : Event} : Unguarded (.made e :: rest) ↔ Unguarded rest := by
  constructor
  · rintro ⟨a, c, h, hc⟩
    cases a with
    | nil => cases h
    | cons k a => exact ⟨a, c, (List.cons.inj h).2, hc⟩
  · rintro ⟨a, c, rfl, hc⟩
    exact ⟨.made e :: a, c, rfl, hc⟩

theorem unguarded_sigint : Unguarded (.sigint :: rest) ↔ Exposed rest ∨ Unguarded rest := by
  constructor
  · rintro ⟨a, c, h, hc⟩
    cases a with
    | nil => exact Or.inl ((List.cons.inj h).2 ▸ hc)
    | cons k a => exact Or.inr ⟨a, c, (List.cons.inj h).2, hc⟩
  · rintro (hexposed | ⟨a, c, rfl, hc⟩)
    · exact ⟨[], rest, rfl, hexposed⟩
    · exact ⟨.sigint :: a, c, rfl, hc⟩

/-- Once the handler has been set, the process ends by the interrupts that find the default
back. -/
theorem Console.exec_isSome (hx : x.disposition ≠ .host) :
    (x.exec resets mixed).isSome = true ↔
      (x.disposition = .default → ¬ Exposed mixed) ∧ (resets = true → ¬ Unguarded mixed) := by
  induction mixed generalizing x with
  | nil => exact iff_of_true rfl ⟨fun _ => not_exposed_nil, fun _ => not_unguarded_nil⟩
  | cons h mixed ih =>
    rw [Console.exec_cons]
    cases h with
    | made e =>
      rw [exposed_made, unguarded_made]
      by_cases he : e = .signal
      · subst he
        have hset := ih x.set_disposition
        simpa [Console.after, Console.set] using hset
      · rw [Console.after_made he, Option.bind_some, ih hx]
        simp [he]
    | sigint =>
      rw [unguarded_sigint]
      cases hd : x.disposition with
      | host => exact absurd hd hx
      | default => simp [Console.after, hd, exposed_sigint]
      | stop =>
        have hran : x.after resets .sigint =
            some { x with disposition := if resets then .default else .stop }.stop := by
          simp [Console.after, hd]
        rw [hran, Option.bind_some]
        cases resets with
        | false =>
          have hlater := ih (x := { x with disposition := .stop }.stop) (by simp)
          simpa using hlater
        | true =>
          have hlater := ih (x := { x with disposition := .default }.stop) (by simp)
          simpa [not_or] using hlater

/-- The handler has had all the interrupts since it was first set, and the host none of them. -/
theorem Console.exec_taken (hx : x.disposition ≠ .host) (h : x.exec resets mixed = some y) :
    y.hostTook = x.hostTook ∧ y.closes = x.closes + mixed.count .sigint ∧
      y.run = if mixed.count .sigint = 0 then x.run else 0 := by
  induction mixed generalizing x with
  | nil =>
    cases Option.some.inj h
    exact ⟨rfl, rfl, rfl⟩
  | cons k mixed ih =>
    rw [Console.exec_cons] at h
    cases k with
    | made e =>
      rw [count_sigint_made]
      by_cases he : e = .signal
      · subst he
        have hset : x.set.exec resets mixed = some y := h
        exact ih (x := x.set) x.set_disposition hset
      · rw [Console.after_made he, Option.bind_some] at h
        exact ih hx h
    | sigint =>
      cases hd : x.disposition with
      | host => exact absurd hd hx
      | default =>
        simp [Console.after, hd] at h
      | stop =>
        have hlater : ({ x with disposition := if resets then .default else .stop }.stop).exec
            resets mixed = some y := by
          simpa [Console.after, hd] using h
        have hset : (if resets then Disposition.default else .stop) ≠ .host := by
          cases resets <;> simp
        obtain ⟨htook, hcloses, hrun⟩ := ih hset hlater
        rw [List.count_cons_self]
        refine ⟨htook, ?_, ?_⟩
        · rw [hcloses, Console.stop_closes]
          show x.closes + 1 + _ = _
          omega
        · rw [hrun, if_neg (Nat.succ_ne_zero _)]
          exact ite_self 0

/-- What is left when the host has had `before` interrupts and the handler `after`. -/
structure Console.Shows (x : Console) (before after : Nat) : Prop where
  host : x.hostTook = before
  closed : x.closes = after
  flag : x.run = if after = 0 then 1 else 0

/-- Where the interrupts go that come before and after the handler is first set. -/
theorem Console.exec_set {early : List Happening} (resets : Bool) (late : List Happening)
    (hearly : .made .signal ∉ early) :
    ((Console.exec resets {} (early ++ .made .signal :: late)).isSome = true ↔
      ¬ (resets = true ∧ Unguarded late)) ∧
    ∀ y, Console.exec resets {} (early ++ .made .signal :: late) = some y →
      y.Shows (early.count .sigint) (late.count .sigint) := by
  have hfirst := Console.exec_unset (x := {}) resets rfl hearly
  rw [Console.exec_append, hfirst, Option.bind_some, Console.exec_cons]
  change ((Console.exec resets (Console.told {} (early.count .sigint)).set late).isSome = true ↔
    _) ∧ ∀ y, Console.exec resets (Console.told {} (early.count .sigint)).set late = some y → _
  refine ⟨?_, ?_⟩
  · rw [Console.exec_isSome (Console.set_disposition _), not_and]
    exact and_iff_right fun h => by cases h
  · intro y hy
    obtain ⟨htook, hcloses, hrun⟩ := Console.exec_taken (Console.set_disposition _) hy
    refine ⟨?_, ?_, hrun⟩
    · rw [htook]
      exact Nat.zero_add _
    · rw [hcloses]
      exact Nat.zero_add _

/-- A client for sending is made in the call. -/
def HostCall.OpensProducer (c : HostCall) : Prop :=
  ∃ paParams p, c.op.calls .eProduce = some paParams ∧ Opened c.answers paParams p

theorem signal_not_early {e : Event} (h : e.early = true) : e ≠ .signal := by
  rintro rfl
  cases h

theorem signal_not_ofHost {e : Event} (h : e.ofHost = true) : e ≠ .signal := by
  rintro rfl
  cases h

theorem signal_notMem_subscribedEvents {a : Answers} (p : Nat → Bytes) (n : Handle) :
    .signal ∉ subscribedEvents a p n := by
  simp [subscribedEvents, reads, openEvents, settingEvents, subscribeEvents]

/-- `consume` does not touch it. -/
theorem ConsumeExit.signal_notMem {a : Answers} {w w' : World} {r : Except Exit Bool}
    (h : ConsumeExit a paParams w r w') (hw : w.trace = []) : .signal ∉ w'.trace := by
  intro he
  rcases h.cases with ⟨_, _, es, htrace, hes⟩ | ⟨_, _, p, htrace⟩ | ⟨_, _, p, es, _, htrace, hes⟩ |
    ⟨record, _, _, p, es, _, htrace, hes⟩
  · rw [htrace, hw, List.nil_append] at he
    exact signal_not_early (hes _ he) rfl
  · rw [htrace, hw, List.nil_append] at he
    rcases List.mem_append.mp he with he | he
    · exact signal_notMem_subscribedEvents p _ he
    · simp at he
  · rw [htrace, hw, List.nil_append] at he
    rcases List.mem_append.mp he with he | he
    · exact signal_notMem_subscribedEvents p _ he
    · rcases hes with rfl | ⟨_, _, rfl⟩ <;> simp at he
  · rw [htrace, hw, List.nil_append] at he
    rcases List.mem_append.mp he with he | he
    · rcases List.mem_append.mp he with he | he
      · exact signal_notMem_subscribedEvents p _ he
      · simp [closeEvents] at he
    · cases hes _ he

/-- It is then that the component takes SIGINT over. -/
theorem signal_mem_iff (h : stepProcess platform c s = some (o, t)) :
    .signal ∈ o.trace ↔ c.OpensProducer := by
  cases hc : c.op.calls .eProduce with
  | some ps =>
    obtain ⟨r, w, es, hexit, htrace, hes, _⟩ := produce_step h hc
    rw [htrace, List.mem_append]
    rcases hexit.cases with ⟨p, hopen, _, _, rfl⟩ | ⟨p, hopen, _, _, rfl⟩ |
      ⟨hnot, ⟨k, early, rfl, hearly⟩, _⟩
    · exact iff_of_true (Or.inl (by simp [enqueueEvents])) ⟨ps, p, hc, hopen⟩
    · exact iff_of_true (Or.inl (by simp [enqueueEvents])) ⟨ps, p, hc, hopen⟩
    · refine iff_of_false ?_ ?_
      · rintro (he | he)
        · exact signal_not_early (hearly _ he) rfl
        · exact signal_not_ofHost (hes _ he) rfl
      · rintro ⟨ps', p, hps, hopen⟩
        cases hc.symm.trans hps
        exact hnot p hopen
  | none =>
    refine iff_of_false ?_ ?_
    · intro he
      cases hcons : c.op.calls .eConsume with
      | some ps =>
        obtain ⟨r, w, hexit, htrace, _⟩ := consume_step h hcons
        rw [htrace] at he
        exact hexit.signal_notMem rfl he
      | none => exact signal_not_ofHost ((quiet_step h hcons hc).2 _ he) rfl
    · rintro ⟨ps, p, hps, _⟩
      cases hc.symm.trans hps

/-- The steps of a run with interrupts anywhere between them. -/
def Mixed (mixed : List Happening) (history : History) : Prop :=
  mixed.filterMap Happening.event = history.trace

theorem signal_mem_run (h : ProcessRun platform history s) :
    .signal ∈ history.trace ↔ ∃ e ∈ history, e.call.OpensProducer := by
  have hentry : ∀ e ∈ history, (.signal ∈ e.outcome.trace ↔ e.call.OpensProducer) :=
    h.entry fun c s o t hs => signal_mem_iff hs
  constructor
  · intro he
    obtain ⟨e, hin, hsignal⟩ := List.mem_flatMap.mp he
    exact ⟨e, hin, (hentry e hin).mp hsignal⟩
  · rintro ⟨e, hin, hopens⟩
    exact List.mem_flatMap.mpr ⟨e, hin, (hentry e hin).mpr hopens⟩

theorem made_mem_iff (hmixed : Mixed mixed history) (e : Event) :
    .made e ∈ mixed ↔ e ∈ history.trace := by
  rw [← hmixed, List.mem_filterMap]
  constructor
  · intro hm
    exact ⟨_, hm, rfl⟩
  · rintro ⟨k, hk, he⟩
    cases k with
    | made e' =>
      cases Option.some.inj he
      exact hk
    | sigint => cases he

/-- The first call that opens a client for sending divides what happens: up to the handler's
being set in this call, and from there on. -/
theorem split_at_signal {before later : History} {e : Entry Process HostCall Outcome}
    (h : ProcessRun platform history s) (hmixed : Mixed mixed history)
    (hh : history = before ++ e :: later) (hno : ∀ e' ∈ before, ¬ e'.call.OpensProducer)
    (hopens : e.call.OpensProducer) :
    ∃ early late pre post, mixed = early ++ .made .signal :: late ∧ .made .signal ∉ early ∧
      e.outcome.trace = pre ++ .signal :: post ∧
      early.filterMap Happening.event = History.trace before ++ pre ∧
      late.filterMap Happening.event = post ++ History.trace later := by
  obtain ⟨hrun, hstep⟩ := h.split hh
  obtain ⟨pre, post, htrace, hfirst⟩ :=
    List.eq_append_cons_of_mem ((signal_mem_iff hstep).mpr hopens)
  have hbefore : .signal ∉ History.trace before := by
    rw [signal_mem_run hrun]
    rintro ⟨e', he', hopens'⟩
    exact hno e' he' hopens'
  have hwhole : mixed.filterMap Happening.event =
      (History.trace before ++ pre) ++ .signal :: (post ++ History.trace later) := by
    rw [hmixed, hh]
    simp [History.trace, htrace]
  obtain ⟨first, last, hmix, hfront, hback⟩ := List.filterMap_eq_append_iff.mp hwhole
  obtain ⟨quiet, k, late, hlast, hquiet, hk, hlate⟩ := List.filterMap_eq_cons_iff.mp hback
  have hset : k = .made .signal := by
    cases k with
    | made e' =>
      cases Option.some.inj hk
      rfl
    | sigint => cases hk
  have hearly : (first ++ quiet).filterMap Happening.event = History.trace before ++ pre := by
    rw [List.filterMap_append, hfront, List.filterMap_eq_nil_iff.mpr hquiet, List.append_nil]
  refine ⟨first ++ quiet, late, pre, post, ?_, ?_, htrace, hearly, hlate⟩
  · rw [hmix, hlast, hset, List.append_assoc]
  · intro hm
    have hin : .signal ∈ (first ++ quiet).filterMap Happening.event :=
      List.mem_filterMap.mpr ⟨_, hm, rfl⟩
    rw [hearly] at hin
    exact (List.mem_append.mp hin).elim hbefore hfirst

/-- Wherever the interrupts of a user come in, during a call or between two: the host has those
up to the point where a call of `produce` first opens a client, and all of them if none does.
From there on they run `stop`, each closing the standard input, and the process is ended by
them only where the system takes the handler away and no further call sets it in time. -/
theorem interrupts_survived (h : ProcessRun platform history s) (hmixed : Mixed mixed history)
    (resets : Bool) :
    ((∀ e ∈ history, ¬ e.call.OpensProducer) →
      ∃ y, Console.exec resets {} mixed = some y ∧ y.Shows (mixed.count .sigint) 0) ∧
    ∀ before e later, history = before ++ e :: later →
      (∀ e' ∈ before, ¬ e'.call.OpensProducer) → e.call.OpensProducer →
      ∃ early late pre post, mixed = early ++ .made .signal :: late ∧ .made .signal ∉ early ∧
        e.outcome.trace = pre ++ .signal :: post ∧
        early.filterMap Happening.event = History.trace before ++ pre ∧
        late.filterMap Happening.event = post ++ History.trace later ∧
        ((Console.exec resets {} mixed).isSome = true ↔ ¬ (resets = true ∧ Unguarded late)) ∧
        ∀ y, Console.exec resets {} mixed = some y →
          y.Shows (early.count .sigint) (late.count .sigint) := by
  refine ⟨?_, ?_⟩
  · intro hno
    have hunset : .made .signal ∉ mixed := by
      rw [made_mem_iff hmixed, signal_mem_run h]
      rintro ⟨e, he, hopens⟩
      exact hno e he hopens
    refine ⟨_, Console.exec_unset resets rfl hunset, ?_, rfl, rfl⟩
    exact Nat.zero_add _
  · intro before e later hh hno hopens
    obtain ⟨early, late, pre, post, hmix, hearly, htrace, hfront, hback⟩ :=
      split_at_signal h hmixed hh hno hopens
    obtain ⟨hlives, hshows⟩ := Console.exec_set resets late hearly
    rw [← hmix] at hlives hshows
    exact ⟨early, late, pre, post, hmix, hearly, htrace, hfront, hback, hlives, hshows⟩

/-- One call of `produce`, with an interrupt before it and two behind it. -/
def interruptedProduce : History × Process :=
  execCalls (newObject 0 ++ [produceCall 0 { delivery := some ⟨.inFlush, 0⟩ }])

def interruptedMix : List Happening :=
  .sigint :: interruptedProduce.1.trace.map .made ++ [.sigint, .sigint]

theorem interrupts_survived_produce :
    ((∀ e ∈ interruptedProduce.1, ¬ e.call.OpensProducer) →
      ∃ y, Console.exec true {} interruptedMix = some y ∧
        y.Shows (interruptedMix.count .sigint) 0) ∧
    ∀ before e later, interruptedProduce.1 = before ++ e :: later →
      (∀ e' ∈ before, ¬ e'.call.OpensProducer) → e.call.OpensProducer →
      ∃ early late pre post, interruptedMix = early ++ .made .signal :: late ∧
        .made .signal ∉ early ∧ e.outcome.trace = pre ++ .signal :: post ∧
        early.filterMap Happening.event = History.trace before ++ pre ∧
        late.filterMap Happening.event = post ++ History.trace later ∧
        ((Console.exec true {} interruptedMix).isSome = true ↔ ¬ (true = true ∧ Unguarded late)) ∧
        ∀ y, Console.exec true {} interruptedMix = some y →
          y.Shows (early.count .sigint) (late.count .sigint) := by
  refine interrupts_survived (run_execFrom Run.nil _) ?_ true
  have hmade : ∀ es : List Event, (es.map Happening.made).filterMap Happening.event = es := by
    intro es
    rw [List.filterMap_map]
    exact List.filterMap_some
  have hmix : interruptedMix.filterMap Happening.event = interruptedProduce.1.trace := by
    have hfirst := hmade interruptedProduce.1.trace
    rw [interruptedMix, List.filterMap_append]
    exact (List.append_nil _).trans hfirst
  exact hmix

example : (Console.exec false {} interruptedMix).map (fun y => (y.hostTook, y.closes, y.run)) =
    some (1, 2, 0) := by
  decide +kernel

example : Console.exec true {} interruptedMix = none := by
  decide +kernel

end KafkaAddIn
