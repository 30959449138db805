import Mathlib.Tactic.Common
import Mathlib.Data.List.Forall2

namespace Foundation

variable {σ α β : Type}

/-- A step that was taken: the call, what it gave, and the states around it. -/
structure Entry (σ α β : Type) where
  before : σ
  call : α
  outcome : β
  after : σ

/-- Runs of a machine from `start`, with the steps taken so far. A machine that
gives `none` cannot take the call. -/
inductive Run (step : α → σ → Option (β × σ)) (start : σ) : List (Entry σ α β) → σ → Prop
  | nil : Run step start [] start
  | snoc {history : List (Entry σ α β)} {s t : σ} {a : α} {b : β} :
      Run step start history s → step a s = some (b, t) →
      Run step start (history ++ [⟨s, a, b, t⟩]) t

variable {step : α → σ → Option (β × σ)} {start s : σ} {history : List (Entry σ α β)}

/-- Makes the calls one after the other, after what is done already; one that cannot be
taken is left out. -/
def execFrom (step : α → σ → Option (β × σ)) (done : List (Entry σ α β) × σ) :
    List α → List (Entry σ α β) × σ
  | [] => done
  | a :: calls =>
    match step a done.2 with
    | some (b, t) => execFrom step (done.1 ++ [⟨done.2, a, b, t⟩], t) calls
    | none => execFrom step done calls

theorem run_execFrom {done : List (Entry σ α β) × σ} (h : Run step start done.1 done.2)
    (calls : List α) :
    Run step start (execFrom step done calls).1 (execFrom step done calls).2 := by
  induction calls generalizing done with
  | nil => exact h
  | cons a calls ih =>
    unfold execFrom
    split
    next b t hs => exact ih (Run.snoc h hs)
    next => exact ih h

theorem execFrom_append (done : List (Entry σ α β) × σ) (calls rest : List α) :
    execFrom step done (calls ++ rest) = execFrom step (execFrom step done calls) rest := by
  induction calls generalizing done with
  | nil => rfl
  | cons a calls ih =>
    simp only [List.cons_append, execFrom]
    cases step a done.2 with
    | none => exact ih _
    | some p => exact ih _

theorem length_execFrom_le (done : List (Entry σ α β) × σ) (calls : List α) :
    (execFrom step done calls).1.length ≤ done.1.length + calls.length := by
  induction calls generalizing done with
  | nil => exact Nat.le_refl _
  | cons a calls ih =>
    simp only [execFrom, List.length_cons]
    cases step a done.2 with
    | none =>
      have hrest := ih done
      show (execFrom step done calls).1.length ≤ _
      omega
    | some p =>
      have hrest := ih (done.1 ++ [⟨done.2, a, p.1, p.2⟩], p.2)
      show (execFrom step _ calls).1.length ≤ _
      simp only [List.length_append, List.length_cons, List.length_nil] at hrest
      omega

theorem map_call_execFrom {done : List (Entry σ α β) × σ} {calls : List α}
    (h : (execFrom step done calls).1.length = done.1.length + calls.length) :
    (execFrom step done calls).1.map Entry.call = done.1.map Entry.call ++ calls := by
  induction calls generalizing done with
  | nil => simp [execFrom]
  | cons a calls ih =>
    simp only [execFrom, List.length_cons] at h ⊢
    cases hs : step a done.2 with
    | none =>
      simp only [hs] at h
      have hle : (execFrom step done calls).1.length ≤ done.1.length + calls.length :=
        length_execFrom_le done calls
      omega
    | some p =>
      simp only [hs] at h
      have hall := @ih (done.1 ++ [⟨done.2, a, p.1, p.2⟩], p.2) (by
        simp only [List.length_append, List.length_cons, List.length_nil] at h ⊢
        omega)
      simpa using hall

theorem Run.execFrom_calls (h : Run step start history s) :
    execFrom step ([], start) (history.map Entry.call) = (history, s) := by
  induction h with
  | nil => rfl
  | @snoc history s t a b _ hs ih =>
    rw [List.map_append, List.map_singleton, execFrom_append, ih]
    simp only [execFrom, hs]

theorem Run.history_invariant {I : List (Entry σ α β) → σ → Prop} (h0 : I [] start)
    (hstep : ∀ history s a b t, Run step start history s → I history s →
      step a s = some (b, t) → I (history ++ [⟨s, a, b, t⟩]) t)
    (h : Run step start history s) : I history s := by
  induction h with
  | nil => exact h0
  | snoc hrun hs ih => exact hstep _ _ _ _ _ hrun ih hs

theorem Run.entry_of_invariant {I : σ → Prop} {P : Entry σ α β → Prop} (h0 : I start)
    (hstep : ∀ a s b t, I s → step a s = some (b, t) → I t ∧ P ⟨s, a, b, t⟩)
    (h : Run step start history s) : ∀ e ∈ history, P e := by
  have hboth : I s ∧ ∀ e ∈ history, P e := by
    refine h.history_invariant (I := fun history s => I s ∧ ∀ e ∈ history, P e)
      ⟨h0, by simp⟩ ?_
    intro history s a b t _ hi hs
    obtain ⟨ht, hp⟩ := hstep a s b t hi.1 hs
    refine ⟨ht, ?_⟩
    intro e he
    rcases List.mem_append.mp he with he | he
    · exact hi.2 e he
    · rw [List.mem_singleton.mp he]
      exact hp
  exact hboth.2

theorem Run.entry {P : Entry σ α β → Prop}
    (hstep : ∀ a s b t, step a s = some (b, t) → P ⟨s, a, b, t⟩)
    (h : Run step start history s) : ∀ e ∈ history, P e :=
  h.entry_of_invariant (I := fun _ => True) trivial
    fun a s b t _ hs => ⟨trivial, hstep a s b t hs⟩

/-- Two conditions that come to the same for every step come to the same for a run. -/
theorem Run.forall_entry_iff {P Q : Entry σ α β → Prop}
    (hstep : ∀ a s b t, step a s = some (b, t) → (P ⟨s, a, b, t⟩ ↔ Q ⟨s, a, b, t⟩))
    (h : Run step start history s) : (∀ e ∈ history, P e) ↔ ∀ e ∈ history, Q e := by
  have hentry : ∀ e ∈ history, (P e ↔ Q e) := h.entry hstep
  exact forall₂_congr hentry

theorem Run.split {before rest : List (Entry σ α β)} {e : Entry σ α β}
    (h : Run step start history s) (hh : history = before ++ e :: rest) :
    Run step start before e.before ∧ step e.call e.before = some (e.outcome, e.after) := by
  induction h generalizing rest with
  | nil => simp at hh
  | @snoc history s t a b hrun hs ih =>
    rcases List.eq_nil_or_concat rest with rfl | ⟨rest', last, rfl⟩
    · obtain ⟨rfl, he⟩ := List.append_inj' hh rfl
      cases List.singleton_inj.mp he
      exact ⟨hrun, hs⟩
    · rw [List.concat_eq_append, ← List.cons_append, ← List.append_assoc] at hh
      exact ih (List.append_inj' hh rfl).1

section Throughout

variable {ε : Type} {C : List ε → ε → Prop} {xs : List ε}

/-- A condition put on every step of a history, given the steps before it. -/
def Throughout (C : List ε → ε → Prop) (history : List ε) : Prop :=
  ∀ before e rest, history = before ++ e :: rest → C before e

theorem throughout_nil : Throughout C [] := by
  intro before e rest h
  simp at h

theorem throughout_snoc {e : ε} : Throughout C (xs ++ [e]) ↔ Throughout C xs ∧ C xs e := by
  constructor
  · intro h
    refine ⟨?_, h xs e [] rfl⟩
    intro before e' rest hh
    exact h before e' (rest ++ [e]) (by simp [hh])
  · rintro ⟨hall, hlast⟩ before e' rest hh
    rcases List.eq_nil_or_concat rest with rfl | ⟨rest', last, rfl⟩
    · obtain ⟨rfl, he⟩ := List.append_inj' hh rfl
      cases List.singleton_inj.mp he
      exact hlast
    · rw [List.concat_eq_append, ← List.cons_append, ← List.append_assoc] at hh
      exact hall before e' rest' (List.append_inj' hh rfl).1

theorem Throughout.left {ys : List ε} (h : Throughout C (xs ++ ys)) : Throughout C xs := by
  intro before e rest hh
  exact h before e (rest ++ ys) (by simp [hh])

theorem throughout_of_take (h : ∀ i (hi : i < xs.length), C (xs.take i) xs[i]) :
    Throughout C xs := by
  intro before e rest hh
  subst hh
  have hlast := h before.length (by simp)
  rw [List.take_left] at hlast
  simpa using hlast

end Throughout

theorem map_call_eq {P : Entry σ α β → Entry σ α β → Prop} {history' : List (Entry σ α β)}
    (h : List.Forall₂ (fun e e' => e'.call = e.call ∧ P e e') history history') :
    history'.map Entry.call = history.map Entry.call := by
  induction h with
  | nil => rfl
  | cons hhead _ ih => rw [List.map_cons, List.map_cons, ih, hhead.1]

/-- Two runs in step: the second makes only the calls that `keep` picks, and the
relation `R` between the states, given the history of the first, carries over every
step. Then the second run exists, and its steps match the picked ones as `Obs` asks. -/
theorem Run.purge (keep : α → Bool) (R : List (Entry σ α β) → σ → σ → Prop)
    (Obs : Entry σ α β → Entry σ α β → Prop) {C : List (Entry σ α β) → Entry σ α β → Prop}
    (h0 : R [] start start)
    (hkeep : ∀ history s s' a b t, Run step start history s → R history s s' → keep a = true →
      step a s = some (b, t) → C history ⟨s, a, b, t⟩ →
      ∃ b' t', step a s' = some (b', t') ∧ R (history ++ [⟨s, a, b, t⟩]) t t' ∧
        Obs ⟨s, a, b, t⟩ ⟨s', a, b', t'⟩)
    (hdrop : ∀ history s s' a b t, Run step start history s → R history s s' →
      keep a = false → step a s = some (b, t) → C history ⟨s, a, b, t⟩ →
      R (history ++ [⟨s, a, b, t⟩]) t s')
    (h : Run step start history s) (hC : Throughout C history) :
    ∃ history' s', Run step start history' s' ∧ R history s s' ∧
      List.Forall₂ (fun e e' => e'.call = e.call ∧ Obs e e')
        (history.filter fun e => keep e.call) history' := by
  induction h with
  | nil => exact ⟨[], start, Run.nil, h0, by simp⟩
  | @snoc history s t a b hrun hs ih =>
    obtain ⟨hbefore, hlast⟩ := throughout_snoc.mp hC
    obtain ⟨history', s', hrun', hR, hmatch⟩ := ih hbefore
    cases hk : keep a with
    | true =>
      obtain ⟨b', t', hs', hR', hobs⟩ := hkeep history s s' a b t hrun hR hk hs hlast
      refine ⟨history' ++ [⟨s', a, b', t'⟩], t', Run.snoc hrun' hs', hR', ?_⟩
      have hnew : List.Forall₂ (fun e e' : Entry σ α β => e'.call = e.call ∧ Obs e e')
          [⟨s, a, b, t⟩] [⟨s', a, b', t'⟩] :=
        List.Forall₂.cons ⟨rfl, hobs⟩ List.Forall₂.nil
      simpa [List.filter_append, hk] using List.rel_append hmatch hnew
    | false =>
      refine ⟨history', s', hrun', hdrop history s s' a b t hrun hR hk hs hlast, ?_⟩
      simpa [List.filter_append, hk] using hmatch

/-- Forward simulation: every step comes to some operations of another machine, whose state is
read off the run through `view`. So does a run, and the two agree after each of its steps. -/
theorem Run.simulates {τ γ : Type} {apply : τ → γ → Option τ} {view : List (Entry σ α β) → τ}
    {Matches : Entry σ α β → List γ → Prop}
    (hstep : ∀ before e rest, history = before ++ e :: rest → Run step start before e.before →
      step e.call e.before = some (e.outcome, e.after) →
      ∃ ops, ops.foldlM apply (view before) = some (view (before ++ [e])) ∧ Matches e ops)
    (h : Run step start history s) :
    ∃ opss, List.Forall₂ Matches history opss ∧ ∀ before rest, history = before ++ rest →
      (opss.take before.length).flatten.foldlM apply (view []) = some (view before) := by
  induction h with
  | nil =>
    refine ⟨[], List.Forall₂.nil, ?_⟩
    intro before rest hh
    obtain ⟨rfl, _⟩ := List.append_eq_nil_iff.mp hh.symm
    rfl
  | @snoc history s t a b hrun hs ih =>
    obtain ⟨opss, hmatch, hexec⟩ := ih fun before e rest hh =>
      hstep before e (rest ++ [⟨s, a, b, t⟩]) (by simp [hh])
    obtain ⟨ops, hops, hlast⟩ := hstep history ⟨s, a, b, t⟩ [] rfl hrun hs
    have hlen : history.length = opss.length := hmatch.length_eq
    have hwhole : opss.flatten.foldlM apply (view []) = some (view history) := by
      have hall := hexec history [] (List.append_nil history).symm
      rwa [hlen, List.take_length] at hall
    refine ⟨opss ++ [ops], List.rel_append hmatch (List.Forall₂.cons hlast List.Forall₂.nil), ?_⟩
    intro before rest hh
    rcases List.eq_nil_or_concat rest with rfl | ⟨rest', last, rfl⟩
    · rw [List.append_nil] at hh
      have htake : (opss ++ [ops]).take before.length = opss ++ [ops] := by
        rw [← hh, List.length_append, hlen]
        exact List.take_of_length_le (by simp)
      rw [htake, List.flatten_append, List.foldlM_append, hwhole, ← hh]
      simpa using hops
    · rw [List.concat_eq_append, ← List.append_assoc] at hh
      obtain ⟨hh, _⟩ := List.append_inj' hh rfl
      have hle : before.length ≤ opss.length := by
        rw [← hlen, hh, List.length_append]
        exact Nat.le_add_right _ _
      rw [List.take_append_of_le_length hle]
      exact hexec before rest' hh

/-- Calls that do the same to the state as those of a run can be made in their place. -/
theorem Run.replay {L : α → α → Prop} {O : β → β → Prop}
    (hstep : ∀ a a' s b t, L a a' → step a s = some (b, t) →
      ∃ b', step a' s = some (b', t) ∧ O b b')
    (h : Run step start history s) {calls : List α}
    (hlike : List.Forall₂ L (history.map Entry.call) calls) :
    ∃ history', Run step start history' s ∧ history'.map Entry.call = calls ∧
      List.Forall₂ (fun e e' => O e.outcome e'.outcome) history history' := by
  induction h generalizing calls with
  | nil =>
    cases hlike
    exact ⟨[], Run.nil, rfl, List.Forall₂.nil⟩
  | @snoc history s t a b _ hs ih =>
    rw [List.map_append, List.map_singleton] at hlike
    have hflip := hlike.flip
    have hbefore := (List.forall₂_take_append _ _ _ hflip).flip
    have hlast := List.forall₂_drop_append _ _ _ hflip
    obtain ⟨a', rest, ha, hrest, hdrop⟩ := List.forall₂_cons_right_iff.mp hlast
    cases hrest
    obtain ⟨history', hrun', hcalls, hmatch⟩ := ih hbefore
    obtain ⟨b', hs', hO⟩ := hstep a a' s b t ha hs
    refine ⟨history' ++ [⟨s, a', b', t⟩], Run.snoc hrun' hs', ?_, ?_⟩
    · rw [List.map_append, List.map_singleton, hcalls, ← hdrop, List.take_append_drop]
    · exact List.rel_append hmatch (List.Forall₂.cons hO List.Forall₂.nil)

end Foundation
