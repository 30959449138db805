import KafkaAddIn.Foundation.Runs
import Mathlib.Order.Lattice

namespace Foundation

/-- Which handle an event is about, and how it moves that handle on; `none` where the event
is out of place. -/
structure Typestate (E H S : Type) where
  subject : E → Option H
  start : S
  next : S → E → Option S

variable {E H S : Type} [LinearOrder H] {m : Typestate E H S} {n n' x : H} {t u : List E}

/-- The part of a trace that is about one handle. -/
def Typestate.about (m : Typestate E H S) (x : H) (t : List E) : List E :=
  t.filter fun e => m.subject e = some x

/-- Where a trace has brought a handle, unless an event was out of place. -/
def Typestate.state (m : Typestate E H S) (t : List E) (x : H) : Option S :=
  (m.about x t).foldlM m.next m.start

theorem Typestate.about_append (m : Typestate E H S) (x : H) (t u : List E) :
    m.about x (t ++ u) = m.about x t ++ m.about x u :=
  List.filter_append ..

theorem Typestate.about_eq_nil (hnone : ∀ e ∈ t, m.subject e ≠ some x) : m.about x t = [] := by
  apply List.filter_eq_nil_iff.mpr
  intro e he
  simpa using hnone e he

theorem Typestate.state_of_about_nil (hnil : m.about x t = []) : m.state t x = some m.start := by
  rw [Typestate.state, hnil]
  rfl

/-- The trace is about handles from `n` on and below `n'` only. -/
def Typestate.Within (m : Typestate E H S) (n n' : H) (t : List E) : Prop :=
  ∀ e ∈ t, ∀ x, m.subject e = some x → n ≤ x ∧ x < n'

theorem Typestate.Within.about_of_lt (ht : m.Within n n' t) (hx : x < n) : m.about x t = [] := by
  apply Typestate.about_eq_nil
  intro e he hsub
  have hle := (ht e he x hsub).1
  exact absurd hx (not_lt_of_ge hle)

theorem Typestate.Within.about_of_ge (ht : m.Within n n' t) (hx : n' ≤ x) : m.about x t = [] := by
  apply Typestate.about_eq_nil
  intro e he hsub
  have hlt := (ht e he x hsub).2
  exact absurd hx (not_le_of_gt hlt)

/-- The events of a trace that are about a handle are about `x`, which goes from one state to
the other by them. -/
structure Typestate.Leads (m : Typestate E H S) (x : H) (before : S) (t : List E) (after : S) :
    Prop where
  subject : ∀ e ∈ t, ∀ y, m.subject e = some y → y = x
  moves : (m.about x t).foldlM m.next before = some after

theorem Typestate.Leads.append {a b c : S} (h : m.Leads x a t b) (h' : m.Leads x b u c) :
    m.Leads x a (t ++ u) c := by
  refine ⟨?_, ?_⟩
  · intro e he
    exact (List.mem_append.mp he).elim (h.subject e) (h'.subject e)
  · rw [Typestate.about_append, List.foldlM_append, h.moves]
    exact h'.moves

theorem Typestate.leads_apart {a : S} (h : ∀ e ∈ t, m.subject e = none) : m.Leads x a t a := by
  refine ⟨?_, ?_⟩
  · intro e he y hy
    rw [h e he] at hy
    cases hy
  · have hnil : m.about x t = [] := by
      apply Typestate.about_eq_nil
      intro e he
      rw [h e he]
      exact nofun
    rw [hnil]
    rfl

theorem Typestate.leads_one {a b : S} {e : E} (hsub : m.subject e = some x)
    (hnext : m.next a e = some b) : m.Leads x a [e] b := by
  refine ⟨?_, ?_⟩
  · intro e' he' y hy
    rw [List.mem_singleton.mp he', hsub] at hy
    exact (Option.some.inj hy).symm
  · have hone : m.about x [e] = [e] := by
      simp [Typestate.about, hsub]
    rw [hone]
    simp [hnext]

/-- What a step does with its handles: it takes one new handle through a session at most, and
leaves it where `R` allows. -/
inductive Typestate.OneSession (m : Typestate E H S) (R : S → Prop) (n n' : H) (t : List E) : Prop
  | without : n ≤ n' → (∀ e ∈ t, m.subject e = none) → m.OneSession R n n' t
  | of {x : H} {last : S} : n ≤ x → x < n' → R last → m.Leads x m.start t last →
      m.OneSession R n n' t

variable {R : S → Prop}

theorem Typestate.OneSession.le (h : m.OneSession R n n' t) : n ≤ n' := by
  cases h with
  | without hle _ => exact hle
  | of hle hlt _ _ => exact le_trans hle (le_of_lt hlt)

theorem Typestate.OneSession.within (h : m.OneSession R n n' t) : m.Within n n' t := by
  intro e he y hy
  cases h with
  | without _ hnone =>
    rw [hnone e he] at hy
    cases hy
  | of hle hlt _ hleads =>
    rw [hleads.subject e he y hy]
    exact ⟨hle, hlt⟩

/-- A handle that the step is about has gone through the step's session. -/
theorem Typestate.OneSession.state (h : m.OneSession R n n' t) {x : H} (hx : m.about x t ≠ []) :
    ∃ last, m.state t x = some last ∧ R last := by
  cases h with
  | without _ hnone =>
    refine absurd (Typestate.about_eq_nil ?_) hx
    intro e he
    rw [hnone e he]
    exact nofun
  | @of y last _ _ hlast hleads =>
    have hsame : x = y := by
      by_contra hne
      refine hx (Typestate.about_eq_nil ?_)
      intro e he hsub
      exact hne (hleads.subject e he x hsub)
    rw [hsame]
    exact ⟨last, hleads.moves, hlast⟩

variable {σ α β : Type} {step : α → σ → Option (β × σ)} {start s : σ}
  {history : List (Entry σ α β)}

/-- When every step is about handles of its own, taken from a counter, what a run does with
a handle is what one of its steps does with it. -/
theorem Run.about_cases (counter : σ → H) (trace : β → List E)
    (hstep : ∀ a s b t, step a s = some (b, t) →
      counter s ≤ counter t ∧ m.Within (counter s) (counter t) (trace b))
    (h : Run step start history s) (x : H) :
    (counter s ≤ x → m.about x (history.flatMap fun e => trace e.outcome) = []) ∧
    (m.about x (history.flatMap fun e => trace e.outcome) = [] ∨
      ∃ e ∈ history, m.about x (history.flatMap fun e => trace e.outcome) =
        m.about x (trace e.outcome)) := by
  induction h with
  | nil => exact ⟨fun _ => rfl, Or.inl rfl⟩
  | @snoc history s t a b _ hs ih =>
    obtain ⟨hlater, hwhole⟩ := ih
    obtain ⟨hle, hwithin⟩ := hstep a s b t hs
    rw [List.flatMap_append, List.flatMap_singleton, Typestate.about_append]
    refine ⟨?_, ?_⟩
    · intro hx
      rw [hlater (le_trans hle hx), hwithin.about_of_ge hx, List.append_nil]
    · by_cases hx : x < counter s
      · rw [hwithin.about_of_lt hx, List.append_nil]
        rcases hwhole with hnil | ⟨e, he, hsame⟩
        · exact Or.inl hnil
        · exact Or.inr ⟨e, List.mem_append_left _ he, hsame⟩
      · rw [hlater (not_lt.mp hx), List.nil_append]
        exact Or.inr ⟨_, List.mem_append_right _ (List.mem_singleton.mpr rfl), rfl⟩

/-- Where every step takes one new handle through a session at most, all that a run does with a
handle, if anything, is done by one of its steps, and the run leaves the handle where that step
has left it. -/
theorem Run.sessions (counter : σ → H) (trace : β → List E) {R : Entry σ α β → S → Prop}
    (hstep : ∀ a s b t, step a s = some (b, t) →
      m.OneSession (R ⟨s, a, b, t⟩) (counter s) (counter t) (trace b))
    (h : Run step start history s) (x : H) :
    m.about x (history.flatMap fun e => trace e.outcome) = [] ∨
      ∃ e ∈ history, m.about x (trace e.outcome) ≠ [] ∧
        m.about x (history.flatMap fun e => trace e.outcome) = m.about x (trace e.outcome) ∧
        ∃ last, m.state (history.flatMap fun e => trace e.outcome) x = some last ∧ R e last := by
  have hentry : ∀ e ∈ history, m.about x (trace e.outcome) ≠ [] →
      ∃ last, m.state (trace e.outcome) x = some last ∧ R e last :=
    h.entry fun a s b t hs => (hstep a s b t hs).state
  have hwithin : ∀ a s b t, step a s = some (b, t) →
      counter s ≤ counter t ∧ m.Within (counter s) (counter t) (trace b) := by
    intro a s b t hs
    have hsession := hstep a s b t hs
    exact ⟨hsession.le, hsession.within⟩
  rcases (h.about_cases counter trace hwithin x).2 with hnil | ⟨e, he, hsame⟩
  · exact Or.inl hnil
  · by_cases hnone : m.about x (trace e.outcome) = []
    · exact Or.inl (hsame.trans hnone)
    · have hone : m.state (history.flatMap fun e => trace e.outcome) x =
          m.state (trace e.outcome) x := by
        rw [Typestate.state, Typestate.state, hsame]
      rw [hone]
      exact Or.inr ⟨e, he, hnone, hsame, hentry e he hnone⟩

end Foundation
