import KafkaAddIn.Foundation.Runs
import Mathlib.Order.Lattice

namespace Foundation

/-- Which handle an event gives out, and which one it takes back. -/
structure Ownership (E H : Type) where
  acquires : E → Option H
  releases : E → Option H

variable {E H : Type}

def Ownership.acquired (o : Ownership E H) (t : List E) : List H := t.filterMap o.acquires

def Ownership.released (o : Ownership E H) (t : List E) : List H := t.filterMap o.releases

theorem Ownership.acquired_append (o : Ownership E H) (t u : List E) :
    o.acquired (t ++ u) = o.acquired t ++ o.acquired u :=
  List.filterMap_append

theorem Ownership.released_append (o : Ownership E H) (t u : List E) :
    o.released (t ++ u) = o.released t ++ o.released u :=
  List.filterMap_append

theorem Ownership.append_eq {o : Ownership E H} {t u : List E} {acq rel acq' rel' : List H}
    (ht : o.acquired t = acq ∧ o.released t = rel)
    (hu : o.acquired u = acq' ∧ o.released u = rel') :
    o.acquired (t ++ u) = acq ++ acq' ∧ o.released (t ++ u) = rel ++ rel' := by
  rw [o.acquired_append, o.released_append, ht.1, ht.2, hu.1, hu.2]
  exact ⟨rfl, rfl⟩

theorem Ownership.idle (o : Ownership E H) {t : List E}
    (h : ∀ e ∈ t, o.acquires e = none ∧ o.releases e = none) :
    o.acquired t = [] ∧ o.released t = [] :=
  ⟨List.filterMap_eq_nil_iff.mpr fun e he => (h e he).1,
    List.filterMap_eq_nil_iff.mpr fun e he => (h e he).2⟩

variable [LinearOrder H] {o : Ownership E H} {t u : List E} {n : H}

def Ownership.Live (o : Ownership E H) (t : List E) (h : H) : Prop :=
  h ∈ o.acquired t ∧ h ∉ o.released t

/-- Every handle given out has been taken back exactly once. -/
def Ownership.Settled (o : Ownership E H) (t : List E) : Prop :=
  ∀ h ∈ o.acquired t, (o.released t).count h = 1

def Ownership.Below (o : Ownership E H) (n : H) (t : List E) : Prop :=
  ∀ h, h ∈ o.acquired t ∨ h ∈ o.released t → h < n

def Ownership.From (o : Ownership E H) (n : H) (t : List E) : Prop :=
  ∀ h, h ∈ o.acquired t ∨ h ∈ o.released t → n ≤ h

theorem Ownership.Settled.not_live (h : o.Settled t) (x : H) : ¬ o.Live t x := by
  intro hlive
  have hone := h x hlive.1
  rw [List.count_eq_zero.mpr hlive.2] at hone
  omega

theorem Ownership.Below.append {m : H} (ht : o.Below n t) (hnm : n ≤ m) (hu : o.Below m u) :
    o.Below m (t ++ u) := by
  intro h hmem
  rw [o.acquired_append, o.released_append, List.mem_append, List.mem_append] at hmem
  rcases hmem with (hmem | hmem) | (hmem | hmem)
  · exact lt_of_lt_of_le (ht h (Or.inl hmem)) hnm
  · exact hu h (Or.inl hmem)
  · exact lt_of_lt_of_le (ht h (Or.inr hmem)) hnm
  · exact hu h (Or.inr hmem)

/-- What comes later with handles of its own settles nothing of what came before. -/
theorem Ownership.settled_append (ht : o.Below n t) (hu : o.From n u) :
    o.Settled (t ++ u) ↔ o.Settled t ∧ o.Settled u := by
  have hleft : ∀ h ∈ o.acquired t, (o.released (t ++ u)).count h = (o.released t).count h := by
    intro h hmem
    have hlt := ht h (Or.inl hmem)
    have hout : h ∉ o.released u := fun hrel => absurd (hu h (Or.inr hrel)) (not_le_of_gt hlt)
    rw [o.released_append, List.count_append, List.count_eq_zero.mpr hout, Nat.add_zero]
  have hright : ∀ h ∈ o.acquired u, (o.released (t ++ u)).count h = (o.released u).count h := by
    intro h hmem
    have hle := hu h (Or.inl hmem)
    have hout : h ∉ o.released t := fun hrel => absurd hle (not_le_of_gt (ht h (Or.inr hrel)))
    rw [o.released_append, List.count_append, List.count_eq_zero.mpr hout, Nat.zero_add]
  constructor
  · intro hall
    refine ⟨?_, ?_⟩
    · intro h hmem
      rw [← hleft h hmem]
      exact hall h (o.acquired_append t u ▸ List.mem_append_left _ hmem)
    · intro h hmem
      rw [← hright h hmem]
      exact hall h (o.acquired_append t u ▸ List.mem_append_right _ hmem)
  · intro hboth h hmem
    rw [o.acquired_append] at hmem
    rcases List.mem_append.mp hmem with hmem | hmem
    · rw [hleft h hmem]
      exact hboth.1 h hmem
    · rw [hright h hmem]
      exact hboth.2 h hmem

variable {σ α β : Type} {step : α → σ → Option (β × σ)} {start s : σ}
  {history : List (Entry σ α β)}

/-- When every step takes its handles from a counter, a run settles them all exactly when
each of its steps settles its own. -/
theorem Run.settled_iff (counter : σ → H) (trace : β → List E)
    (hstep : ∀ a s b t, step a s = some (b, t) → counter s ≤ counter t ∧
      o.From (counter s) (trace b) ∧ o.Below (counter t) (trace b))
    (h : Run step start history s) :
    o.Settled (history.flatMap fun e => trace e.outcome) ↔
      ∀ e ∈ history, o.Settled (trace e.outcome) := by
  have hboth : o.Below (counter s) (history.flatMap fun e => trace e.outcome) ∧
      (o.Settled (history.flatMap fun e => trace e.outcome) ↔
        ∀ e ∈ history, o.Settled (trace e.outcome)) := by
    induction h with
    | nil => exact ⟨by simp [Ownership.Below, Ownership.acquired, Ownership.released],
        by simp [Ownership.Settled, Ownership.acquired]⟩
    | @snoc history s t a b _ hs ih =>
      obtain ⟨hbelow, hiff⟩ := ih
      obtain ⟨hle, hfrom, hlast⟩ := hstep a s b t hs
      simp only [List.flatMap_append, List.flatMap_singleton]
      refine ⟨hbelow.append hle hlast, ?_⟩
      rw [Ownership.settled_append hbelow hfrom, hiff]
      constructor
      · intro hall e he
        rcases List.mem_append.mp he with he | he
        · exact hall.1 e he
        · rw [List.mem_singleton.mp he]
          exact hall.2
      · intro hall
        refine ⟨fun e he => hall e (List.mem_append_left _ he), ?_⟩
        exact hall _ (List.mem_append_right _ (List.mem_singleton.mpr rfl))
  exact hboth.2

/-- Handles of one kind, with the one an event is made on. -/
structure Protocol (E H : Type) extends Ownership E H where
  uses : E → Option H

/-- Every handle given out is taken back exactly once, and nothing uses it from then on. -/
structure Protocol.Kept (p : Protocol E H) (t : List E) : Prop where
  settled : p.Settled t
  noUseAfter : t.Pairwise fun e e' => ∀ h, p.releases e = some h → p.uses e' ≠ some h

variable {p : Protocol E H} {h : H} {e : E} {post : List E}

theorem Protocol.kept_of_idle (hidle : ∀ e ∈ t, p.acquires e = none ∧ p.releases e = none) :
    p.Kept t := by
  refine ⟨?_, ?_⟩
  · intro h hmem
    rw [(p.idle hidle).1] at hmem
    cases hmem
  · apply List.pairwise_of_forall_mem_list
    intro e he e' _ h hrel
    rw [(hidle e he).2] at hrel
    cases hrel

/-- One handle given out in `t`, taken back by `e` and never used again. -/
theorem Protocol.kept_of_lifetime (hacq : p.acquired t = [h])
    (hopen : ∀ e ∈ t, p.releases e = none) (hend : p.acquires e = none)
    (hrel : p.releases e = some h)
    (hpost : ∀ e ∈ post, p.acquires e = none ∧ p.releases e = none ∧ p.uses e ≠ some h) :
    p.Kept (t ++ e :: post) := by
  obtain ⟨hacq', hrel'⟩ := p.idle fun e he => ⟨(hpost e he).1, (hpost e he).2.1⟩
  have hnone : p.released t = [] := List.filterMap_eq_nil_iff.mpr hopen
  refine ⟨?_, ?_⟩
  · have hall : p.acquired (t ++ e :: post) = [h] := by
      have htail : p.acquired (e :: post) = p.acquired post := List.filterMap_cons_none hend
      rw [p.acquired_append, hacq, htail, hacq', List.append_nil]
    have hback : p.released (t ++ e :: post) = [h] := by
      have htail : p.released (e :: post) = h :: p.released post := List.filterMap_cons_some hrel
      rw [p.released_append, hnone, htail, hrel', List.nil_append]
    intro x hx
    rw [hall, List.mem_singleton] at hx
    rw [hback, hx]
    simp
  · rw [List.pairwise_append]
    refine ⟨?_, ?_, ?_⟩
    · apply List.pairwise_of_forall_mem_list
      intro x hx y _ h' hx'
      rw [hopen x hx] at hx'
      cases hx'
    · rw [List.pairwise_cons]
      refine ⟨?_, ?_⟩
      · intro y hy h' hh'
        rw [hrel] at hh'
        cases hh'
        exact (hpost y hy).2.2
      · apply List.pairwise_of_forall_mem_list
        intro x hx y _ h' hx'
        rw [(hpost x hx).2.1] at hx'
        cases hx'
    · intro x hx y _ h' hx'
      rw [hopen x hx] at hx'
      cases hx'

theorem Protocol.Kept.released (hkept : p.Kept t) (hmem : h ∈ p.acquired t) :
    h ∈ p.released t := by
  have hone := hkept.settled h hmem
  by_contra hnot
  rw [List.count_eq_zero.mpr hnot] at hone
  omega

theorem Protocol.Kept.not_used {t' : List E} {e' : E} (hkept : p.Kept (t ++ t')) (he : e ∈ t)
    (he' : e' ∈ t') (hrel : p.releases e = some h) : p.uses e' ≠ some h :=
  (List.pairwise_append.mp hkept.noUseAfter).2.2 e he e' he' h hrel

end Foundation
