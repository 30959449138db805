import KafkaAddIn.Foundation.Runs

namespace Foundation

variable {σ α β : Type} {step : α → σ → Option (β × σ)} {start s : σ}
  {history : List (Entry σ α β)}

/-- Item `i` of a log was handed over by the step taken at position `i`. -/
def HandedOver (position : List (Entry σ α β) → Nat) (hands : Nat → Entry σ α β → Prop)
    (history : List (Entry σ α β)) (i : Nat) : Prop :=
  ∃ before e rest, history = before ++ e :: rest ∧ position before = i ∧ hands i e

/-- Every item behind the position was handed over. -/
def NoLoss (position : List (Entry σ α β) → Nat) (hands : Nat → Entry σ α β → Prop)
    (history : List (Entry σ α β)) : Prop :=
  ∀ i < position history, HandedOver position hands history i

/-- A step that moves the position on hands the item there over, unless an earlier step at
this position has done so. -/
def MovesAfterHandOver (position : List (Entry σ α β) → Nat) (hands : Nat → Entry σ α β → Prop)
    (before : List (Entry σ α β)) (e : Entry σ α β) : Prop :=
  position (before ++ [e]) = position before + 1 →
    hands (position before) e ∨ HandedOver position hands before (position before)

variable {position : List (Entry σ α β) → Nat} {hands : Nat → Entry σ α β → Prop}

theorem handedOver_snoc {e : Entry σ α β} {i : Nat} :
    HandedOver position hands (history ++ [e]) i ↔
      HandedOver position hands history i ∨ (position history = i ∧ hands i e) := by
  constructor
  · intro h
    obtain ⟨before, x, rest, hh, hpos, hx⟩ := h
    rcases List.eq_nil_or_concat rest with rfl | ⟨rest', last, rfl⟩
    · obtain ⟨rfl, he⟩ := List.append_inj' hh rfl
      cases List.singleton_inj.mp he
      exact Or.inr ⟨hpos, hx⟩
    · rw [List.concat_eq_append, ← List.cons_append, ← List.append_assoc] at hh
      exact Or.inl ⟨before, x, rest', (List.append_inj' hh rfl).1, hpos, hx⟩
  · intro h
    rcases h with ⟨before, x, rest, hh, hpos, hx⟩ | ⟨hpos, hx⟩
    · exact ⟨before, x, rest ++ [e], by simp [hh], hpos, hx⟩
    · exact ⟨history, e, [], rfl, hpos, hx⟩

theorem handedOver_congr {hands' : Nat → Entry σ α β → Prop}
    (h : Throughout (fun before e => hands (position before) e ↔ hands' (position before) e)
      history) {i : Nat} :
    HandedOver position hands history i ↔ HandedOver position hands' history i := by
  constructor
  · intro hover
    obtain ⟨before, e, rest, hh, rfl, he⟩ := hover
    exact ⟨before, e, rest, hh, rfl, (h before e rest hh).mp he⟩
  · intro hover
    obtain ⟨before, e, rest, hh, rfl, he⟩ := hover
    exact ⟨before, e, rest, hh, rfl, (h before e rest hh).mpr he⟩

theorem noLoss_congr {hands' : Nat → Entry σ α β → Prop}
    (h : Throughout (fun before e => hands (position before) e ↔ hands' (position before) e)
      history) : NoLoss position hands history ↔ NoLoss position hands' history := by
  constructor
  · intro hall i hi
    exact (handedOver_congr h).mp (hall i hi)
  · intro hall i hi
    exact (handedOver_congr h).mpr (hall i hi)

theorem noLoss_snoc {e : Entry σ α β} (hmove : position (history ++ [e]) = position history ∨
      position (history ++ [e]) = position history + 1) :
    NoLoss position hands (history ++ [e]) ↔
      NoLoss position hands history ∧ MovesAfterHandOver position hands history e := by
  have hearlier : ∀ i < position history, (HandedOver position hands (history ++ [e]) i ↔
      HandedOver position hands history i) := by
    intro i hi
    rw [handedOver_snoc]
    refine or_iff_left ?_
    intro h
    omega
  constructor
  · intro hall
    refine ⟨?_, ?_⟩
    · intro i hi
      exact (hearlier i hi).mp (hall i (by omega))
    · intro hon
      have hhere := hall (position history) (by omega)
      rw [handedOver_snoc] at hhere
      rcases hhere with hbefore | ⟨_, hnow⟩
      · exact Or.inr hbefore
      · exact Or.inl hnow
  · intro hboth i hi
    by_cases hlt : i < position history
    · exact (hearlier i hlt).mpr (hboth.1 i hlt)
    · -- Only a step that moves on puts item `i` behind the position.
      have hi' : i = position history := by omega
      subst hi'
      rw [handedOver_snoc]
      rcases hboth.2 (by omega) with hnow | hbefore
      · exact Or.inr ⟨rfl, hnow⟩
      · exact Or.inl hbefore

/-- When the position starts at zero and moves by single items, a run loses nothing exactly
when every step of it moves on only from what was handed over. -/
theorem Run.noLoss_iff (h0 : position [] = 0)
    (hstep : ∀ history s a b t, Run step start history s → step a s = some (b, t) →
      position (history ++ [⟨s, a, b, t⟩]) = position history ∨
      position (history ++ [⟨s, a, b, t⟩]) = position history + 1)
    (h : Run step start history s) :
    NoLoss position hands history ↔ Throughout (MovesAfterHandOver position hands) history := by
  induction h with
  | nil =>
    refine iff_of_true ?_ throughout_nil
    intro i hi
    rw [h0] at hi
    omega
  | @snoc history s t a b hrun hs ih =>
    rw [noLoss_snoc (hstep history s a b t hrun hs), throughout_snoc, ih]

end Foundation
