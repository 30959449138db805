import Mathlib.Tactic.Common

namespace Foundation

variable {σ ε α β : Type}

/-- `x` started in `s` ends with `r` in `s'`. A thrown exception is a result
like any other, and the state it leaves behind is kept. -/
def Ends (x : ExceptT ε (StateM σ) α) (s : σ) (r : Except ε α) (s' : σ) : Prop :=
  x.run s = (r, s')

theorem ends_run (x : ExceptT ε (StateM σ) α) (s : σ) : Ends x s (x.run s).1 (x.run s).2 := rfl

theorem Ends.unique {x : ExceptT ε (StateM σ) α} {s : σ} {r r' : Except ε α} {t t' : σ}
    (h : Ends x s r t) (h' : Ends x s r' t') : r = r' ∧ t = t' :=
  Prod.mk.inj (h.symm.trans h')

/-- A program that can end in one way only ends so. -/
theorem Ends.of_only {x : ExceptT ε (StateM σ) α} {s s₀ : σ} {r₀ : Except ε α}
    (h : ∀ r t, Ends x s r t → r = r₀ ∧ t = s₀) : Ends x s r₀ s₀ := by
  obtain ⟨hr, hs⟩ := h _ _ (ends_run x s)
  rw [← hr, ← hs]
  exact ends_run x s

theorem ends_iff_of_run {x : ExceptT ε (StateM σ) α} {s s₀ : σ} {r₀ : Except ε α}
    (h : x.run s = (r₀, s₀)) {r : Except ε α} {s' : σ} :
    Ends x s r s' ↔ r = r₀ ∧ s' = s₀ := by
  constructor
  · intro hx
    exact Ends.unique hx h
  · rintro ⟨rfl, rfl⟩
    exact h

theorem ends_pure {a : α} {s s' : σ} {r : Except ε α} :
    Ends (pure a : ExceptT ε (StateM σ) α) s r s' ↔ r = .ok a ∧ s' = s :=
  ends_iff_of_run rfl

theorem ends_throw {e : ε} {s s' : σ} {r : Except ε α} :
    Ends (throw e : ExceptT ε (StateM σ) α) s r s' ↔ r = .error e ∧ s' = s :=
  ends_iff_of_run rfl

theorem ends_get {s s' : σ} {r : Except ε σ} :
    Ends (get : ExceptT ε (StateM σ) σ) s r s' ↔ r = .ok s ∧ s' = s :=
  ends_iff_of_run rfl

theorem ends_modify {f : σ → σ} {s s' : σ} {r : Except ε PUnit} :
    Ends (modify f : ExceptT ε (StateM σ) PUnit) s r s' ↔ r = .ok ⟨⟩ ∧ s' = f s :=
  ends_iff_of_run rfl

theorem run_bind_ok {x : ExceptT ε (StateM σ) α} {f : α → ExceptT ε (StateM σ) β} {s t : σ}
    {a : α} (hx : Ends x s (.ok a) t) : (x >>= f).run s = (f a).run t := by
  have hx' : x s = (.ok a, t) := hx
  simp only [bind, ExceptT.bind, ExceptT.mk, ExceptT.run, StateT.bind, hx']
  rfl

theorem run_bind_error {x : ExceptT ε (StateM σ) α} {f : α → ExceptT ε (StateM σ) β} {s t : σ}
    {e : ε} (hx : Ends x s (.error e) t) : (x >>= f).run s = (.error e, t) := by
  have hx' : x s = (.error e, t) := hx
  simp only [bind, ExceptT.bind, ExceptT.mk, ExceptT.run, StateT.bind, hx']
  rfl

theorem run_tryCatch_ok {x : ExceptT ε (StateM σ) α} {f : ε → ExceptT ε (StateM σ) α} {s t : σ}
    {a : α} (hx : Ends x s (.ok a) t) : (tryCatch x f).run s = (.ok a, t) := by
  have hx' : x s = (.ok a, t) := hx
  simp only [tryCatch, tryCatchThe, MonadExceptOf.tryCatch, ExceptT.tryCatch, ExceptT.mk,
    ExceptT.run, bind, StateT.bind, hx']
  rfl

theorem run_tryCatch_error {x : ExceptT ε (StateM σ) α} {f : ε → ExceptT ε (StateM σ) α}
    {s t : σ} {e : ε} (hx : Ends x s (.error e) t) : (tryCatch x f).run s = (f e).run t := by
  have hx' : x s = (.error e, t) := hx
  simp only [tryCatch, tryCatchThe, MonadExceptOf.tryCatch, ExceptT.tryCatch, ExceptT.mk,
    ExceptT.run, bind, StateT.bind, hx']

/-- Running `x` and then `f`: either `x` returns and `f` goes on from there, or
`x` throws and nothing after it runs. -/
theorem ends_bind {x : ExceptT ε (StateM σ) α} {f : α → ExceptT ε (StateM σ) β} {s s' : σ}
    {r : Except ε β} :
    Ends (x >>= f) s r s' ↔
      (∃ a t, Ends x s (.ok a) t ∧ Ends (f a) t r s') ∨
      (∃ e, Ends x s (.error e) s' ∧ r = .error e) := by
  rcases hx : x.run s with ⟨e | a, t⟩
  · have hbind : (x >>= f).run s = (.error e, t) := run_bind_error hx
    constructor
    · intro h
      obtain ⟨rfl, rfl⟩ := Ends.unique h hbind
      exact Or.inr ⟨e, hx, rfl⟩
    · rintro (⟨a, u, hok, _⟩ | ⟨e', herr, rfl⟩)
      · exact absurd (Ends.unique hok hx).1 (by simp)
      · exact run_bind_error herr
  · have hbind : (x >>= f).run s = (f a).run t := run_bind_ok hx
    constructor
    · intro h
      exact Or.inl ⟨a, t, hx, hbind.symm.trans h⟩
    · rintro (⟨b, u, hok, hf⟩ | ⟨e, herr, _⟩)
      · exact (run_bind_ok hok).trans hf
      · exact absurd (Ends.unique herr hx).1 (by simp)

theorem ends_bind_of_ok {x : ExceptT ε (StateM σ) α} {f : α → ExceptT ε (StateM σ) β}
    {s t s' : σ} {a : α} {r : Except ε β} (hx : Ends x s (.ok a) t) :
    Ends (x >>= f) s r s' ↔ Ends (f a) t r s' := by
  unfold Ends
  rw [run_bind_ok hx]

theorem ends_bind_pure {x : ExceptT ε (StateM σ) α} {f : α → β} {s s' : σ} {r : Except ε β} :
    Ends (x >>= fun a => pure (f a)) s r s' ↔ ∃ r₀, Ends x s r₀ s' ∧ r = r₀.map f := by
  rw [ends_bind]
  constructor
  · intro h
    rcases h with ⟨a, t, hx, hpure⟩ | ⟨e, hx, rfl⟩
    · obtain ⟨rfl, rfl⟩ := ends_pure.mp hpure
      exact ⟨.ok a, hx, rfl⟩
    · exact ⟨.error e, hx, rfl⟩
  · intro h
    obtain ⟨r₀, hx, rfl⟩ := h
    cases r₀ with
    | ok a => exact Or.inl ⟨a, s', hx, ends_pure.mpr ⟨rfl, rfl⟩⟩
    | error e => exact Or.inr ⟨e, hx, rfl⟩

theorem ends_throw_bind {f : α → ExceptT ε (StateM σ) β} {e : ε} {s s' : σ} {r : Except ε β} :
    Ends ((throw e : ExceptT ε (StateM σ) α) >>= f) s r s' ↔ r = .error e ∧ s' = s :=
  ends_iff_of_run (run_bind_error (ends_throw.mpr ⟨rfl, rfl⟩))

theorem ends_tryCatch {x : ExceptT ε (StateM σ) α} {f : ε → ExceptT ε (StateM σ) α} {s s' : σ}
    {r : Except ε α} :
    Ends (tryCatch x f) s r s' ↔
      (∃ a, Ends x s (.ok a) s' ∧ r = .ok a) ∨
      (∃ e t, Ends x s (.error e) t ∧ Ends (f e) t r s') := by
  rcases hx : x.run s with ⟨e | a, t⟩
  · have hcatch : (tryCatch x f).run s = (f e).run t := run_tryCatch_error hx
    constructor
    · intro h
      exact Or.inr ⟨e, t, hx, hcatch.symm.trans h⟩
    · rintro (⟨a, hok, _⟩ | ⟨e', u, herr, hf⟩)
      · exact absurd (Ends.unique hok hx).1 (by simp)
      · exact (run_tryCatch_error herr).trans hf
  · have hcatch : (tryCatch x f).run s = (.ok a, t) := run_tryCatch_ok hx
    constructor
    · intro h
      obtain ⟨rfl, rfl⟩ := Ends.unique h hcatch
      exact Or.inl ⟨a, hx, rfl⟩
    · rintro (⟨b, hok, rfl⟩ | ⟨e, u, herr, _⟩)
      · exact run_tryCatch_ok hok
      · exact absurd (Ends.unique herr hx).1 (by simp)

theorem map_eq_ok_iff {x : Except ε α} {f : α → β} {b : β} :
    x.map f = .ok b ↔ ∃ a, x = .ok a ∧ f a = b := by
  cases x with
  | error e => simp [Except.map]
  | ok a => simp [Except.map]

theorem bind_eq_ok_iff {x : Except ε α} {f : α → Except ε β} {b : β} :
    x >>= f = .ok b ↔ ∃ a, x = .ok a ∧ f a = .ok b := by
  cases x with
  | error e => simp [bind, Except.bind]
  | ok a => simp [bind, Except.bind]

end Foundation
