import KafkaAddIn.Foundation.Programs

namespace Foundation

variable {σ ε α α' β β' : Type}

/-- Two programs end with the same error, or with values in relation. -/
inductive SameEnd (V : α → α' → Prop) : Except ε α → Except ε α' → Prop
  | ok {a : α} {b : α'} : V a b → SameEnd V (.ok a) (.ok b)
  | error {e : ε} : SameEnd V (.error e) (.error e)

/-- Started in states in relation the two programs end alike, and in states in relation. -/
def Agree (I : σ → σ → Prop) (V : α → α' → Prop) (x : ExceptT ε (StateM σ) α)
    (y : ExceptT ε (StateM σ) α') : Prop :=
  ∀ s t r s' r' t', I s t → Ends x s r s' → Ends y t r' t' → SameEnd V r r' ∧ I s' t'

variable {I : σ → σ → Prop} {U : α → α' → Prop} {V : β → β' → Prop}
  {x : ExceptT ε (StateM σ) α} {y : ExceptT ε (StateM σ) α'}
  {f : α → ExceptT ε (StateM σ) β} {g : α' → ExceptT ε (StateM σ) β'}

theorem SameEnd.eq {r r' : Except ε α} (h : SameEnd Eq r r') : r' = r := by
  cases h with
  | ok hab => rw [hab]
  | error => rfl

theorem sameEnd_refl (r : Except ε α) : SameEnd Eq r r := by
  cases r with
  | ok a => exact SameEnd.ok rfl
  | error e => exact SameEnd.error

theorem agree_pure {a : β} {b : β'} (h : V a b) :
    Agree I V (pure a : ExceptT ε (StateM σ) β) (pure b) := by
  intro s t r s' r' t' hI hx hy
  obtain ⟨rfl, rfl⟩ := ends_pure.mp hx
  obtain ⟨rfl, rfl⟩ := ends_pure.mp hy
  exact ⟨SameEnd.ok h, hI⟩

theorem agree_throw (e : ε) : Agree I V (throw e : ExceptT ε (StateM σ) β) (throw e) := by
  intro s t r s' r' t' hI hx hy
  obtain ⟨rfl, rfl⟩ := ends_throw.mp hx
  obtain ⟨rfl, rfl⟩ := ends_throw.mp hy
  exact ⟨SameEnd.error, hI⟩

theorem Agree.bind (hx : Agree I U x y) (hf : ∀ a b, U a b → Agree I V (f a) (g b)) :
    Agree I V (x >>= f) (y >>= g) := by
  intro s t r s' r' t' hI hl hr
  rcases ends_bind.mp hl with ⟨a, u, hxa, hfa⟩ | ⟨e, hxe, rfl⟩
  · rcases ends_bind.mp hr with ⟨b, v, hyb, hgb⟩ | ⟨e, hye, rfl⟩
    · obtain ⟨hend, hI'⟩ := hx _ _ _ _ _ _ hI hxa hyb
      cases hend with
      | ok hab => exact hf a b hab _ _ _ _ _ _ hI' hfa hgb
    · cases (hx _ _ _ _ _ _ hI hxa hye).1
  · rcases ends_bind.mp hr with ⟨b, v, hyb, _⟩ | ⟨e', hye, rfl⟩
    · cases (hx _ _ _ _ _ _ hI hxe hyb).1
    · obtain ⟨hend, hI'⟩ := hx _ _ _ _ _ _ hI hxe hye
      cases hend
      exact ⟨SameEnd.error, hI'⟩

theorem Agree.tryCatch {f : ε → ExceptT ε (StateM σ) α} {g : ε → ExceptT ε (StateM σ) α'}
    (hx : Agree I U x y) (hf : ∀ e, Agree I U (f e) (g e)) :
    Agree I U (tryCatch x f) (tryCatch y g) := by
  intro s t r s' r' t' hI hl hr
  rcases ends_tryCatch.mp hl with ⟨a, hxa, rfl⟩ | ⟨e, u, hxe, hfe⟩
  · rcases ends_tryCatch.mp hr with ⟨b, hyb, rfl⟩ | ⟨e, v, hye, _⟩
    · exact hx _ _ _ _ _ _ hI hxa hyb
    · cases (hx _ _ _ _ _ _ hI hxa hye).1
  · rcases ends_tryCatch.mp hr with ⟨b, hyb, _⟩ | ⟨e', v, hye, hge⟩
    · cases (hx _ _ _ _ _ _ hI hxe hyb).1
    · obtain ⟨hend, hI'⟩ := hx _ _ _ _ _ _ hI hxe hye
      cases hend
      exact hf e _ _ _ _ _ _ hI' hfe hge

theorem agree_modify {f g : σ → σ} (h : ∀ s t, I s t → I (f s) (g t)) :
    Agree I Eq (modify f : ExceptT ε (StateM σ) PUnit) (modify g) := by
  intro s t r s' r' t' hI hx hy
  obtain ⟨rfl, rfl⟩ := ends_modify.mp hx
  obtain ⟨rfl, rfl⟩ := ends_modify.mp hy
  exact ⟨SameEnd.ok rfl, h s t hI⟩

/-- What is done with the state has to agree for every two states in relation. -/
theorem agree_get_bind {f : σ → ExceptT ε (StateM σ) β} {g : σ → ExceptT ε (StateM σ) β'}
    (h : ∀ s t, I s t → Agree I V (f s) (g t)) : Agree I V (get >>= f) (get >>= g) := by
  intro s t r s' r' t' hI hx hy
  have hf := (ends_bind_of_ok (ends_get.mpr ⟨rfl, rfl⟩)).mp hx
  have hg := (ends_bind_of_ok (ends_get.mpr ⟨rfl, rfl⟩)).mp hy
  exact h s t hI _ _ _ _ _ _ hI hf hg

end Foundation
