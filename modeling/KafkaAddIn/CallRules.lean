import KafkaAddIn.Component

namespace KafkaAddIn

open Foundation

variable {a : Answers} {paParams : Nat → TVariant} {w w' : World}

@[simp] theorem World.after_next (w : World) (k : Nat) (es : List Event) :
    (w.after k es).next = w.next + k := rfl

@[simp] theorem World.after_trace (w : World) (k : Nat) (es : List Event) :
    (w.after k es).trace = w.trace ++ es := rfl

@[simp] theorem World.after_after (w : World) (j k : Nat) (es fs : List Event) :
    (w.after j es).after k fs = w.after (j + k) (es ++ fs) := by
  simp [World.after, Nat.add_assoc]

theorem World.after_zero_nil (w : World) : w.after 0 [] = w := by simp [World.after]

theorem ends_emit {e : Event} {r : Except Exit Unit} :
    Ends (emit e) w r w' ↔ r = .ok () ∧ w' = w.after 0 [e] := ends_modify

theorem ends_fresh {r : Except Exit Handle} :
    Ends fresh w r w' ↔ r = .ok w.next ∧ w' = w.after 1 [] :=
  ends_iff_of_run rfl

theorem ends_emit_bind {β : Type} {e : Event} {f : Unit → Call β} {r : Except Exit β} :
    Ends (emit e >>= f) w r w' ↔ Ends (f ()) (w.after 0 [e]) r w' :=
  ends_bind_of_ok (ends_emit.mpr ⟨rfl, rfl⟩)

theorem ends_fresh_bind {β : Type} {f : Handle → Call β} {r : Except Exit β} :
    Ends (fresh >>= f) w r w' ↔ Ends (f w.next) (w.after 1 []) r w' :=
  ends_bind_of_ok (ends_fresh.mpr ⟨rfl, rfl⟩)

theorem ends_get_bind {β : Type} {f : World → Call β} {r : Except Exit β} :
    Ends (get >>= f) w r w' ↔ Ends (f w) w r w' :=
  ends_bind_of_ok (ends_get.mpr ⟨rfl, rfl⟩)

theorem ends_setMessage_bind {β : Type} {s : Bytes} {f : Unit → Call β} {r : Except Exit β} :
    Ends (setMessage s >>= f) w r w' ↔ Ends (f ()) { w with gMessage := s } r w' :=
  ends_bind_of_ok (ends_modify.mpr ⟨rfl, rfl⟩)

theorem ends_setKey_bind {β : Type} {s : Bytes} {f : Unit → Call β} {r : Except Exit β} :
    Ends (setKey s >>= f) w r w' ↔ Ends (f ()) { w with gKey := s } r w' :=
  ends_bind_of_ok (ends_modify.mpr ⟨rfl, rfl⟩)

theorem ends_lift {α : Type} {x r : Except Exit α} :
    Ends (lift x) w r w' ↔ r = x ∧ w' = w := by
  cases x with
  | ok v => exact ends_pure
  | error e => exact ends_throw

def Event.ofHost : Event → Bool
  | .allocMemory _ _ => true
  | .wildWrite => true
  | _ => false

/-- A call that ends alike in every world: the same result after the same uses of the
host's memory, with no handle given out and the globals left alone. -/
def Uniform {α : Type} (x : Call α) : Prop :=
  ∃ r es, (∀ e ∈ es, e.ofHost = true) ∧ ∀ w, Ends x w r (w.after 0 es)

theorem uniform_pure {α : Type} (v : α) : Uniform (pure v : Call α) :=
  ⟨.ok v, [], by simp, fun w => ends_pure.mpr ⟨rfl, w.after_zero_nil⟩⟩

theorem uniform_throw {α : Type} (e : Exit) : Uniform (throw e : Call α) :=
  ⟨.error e, [], by simp, fun w => ends_throw.mpr ⟨rfl, w.after_zero_nil⟩⟩

theorem uniform_emit {e : Event} (he : e.ofHost = true) : Uniform (emit e) :=
  ⟨.ok (), [e], by simpa using he, fun _ => ends_emit.mpr ⟨rfl, rfl⟩⟩

theorem uniform_lift {α : Type} (x : Except Exit α) : Uniform (lift x) := by
  cases x with
  | ok v => exact uniform_pure v
  | error e => exact uniform_throw e

theorem Uniform.bind {α β : Type} {x : Call α} {f : α → Call β} (hx : Uniform x)
    (hf : ∀ v, Uniform (f v)) : Uniform (x >>= f) := by
  obtain ⟨r, es, hes, hx⟩ := hx
  cases r with
  | error e => exact ⟨.error e, es, hes, fun w => ends_bind.mpr (Or.inr ⟨e, hx w, rfl⟩)⟩
  | ok v =>
    obtain ⟨r, fs, hfs, hf⟩ := hf v
    refine ⟨r, es ++ fs, ?_, fun w => ends_bind.mpr (Or.inl ⟨v, w.after 0 es, hx w, ?_⟩)⟩
    · intro e he
      exact (List.mem_append.mp he).elim (hes e) (hfs e)
    · have hrest := hf (w.after 0 es)
      rwa [World.after_after] at hrest

theorem Uniform.world {α : Type} {x : Call α} (hx : Uniform x) {r : Except Exit α}
    (h : Ends x w r w') : ∃ es, w' = w.after 0 es ∧ ∀ e ∈ es, e.ofHost = true := by
  obtain ⟨r', es, hes, hx⟩ := hx
  exact ⟨es, (Ends.unique h (hx w)).2, hes⟩

theorem Uniform.frame {α : Type} {x : Call α} (hx : Uniform x) {r : Except Exit α}
    (h : Ends x w r w') : w'.gMessage = w.gMessage ∧ w'.gKey = w.gKey := by
  obtain ⟨es, rfl, _⟩ := hx.world h
  exact ⟨rfl, rfl⟩

theorem Uniform.result {α : Type} {x : Call α} (hx : Uniform x) {r r' : Except Exit α}
    {u u' : World} (h : Ends x w r w') (h' : Ends x u r' u') : r = r' := by
  obtain ⟨_, es, _, hx⟩ := hx
  rw [(Ends.unique h (hx w)).1, (Ends.unique h' (hx u)).1]

theorem ends_tryStd {α : Type} {x : Call α} {handler : String → Call α} {r : Except Exit α}
    (h : Ends (tryStd x handler) w r w') :
    (∃ v, Ends x w (.ok v) w' ∧ r = .ok v) ∨
    (∃ e what t, e.what = some what ∧ Ends x w (.error e) t ∧ Ends (handler what) t r w') ∨
    (∃ e, e.what = none ∧ Ends x w (.error e) w' ∧ r = .error e) := by
  unfold tryStd at h
  rcases ends_tryCatch.mp h with hok | ⟨e, t, hx, hcatch⟩
  · exact Or.inl hok
  · cases hw : e.what with
    | some what =>
      simp only [hw] at hcatch
      exact Or.inr (Or.inl ⟨e, what, t, hw, hx, hcatch⟩)
    | none =>
      simp only [hw] at hcatch
      obtain ⟨rfl, rfl⟩ := ends_throw.mp hcatch
      exact Or.inr (Or.inr ⟨e, hw, hx, rfl⟩)

theorem Exit.what_eq_none_iff {e : Exit} : e.what = none ↔ e = .fault := by
  cases e <;> simp [Exit.what]

def paramText (a : Answers) (paParams : Nat → TVariant) (i : Nat) : Except Exit Bytes :=
  uint16ToString (a.memory i) (paParams i).pwstrVal (paParams i).strLen

/-- Decoding fails for lack of memory, on a string shorter than its length, or on
ill-formed UTF-16. -/
theorem paramText_error {i : Nat} {e : Exit} (h : paramText a paParams i = .error e) :
    e = .badAlloc ∨ e = .rangeError ∨
      (e = .fault ∧ (paParams i).pwstrVal.length < (paParams i).strLen.toNat) := by
  unfold paramText uint16ToString at h
  split at h
  next =>
    cases h
    exact Or.inl rfl
  next =>
    split at h
    next hshort =>
      cases h
      exact Or.inr (Or.inr ⟨rfl, hshort⟩)
    next =>
      split at h
      next => cases h
      next =>
        cases h
        exact Or.inr (Or.inl rfl)

def Decoded (a : Answers) (paParams : Nat → TVariant) (n : Nat) (p : Nat → Bytes) : Prop :=
  ∀ i < n, paramText a paParams i = .ok (p i)

/-- Decoding comes to a string that is shorter than its length. -/
def Unreadable (a : Answers) (paParams : Nat → TVariant) (n : Nat) : Prop :=
  ∃ i < n, (∃ p, Decoded a paParams i p) ∧ paramText a paParams i = .error .fault

theorem Decoded.not_unreadable {n : Nat} {p : Nat → Bytes} (h : Decoded a paParams n p) :
    ¬ Unreadable a paParams n := by
  intro hun
  obtain ⟨i, hi, _, hfault⟩ := hun
  rw [h i hi] at hfault
  cases hfault

theorem not_unreadable_of_error {n k : Nat} {p : Nat → Bytes} {e : Exit}
    (hdec : Decoded a paParams k p) (herr : paramText a paParams k = .error e)
    (hne : e ≠ .fault) : ¬ Unreadable a paParams n := by
  intro hun
  obtain ⟨i, _, ⟨q, hq⟩, hfault⟩ := hun
  by_cases hik : i < k
  · rw [hdec i hik] at hfault
    cases hfault
  · by_cases hki : k < i
    · rw [hq k hki] at herr
      cases herr
    · have heq : i = k := by omega
      rw [heq, herr] at hfault
      cases hfault
      exact hne rfl

def reads (n : Nat) : List Event := (List.range n).map .readWstr

theorem reads_succ (n : Nat) : reads (n + 1) = reads n ++ [.readWstr n] := by
  simp [reads, List.range_succ]

theorem ends_decodeParam {i : Nat} {r : Except Exit Bytes} :
    Ends (decodeParam a paParams i) w r w' ↔
      r = paramText a paParams i ∧ w' = w.after 0 [.readWstr i] := by
  unfold decodeParam
  simp only [ends_bind, ends_emit, ends_lift, paramText]
  constructor
  · rintro (⟨_, t, ⟨_, rfl⟩, rfl, rfl⟩ | ⟨e, ⟨he, _⟩, _⟩)
    · exact ⟨rfl, rfl⟩
    · cases he
  · rintro ⟨rfl, rfl⟩
    exact Or.inl ⟨(), _, ⟨trivial, rfl⟩, rfl, rfl⟩

/-- Decoding reads the entries in order, up to and with the first that fails. -/
theorem ends_decodeParams {n : Nat} {r : Except Exit (Nat → Bytes)}
    (h : Ends (decodeParams a paParams n) w r w') :
    (∃ p, r = .ok p ∧ Decoded a paParams n p ∧ w' = w.after 0 (reads n)) ∨
    (∃ k p e, k < n ∧ Decoded a paParams k p ∧ paramText a paParams k = .error e ∧
      r = .error e ∧ w' = w.after 0 (reads (k + 1))) := by
  induction n generalizing r w' with
  | zero =>
    obtain ⟨rfl, rfl⟩ := ends_pure.mp h
    exact Or.inl ⟨_, rfl, fun i hi => absurd hi (Nat.not_lt_zero i), (World.after_zero_nil _).symm⟩
  | succ n ih =>
    unfold decodeParams at h
    rcases ends_bind.mp h with ⟨p, t, hp, h⟩ | ⟨e, hp, rfl⟩
    · obtain ⟨p', hok, hdec, rfl⟩ | ⟨k, p', e, _, _, _, herr, _⟩ := ih hp
      · cases hok
        rcases ends_bind.mp h with ⟨s, u, hs, h⟩ | ⟨e, hs, rfl⟩
        · obtain ⟨htext, rfl⟩ := ends_decodeParam.mp hs
          obtain ⟨rfl, rfl⟩ := ends_pure.mp h
          refine Or.inl ⟨_, rfl, ?_, by simp [reads_succ]⟩
          intro i hi
          by_cases hin : i = n
          · subst i
            simpa using htext.symm
          · simpa [hin] using hdec i (by omega)
        · obtain ⟨htext, rfl⟩ := ends_decodeParam.mp hs
          exact Or.inr ⟨n, p, e, by omega, hdec, htext.symm, rfl, by simp [reads_succ]⟩
      · cases herr
    · obtain ⟨p', hok, _, _⟩ | ⟨k, p', e', hk, hdec, hke, herr, rfl⟩ := ih hp
      · cases hok
      · cases herr
        exact Or.inr ⟨k, p', e, by omega, hdec, hke, rfl, rfl⟩

def settingEvents (a : Answers) (conf : Handle) (settings : List Setting) : List Event :=
  settings.map fun s => .confSet conf s.name (cString 0 s.value) (a.confSet s.name)

def Accepted (a : Answers) (settings : List Setting) : Prop :=
  ∀ s ∈ settings, a.confSet s.name = .ok

theorem ends_rdKafkaConfSet {conf : Handle} {name : String} {value : Bytes}
    {r : Except Exit ConfRes} :
    Ends (rdKafkaConfSet a conf name value) w r w' ↔ r = .ok (a.confSet name) ∧
      w' = w.after 0 [.confSet conf name (cString 0 value) (a.confSet name)] :=
  ends_iff_of_run rfl

/-- The first refused setting ends the sequence and costs the configuration. -/
theorem ends_applySettings {conf : Handle} {settings : List Setting} {r : Except Exit Unit}
    (h : Ends (applySettings a conf settings) w r w') :
    (r = .ok () ∧ Accepted a settings ∧ w' = w.after 0 (settingEvents a conf settings)) ∨
    (∃ before s rest, settings = before ++ s :: rest ∧ Accepted a before ∧
      a.confSet s.name ≠ .ok ∧ r = .error (.runtimeError s.what) ∧
      w' = w.after 0 (settingEvents a conf (before ++ [s]) ++ [.confDestroy conf])) := by
  induction settings generalizing w with
  | nil =>
    obtain ⟨rfl, rfl⟩ := ends_pure.mp h
    exact Or.inl ⟨rfl, by simp [Accepted], (World.after_zero_nil _).symm⟩
  | cons s rest ih =>
    unfold applySettings at h
    rcases ends_bind.mp h with ⟨res, t, hs, h⟩ | ⟨e, hs, rfl⟩
    · obtain ⟨hres, rfl⟩ := ends_rdKafkaConfSet.mp hs
      cases hres
      split at h
      next hbad =>
        rcases ends_bind.mp h with ⟨_, u, hd, h⟩ | ⟨e, hd, rfl⟩
        · obtain ⟨_, rfl⟩ := ends_emit.mp hd
          obtain ⟨rfl, rfl⟩ := ends_throw.mp h
          exact Or.inr ⟨[], s, rest, rfl, by simp [Accepted], hbad, rfl, by
            simp [settingEvents]⟩
        · exact absurd (ends_emit.mp hd).1 (by simp)
      next hgood =>
        have hok : a.confSet s.name = .ok := not_not.mp hgood
        rcases ih h with ⟨rfl, hacc, rfl⟩ | ⟨before, s', post, rfl, hacc, hbad, rfl, rfl⟩
        · refine Or.inl ⟨rfl, ?_, by simp [settingEvents]⟩
          exact fun x hx => (List.mem_cons.mp hx).elim (fun he => he ▸ hok) (hacc x)
        · refine Or.inr ⟨s :: before, s', post, rfl, ?_, hbad, rfl, by simp [settingEvents]⟩
          exact fun x hx => (List.mem_cons.mp hx).elim (fun he => he ▸ hok) (hacc x)
    · exact absurd (ends_rdKafkaConfSet.mp hs).1 (by simp)

/-- A call made while there is no client yet. -/
def Event.early : Event → Bool
  | .readWstr _ => true
  | .confNew _ => true
  | .confSet _ _ _ _ => true
  | .confDestroy _ => true
  | .new _ _ none => true
  | _ => false

theorem early_reads (n : Nat) : ∀ e ∈ reads n, e.early = true := by
  intro e he
  obtain ⟨i, _, rfl⟩ := List.mem_map.mp he
  rfl

theorem early_settingEvents (conf : Handle) (settings : List Setting) :
    ∀ e ∈ settingEvents a conf settings, e.early = true := by
  intro e he
  obtain ⟨s, _, rfl⟩ := List.mem_map.mp he
  rfl

theorem early_refused (n : Nat) (conf : Handle) (settings : List Setting) :
    ∀ e ∈ reads n ++ .confNew conf :: settingEvents a conf settings ++ [.confDestroy conf],
      e.early = true := by
  intro e he
  simp only [List.mem_append, List.mem_cons, List.not_mem_nil, or_false] at he
  rcases he with (he | rfl | he) | rfl
  · exact early_reads n e he
  · rfl
  · exact early_settingEvents _ _ e he
  · rfl

theorem early_notCreated (n : Nat) (type : ClientType) (conf : Handle) (settings : List Setting) :
    ∀ e ∈ reads n ++ .confNew conf :: settingEvents a conf settings ++
      [.new type conf none, .confDestroy conf], e.early = true := by
  intro e he
  simp only [List.mem_append, List.mem_cons, List.not_mem_nil, or_false] at he
  rcases he with (he | rfl | he) | rfl | rfl
  · exact early_reads n e he
  · rfl
  · exact early_settingEvents _ _ e he
  · rfl
  · rfl

def openEvents (a : Answers) (type : ClientType) (conf : Handle) (settings : List Setting) :
    List Event :=
  .confNew conf :: settingEvents a conf settings ++ [.new type conf (some (conf + 1))]

theorem ends_openClient {type : ClientType} {settings : List Setting} {failed : String}
    {r : Except Exit (Handle × Handle)}
    (h : Ends (openClient a type settings failed) w r w') :
    (a.new = true ∧ Accepted a settings ∧ r = .ok (w.next, w.next + 1) ∧
      w' = w.after 2 (openEvents a type w.next settings)) ∨
    (∃ before s rest, settings = before ++ s :: rest ∧ Accepted a before ∧
      a.confSet s.name ≠ .ok ∧ r = .error (.runtimeError s.what) ∧
      w' = w.after 1 (.confNew w.next :: settingEvents a w.next (before ++ [s]) ++
        [.confDestroy w.next])) ∨
    (a.new = false ∧ Accepted a settings ∧ r = .error (.runtimeError failed) ∧
      w' = w.after 1 (.confNew w.next :: settingEvents a w.next settings ++
        [.new type w.next none, .confDestroy w.next])) := by
  unfold openClient rdKafkaConfNew at h
  simp only [bind_assoc, pure_bind, ends_fresh_bind, ends_emit_bind, World.after_after] at h
  rcases ends_bind.mp h with ⟨_, t, hs, h⟩ | ⟨e, hs, rfl⟩
  · rcases ends_applySettings hs with ⟨_, hacc, rfl⟩ | ⟨_, _, _, _, _, _, herr, _⟩
    · unfold rdKafkaNew at h
      split at h
      next hnew =>
        simp only [bind_assoc, pure_bind, ends_fresh_bind, ends_emit_bind, World.after_after,
          ends_pure] at h
        obtain ⟨rfl, rfl⟩ := h
        exact Or.inl ⟨hnew, hacc, rfl, by simp [openEvents]⟩
      next hnew =>
        simp only [bind_assoc, pure_bind, ends_emit_bind, World.after_after,
          rdKafkaConfDestroy, ends_throw] at h
        obtain ⟨rfl, rfl⟩ := h
        exact Or.inr (Or.inr ⟨by simpa using hnew, hacc, rfl, by simp⟩)
    · cases herr
  · rcases ends_applySettings hs with ⟨hok, _, _⟩ | ⟨before, s, rest, hl, hacc, hbad, herr, rfl⟩
    · cases hok
    · cases herr
      exact Or.inr (Or.inl ⟨before, s, rest, hl, hacc, hbad, rfl, by simp⟩)

end KafkaAddIn
