import KafkaAddIn.Conversions

namespace KafkaAddIn

open Foundation

variable {platform : Platform} {u : List ShortWchar} {c : Converted Wchar}

/-- The text comes out unit for unit with its terminator, in a block of its size. The memory
of the source ends at its terminator: a read beyond it is a fault. -/
def Widens (platform : Platform) (u : List ShortWchar) : Prop :=
  ∃ res, convFromShortWchar platform none (u ++ [0]) 0 = .ok (u.map UInt16.toUInt32 ++ [0], res)

/-- The first pair of units, taken for one unit of 32 bits, is a byte order mark or a
character beyond the 16 bits. -/
def Misread (u : List ShortWchar) : Prop :=
  u = [0xFEFF] ∨ ∃ y, u[1]? = some y ∧ y ≤ 0x10

theorem iconvWiden_length {n : Nat} {source : List ShortWchar}
    (h : iconvWiden n source = .ok c) : c.written.length ≤ n := by
  induction n, source using iconvWiden.induct generalizing c with
  | case1 source =>
    cases h
    exact Nat.le_refl _
  | case2 source =>
    cases h
    exact Nat.zero_le _
  | case3 n lo hi source hscalar ih =>
    unfold iconvWiden at h
    rw [if_pos hscalar] at h
    obtain ⟨c', hrest, rfl⟩ := map_eq_ok_iff.mp h
    have hle := ih hrest
    rw [List.length_cons]
    omega
  | case4 n lo hi source hscalar =>
    unfold iconvWiden at h
    rw [if_neg hscalar] at h
    cases h
    exact Nat.zero_le _
  | case5 n source hshort =>
    rcases source with _ | ⟨lo, _ | ⟨hi, source⟩⟩
    · cases h
    · cases h
    · exact (hshort lo hi source rfl).elim

theorem iconvUtf32ToUtf32le_length {n : Nat} {source : List ShortWchar}
    (h : iconvUtf32ToUtf32le n source = .ok c) : c.written.length ≤ n := by
  unfold iconvUtf32ToUtf32le at h
  split at h
  next n lo hi rest =>
    split at h
    next =>
      obtain ⟨c', hrest, rfl⟩ := map_eq_ok_iff.mp h
      have hle := iconvWiden_length hrest
      exact Nat.le_trans hle (Nat.le_add_right n 2)
    next => exact iconvWiden_length h
  next => exact iconvWiden_length h

/-- iconv takes such a pair for one character and goes on behind it. -/
theorem iconv_misread {x y : ShortWchar} {n : Nat} {source : List ShortWchar} (hy : y ≠ 0)
    (hsmall : y ≤ 0x10) (h : iconvUtf32ToUtf32le (n + 2) (x :: y :: source) = .ok c) :
    0 < c.consumed ∧ ∃ w, c.written = UInt32.ofNat (joinUnits x y) :: w := by
  obtain ⟨hbig, hscalar⟩ := joinUnits_pair hy x
  have hmark : joinUnits x y ≠ 0xFEFF := by omega
  simp only [iconvUtf32ToUtf32le, iconvWiden, hmark, hscalar.mpr hsmall, if_true, if_false] at h
  obtain ⟨c', _, rfl⟩ := map_eq_ok_iff.mp h
  exact ⟨Nat.succ_pos _, _, rfl⟩

theorem joined_ne {x y : ShortWchar} (hy : y ≠ 0) (hsmall : y ≤ 0x10) :
    UInt32.ofNat (joinUnits x y) ≠ x.toUInt32 := by
  intro h
  obtain ⟨hbig, _⟩ := joinUnits_pair hy x
  have hx : x.toNat < 0x10000 := x.toNat_lt
  have hy' : y.toNat ≤ 0x10 := UInt16.le_iff_toNat_le.mp hsmall
  have htop : joinUnits x y < 2 ^ 32 := by
    unfold joinUnits
    omega
  have heq := congrArg UInt32.toNat h
  rw [UInt32.toNat_ofNat_of_lt' htop, UInt16.toNat_toUInt32] at heq
  omega

/-- The first character comes out wrong, or the loop runs on past the terminator. -/
theorem not_widens_of_pair {x y : ShortWchar} {v : List ShortWchar} {res res' : UInt32}
    {dest : List Wchar} (hy : y ≠ 0) (hsmall : y ≤ 0x10) (hres : res.toNat = v.length + 3) :
    convertInto (.linux true) UInt16.toUInt32
      (iconvUtf32ToUtf32le res.toNat (x :: y :: v ++ [0])) dest (x :: y :: v ++ [0]) res ≠
      .ok ((x :: y :: v).map UInt16.toUInt32 ++ [0], res') := by
  intro h
  have hsource : (x :: y :: v ++ [0]).length = res.toNat := by simp [hres]
  obtain ⟨c, hi, _⟩ := bind_eq_ok_iff.mp h
  have hpair : iconvUtf32ToUtf32le (v.length + 1 + 2) (x :: y :: (v ++ [0])) = .ok c := by
    rw [← hi, hres]
    rfl
  obtain ⟨hread, w, hw⟩ := iconv_misread hy hsmall hpair
  cases hdone : c.succeeded with
  | true =>
    rw [convertInto_done hi hdone, hw] at h
    have hhead := List.cons_eq_cons.mp (Prod.mk.inj (Except.ok.inj h)).1
    exact joined_ne hy hsmall hhead.1
  | false =>
    rw [convertInto_stopped hi hdone hread hsource (by omega)] at h
    cases h

/-- A block smaller than the text is what a length of more than 32 bits leads to. -/
theorem not_widens_of_wrapped (hu : 0 ∉ u) (hlen : ¬ u.length + 1 < 2 ^ 32) :
    ¬ Widens platform u := by
  intro h
  obtain ⟨res, h⟩ := h
  rw [convFromShortWchar_eq hu rfl] at h
  have hsize := convertInto_fresh_length (fun _ hc => iconvUtf32ToUtf32le_length hc) h
  rw [UInt32.toNat_ofNat', List.length_append, List.length_map, List.length_singleton] at hsize
  omega

theorem widens_of_copied (hu : 0 ∉ u) (hlen : u.length + 1 < 2 ^ 32)
    (hcopied : ∀ res dest source, convertInto platform UInt16.toUInt32
      (iconvUtf32ToUtf32le (u.length + 1) (u ++ [0])) dest source res =
        (copyUnits UInt16.toUInt32 res.toNat source dest).map (·, res)) :
    Widens platform u := by
  have hres : (UInt32.ofNat (u.length + 1)).toNat = u.length + 1 := UInt32.toNat_ofNat_of_lt' hlen
  refine ⟨UInt32.ofNat (u.length + 1), ?_⟩
  rw [convFromShortWchar_eq hu rfl, hres, hcopied, hres, copyUnits_fresh]
  rfl

theorem widens_of_single {x : ShortWchar} (hx : x ≠ 0) (hmark : x ≠ 0xFEFF) :
    Widens (.linux true) [x] := by
  have hu : 0 ∉ [x] := fun h => hx (List.mem_singleton.mp h).symm
  rcases iconv_single x [] with hstop | hone | ⟨hx', _⟩
  · exact widens_of_copied hu (by simp) fun _ _ _ => convertInto_unread hstop
  · refine ⟨0, ?_⟩
    rw [convFromShortWchar_eq hu rfl]
    exact convertInto_done hone rfl
  · exact absurd hx' hmark

/-- A lone byte order mark is read and not written. -/
theorem not_widens_mark : ¬ Widens (.linux true) [0xFEFF] := by
  intro h
  obtain ⟨res, h⟩ := h
  have hlost : convFromShortWchar (.linux true) none ([0xFEFF] ++ [0]) 0 = .ok ([0, 0], 0) := by
    decide +kernel
  rw [hlost] at h
  have hhead := List.cons_eq_cons.mp (Prod.mk.inj (Except.ok.inj h)).1
  exact absurd hhead.1 (by decide)

/-- iconv is told that the units of 16 bits are UTF-32. -/
theorem widens_iff (platform : Platform) (u : List ShortWchar) (hu : 0 ∉ u) :
    Widens platform u ↔
      u.length + 1 < 2 ^ 32 ∧ (platform = .linux true → ¬ Misread u) := by
  by_cases hlen : u.length + 1 < 2 ^ 32
  swap
  · exact iff_of_false (not_widens_of_wrapped hu hlen) fun h => hlen h.1
  by_cases hplatform : platform = .linux true
  swap
  · refine iff_of_true ?_ ⟨hlen, fun h => absurd h hplatform⟩
    exact widens_of_copied hu hlen fun _ _ _ => convertInto_plain hplatform
  subst platform
  rcases u with _ | ⟨x, _ | ⟨y, v⟩⟩
  · refine iff_of_true ?_ ⟨hlen, fun _ => by simp [Misread]⟩
    exact widens_of_copied hu hlen fun _ _ _ => convertInto_unread rfl
  · have hx : x ≠ 0 := fun he => hu (he ▸ List.mem_cons_self)
    by_cases hmark : x = 0xFEFF
    · subst x
      exact iff_of_false not_widens_mark fun h => h.2 rfl (Or.inl rfl)
    · refine iff_of_true (widens_of_single hx hmark) ⟨hlen, fun _ => by simp [Misread, hmark]⟩
  · have hy : y ≠ 0 := fun he => hu (he ▸ List.mem_cons_of_mem _ List.mem_cons_self)
    by_cases hsmall : y ≤ 0x10
    · refine iff_of_false ?_ fun h => h.2 rfl (Or.inr ⟨y, rfl, hsmall⟩)
      intro h
      obtain ⟨res, h⟩ := h
      rw [convFromShortWchar_eq hu rfl] at h
      exact not_widens_of_pair hy hsmall (UInt32.toNat_ofNat_of_lt' hlen) h
    · refine iff_of_true ?_ ⟨hlen, fun _ => by simpa [Misread] using UInt16.not_le.mp hsmall⟩
      have hstop := iconv_pair (UInt16.not_le.mp hsmall) x (v.length + 1) (v ++ [0])
      exact widens_of_copied hu hlen fun _ _ _ => convertInto_unread hstop

theorem widens_name :
    let u := "Consume".toList.map fun c => UInt16.ofNat c.toNat
    Widens (.linux true) u ↔ u.length + 1 < 2 ^ 32 ∧
      ((.linux true : Platform) = .linux true → ¬ Misread u) :=
  widens_iff (.linux true) _ (by decide +kernel)

/-- "A" and a control character: the loop reads on behind the terminator. -/
theorem control_not_widened :
    convFromShortWchar (.linux true) none ([0x41, 0x01] ++ [0]) 0 = .error .fault ∧
      ¬ Widens (.linux true) [0x41, 0x01] := by
  have hfault : convFromShortWchar (.linux true) none ([0x41, 0x01] ++ [0]) 0 = .error .fault := by
    decide +kernel
  refine ⟨hfault, ?_⟩
  intro h
  obtain ⟨res, h⟩ := h
  rw [hfault] at h
  cases h

end KafkaAddIn
