import KafkaAddIn.Names
import Mathlib.Algebra.Group.Nat.Defs

namespace KafkaAddIn

open Foundation

variable {α β : Type} {platform : Platform} {conv : α → β} {iconv : Except Exit (Converted β)}
  {dest d : List β} {source : List α} {len res : UInt32} {u rest : List ShortWchar}

theorem copyUnits_eq {n : Nat} (hsrc : n ≤ source.length) (hdest : n ≤ dest.length) :
    copyUnits conv n source dest = .ok ((source.take n).map conv ++ dest.drop n) := by
  induction n generalizing source dest with
  | zero => rfl
  | succ n ih =>
    cases source with
    | nil => simp at hsrc
    | cons x source =>
      cases dest with
      | nil => simp at hdest
      | cons d dest =>
        have hrest := ih (Nat.le_of_succ_le_succ hsrc) (Nat.le_of_succ_le_succ hdest)
        simp [copyUnits, hrest, Except.map]

theorem copyUnits_fault {n : Nat} (hsrc : source.length < n) :
    copyUnits conv n source dest = .error .fault := by
  induction n generalizing source dest with
  | zero => simp at hsrc
  | succ n ih =>
    cases source with
    | nil => rfl
    | cons x source =>
      cases dest with
      | nil => rfl
      | cons d dest =>
        have hrest : copyUnits conv n source dest = .error .fault :=
          ih (Nat.lt_of_succ_lt_succ hsrc)
        simp [copyUnits, hrest, Except.map]

theorem copyUnits_length {n : Nat} (h : copyUnits conv n source dest = .ok d) :
    d.length = dest.length := by
  induction n generalizing source dest d with
  | zero =>
    cases h
    rfl
  | succ n ih =>
    cases source with
    | nil => cases h
    | cons x source =>
      cases dest with
      | nil => cases h
      | cons y dest =>
        obtain ⟨d', hrest, rfl⟩ := map_eq_ok_iff.mp h
        rw [List.length_cons, List.length_cons, ih hrest]

/-- A terminated text, copied into a fresh block that has just the room for it. -/
theorem copyUnits_fresh (text rest : List α) (x : α) (y : β) :
    copyUnits conv (text.length + 1) (text ++ x :: rest) (List.replicate (text.length + 1) y) =
      .ok (text.map conv ++ [conv x]) := by
  have hroom : text.length + 1 ≤ (text ++ x :: rest).length := by simp
  have hall : (text ++ x :: rest).take (text.length + 1) = text ++ [x] := by
    rw [List.take_append, List.take_of_length_le (Nat.le_succ _), Nat.add_sub_cancel_left]
    rfl
  rw [copyUnits_eq hroom (by simp), hall, List.drop_replicate, Nat.sub_self]
  simp

theorem clearUnits_eq (zero : β) {n : Nat} (hdest : dest.length = n) :
    clearUnits zero n dest = .ok (List.replicate n zero) := by
  simp [clearUnits, hdest]

theorem clearUnits_fresh (zero : β) (n : Nat) :
    clearUnits zero n (List.replicate n zero) = .ok (List.replicate n zero) :=
  clearUnits_eq zero List.length_replicate

theorem convertInto_plain (hplatform : platform ≠ .linux true) :
    convertInto platform conv iconv dest source len =
      (copyUnits conv len.toNat source dest).map (·, len) := by
  unfold convertInto
  split
  next => exact absurd rfl hplatform
  next => cases copyUnits conv len.toNat source dest <;> rfl

/-- iconv has stopped at once: the loop does it all. -/
theorem convertInto_unread (hiconv : iconv = .ok ⟨[], 0, false⟩) :
    convertInto (.linux true) conv iconv dest source len =
      (copyUnits conv len.toNat source dest).map (·, len) := by
  simp only [convertInto, hiconv, bind, Except.bind, Bool.false_eq_true, if_false,
    List.length_nil, List.drop_zero, List.nil_append]
  cases copyUnits conv len.toNat source dest <;> rfl

/-- iconv has stopped further on: the loop starts from there and still runs for `len` units. -/
theorem convertInto_stopped {c : Converted β} (hiconv : iconv = .ok c)
    (hstop : c.succeeded = false) (hread : 0 < c.consumed) (hsource : source.length = len.toNat)
    (hlen : 0 < len.toNat) :
    convertInto (.linux true) conv iconv dest source len = .error .fault := by
  have hshort : (source.drop c.consumed).length < len.toNat := by
    rw [List.length_drop]
    omega
  simp only [convertInto, hiconv, bind, Except.bind, hstop, Bool.false_eq_true, if_false,
    copyUnits_fault hshort]

theorem convertInto_done {c : Converted β} (hiconv : iconv = .ok c) (hdone : c.succeeded = true) :
    convertInto (.linux true) conv iconv dest source len =
      .ok (c.written ++ dest.drop c.written.length, 0) := by
  simp only [convertInto, hiconv, bind, Except.bind, hdone, if_true]
  rfl

/-- Where iconv keeps to its room, the block keeps its size. -/
theorem convertInto_length (hfit : ∀ c, iconv = .ok c → c.written.length ≤ dest.length)
    (h : convertInto platform conv iconv dest source len = .ok (d, res)) :
    d.length = dest.length := by
  by_cases hplatform : platform = .linux true
  · subst platform
    obtain ⟨c, hc, h⟩ := bind_eq_ok_iff.mp h
    have hroom := hfit c hc
    have hsize : (c.written ++ dest.drop c.written.length).length = dest.length := by
      rw [List.length_append, List.length_drop]
      omega
    split at h
    next =>
      cases h
      exact hsize
    next =>
      obtain ⟨rest, hrest, h⟩ := bind_eq_ok_iff.mp h
      have hlength := copyUnits_length hrest
      cases h
      rw [List.length_append, hlength, List.length_drop, hsize]
      omega
  · rw [convertInto_plain hplatform] at h
    obtain ⟨d', hcopy, hd⟩ := map_eq_ok_iff.mp h
    cases hd
    exact copyUnits_length hcopy

theorem convertInto_fresh_length {n : Nat} {y : β}
    (hfit : ∀ c, iconv = .ok c → c.written.length ≤ n)
    (h : convertInto platform conv iconv (List.replicate n y) source len = .ok (d, res)) :
    d.length = n := by
  have hroom : (List.replicate n y).length = n := List.length_replicate
  have hsize := convertInto_length (fun c hc => hroom.symm ▸ hfit c hc) h
  rw [hsize, hroom]

/-- The count of units is a `uint32_t`. -/
theorem getLenShortWcharStr_eq (hu : 0 ∉ u) (res : UInt32) :
    getLenShortWcharStr (u ++ 0 :: rest) res = .ok (res + UInt32.ofNat u.length) := by
  induction u generalizing res with
  | nil => simp [getLenShortWcharStr]
  | cons x u ih =>
    have hx : x ≠ 0 := fun he => hu (he ▸ List.mem_cons_self)
    have hrest := ih (fun h => hu (List.mem_cons_of_mem _ h)) (res + 1)
    have hone : UInt32.ofNat (u.length + 1) = 1 + UInt32.ofNat u.length := by
      rw [Nat.add_comm, UInt32.ofNat_add]
      rfl
    simp only [List.cons_append, getLenShortWcharStr, hx, if_false, hrest, List.length_cons, hone,
      UInt32.add_assoc]

/-- What is left of the conversion once the units are counted and the block is there. -/
theorem convFromShortWchar_eq (hu : 0 ∉ u) (hres : res = UInt32.ofNat (u.length + 1)) :
    convFromShortWchar platform none (u ++ 0 :: rest) 0 =
      convertInto platform UInt16.toUInt32 (iconvUtf32ToUtf32le res.toNat (u ++ 0 :: rest))
        (List.replicate res.toNat 0) (u ++ 0 :: rest) res := by
  have hcount : (0 + UInt32.ofNat u.length + 1 : UInt32) = res := by
    rw [hres, UInt32.ofNat_add, UInt32.zero_add]
    rfl
  unfold convFromShortWchar
  simp only [if_true, getLenShortWcharStr_eq hu, Except.map, hcount, bind, Except.bind,
    Option.getD_none, clearUnits_fresh]

/-- With its terminator, a single unit makes a character or a byte order mark, unless it is
a surrogate. -/
theorem iconv_single (x : ShortWchar) (rest : List ShortWchar) :
    iconvUtf32ToUtf32le 2 (x :: 0 :: rest) = .ok ⟨[], 0, false⟩ ∨
    iconvUtf32ToUtf32le 2 (x :: 0 :: rest) = .ok ⟨[x.toUInt32], 2, true⟩ ∨
    (x = 0xFEFF ∧ iconvUtf32ToUtf32le 2 (x :: 0 :: rest) = .ok ⟨[], 2, true⟩) := by
  have hjoin : joinUnits x 0 = x.toNat := by simp [joinUnits]
  by_cases hmark : x.toNat = 0xFEFF
  · have hx : x = 0xFEFF := UInt16.toNat_inj.mp hmark
    refine Or.inr (Or.inr ⟨hx, ?_⟩)
    simp [iconvUtf32ToUtf32le, iconvWiden, hjoin, hmark, Except.map]
  · by_cases hscalar : isScalar x.toNat = true
    · refine Or.inr (Or.inl ?_)
      simp [iconvUtf32ToUtf32le, iconvWiden, hjoin, hmark, hscalar, Except.map]
    · refine Or.inl ?_
      simp [iconvUtf32ToUtf32le, iconvWiden, hjoin, hmark, hscalar]

/-- Two units of a text make a character of 32 bits only when the second is very small. -/
theorem joinUnits_pair {y : ShortWchar} (hy : y ≠ 0) (x : ShortWchar) :
    0x10000 ≤ joinUnits x y ∧ (isScalar (joinUnits x y) = true ↔ y ≤ 0x10) := by
  have hpos : 0 < y.toNat := Nat.pos_of_ne_zero fun h => hy (UInt16.toNat_inj.mp h)
  have hx : x.toNat < 0x10000 := x.toNat_lt
  have hle : y ≤ 0x10 ↔ y.toNat ≤ 0x10 := UInt16.le_iff_toNat_le
  unfold isScalar joinUnits
  refine ⟨by omega, ?_⟩
  simp only [Bool.or_eq_true, Bool.and_eq_true, decide_eq_true_eq, hle]
  omega

theorem iconv_pair {y : ShortWchar} (hy : 0x10 < y) (x : ShortWchar) (n : Nat)
    (source : List ShortWchar) :
    iconvUtf32ToUtf32le (n + 2) (x :: y :: source) = .ok ⟨[], 0, false⟩ := by
  have hne : y ≠ 0 := fun he => absurd (he ▸ hy) (by decide)
  obtain ⟨hbig, hsmall⟩ := joinUnits_pair hne x
  have hmark : joinUnits x y ≠ 0xFEFF := by omega
  have hno : isScalar (joinUnits x y) = false := by
    cases hscalar : isScalar (joinUnits x y) with
    | false => rfl
    | true => exact absurd (hsmall.mp hscalar) (UInt16.not_le.mpr hy)
  simp [iconvUtf32ToUtf32le, iconvWiden, hno, hmark]

end KafkaAddIn
