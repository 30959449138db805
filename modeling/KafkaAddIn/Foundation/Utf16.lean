import Mathlib.Tactic.Common

namespace Foundation

def isHighSurrogate (u : Nat) : Bool := 0xD800 ≤ u && u < 0xDC00

def isLowSurrogate (u : Nat) : Bool := 0xDC00 ≤ u && u < 0xE000

def joinSurrogates (hi lo : Nat) : Nat := 0x10000 + (hi - 0xD800) * 0x400 + (lo - 0xDC00)

/-- UTF-16 units to characters. Unpaired surrogates are ill-formed, and so is a
unit beyond the Unicode range. -/
def utf16Decode : List Nat → Option (List Char)
  | [] => some []
  | u :: us =>
    if isHighSurrogate u then
      match us with
      | [] => none
      | v :: rest =>
        if isLowSurrogate v then
          (utf16Decode rest).map (Char.ofNat (joinSurrogates u v) :: ·)
        else none
    else if u.isValidChar then (utf16Decode us).map (Char.ofNat u :: ·)
    else none

def utf16EncodeChar (c : Char) : List Nat :=
  if c.toNat < 0x10000 then [c.toNat]
  else [0xD800 + (c.toNat - 0x10000) / 0x400, 0xDC00 + (c.toNat - 0x10000) % 0x400]

def utf8Encode (cs : List Char) : List UInt8 := cs.flatMap String.utf8EncodeChar

theorem toNat_ofNat_of_valid {n : Nat} (h : n.isValidChar) : (Char.ofNat n).toNat = n := by
  unfold Char.ofNat
  rw [dif_pos h]
  rfl

theorem joinSurrogates_valid {hi lo : Nat} (hh : isHighSurrogate hi = true)
    (hl : isLowSurrogate lo = true) : (joinSurrogates hi lo).isValidChar := by
  simp only [isHighSurrogate, isLowSurrogate, Bool.and_eq_true, decide_eq_true_eq] at hh hl
  right
  unfold joinSurrogates
  omega

theorem utf16EncodeChar_join {hi lo : Nat} (hh : isHighSurrogate hi = true)
    (hl : isLowSurrogate lo = true) :
    utf16EncodeChar (Char.ofNat (joinSurrogates hi lo)) = [hi, lo] := by
  have hv := toNat_ofNat_of_valid (joinSurrogates_valid hh hl)
  simp only [isHighSurrogate, isLowSurrogate, Bool.and_eq_true, decide_eq_true_eq] at hh hl
  have hbig : ¬ joinSurrogates hi lo < 0x10000 := by unfold joinSurrogates; omega
  have hhi : 0xD800 + (joinSurrogates hi lo - 0x10000) / 0x400 = hi := by
    unfold joinSurrogates; omega
  have hlo : 0xDC00 + (joinSurrogates hi lo - 0x10000) % 0x400 = lo := by
    unfold joinSurrogates; omega
  simp only [utf16EncodeChar, hv, hbig, if_false, hhi, hlo]

/-- What decoding accepts is the UTF-16 form of what it returns. -/
theorem utf16Decode_sound {us : List Nat} {cs : List Char} (hw : ∀ u ∈ us, u < 0x10000)
    (h : utf16Decode us = some cs) : cs.flatMap utf16EncodeChar = us := by
  induction us using utf16Decode.induct generalizing cs with
  | case1 =>
    cases Option.some.inj h
    rfl
  | case2 u hu => simp [utf16Decode, hu] at h
  | case3 u hu v rest hv ih =>
    simp only [utf16Decode, hu, hv, if_true, Option.map_eq_some_iff] at h
    obtain ⟨tail, ht, rfl⟩ := h
    have hrest := ih (fun x hx => hw x (by simp [hx])) ht
    simp only [List.flatMap_cons, utf16EncodeChar_join hu hv, hrest, List.cons_append,
      List.nil_append]
  | case4 u hu v rest hv => simp [utf16Decode, hu, hv] at h
  | case5 u us hu hval ih =>
    unfold utf16Decode at h
    simp only [hu, hval, if_true, Bool.false_eq_true, if_false, Option.map_eq_some_iff] at h
    obtain ⟨tail, ht, rfl⟩ := h
    have hrest := ih (fun x hx => hw x (by simp [hx])) ht
    have hsmall : u < 0x10000 := hw u (by simp)
    simp only [List.flatMap_cons, utf16EncodeChar, toNat_ofNat_of_valid hval, hsmall, if_true,
      hrest, List.cons_append, List.nil_append]
  | case6 u us hu hval =>
    unfold utf16Decode at h
    simp [hu, hval] at h

theorem utf16Decode_injective {us vs : List Nat} {cs : List Char}
    (hus : ∀ u ∈ us, u < 0x10000) (hvs : ∀ v ∈ vs, v < 0x10000)
    (hu : utf16Decode us = some cs) (hv : utf16Decode vs = some cs) : us = vs :=
  (utf16Decode_sound hus hu).symm.trans (utf16Decode_sound hvs hv)

theorem utf8Encode_injective {cs ds : List Char} (h : utf8Encode cs = utf8Encode ds) :
    cs = ds := by
  have hbytes : cs.utf8Encode = ds.utf8Encode := congrArg List.toByteArray h
  have hstr : String.ofList cs = String.ofList ds := by
    apply String.toByteArray_inj.mp
    simpa using hbytes
  simpa using congrArg String.toList hstr

theorem zero_mem_utf8EncodeChar_iff {c : Char} : 0 ∈ String.utf8EncodeChar c ↔ c.toNat = 0 := by
  have hrange : c.val.toNat < 0x110000 := by
    rcases c.valid with h | h <;> omega
  change _ ↔ c.val.toNat = 0
  unfold String.utf8EncodeChar
  simp only
  generalize c.val.toNat = v at hrange ⊢
  split
  next =>
    simp only [List.mem_singleton, ← UInt8.toNat_inj, UInt8.toNat_ofNat', UInt8.toNat_zero]
    omega
  next =>
    split
    next =>
      simp only [List.mem_cons, List.not_mem_nil, or_false, ← UInt8.toNat_inj,
        UInt8.toNat_ofNat', UInt8.toNat_zero]
      omega
    next =>
      split <;>
        simp only [List.mem_cons, List.not_mem_nil, or_false, ← UInt8.toNat_inj,
          UInt8.toNat_ofNat', UInt8.toNat_zero] <;>
        omega

theorem zero_mem_utf16EncodeChar_iff {c : Char} : 0 ∈ utf16EncodeChar c ↔ c.toNat = 0 := by
  unfold utf16EncodeChar
  split <;> simp only [List.mem_cons, List.not_mem_nil, or_false] <;> omega

theorem utf16EncodeChar_small {c : Char} (h : c.toNat < 0x10000) :
    utf16EncodeChar c = [c.toNat] := by
  rw [utf16EncodeChar, if_pos h]

theorem utf16EncodeChar_lt {c : Char} {u : Nat} (h : u ∈ utf16EncodeChar c) : u < 0x10000 := by
  have hmax : c.toNat < 0x110000 := by
    rcases c.valid with hv | hv
    · exact Nat.lt_trans hv (by decide)
    · exact hv.2
  unfold utf16EncodeChar at h
  split at h <;> simp only [List.mem_cons, List.not_mem_nil, or_false] at h <;> omega

/-- Decoding takes the UTF-16 form of every text back to the text. -/
theorem utf16Decode_encode (cs : List Char) : utf16Decode (cs.flatMap utf16EncodeChar) = some cs := by
  induction cs with
  | nil => rfl
  | cons c cs ih =>
    have hvalid : c.toNat.isValidChar := c.valid
    rw [List.flatMap_cons]
    by_cases hsmall : c.toNat < 0x10000
    · have hhigh : isHighSurrogate c.toNat = false := by
        simp only [isHighSurrogate, Bool.and_eq_false_iff, decide_eq_false_iff_not]
        rcases hvalid with h | h <;> omega
      have hchar : Char.ofNat c.toNat = c := Char.ofNat_toNat c
      rw [utf16EncodeChar_small hsmall, List.singleton_append]
      unfold utf16Decode
      simp [hhigh, hvalid, ih, hchar]
    · have hmax : c.toNat < 0x110000 := by
        rcases hvalid with h | h <;> omega
      have hhi : isHighSurrogate (0xD800 + (c.toNat - 0x10000) / 0x400) = true := by
        simp only [isHighSurrogate, Bool.and_eq_true, decide_eq_true_eq]
        omega
      have hlo : isLowSurrogate (0xDC00 + (c.toNat - 0x10000) % 0x400) = true := by
        simp only [isLowSurrogate, Bool.and_eq_true, decide_eq_true_eq]
        omega
      have hjoin : joinSurrogates (0xD800 + (c.toNat - 0x10000) / 0x400)
          (0xDC00 + (c.toNat - 0x10000) % 0x400) = c.toNat := by
        unfold joinSurrogates
        omega
      rw [utf16EncodeChar, if_neg hsmall]
      simp [utf16Decode, hhi, hlo, hjoin, ih, Char.ofNat_toNat]

theorem length_flatMap_utf16EncodeChar (cs : List Char) :
    cs.length ≤ (cs.flatMap utf16EncodeChar).length := by
  induction cs with
  | nil => simp
  | cons c cs ih =>
    have hone : 1 ≤ (utf16EncodeChar c).length := by
      unfold utf16EncodeChar
      split <;> simp
    rw [List.flatMap_cons, List.length_append, List.length_cons]
    omega

/-- Where there is one unit for each character, no character needs two. -/
theorem small_of_length_le {cs : List Char}
    (h : (cs.flatMap utf16EncodeChar).length ≤ cs.length) : ∀ c ∈ cs, c.toNat < 0x10000 := by
  induction cs with
  | nil => simp
  | cons c cs ih =>
    have hrest := length_flatMap_utf16EncodeChar cs
    rw [List.flatMap_cons, List.length_append, List.length_cons] at h
    have hc : c.toNat < 0x10000 := by
      by_contra hbig
      have htwo : (utf16EncodeChar c).length = 2 := by
        rw [utf16EncodeChar, if_neg hbig]
        rfl
      omega
    rw [utf16EncodeChar_small hc, List.length_singleton] at h
    intro d hd
    rcases List.mem_cons.mp hd with rfl | hd
    · exact hc
    · exact ih (by omega) d hd

theorem flatMap_utf16EncodeChar_small {cs : List Char} (h : ∀ c ∈ cs, c.toNat < 0x10000) :
    cs.flatMap utf16EncodeChar = cs.map Char.toNat := by
  induction cs with
  | nil => rfl
  | cons c cs ih =>
    have hrest := ih fun d hd => h d (List.mem_cons_of_mem _ hd)
    rw [List.flatMap_cons, utf16EncodeChar_small (h c List.mem_cons_self), hrest]
    rfl

theorem zero_mem_utf8Encode_iff {us : List Nat} {cs : List Char} (hw : ∀ u ∈ us, u < 0x10000)
    (h : utf16Decode us = some cs) : 0 ∈ utf8Encode cs ↔ 0 ∈ us := by
  rw [← utf16Decode_sound hw h]
  simp only [utf8Encode, List.mem_flatMap, zero_mem_utf8EncodeChar_iff,
    zero_mem_utf16EncodeChar_iff]

end Foundation
