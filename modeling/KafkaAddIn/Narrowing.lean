import KafkaAddIn.Conversions

namespace KafkaAddIn

open Foundation

variable {platform : Platform} {cs : List Char} {c : Converted ShortWchar}

def utf16Units (cs : List Char) : List ShortWchar :=
  (cs.flatMap utf16EncodeChar).map UInt16.ofNat

/-- The block starts with the encoded text and its terminator. -/
def Narrows (text : String) (result : Except Exit (List ShortWchar × UInt32)) : Prop :=
  ∃ post res, result = .ok (utf16Units text.toList ++ 0 :: post, res)

/-- No character needs two units, and iconv meets no byte order mark. -/
structure OneUnitEach (platform : Platform) (text : String) : Prop where
  small : ∀ c ∈ text.toList, c.toNat < 0x10000
  unmarked : platform = .linux true → text.toList.head? ≠ some (Char.ofNat 0xFEFF)

theorem wcslen_eq {source : List Wchar} (hzero : 0 ∉ source) (rest : List Wchar) :
    wcslen (source ++ 0 :: rest) = .ok source.length := by
  induction source with
  | nil => rfl
  | cons x source ih =>
    have hx : x ≠ 0 := fun he => hzero (he ▸ List.mem_cons_self)
    have hrest := ih fun h => hzero (List.mem_cons_of_mem _ h)
    simp [wcslen, hx, hrest, Except.map]

theorem iconvNarrow_length {n t : Nat} {source : List Wchar}
    (h : iconvNarrow n source t = .ok c) : c.written.length ≤ t := by
  induction n generalizing source t c with
  | zero =>
    cases h
    exact Nat.zero_le _
  | succ n ih =>
    cases source with
    | nil => cases h
    | cons u source =>
      simp only [iconvNarrow] at h
      split at h
      next hfits =>
        obtain ⟨c', hrest, rfl⟩ := map_eq_ok_iff.mp h
        have hle := ih hrest
        have hroom := hfits.2
        rw [List.length_append, List.length_map]
        omega
      next =>
        cases h
        exact Nat.zero_le _

theorem iconvUtf32ToUtf16le_length {n t : Nat} {source : List Wchar}
    (h : iconvUtf32ToUtf16le n source t = .ok c) : c.written.length ≤ t := by
  unfold iconvUtf32ToUtf16le at h
  split at h
  next n u rest =>
    split at h
    next =>
      obtain ⟨c', hrest, rfl⟩ := map_eq_ok_iff.mp h
      have hle := iconvNarrow_length hrest
      exact hle
    next => exact iconvNarrow_length h
  next => exact iconvNarrow_length h

theorem isScalar_char (c : Char) : isScalar c.toNat = true := by
  have hcases : c.toNat < 0xD800 ∨ 0xDFFF < c.toNat ∧ c.toNat < 0x110000 := c.valid
  unfold isScalar
  simp only [Bool.or_eq_true, Bool.and_eq_true, decide_eq_true_eq]
  omega

theorem utf16Units_cons {d : Char} (hd : d.toNat < 0x10000) :
    utf16Units (d :: cs) = UInt16.ofNat d.toNat :: utf16Units cs := by
  rw [utf16Units, List.flatMap_cons, utf16EncodeChar_small hd]
  rfl

/-- iconv converts a text with a unit for each character, terminator included. -/
theorem iconvNarrow_text {t : Nat} (hsmall : ∀ c ∈ cs, c.toNat < 0x10000)
    (hroom : cs.length + 1 ≤ t) :
    iconvNarrow (cs.length + 1) (cs.map Char.val ++ [0]) t =
      .ok ⟨utf16Units cs ++ [0], cs.length + 1, true⟩ := by
  induction cs generalizing t with
  | nil =>
    have hzero : utf16EncodeChar (Char.ofNat 0) = [0] := by decide
    have hone : 1 ≤ t := hroom
    simp [iconvNarrow, hzero, isScalar, hone, Except.map, utf16Units]
  | cons d cs ih =>
    have hd : utf16EncodeChar d = [d.toNat] := utf16EncodeChar_small (hsmall d List.mem_cons_self)
    have hrest := ih (t := t - 1) (fun e he => hsmall e (List.mem_cons_of_mem _ he))
      (Nat.le_sub_one_of_lt hroom)
    have hchar : Char.ofNat d.toNat = d := Char.ofNat_toNat d
    have hone : 1 ≤ t := by omega
    simp [iconvNarrow, isScalar_char, hchar, hd, hone, hrest, Except.map, utf16Units]

theorem length_utf16Units (cs : List Char) : cs.length ≤ (utf16Units cs).length := by
  rw [utf16Units, List.length_map]
  exact length_flatMap_utf16EncodeChar cs

theorem utf16Units_small (hsmall : ∀ c ∈ cs, c.toNat < 0x10000) :
    utf16Units cs = (cs.map Char.val).map UInt32.toUInt16 := by
  rw [utf16Units, flatMap_utf16EncodeChar_small hsmall, List.map_map, List.map_map]
  rfl

theorem zero_notMem_utf16Units (hsmall : ∀ c ∈ cs, c.toNat < 0x10000)
    (hzero : 0 ∉ cs.map Char.val) : 0 ∉ utf16Units cs := by
  intro h
  rw [utf16Units, flatMap_utf16EncodeChar_small hsmall, List.map_map] at h
  obtain ⟨c, hc, hunit⟩ := List.mem_map.mp h
  have hlow := hsmall c hc
  have hnat : (UInt16.ofNat c.toNat).toNat = 0 := congrArg UInt16.toNat hunit
  rw [UInt16.toNat_ofNat_of_lt' hlow] at hnat
  exact hzero (List.mem_map.mpr ⟨c, hc, UInt32.toNat_inj.mp hnat⟩)

/-- The conversion into a cleared block of `len` units. -/
def narrowed (platform : Platform) (text : String) (len : UInt32) :
    Except Exit (List ShortWchar × UInt32) :=
  convertInto platform UInt32.toUInt16 (iconvUtf32ToUtf16le len.toNat (wide text) len.toNat)
    (List.replicate len.toNat 0) (wide text) len

theorem narrowed_length {text : String} {len res : UInt32} {d : List ShortWchar}
    (h : narrowed platform text len = .ok (d, res)) : d.length = len.toNat :=
  convertInto_fresh_length (fun _ hc => iconvUtf32ToUtf16le_length hc) h

theorem narrows_length {text : String} {len : UInt32}
    (h : Narrows text (narrowed platform text len)) :
    (utf16Units text.toList).length < len.toNat := by
  obtain ⟨post, res, h⟩ := h
  have hsize := narrowed_length h
  rw [List.length_append, List.length_cons] at hsize
  omega

/-- A leading byte order mark is read and not written: everything else moves up by one. -/
theorem not_narrows_mark {text : String} {len : UInt32} (hzero : 0 ∉ text.toList.map Char.val)
    (hlen : len.toNat = text.toList.length + 1) (hsmall : ∀ c ∈ text.toList, c.toNat < 0x10000)
    (hmark : text.toList.head? = some (Char.ofNat 0xFEFF)) :
    ¬ Narrows text (narrowed (.linux true) text len) := by
  intro h
  obtain ⟨cs, hcs⟩ := List.head?_eq_some_iff.mp hmark
  rw [hcs] at hzero hlen hsmall
  have hsmall' : ∀ c ∈ cs, c.toNat < 0x10000 := fun c hc => hsmall c (List.mem_cons_of_mem _ hc)
  have hzero' : 0 ∉ cs.map Char.val := fun hm => hzero (List.mem_cons_of_mem _ hm)
  have hrest := iconvNarrow_text hsmall' (Nat.le_succ (cs.length + 1))
  have hiconv : iconvUtf32ToUtf16le len.toNat (wide text) len.toNat =
      .ok ⟨utf16Units cs ++ [0], cs.length + 2, true⟩ := by
    rw [wide, hcs, hlen]
    exact congrArg (Except.map _) hrest
  obtain ⟨post, res, h⟩ := h
  rw [narrowed, convertInto_done hiconv rfl, hcs, List.append_assoc] at h
  have hunits := congrArg (cString 0) (Prod.mk.inj (Except.ok.inj h)).1
  rw [cString_terminated (zero_notMem_utf16Units hsmall hzero)] at hunits
  have hlost := (cString_terminated (zero_notMem_utf16Units hsmall' hzero') _).symm.trans hunits
  rw [utf16Units_cons (hsmall _ List.mem_cons_self)] at hlost
  exact List.cons_ne_self _ _ hlost.symm

theorem iconv_unmarked {n t : Nat} (hmark : cs.head? ≠ some (Char.ofNat 0xFEFF)) :
    iconvUtf32ToUtf16le (n + 1) (cs.map Char.val ++ [0]) t =
      iconvNarrow (n + 1) (cs.map Char.val ++ [0]) t := by
  cases cs with
  | nil => rfl
  | cons d cs =>
    have hd : d.val ≠ 0xFEFF := by
      intro he
      have heq : d = Char.ofNat 0xFEFF := Char.ext he
      exact hmark (congrArg some heq)
    simp only [List.map_cons, List.cons_append, iconvUtf32ToUtf16le, hd, if_false]

/-- In a block with one unit for each character and the terminator. -/
theorem narrows_narrowed_iff {text : String} {len : UInt32}
    (hzero : 0 ∉ text.toList.map Char.val) (hlen : len.toNat = text.toList.length + 1) :
    Narrows text (narrowed platform text len) ↔ OneUnitEach platform text := by
  constructor
  · intro h
    have hroom := narrows_length h
    have hsmall : ∀ c ∈ text.toList, c.toNat < 0x10000 := by
      apply small_of_length_le
      rw [utf16Units, List.length_map] at hroom
      omega
    refine ⟨hsmall, ?_⟩
    intro hplatform hmark
    subst platform
    exact not_narrows_mark hzero hlen hsmall hmark h
  · intro h
    by_cases hplatform : platform = .linux true
    · subst platform
      have hiconv : iconvUtf32ToUtf16le len.toNat (wide text) len.toNat =
          .ok ⟨utf16Units text.toList ++ [0], text.toList.length + 1, true⟩ := by
        rw [wide, hlen, iconv_unmarked (h.unmarked rfl)]
        exact iconvNarrow_text h.small (Nat.le_refl _)
      refine ⟨(List.replicate len.toNat 0).drop (utf16Units text.toList ++ [0]).length, 0, ?_⟩
      rw [narrowed, convertInto_done hiconv rfl, List.append_assoc]
      rfl
    · have hcopy : copyUnits UInt32.toUInt16 len.toNat (text.toList.map Char.val ++ [0])
          (List.replicate len.toNat 0) = .ok (utf16Units text.toList ++ [0]) := by
        rw [utf16Units_small h.small, hlen, ← List.length_map Char.val]
        exact copyUnits_fresh _ [] 0 0
      refine ⟨[], len, ?_⟩
      rw [narrowed, convertInto_plain hplatform, wide, hcopy]
      rfl

theorem convToShortWchar_fresh {text : String} (hzero : 0 ∉ text.toList.map Char.val) :
    convToShortWchar platform none (wide text) 0 =
      narrowed platform text (UInt32.ofNat (text.toList.length + 1)) := by
  have hcount : wcslen (wide text) = .ok text.toList.length := by
    rw [wide, wcslen_eq hzero, List.length_map]
  unfold convToShortWchar
  simp only [if_true, hcount, Except.map, bind, Except.bind, Option.getD_none, clearUnits_fresh]
  rfl

theorem convToShortWchar_sized {text : String} {dest : List ShortWchar} {len : UInt32}
    (hlen : len ≠ 0) (hdest : dest.length = len.toNat) :
    convToShortWchar platform (some dest) (wide text) len = narrowed platform text len := by
  unfold convToShortWchar
  simp only [hlen, if_false, bind, Except.bind, Option.getD_some, clearUnits_eq 0 hdest]
  rfl

/-- The block is sized in characters, and UTF-16 may need two units for one. -/
theorem narrows_iff (platform : Platform) (text : String)
    (hzero : 0 ∉ text.toList.map Char.val) :
    (Narrows text (convToShortWchar platform none (wide text) 0) ↔
      text.toList.length + 1 < 2 ^ 32 ∧ OneUnitEach platform text) ∧
    ∀ (dest : List ShortWchar) (len : UInt32), len.toNat = text.toList.length + 1 →
      dest.length = len.toNat →
      (Narrows text (convToShortWchar platform (some dest) (wide text) len) ↔
        OneUnitEach platform text) := by
  refine ⟨?_, ?_⟩
  · rw [convToShortWchar_fresh hzero]
    by_cases hlen : text.toList.length + 1 < 2 ^ 32
    · rw [narrows_narrowed_iff hzero (UInt32.toNat_ofNat_of_lt' hlen)]
      exact ⟨fun h => ⟨hlen, h⟩, fun h => h.2⟩
    · refine iff_of_false ?_ fun h => hlen h.1
      intro h
      have hroom := narrows_length h
      have hunits := length_utf16Units text.toList
      rw [UInt32.toNat_ofNat'] at hroom
      omega
  · intro dest len hlen hdest
    have hne : len ≠ 0 := by
      intro he
      rw [he] at hlen
      cases hlen
    rw [convToShortWchar_sized hne hdest]
    exact narrows_narrowed_iff hzero hlen

theorem narrows_cyrillic :
    let text := "Сообщение"
    (Narrows text (convToShortWchar (.linux true) none (wide text) 0) ↔
      text.toList.length + 1 < 2 ^ 32 ∧ OneUnitEach (.linux true) text) ∧
    ∀ (dest : List ShortWchar) (len : UInt32), len.toNat = text.toList.length + 1 →
      dest.length = len.toNat →
      (Narrows text (convToShortWchar (.linux true) (some dest) (wide text) len) ↔
        OneUnitEach (.linux true) text) :=
  narrows_iff (.linux true) _ (by decide +kernel)

/-- U+1F600 alone: the loop writes behind the block. -/
theorem supplementary_not_narrowed :
    let text := String.singleton (Char.ofNat 0x1F600)
    convToShortWchar (.linux true) none (wide text) 0 = .error .fault ∧
      ¬ Narrows text (convToShortWchar (.linux true) none (wide text) 0) := by
  intro text
  have hfault : convToShortWchar (.linux true) none (wide text) 0 = .error .fault := by
    decide +kernel
  refine ⟨hfault, ?_⟩
  intro h
  obtain ⟨post, res, h⟩ := h
  rw [hfault] at h
  cases h

end KafkaAddIn
