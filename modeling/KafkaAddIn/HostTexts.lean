import KafkaAddIn.GivenNames
import KafkaAddIn.Foundation.Multibyte

namespace KafkaAddIn

open Foundation

variable {platform : Platform} {text : String} {u rest : List ShortWchar} {n : Nat}
  {c : Converted ShortWchar} {source : List Wchar}

/-- A length stored in an `int`. -/
def toInt (n : Nat) : Int :=
  if n % 0x100000000 < 0x80000000 then n % 0x100000000 else n % 0x100000000 - 0x100000000

/-- The first `int len` units of a text in a block of `len + 1` units, the others zero. A
negative size is refused by `new`; a negative count copied, as many bytes, leads beyond all
memory. -/
def copyText {α : Type} (zero : α) (str : List α) (n : Nat) : Except Exit (List α) :=
  if toInt (n + 1) < 0 then .error .badAlloc
  else if toInt n < 0 then .error .fault
  else .ok (str.take (toInt n).toNat ++ [zero])

/-- `WcharWrapper`: one text in both forms, or two null pointers. -/
structure WcharWrapper where
  m_str_WCHAR : Option (List ShortWchar)
  m_str_wchar : Option (List Wchar)
  deriving DecidableEq, Repr

/-- `WcharWrapper(const WCHAR_T* str)` -/
def WcharWrapper.ofShortWchar (platform : Platform) :
    Option (List ShortWchar) → Except Exit WcharWrapper
  | none => .ok ⟨none, none⟩
  | some str => do
    let len ← getLenShortWcharStr str 0
    let short ← copyText 0 str len.toNat
    let (long, _) ← convFromShortWchar platform none short 0
    return ⟨some short, some long⟩

/-- `WcharWrapper(const wchar_t* str)` -/
def WcharWrapper.ofWchar (platform : Platform) : Option (List Wchar) → Except Exit WcharWrapper
  | none => .ok ⟨none, none⟩
  | some str => do
    let len ← wcslen str
    let long ← copyText 0 str len
    let (short, _) ← convToShortWchar platform none long 0
    return ⟨some short, some long⟩

/-- `s_names` is made when the component is loaded. -/
def getClassNames (platform : Platform) : Except Exit (Option (List ShortWchar)) :=
  (WcharWrapper.ofWchar platform (some (wide "CKAFKA"))).map WcharWrapper.m_str_WCHAR

/-- What `AddError` of the connection is called with; its `wcode` is an `unsigned short`. -/
structure ErrorReport where
  wcode : UInt16
  source : List ShortWchar
  descr : List ShortWchar
  code : Int
  deriving DecidableEq, Repr

def addError (platform : Platform) (this : CKafka) (wcode : UInt32) (source descriptor : List Wchar)
    (code : Int) : Except Exit (Option ErrorReport) :=
  if this.mIConnect then do
    let (err, _) ← convToShortWchar platform none source 0
    let (descr, _) ← convToShortWchar platform none descriptor 0
    return some ⟨wcode.toUInt16, err, descr, code⟩
  else .ok none

/-- `wcrtomb` is the encoding of the locale. There is no saying what is returned where the
buffer is read beyond what was written to it. -/
def wstringToString (wcrtomb : Wchar → Option Bytes) : Option (List Wchar) → Option Bytes
  | none => some []
  | some wstr => do
    let n ← (wcslen wstr).toOption
    let buffer ← encodeInto wcrtomb 0 0 wstr (List.replicate (n + 1) none)
    readCells 0 buffer

theorem toInt_small (h : n + 1 < 2 ^ 31) : toInt n = n ∧ ¬ toInt (n + 1) < 0 := by
  unfold toInt
  refine ⟨?_, ?_⟩ <;> omega

theorem copyText_small {α : Type} (zero : α) (text rest : List α)
    (h : text.length + 1 < 2 ^ 31) :
    copyText zero (text ++ zero :: rest) text.length = .ok (text ++ [zero]) := by
  obtain ⟨hn, hsize⟩ := toInt_small h
  unfold copyText
  rw [if_neg hsize, hn, if_neg (by omega), Int.toNat_natCast, List.take_left]

theorem copyText_length {α : Type} {zero : α} {str d : List α} (h : copyText zero str n = .ok d) :
    d.length < 2 ^ 31 := by
  unfold copyText at h
  split at h
  next => cases h
  next hsize =>
    split at h
    next => cases h
    next hn =>
      cases h
      have hbound : (toInt n).toNat + 1 < 2 ^ 31 := by
        unfold toInt at hsize hn ⊢
        omega
      rw [List.length_append, List.length_take, List.length_singleton]
      omega

/-- Where iconv comes to the end it has written a unit at least for each that it read. -/
theorem iconvNarrow_done {t : Nat} (h : iconvNarrow n source t = .ok c)
    (hdone : c.succeeded = true) : n ≤ c.written.length := by
  induction n generalizing source t c with
  | zero => exact Nat.zero_le _
  | succ n ih =>
    cases source with
    | nil => cases h
    | cons u source =>
      simp only [iconvNarrow] at h
      split at h
      next =>
        obtain ⟨c', hrest, rfl⟩ := map_eq_ok_iff.mp h
        have hle := ih hrest hdone
        have hone : 1 ≤ (utf16EncodeChar (Char.ofNat u.toNat)).length := by
          unfold utf16EncodeChar
          split <;> simp
        rw [List.length_append, List.length_map]
        omega
      next =>
        cases h
        cases hdone

/-- A text that begins with a character of two units: iconv runs out of room on the way, and
the loop out of text. -/
theorem narrowed_big {d : Char} {cs : List Char} {len : UInt32} (htext : text.toList = d :: cs)
    (hbig : 0x10000 ≤ d.toNat) (hlen : len.toNat = text.toList.length + 1)
    (p : List ShortWchar × UInt32) : narrowed (.linux true) text len ≠ .ok p := by
  intro h
  obtain ⟨c, hiconv, _⟩ := bind_eq_ok_iff.mp h
  have hcount : len.toNat = cs.length + 1 + 1 := by
    rw [hlen, htext, List.length_cons]
  have hval : d.val ≠ 0xFEFF := by
    intro he
    have hnat : d.toNat = 0xFEFF := congrArg UInt32.toNat he
    omega
  have hchar : Char.ofNat d.val.toNat = d := Char.ofNat_toNat d
  have htwo : (utf16EncodeChar d).length = 2 := by
    rw [utf16EncodeChar, if_neg (by omega)]
    rfl
  have hread := hiconv
  rw [hcount, wide, htext] at hread
  simp only [List.map_cons, List.cons_append, iconvUtf32ToUtf16le, hval, if_false, iconvNarrow,
    hchar, htwo] at hread
  split at hread
  next =>
    obtain ⟨c', hrest, rfl⟩ := map_eq_ok_iff.mp hread
    have hroom := iconvNarrow_length hrest
    have hstop : c'.succeeded = false := by
      by_contra hdone
      have hall := iconvNarrow_done hrest (by simpa using hdone)
      omega
    have hsource : (wide text).length = len.toNat := by
      rw [wide, hlen, List.length_append, List.length_map, List.length_singleton]
    have hfault : narrowed (.linux true) text len = .error .fault :=
      convertInto_stopped hiconv hstop (Nat.succ_pos _) hsource (by omega)
    rw [hfault] at h
    cases h
  next hno =>
    have hscalar : isScalar d.val.toNat = true := isScalar_char d
    exact hno ⟨hscalar, by omega⟩

theorem wcslen_wide (hzero : 0 ∉ text.toList.map Char.val) (rest : List Wchar) :
    wcslen (wide text ++ rest) = .ok text.toList.length := by
  rw [wide, List.append_assoc, List.singleton_append, wcslen_eq hzero, List.length_map]

theorem WcharWrapper.ofWchar_eq (hzero : 0 ∉ text.toList.map Char.val)
    (hlen : text.toList.length + 1 < 2 ^ 31) (rest : List Wchar) :
    WcharWrapper.ofWchar platform (some (wide text ++ rest)) =
      (narrowed platform text (UInt32.ofNat (text.toList.length + 1))).map
        fun p => ⟨some p.1, some (wide text)⟩ := by
  have hcopy : copyText 0 (wide text ++ rest) text.toList.length = .ok (wide text) := by
    have hsame := copyText_small 0 (text.toList.map Char.val) rest (by rwa [List.length_map])
    rwa [List.length_map, ← List.singleton_append, ← List.append_assoc] at hsame
  unfold WcharWrapper.ofWchar
  simp only [wcslen_wide hzero, hcopy, convToShortWchar_fresh hzero, bind, Except.bind]
  cases narrowed platform text (UInt32.ofNat (text.toList.length + 1)) <;> rfl

theorem WcharWrapper.ofShortWchar_eq (hu : 0 ∉ u) (hlen : u.length + 1 < 2 ^ 31)
    (rest : List ShortWchar) :
    WcharWrapper.ofShortWchar platform (some (u ++ 0 :: rest)) =
      (convFromShortWchar platform none (u ++ [0]) 0).map
        fun p => ⟨some (u ++ [0]), some p.1⟩ := by
  have hsmall : u.length < UInt32.size := Nat.lt_trans (Nat.lt_of_succ_lt hlen) (by decide)
  have hcount : (UInt32.ofNat u.length).toNat = u.length := UInt32.toNat_ofNat_of_lt' hsmall
  unfold WcharWrapper.ofShortWchar
  simp only [getLenShortWcharStr_eq hu, UInt32.zero_add, hcount, copyText_small 0 u rest hlen, bind,
    Except.bind]
  cases convFromShortWchar platform none (u ++ [0]) 0 <;> rfl

theorem small_of_map {x : List ShortWchar}
    (h : x.map UInt16.toUInt32 ++ [0] = wide text) : ∀ c ∈ text.toList, c.toNat < 0x10000 := by
  intro c hc
  have hvals : x.map UInt16.toUInt32 = text.toList.map Char.val := List.append_cancel_right h
  have hin : c.val ∈ x.map UInt16.toUInt32 := by
    rw [hvals]
    exact List.mem_map_of_mem hc
  obtain ⟨s, _, hs⟩ := List.mem_map.mp hin
  have hunit : s.toNat < 0x10000 := s.toNat_lt
  have hsame : s.toNat = c.toNat := (UInt16.toNat_toUInt32 s).symm.trans (congrArg UInt32.toNat hs)
  omega

theorem getLenShortWcharStr_ok {str : List ShortWchar} {res len : UInt32}
    (h : getLenShortWcharStr str res = .ok len) : 0 ∈ str := by
  induction str generalizing res with
  | nil => cases h
  | cons x str ih =>
    by_cases hx : x = 0
    · simp [hx]
    · simp only [getLenShortWcharStr, hx, if_false] at h
      exact List.mem_cons_of_mem _ (ih h)

/-- What is converted is no longer than the block it is read from. -/
theorem convFromShortWchar_length_le {str : List ShortWchar} {d : List Wchar} {res : UInt32}
    (h : convFromShortWchar platform none str 0 = .ok (d, res)) : d.length ≤ str.length := by
  have hzero : 0 ∈ str := by
    obtain ⟨len, hlen, _⟩ := bind_eq_ok_iff.mp h
    obtain ⟨n, hn, _⟩ := map_eq_ok_iff.mp hlen
    exact getLenShortWcharStr_ok hn
  obtain ⟨x, post, rfl, hx⟩ := List.eq_append_cons_of_mem hzero
  rw [convFromShortWchar_eq hx rfl] at h
  have hsize := convertInto_fresh_length (fun _ hc => iconvUtf32ToUtf32le_length hc) h
  have hmod := Nat.mod_le (x.length + 1) (2 ^ 32)
  rw [UInt32.toNat_ofNat'] at hsize
  rw [List.length_append, List.length_cons]
  omega

/-- What comes back from the host's units is the text only if they were the text's. -/
theorem narrowed_of_widened {len res res' : UInt32} {x post : List ShortWchar}
    (hzero : 0 ∉ text.toList.map Char.val) (hlen : len.toNat = text.toList.length + 1)
    (hnarrow : narrowed platform text len = .ok (x ++ 0 :: post, res)) (hx : 0 ∉ x)
    (hwiden : convFromShortWchar platform none (x ++ [0]) 0 = .ok (wide text, res')) :
    OneUnitEach platform text ∧ x = utf16Units text.toList := by
  have hsize := narrowed_length hnarrow
  have hroom := len.toNat_lt
  rw [List.length_append, List.length_cons] at hsize
  rcases convFromShortWchar_shape hx (by omega) hwiden with ⟨hunits, _⟩ | ⟨_, hlost⟩ |
    ⟨rfl, y, tail, hfirst, hbig⟩
  · have hsmall := small_of_map hunits.symm
    have hsame := (units_eq_iff hsmall).mp hunits.symm
    refine ⟨(narrows_narrowed_iff hzero hlen).mp ⟨post, res, ?_⟩, hsame⟩
    rw [← hsame]
    exact hnarrow
  · have hpair : text.toList.map Char.val ++ [0] = [0] ++ [0] := hlost
    have hvals : text.toList.map Char.val = [0] := List.append_cancel_right hpair
    exact absurd (hvals ▸ List.mem_singleton_self 0) hzero
  · cases htext : text.toList with
    | nil =>
      rw [wide, htext] at hfirst
      have hy : 0 = y := (List.cons.inj hfirst).1
      rw [← hy] at hbig
      exact absurd hbig (by decide)
    | cons d cs =>
      rw [wide, htext] at hfirst
      have hy : d.val = y := (List.cons.inj hfirst).1
      have hd : 0x10000 ≤ d.toNat := by
        rw [← hy] at hbig
        exact hbig
      exact absurd hnarrow (narrowed_big htext hd hlen _)

/-- The wrapper of a wide text holds it in both forms. -/
def HoldsText (platform : Platform) (str : List Wchar) (text : String) : Prop :=
  WcharWrapper.ofWchar platform (some str) =
    .ok ⟨some (utf16Units text.toList ++ [0]), some (wide text)⟩

/-- So does the wrapper of a text of the host. -/
def HoldsUnits (platform : Platform) (str u : List ShortWchar) : Prop :=
  WcharWrapper.ofShortWchar platform (some str) =
    .ok ⟨some (u ++ [0]), some (u.map UInt16.toUInt32 ++ [0])⟩

/-- A text comes back from a wrapper made of the units that another gives out for it. -/
def Survives (platform : Platform) (str : List Wchar) (text : String) : Prop :=
  ∃ v v', WcharWrapper.ofWchar platform (some str) = .ok v ∧
    WcharWrapper.ofShortWchar platform v.m_str_WCHAR = .ok v' ∧ v'.m_str_wchar = some (wide text)

theorem ofWchar_block {str : List Wchar} {v : WcharWrapper}
    (h : WcharWrapper.ofWchar platform (some str) = .ok v) :
    ∃ long, v.m_str_wchar = some long ∧ long.length < 2 ^ 31 := by
  obtain ⟨len, _, h⟩ := bind_eq_ok_iff.mp h
  obtain ⟨long, hcopy, h⟩ := bind_eq_ok_iff.mp h
  obtain ⟨⟨short, res⟩, _, h⟩ := bind_eq_ok_iff.mp h
  cases h
  exact ⟨long, rfl, copyText_length hcopy⟩

theorem ofShortWchar_block {str : List ShortWchar} {v : WcharWrapper}
    (h : WcharWrapper.ofShortWchar platform (some str) = .ok v) :
    0 ∈ str ∧ ∃ short long, v = ⟨some short, some long⟩ ∧ short.length < 2 ^ 31 ∧
      long.length ≤ short.length := by
  obtain ⟨len, hlen, h⟩ := bind_eq_ok_iff.mp h
  obtain ⟨short, hcopy, h⟩ := bind_eq_ok_iff.mp h
  obtain ⟨⟨long, res⟩, hconv, h⟩ := bind_eq_ok_iff.mp h
  cases h
  exact ⟨getLenShortWcharStr_ok hlen, short, long, rfl, copyText_length hcopy,
    convFromShortWchar_length_le hconv⟩

theorem length_wide (text : String) : (wide text).length = text.toList.length + 1 := by
  rw [wide, List.length_append, List.length_map, List.length_singleton]

theorem ofNat_length_succ (h : n + 1 < 2 ^ 31) : (UInt32.ofNat (n + 1)).toNat = n + 1 :=
  UInt32.toNat_ofNat_of_lt' (Nat.lt_trans h (by decide))

theorem holdsText_iff (hzero : 0 ∉ text.toList.map Char.val) (rest : List Wchar) :
    HoldsText platform (wide text ++ rest) text ↔
      text.toList.length + 1 < 2 ^ 31 ∧ OneUnitEach platform text := by
  constructor
  · intro h
    obtain ⟨long, hlong, hsize⟩ := ofWchar_block h
    cases hlong
    rw [length_wide] at hsize
    unfold HoldsText at h
    rw [WcharWrapper.ofWchar_eq hzero hsize] at h
    obtain ⟨⟨short, res⟩, hnarrow, h⟩ := map_eq_ok_iff.mp h
    cases h
    exact ⟨hsize, (narrows_narrowed_iff hzero (ofNat_length_succ hsize)).mp ⟨[], res, hnarrow⟩⟩
  · rintro ⟨hsize, hone⟩
    obtain ⟨res, hblock⟩ := narrowed_block hzero (ofNat_length_succ hsize) hone
    unfold HoldsText
    rw [WcharWrapper.ofWchar_eq hzero hsize, hblock]
    rfl

theorem holdsUnits_iff (hu : 0 ∉ u) (rest : List ShortWchar) :
    HoldsUnits platform (u ++ 0 :: rest) u ↔
      u.length + 1 < 2 ^ 31 ∧ (platform = .linux true → ¬ Misread u) := by
  constructor
  · intro h
    obtain ⟨_, short, long, hv, hsize, _⟩ := ofShortWchar_block h
    cases hv
    rw [List.length_append, List.length_singleton] at hsize
    unfold HoldsUnits at h
    rw [WcharWrapper.ofShortWchar_eq hu hsize] at h
    obtain ⟨⟨long, res⟩, hwiden, h⟩ := map_eq_ok_iff.mp h
    cases h
    exact ⟨hsize, (kept_iff platform hu (by omega) []).mp ⟨res, hwiden⟩⟩
  · rintro ⟨hsize, hread⟩
    obtain ⟨res, hwiden⟩ := convFromShortWchar_kept hu (by omega) hread []
    unfold HoldsUnits
    rw [WcharWrapper.ofShortWchar_eq hu hsize, hwiden]
    rfl

/-- The round trip of a text through the host's form: it comes back exactly where no
character needs two units, no byte order mark comes first, and the second unit is no control
character that iconv takes for the upper half of the first. -/
theorem survives_iff (platform : Platform) (text : String)
    (hzero : 0 ∉ text.toList.map Char.val) (rest : List Wchar) :
    Survives platform (wide text ++ rest) text ↔
      text.toList.length + 1 < 2 ^ 31 ∧ OneUnitEach platform text ∧
        (platform = .linux true → ¬ Misread (utf16Units text.toList)) := by
  constructor
  · rintro ⟨v, v', hv, hv', hback⟩
    cases hshort : v.m_str_WCHAR with
    | none =>
      rw [hshort] at hv'
      cases hv'
      cases hback
    | some d =>
      rw [hshort] at hv'
      obtain ⟨hmem, short, long, rfl, hblock, hle⟩ := ofShortWchar_block hv'
      cases hback
      rw [length_wide] at hle
      have hsize : text.toList.length + 1 < 2 ^ 31 := by omega
      have hlen := ofNat_length_succ hsize
      rw [WcharWrapper.ofWchar_eq hzero hsize] at hv
      obtain ⟨⟨units, res⟩, hnarrow, rfl⟩ := map_eq_ok_iff.mp hv
      cases hshort
      obtain ⟨x, post, rfl, hx⟩ := List.eq_append_cons_of_mem hmem
      have hroom := narrowed_length hnarrow
      rw [List.length_append, List.length_cons] at hroom
      rw [WcharWrapper.ofShortWchar_eq hx (by omega)] at hv'
      obtain ⟨⟨back, res'⟩, hwiden, hv'⟩ := map_eq_ok_iff.mp hv'
      cases hv'
      obtain ⟨hone, rfl⟩ := narrowed_of_widened hzero hlen hnarrow hx hwiden
      have hsame : (utf16Units text.toList).map UInt16.toUInt32 ++ [0] = wide text :=
        (units_eq_iff hone.small).mpr rfl
      have hkept : ∃ res, convFromShortWchar platform none (utf16Units text.toList ++ 0 :: []) 0 =
          .ok ((utf16Units text.toList).map UInt16.toUInt32 ++ [0], res) := by
        refine ⟨res', ?_⟩
        rw [hsame]
        exact hwiden
      exact ⟨hsize, hone, (kept_iff platform hx (by omega) []).mp hkept⟩
  · rintro ⟨hsize, hone, hread⟩
    have hfree := zero_notMem_utf16Units hone.small hzero
    have hunits : (utf16Units text.toList).length = text.toList.length := by
      rw [utf16Units_small hone.small, List.length_map, List.length_map]
    have hthere := (holdsText_iff hzero rest).mpr ⟨hsize, hone⟩
    have hback := (holdsUnits_iff hfree []).mpr ⟨hunits.symm ▸ hsize, hread⟩
    refine ⟨_, _, hthere, hback, ?_⟩
    exact congrArg some ((units_eq_iff hone.small).mpr rfl)

theorem survives_cyrillic :
    let text := "ПолучитьВерсию"
    Survives (.linux true) (wide text ++ [7]) text ↔
      text.toList.length + 1 < 2 ^ 31 ∧ OneUnitEach (.linux true) text ∧
        ((.linux true : Platform) = .linux true → ¬ Misread (utf16Units text.toList)) :=
  survives_iff (.linux true) _ (by decide +kernel) [7]

/-- The class name reaches the host on every platform. -/
theorem getClassNames_eq (platform : Platform) :
    getClassNames platform = .ok (some (utf16Units "CKAFKA".toList ++ [0])) := by
  have hone : OneUnitEach platform "CKAFKA" := oneUnitEach_of_printable (by decide +kernel)
  have hheld : HoldsText platform (wide "CKAFKA" ++ []) "CKAFKA" :=
    (holdsText_iff (by decide +kernel) []).mpr ⟨by decide +kernel, hone⟩
  unfold getClassNames
  rw [← List.append_nil (wide "CKAFKA"), hheld]
  rfl

theorem converted_iff (hzero : 0 ∉ text.toList.map Char.val)
    (hshort : text.toList.length + 1 < 2 ^ 32) :
    (∃ res, convToShortWchar platform none (wide text) 0 =
      .ok (utf16Units text.toList ++ [0], res)) ↔ OneUnitEach platform text := by
  have hlen : (UInt32.ofNat (text.toList.length + 1)).toNat = text.toList.length + 1 :=
    UInt32.toNat_ofNat_of_lt' hshort
  rw [convToShortWchar_fresh hzero]
  constructor
  · rintro ⟨res, h⟩
    exact (narrows_narrowed_iff hzero hlen).mp ⟨[], res, h⟩
  · exact narrowed_block hzero hlen

theorem toUInt32_toUInt16_iff {x : UInt32} : x.toUInt16.toUInt32 = x ↔ x < 0x10000 := by
  rw [← UInt32.toNat_inj, UInt32.lt_iff_toNat_lt, UInt16.toNat_toUInt32, UInt32.toNat_toUInt16]
  have hbound : (0x10000 : UInt32).toNat = 2 ^ 16 := rfl
  omega

/-- An error report reaches the host as it was made when it is connected, the code fits, and
neither text needs two units for a character or begins with a byte order mark. -/
theorem addError_whole_iff (platform : Platform) (this : CKafka) (wcode : UInt32)
    (source descriptor : String) (code : Int) (hsource : 0 ∉ source.toList.map Char.val)
    (hdescriptor : 0 ∉ descriptor.toList.map Char.val)
    (hshort : source.toList.length + 1 < 2 ^ 32)
    (hshort' : descriptor.toList.length + 1 < 2 ^ 32) :
    (∃ sent : UInt16, sent.toUInt32 = wcode ∧
      addError platform this wcode (wide source) (wide descriptor) code =
        .ok (some ⟨sent, utf16Units source.toList ++ [0], utf16Units descriptor.toList ++ [0],
          code⟩)) ↔
      this.mIConnect = true ∧ wcode < 0x10000 ∧ OneUnitEach platform source ∧
        OneUnitEach platform descriptor := by
  rw [← converted_iff hsource hshort, ← converted_iff hdescriptor hshort',
    ← toUInt32_toUInt16_iff]
  unfold addError
  by_cases hset : this.mIConnect = true
  · rw [if_pos hset]
    constructor
    · rintro ⟨sent, hsent, h⟩
      obtain ⟨⟨err, res⟩, herr, h⟩ := bind_eq_ok_iff.mp h
      obtain ⟨⟨descr, res'⟩, hdescr, h⟩ := bind_eq_ok_iff.mp h
      cases h
      exact ⟨hset, hsent, ⟨res, herr⟩, ⟨res', hdescr⟩⟩
    · rintro ⟨_, hcode, ⟨res, herr⟩, ⟨res', hdescr⟩⟩
      refine ⟨wcode.toUInt16, hcode, ?_⟩
      rw [herr, hdescr]
      rfl
  · rw [if_neg hset]
    constructor
    · rintro ⟨sent, _, h⟩
      cases h
    · intro h
      exact absurd h.1 hset

/-- The buffer has a byte for each character: the string is returned exactly where each is
encoded as one. -/
theorem wstringToString_iff (wcrtomb : Wchar → Option Bytes) (henc : Encodes wcrtomb 0 0)
    (y rest : List Wchar) (hy : 0 ∉ y) (s : Bytes) :
    wstringToString wcrtomb (some (y ++ 0 :: rest)) = some s ↔
      y.map wcrtomb = s.map fun b => some [b] := by
  have hread : wstringToString wcrtomb (some (y ++ 0 :: rest)) =
      (encodeInto wcrtomb 0 0 (y ++ 0 :: rest) (List.replicate (y.length + 1) none)).bind
        (readCells 0) := by
    simp only [wstringToString, wcslen_eq hy, Except.toOption, bind, Option.bind_some]
  rw [hread]
  exact read_encodeInto_iff henc hy

/-- The encoding of a UTF-8 locale. -/
def utf8Locale (u : Wchar) : Option Bytes :=
  if isScalar u.toNat then some (String.utf8EncodeChar (Char.ofNat u.toNat)) else none

theorem encodes_utf8Locale : Encodes utf8Locale 0 0 := by
  intro u bytes hu h
  unfold utf8Locale at h
  split at h
  next hscalar =>
    cases h
    have hvalid : u.toNat.isValidChar := by
      simp only [isScalar, Bool.or_eq_true, Bool.and_eq_true, decide_eq_true_eq] at hscalar
      rcases hscalar with h | h
      · exact Or.inl h
      · exact Or.inr ⟨by omega, h.2⟩
    refine ⟨?_, ?_⟩
    · intro hnil
      have hpos := Char.utf8Size_pos (Char.ofNat u.toNat)
      rw [← String.length_utf8EncodeChar, hnil] at hpos
      cases hpos
    · rw [zero_mem_utf8EncodeChar_iff, toNat_ofNat_of_valid hvalid]
      intro hzero
      exact hu (UInt32.toNat_inj.mp hzero)
  next => cases h

theorem wstringToString_key :
    wstringToString utf8Locale (some ("Key".toList.map Char.val ++ 0 :: [7])) = some (ascii "Key") ↔
      ("Key".toList.map Char.val).map utf8Locale = (ascii "Key").map fun b => some [b] :=
  wstringToString_iff utf8Locale encodes_utf8Locale _ [7] (by decide +kernel) _

example : wstringToString utf8Locale (some (wide "Ключ")) = none := by
  decide +kernel

end KafkaAddIn
