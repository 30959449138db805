import KafkaAddIn.NameLookup
import KafkaAddIn.Narrowing
import KafkaAddIn.Widening
import KafkaAddIn.CallRules

namespace KafkaAddIn

open Foundation

variable {platform : Platform} {this : CKafka} {a : Answers} {w w' : World}
  {u rest : List ShortWchar} {i j : Nat} {text : String} {y : List Wchar}

/-- Neither a control character, nor beyond the 16 bits, nor a byte order mark. -/
def printable (c : Char) : Bool := 0x20 ≤ c.toNat && c.toNat < 0x10000 && c.toNat != 0xFEFF

/-- The names of one kind in their two languages. No name of an index below `size` is empty
or is a name of another such index. -/
structure NameTables where
  texts : List String
  textsRu : List String
  size : Nat
  long : size ≤ texts.length ∧ size ≤ textsRu.length
  printable : (texts ++ textsRu).all (fun text => text.toList.all printable) = true
  short : ∀ text ∈ texts ++ textsRu, text.toList.length + 1 < UInt32.size
  named : ∀ i < size, texts[i]? ≠ some "" ∧ textsRu[i]? ≠ some ""
  distinct : ∀ i < size, ∀ j < size,
    texts[i]? = texts[j]? ∨ texts[i]? = textsRu[j]? ∨ textsRu[i]? = textsRu[j]? → i = j

def propTables : NameTables where
  texts := ["Message", "Key"]
  textsRu := ["Message", "Key"]
  size := 2
  long := by decide
  printable := by decide +kernel
  short := by decide +kernel
  named := by decide +kernel
  distinct := by decide +kernel

def methodTables : NameTables where
  texts := ["GetVersion", "SendProducer", "Consume", ""]
  textsRu := ["ПолучитьВерсию", "SendProducer", "Consume", ""]
  size := 3
  long := by decide
  printable := by decide +kernel
  short := by decide +kernel
  named := by decide +kernel
  distinct := by decide +kernel

def NameTables.names (t : NameTables) : List (List Wchar) := t.texts.map wide

def NameTables.namesRu (t : NameTables) : List (List Wchar) := t.textsRu.map wide

/-- The text is a name of the index in one language or the other. -/
def NameTables.Has (t : NameTables) (i : Nat) (text : String) : Prop :=
  i < t.size ∧ (t.texts[i]? = some text ∨ t.textsRu[i]? = some text)

variable {t : NameTables}

theorem NameTables.Has.mem (h : t.Has i text) : text ∈ t.texts ++ t.textsRu := by
  rcases h.2 with h | h
  · exact List.mem_append_left _ (List.mem_of_getElem? h)
  · exact List.mem_append_right _ (List.mem_of_getElem? h)

theorem NameTables.Has.unique (h : t.Has i text) (h' : t.Has j text) : i = j := by
  have hij := t.distinct i h.1 j h'.1
  have hji := t.distinct j h'.1 i h.1
  rcases h.2 with hi | hi <;> rcases h'.2 with hj | hj
  · exact hij (Or.inl (hi.trans hj.symm))
  · exact hij (Or.inr (Or.inl (hi.trans hj.symm)))
  · exact (hji (Or.inr (Or.inl (hj.trans hi.symm)))).symm
  · exact hij (Or.inr (Or.inr (hi.trans hj.symm)))

theorem NameTables.Has.ne_empty (h : t.Has i text) : text ≠ "" := by
  intro he
  obtain ⟨hname, hnameRu⟩ := t.named i h.1
  rcases h.2 with h | h
  · exact hname (he ▸ h)
  · exact hnameRu (he ▸ h)

theorem printable_chars (h : text.toList.all printable = true) :
    ∀ c ∈ text.toList, 0x20 ≤ c.toNat ∧ c.toNat < 0x10000 ∧ c.toNat ≠ 0xFEFF := by
  intro c hc
  have hall := List.all_eq_true.mp h c hc
  simpa [printable, and_assoc] using hall

theorem oneUnitEach_of_printable (h : text.toList.all printable = true) :
    OneUnitEach platform text := by
  refine ⟨fun c hc => (printable_chars h c hc).2.1, ?_⟩
  intro _ hmark
  obtain ⟨cs, hcs⟩ := List.head?_eq_some_iff.mp hmark
  have hfirst : Char.ofNat 0xFEFF ∈ text.toList := by
    rw [hcs]
    exact List.mem_cons_self
  exact (printable_chars h _ hfirst).2.2 (by decide)

theorem zero_notMem_of_printable (h : text.toList.all printable = true) :
    0 ∉ text.toList.map Char.val := by
  intro hzero
  obtain ⟨c, hc, hval⟩ := List.mem_map.mp hzero
  have hlow := (printable_chars h c hc).1
  have hnat : c.toNat = 0 := congrArg UInt32.toNat hval
  omega

theorem NameTables.text_printable (t : NameTables) (h : text ∈ t.texts ++ t.textsRu) :
    text.toList.all KafkaAddIn.printable = true :=
  List.all_eq_true.mp t.printable text h

theorem NameTables.zero_notMem (t : NameTables) (h : text ∈ t.texts ++ t.textsRu) :
    0 ∉ text.toList.map Char.val :=
  zero_notMem_of_printable (t.text_printable h)

theorem NameTables.oneUnitEach (t : NameTables) (h : text ∈ t.texts ++ t.textsRu) :
    OneUnitEach platform text :=
  oneUnitEach_of_printable (t.text_printable h)

theorem NameTables.small (t : NameTables) (h : text ∈ t.texts ++ t.textsRu) :
    ∀ c ∈ text.toList, c.toNat < 0x10000 :=
  fun c hc => (printable_chars (t.text_printable h) c hc).2.1

theorem wide_injective {text text' : String} (h : wide text = wide text') : text = text' := by
  have hvals : text.toList.map Char.val = text'.toList.map Char.val := List.append_cancel_right h
  have hchars : text.toList = text'.toList :=
    (List.map_inj_right fun _ _ hval => Char.ext hval).mp hvals
  exact String.toList_inj.mp hchars

theorem wide_terminated {texts : List String}
    (h : ∀ text ∈ texts, 0 ∉ text.toList.map Char.val) : Terminated (texts.map wide) := by
  intro name hname
  obtain ⟨text, htext, rfl⟩ := List.mem_map.mp hname
  refine ⟨by simp [wide], ?_⟩
  rw [wide, List.dropLast_concat]
  exact h text htext

theorem NameTables.terminated (t : NameTables) : Terminated t.names ∧ Terminated t.namesRu := by
  refine ⟨wide_terminated ?_, wide_terminated ?_⟩
  · intro text h
    exact t.zero_notMem (List.mem_append_left _ h)
  · intro text h
    exact t.zero_notMem (List.mem_append_right _ h)

theorem leastIndex_some {texts : List String} {size : Nat}
    (h : leastIndex (texts.map wide) size y = some i) :
    i < size ∧ ∃ text, texts[i]? = some text ∧ y = wide text := by
  obtain ⟨hi, hy, _⟩ := List.findIdx?_eq_some_iff_getElem.mp h
  rw [List.length_take, List.length_map] at hi
  have hin : i < texts.length := by omega
  refine ⟨by omega, texts[i], List.getElem?_eq_getElem hin, ?_⟩
  have heq := of_decide_eq_true hy
  rw [List.getElem_take, List.getElem_map] at heq
  exact heq.symm

theorem leastIndex_none {texts : List String} {size : Nat}
    (h : leastIndex (texts.map wide) size (wide text) = none) (hi : i < size) :
    texts[i]? ≠ some text := by
  intro htext
  obtain ⟨hin, heq⟩ := List.getElem?_eq_some_iff.mp htext
  have hmem : wide text ∈ (texts.map wide).take size := by
    rw [List.mem_take_iff_getElem]
    exact ⟨i, by simp only [List.length_map]; omega, by simp [heq]⟩
  have hno := List.findIdx?_eq_none_iff.mp h _ hmem
  simp at hno

/-- The two tables one after the other, as one relation. -/
theorem NameTables.lookup_iff (t : NameTables) (y : List Wchar) (i : Nat) :
    lookup t.names t.namesRu t.size y = i ↔ ∃ text, t.Has i text ∧ y = wide text := by
  unfold lookup
  constructor
  · intro h
    cases hfirst : leastIndex t.names t.size y with
    | some k =>
      simp only [hfirst] at h
      obtain ⟨hk, text, htext, hy⟩ := leastIndex_some hfirst
      have hki : k = i := by omega
      exact ⟨text, ⟨hki ▸ hk, Or.inl (hki ▸ htext)⟩, hy⟩
    | none =>
      cases hsecond : leastIndex t.namesRu t.size y with
      | some k =>
        simp only [hfirst, hsecond] at h
        obtain ⟨hk, text, htext, hy⟩ := leastIndex_some hsecond
        have hki : k = i := by omega
        exact ⟨text, ⟨hki ▸ hk, Or.inr (hki ▸ htext)⟩, hy⟩
      | none =>
        simp only [hfirst, hsecond] at h
        omega
  · intro h
    obtain ⟨text, hhas, rfl⟩ := h
    cases hfirst : leastIndex t.names t.size (wide text) with
    | some k =>
      obtain ⟨hk, text', htext, hwide⟩ := leastIndex_some hfirst
      have hsame : text' = text := wide_injective hwide.symm
      have hki : k = i := NameTables.Has.unique ⟨hk, Or.inl (hsame ▸ htext)⟩ hhas
      simp [hki]
    | none =>
      have hnot := leastIndex_none hfirst hhas.1
      have hhasRu := hhas.2.resolve_left hnot
      cases hsecond : leastIndex t.namesRu t.size (wide text) with
      | some k =>
        obtain ⟨hk, text', htext, hwide⟩ := leastIndex_some hsecond
        have hsame : text' = text := wide_injective hwide.symm
        have hki : k = i := NameTables.Has.unique ⟨hk, Or.inr (hsame ▸ htext)⟩ hhas
        simp [hki]
      | none => exact absurd hhasRu (leastIndex_none hsecond hhas.1)

/-- Unless iconv misreads its first pair, a text of the host comes out unit for unit. -/
theorem convFromShortWchar_kept (hu : 0 ∉ u) (hlen : u.length + 1 < 2 ^ 32)
    (hread : platform = .linux true → ¬ Misread u) (rest : List ShortWchar) :
    ∃ res, convFromShortWchar platform none (u ++ 0 :: rest) 0 =
      .ok (u.map UInt16.toUInt32 ++ [0], res) := by
  have hres : (UInt32.ofNat (u.length + 1)).toNat = u.length + 1 := UInt32.toNat_ofNat_of_lt' hlen
  have hcopied : copyUnits UInt16.toUInt32 (u.length + 1) (u ++ 0 :: rest)
      (List.replicate (u.length + 1) 0) = .ok (u.map UInt16.toUInt32 ++ [0]) :=
    copyUnits_fresh u rest 0 0
  rw [convFromShortWchar_eq hu rfl, hres]
  by_cases hplatform : platform = .linux true
  swap
  · rw [convertInto_plain hplatform, hres, hcopied]
    exact ⟨_, rfl⟩
  subst platform
  have hstopped : iconvUtf32ToUtf32le (u.length + 1) (u ++ 0 :: rest) = .ok ⟨[], 0, false⟩ →
      ∃ res, convertInto (.linux true) UInt16.toUInt32
        (iconvUtf32ToUtf32le (u.length + 1) (u ++ 0 :: rest)) (List.replicate (u.length + 1) 0)
        (u ++ 0 :: rest) (UInt32.ofNat (u.length + 1)) = .ok (u.map UInt16.toUInt32 ++ [0], res) := by
    intro hstop
    rw [convertInto_unread hstop, hres, hcopied]
    exact ⟨_, rfl⟩
  rcases u with _ | ⟨x, _ | ⟨y, u⟩⟩
  · exact hstopped rfl
  · rcases iconv_single x rest with hstop | hone | ⟨rfl, _⟩
    · exact hstopped hstop
    · exact ⟨0, convertInto_done hone rfl⟩
    · exact absurd (Or.inl rfl) (hread rfl)
  · have hbig : 0x10 < y := by
      apply UInt16.not_le.mp
      intro hsmall
      exact hread rfl (Or.inr ⟨y, rfl, hsmall⟩)
    exact hstopped (iconv_pair hbig x _ _)

/-- What becomes of a text of the host: its units and the terminator, nothing of a lone byte
order mark, or, with iconv, a text that begins with a character beyond the 16 bits. -/
theorem convFromShortWchar_shape {d : List Wchar} {res : UInt32} (hu : 0 ∉ u)
    (hlen : u.length + 1 < 2 ^ 32)
    (h : convFromShortWchar platform none (u ++ 0 :: rest) 0 = .ok (d, res)) :
    (d = u.map UInt16.toUInt32 ++ [0] ∧ (platform = .linux true → ¬ Misread u)) ∨
      (u = [0xFEFF] ∧ d = [0, 0]) ∨
      (platform = .linux true ∧ ∃ x post, d = x :: post ∧ 0x10000 ≤ x.toNat) := by
  by_cases hread : platform = .linux true → ¬ Misread u
  · obtain ⟨res', hkept⟩ := convFromShortWchar_kept hu hlen hread rest
    cases h.symm.trans hkept
    exact Or.inl ⟨rfl, hread⟩
  · obtain ⟨rfl, hmis⟩ := Classical.not_imp.mp hread
    have hpair := Classical.not_not.mp hmis
    rw [convFromShortWchar_eq hu rfl, UInt32.toNat_ofNat_of_lt' hlen] at h
    rcases hpair with rfl | ⟨y, hy, hsmall⟩
    · have hmark : iconvUtf32ToUtf32le 2 ([0xFEFF] ++ 0 :: rest) = .ok ⟨[], 2, true⟩ := by
        simp [iconvUtf32ToUtf32le, iconvWiden, joinUnits, Except.map]
      cases h.symm.trans (convertInto_done hmark rfl)
      exact Or.inr (Or.inl ⟨rfl, rfl⟩)
    · rcases u with _ | ⟨x, _ | ⟨y', u⟩⟩
      · cases hy
      · cases hy
      · cases hy
        have hpos : y ≠ 0 := fun he => hu (by simp [he])
        obtain ⟨c, hc, h⟩ := bind_eq_ok_iff.mp h
        obtain ⟨_, written, hwritten⟩ := iconv_misread hpos hsmall hc
        obtain ⟨hbig, _⟩ := joinUnits_pair hpos x
        have hx : x.toNat < 0x10000 := x.toNat_lt
        have hy' : y.toNat ≤ 0x10 := UInt16.le_iff_toNat_le.mp hsmall
        have htop : joinUnits x y < 2 ^ 32 := by
          unfold joinUnits
          omega
        have hfirst : ∃ post, d = UInt32.ofNat (joinUnits x y) :: post := by
          rw [hwritten] at h
          split at h
          next =>
            cases h
            exact ⟨_, rfl⟩
          next =>
            obtain ⟨copied, _, h⟩ := bind_eq_ok_iff.mp h
            cases h
            exact ⟨_, rfl⟩
        obtain ⟨post, rfl⟩ := hfirst
        refine Or.inr (Or.inr ⟨rfl, _, post, rfl, ?_⟩)
        rw [UInt32.toNat_ofNat_of_lt' htop]
        exact hbig

/-- That is all that is needed. -/
theorem kept_iff (platform : Platform) (hu : 0 ∉ u) (hlen : u.length + 1 < 2 ^ 32)
    (rest : List ShortWchar) :
    (∃ res, convFromShortWchar platform none (u ++ 0 :: rest) 0 =
      .ok (u.map UInt16.toUInt32 ++ [0], res)) ↔ (platform = .linux true → ¬ Misread u) := by
  refine ⟨?_, fun hread => convFromShortWchar_kept hu hlen hread rest⟩
  rintro ⟨res, h⟩
  rcases convFromShortWchar_shape hu hlen h with ⟨_, hread⟩ | ⟨rfl, hlost⟩ |
    ⟨_, x, post, hfirst, hbig⟩
  · exact hread
  · cases hlost
  · exfalso
    cases u with
    | nil =>
      obtain ⟨rfl, _⟩ := List.cons.inj hfirst
      exact absurd hbig (by decide)
    | cons z u =>
      obtain ⟨rfl, _⟩ := List.cons.inj hfirst
      rw [UInt16.toNat_toUInt32] at hbig
      exact absurd z.toNat_lt (Nat.not_lt.mpr hbig)

/-- Where the first unit is in no name, each comparison ends at it. -/
theorem findNameFrom_first {x : Wchar} {post : List Wchar} {names : List (List Wchar)}
    {size : Nat} (hsize : size ≤ names.length)
    (hnames : ∀ name ∈ names, ∃ b rest, name = b :: rest ∧ b ≠ x) (k : Int) :
    findNameFrom (x :: post) names size k = .ok (-1) := by
  induction names generalizing size k with
  | nil =>
    have hzero : size = 0 := Nat.le_zero.mp hsize
    subst size
    rfl
  | cons name names ih =>
    cases size with
    | zero => rfl
    | succ size =>
      obtain ⟨b, rest, rfl, hb⟩ := hnames name List.mem_cons_self
      have hrest := ih (Nat.le_of_succ_le_succ hsize)
        (fun n hn => hnames n (List.mem_cons_of_mem _ hn)) (k + 1)
      have hcmp : wcscmpEq (b :: rest) (x :: post) = .ok false := by
        simp [wcscmpEq, hb]
      simp only [findNameFrom, hcmp, hrest, bind, Except.bind, Bool.false_eq_true, if_false]

theorem wide_first {x : Wchar} (hsmall : ∀ c ∈ text.toList, c.toNat < 0x10000)
    (hx : 0x10000 ≤ x.toNat) : ∃ b rest, wide text = b :: rest ∧ b ≠ x := by
  unfold wide
  cases htext : text.toList with
  | nil =>
    refine ⟨0, [], rfl, ?_⟩
    intro he
    rw [← he] at hx
    exact absurd hx (by decide)
  | cons c cs =>
    refine ⟨c.val, cs.map Char.val ++ [0], rfl, ?_⟩
    intro he
    have hc := hsmall c (by simp [htext])
    have hval : c.toNat = x.toNat := congrArg UInt32.toNat he
    omega

theorem NameTables.findName_big (t : NameTables) {x : Wchar} (hx : 0x10000 ≤ x.toNat)
    (post : List Wchar) : findName t.names (x :: post) t.size = .ok (-1) ∧
      findName t.namesRu (x :: post) t.size = .ok (-1) := by
  have hfirst : ∀ texts : List String, texts ⊆ t.texts ++ t.textsRu →
      ∀ name ∈ texts.map wide, ∃ b rest, name = b :: rest ∧ b ≠ x := by
    intro texts htexts name hname
    obtain ⟨text, htext, rfl⟩ := List.mem_map.mp hname
    exact wide_first (t.small (htexts htext)) hx
  unfold findName
  rw [Int.toNat_natCast]
  refine ⟨findNameFrom_first ?_ (hfirst t.texts (List.subset_append_left _ _)) 0,
    findNameFrom_first ?_ (hfirst t.textsRu (List.subset_append_right _ _)) 0⟩
  · simpa [NameTables.names] using t.long.1
  · simpa [NameTables.namesRu] using t.long.2

theorem NameTables.not_has_empty (hwide : [0] = wide text) : ¬ t.Has i text := by
  intro h
  have hempty : wide "" = wide text := hwide
  exact h.ne_empty (wide_injective hempty).symm

theorem map_toUInt32_utf16Units (hsmall : ∀ c ∈ text.toList, c.toNat < 0x10000) :
    (utf16Units text.toList).map UInt16.toUInt32 = text.toList.map Char.val := by
  rw [utf16Units, flatMap_utf16EncodeChar_small hsmall, List.map_map, List.map_map]
  apply List.map_congr_left
  intro c hc
  have hlow : c.toNat < 2 ^ 16 := hsmall c hc
  apply UInt32.toNat_inj.mp
  simp only [Function.comp_apply, UInt16.toNat_toUInt32, UInt16.toNat_ofNat_of_lt' hlow]
  rfl

theorem toUInt32_injective {x x' : ShortWchar} (h : x.toUInt32 = x'.toUInt32) : x = x' := by
  apply UInt16.toNat_inj.mp
  rw [← UInt16.toNat_toUInt32, h, UInt16.toNat_toUInt32]

/-- The units of the host are those of a text when their wide form is. -/
theorem units_eq_iff (hsmall : ∀ c ∈ text.toList, c.toNat < 0x10000) :
    u.map UInt16.toUInt32 ++ [0] = wide text ↔ u = utf16Units text.toList := by
  rw [wide, List.append_left_inj, ← map_toUInt32_utf16Units hsmall]
  exact List.map_inj_right fun _ _ h => toUInt32_injective h

theorem NameTables.unit_printable {x : ShortWchar} (h : text ∈ t.texts ++ t.textsRu)
    (hx : x ∈ utf16Units text.toList) : 0x20 ≤ x ∧ x ≠ 0xFEFF := by
  rw [utf16Units, flatMap_utf16EncodeChar_small (t.small h), List.map_map] at hx
  obtain ⟨c, hc, rfl⟩ := List.mem_map.mp hx
  obtain ⟨hmin, hmax, hmark⟩ := printable_chars (t.text_printable h) c hc
  have hsame : (UInt16.ofNat c.toNat).toNat = c.toNat := UInt16.toNat_ofNat_of_lt' hmax
  refine ⟨?_, ?_⟩
  · rw [UInt16.le_iff_toNat_le, Function.comp_apply, hsame]
    exact hmin
  · intro he
    exact hmark (hsame.symm.trans (congrArg UInt16.toNat he))

/-- A search finds an index exactly under the names of that index. -/
theorem NameTables.findIn_iff (t : NameTables) (platform : Platform) (hu : 0 ∉ u)
    (hlen : u.length + 1 < 2 ^ 32) (i : Nat) :
    findIn platform t.names t.namesRu t.size (u ++ 0 :: rest) = .ok (i : Int) ↔
      ∃ text, t.Has i text ∧ u = utf16Units text.toList := by
  obtain ⟨hterm, htermRu⟩ := t.terminated
  have hsize : t.size ≤ t.names.length := by simpa [NameTables.names] using t.long.1
  have hsizeRu : t.size ≤ t.namesRu.length := by simpa [NameTables.namesRu] using t.long.2
  constructor
  · intro h
    obtain ⟨⟨d, res⟩, hconv, hfind⟩ := bind_eq_ok_iff.mp h
    rcases convFromShortWchar_shape hu hlen hconv with ⟨rfl, _⟩ | ⟨rfl, rfl⟩ |
      ⟨_, x, post, rfl, hx⟩
    · have hfree : 0 ∉ u.map UInt16.toUInt32 := by
        intro hzero
        obtain ⟨x, hx, h0⟩ := List.mem_map.mp hzero
        have hx0 : x = 0 := toUInt32_injective h0
        exact hu (hx0 ▸ hx)
      rw [findIn_eq hconv hterm htermRu hsize hsizeRu hfree] at h
      obtain ⟨text, hhas, hy⟩ := (t.lookup_iff _ i).mp (Except.ok.inj h)
      have hsmall := t.small hhas.mem
      exact ⟨text, hhas, (units_eq_iff hsmall).mp hy⟩
    · have hnothing : convFromShortWchar platform none ([0xFEFF] ++ 0 :: rest) 0 =
          .ok ([] ++ 0 :: [0], res) := hconv
      rw [findIn_eq hnothing hterm htermRu hsize hsizeRu List.not_mem_nil] at h
      obtain ⟨text, hhas, hy⟩ := (t.lookup_iff _ i).mp (Except.ok.inj h)
      exact absurd hhas (NameTables.not_has_empty hy)
    · obtain ⟨hnone, hnoneRu⟩ := t.findName_big hx post
      simp only [hnone, hnoneRu, bind, Except.bind, if_true] at hfind
      have hbad : (-1 : Int) = i := Except.ok.inj hfind
      omega
  · intro h
    obtain ⟨text, hhas, rfl⟩ := h
    have hsmall := t.small hhas.mem
    have hunits : ∀ x ∈ utf16Units text.toList, 0x20 ≤ x := by
      intro x hx
      exact (NameTables.unit_printable hhas.mem hx).1
    obtain ⟨y, post, res, hconv, _, hy⟩ := convFromShortWchar_name platform hunits hlen rest
    have hall : y = (utf16Units text.toList).map UInt16.toUInt32 := by
      refine hy.resolve_right ?_
      rintro ⟨hmark, _⟩
      have hin : 0xFEFF ∈ utf16Units text.toList := by
        rw [hmark]
        exact List.mem_cons_self
      exact (NameTables.unit_printable hhas.mem hin).2 rfl
    subst y
    have hfree : 0 ∉ (utf16Units text.toList).map UInt16.toUInt32 := by
      rw [map_toUInt32_utf16Units hsmall]
      exact t.zero_notMem hhas.mem
    rw [findIn_eq hconv hterm htermRu hsize hsizeRu hfree,
      (t.lookup_iff _ i).mpr ⟨text, hhas, (units_eq_iff hsmall).mpr rfl⟩]

/-- A text of one unit for each character fills its block, terminator included. -/
theorem narrowed_block {len : UInt32} (hzero : 0 ∉ text.toList.map Char.val)
    (hlen : len.toNat = text.toList.length + 1) (h : OneUnitEach platform text) :
    ∃ res, narrowed platform text len = .ok (utf16Units text.toList ++ [0], res) := by
  obtain ⟨post, res, hconv⟩ := (narrows_narrowed_iff hzero hlen).mpr h
  have hsize := narrowed_length hconv
  have hunits : (utf16Units text.toList).length = text.toList.length := by
    rw [utf16Units_small h.small, List.length_map, List.length_map]
  rw [List.length_append, List.length_cons, hunits] at hsize
  have hnil : post = [] := List.length_eq_zero_iff.mp (by omega)
  exact ⟨res, hnil ▸ hconv⟩

theorem nameToHost_text (hset : this.mIMemory = true) (halloc : a.alloc = true)
    (hzero : 0 ∉ text.toList.map Char.val) (hshort : text.toList.length + 1 < 2 ^ 32)
    (h : OneUnitEach platform text) (w : World) :
    Ends (nameToHost platform this a (wide text)) w (.ok (some (utf16Units text.toList ++ [0])))
      (w.after 0 [.allocMemory ((text.toList.length + 1) * 2) true]) := by
  have hlen : wcslen (wide text) = .ok text.toList.length := by
    rw [wide, wcslen_eq hzero, List.length_map]
  have hroom : (UInt32.ofNat (text.toList.length + 1)).toNat = text.toList.length + 1 :=
    UInt32.toNat_ofNat_of_lt' hshort
  obtain ⟨res, hblock⟩ := narrowed_block hzero hroom h
  have hne : UInt32.ofNat (text.toList.length + 1) ≠ 0 := by
    intro he
    rw [he] at hroom
    cases hroom
  have hconv : convToShortWchar platform (some (List.replicate (text.toList.length + 1) 0))
      (wide text) (UInt32.ofNat (text.toList.length + 1)) =
      .ok (utf16Units text.toList ++ [0], res) := by
    rw [convToShortWchar_sized hne (by rw [List.length_replicate, hroom])]
    exact hblock
  have hgot : Ends (allocMemory this a ((text.toList.length + 1) * 2)) w
      (.ok (some (List.replicate ((text.toList.length + 1) * 2) none)))
      (w.after 0 [.allocMemory ((text.toList.length + 1) * 2) true]) := by
    unfold allocMemory
    rw [if_pos hset, halloc]
    exact ends_emit_bind.mpr (ends_pure.mpr ⟨rfl, rfl⟩)
  unfold nameToHost
  refine (ends_bind_of_ok (ends_lift.mpr ⟨hlen.symm, rfl⟩)).mpr ?_
  refine (ends_bind_of_ok hgot).mpr ?_
  refine (ends_bind_of_ok (ends_lift.mpr ⟨hconv.symm, rfl⟩)).mpr ?_
  exact ends_pure.mpr ⟨rfl, rfl⟩

theorem nameAt_iff {names : List (List Wchar)} {num : Int} {name : List Wchar} :
    nameAt names num = .ok name ↔ ∃ i : Nat, num = i ∧ names[i]? = some name := by
  unfold nameAt
  by_cases hneg : num < 0
  · rw [if_pos hneg]
    refine iff_of_false nofun ?_
    rintro ⟨i, rfl, _⟩
    omega
  · rw [if_neg hneg]
    obtain ⟨i, rfl⟩ := Int.eq_ofNat_of_zero_le (Int.not_lt.mp hneg)
    rw [Int.toNat_natCast]
    cases hname : names[i]? with
    | none =>
      refine iff_of_false nofun ?_
      rintro ⟨j, hj, h⟩
      rw [← Int.ofNat_inj.mp hj, hname] at h
      cases h
    | some found =>
      constructor
      · intro h
        cases h
        exact ⟨i, rfl, hname⟩
      · rintro ⟨j, hj, h⟩
        rw [← Int.ofNat_inj.mp hj, hname] at h
        cases h
        rfl

theorem NameTables.namesOf_iff (t : NameTables) {lAlias : Int} {i : Nat} {name : List Wchar} :
    (if lAlias = 0 then t.names else t.namesRu)[i]? = some name ↔
      ∃ text, (if lAlias = 0 then t.texts else t.textsRu)[i]? = some text ∧ wide text = name := by
  by_cases halias : lAlias = 0
  · simp [halias, NameTables.names]
  · simp [halias, NameTables.namesRu]

/-- A getter answers with null at once, reads in front of its table, or goes on to copy a
name of the index. -/
theorem NameTables.getNameOf_cases (t : NameTables) {num lAlias : Int}
    {r : Except Exit (Option (List ShortWchar))}
    (h : Ends (getNameOf platform t.names t.namesRu t.size this a num lAlias) w r w') :
    (r = .ok none ∧ w' = w ∧ (0 ≤ num ∨ (lAlias ≠ 0 ∧ lAlias ≠ 1))) ∨
    (r = .error .fault ∧ w' = w ∧ num < 0 ∧ (lAlias = 0 ∨ lAlias = 1)) ∨
    (this.mIMemory = true ∧ ∃ i : Nat, num = i ∧ ∃ text, t.Has i text ∧
      Ends (nameToHost platform this a (wide text)) w r w') := by
  unfold getNameOf at h
  by_cases hlast : (t.size : Int) ≤ num
  · rw [if_pos hlast] at h
    obtain ⟨rfl, rfl⟩ := ends_pure.mp h
    exact Or.inl ⟨rfl, rfl, Or.inl (by omega)⟩
  rw [if_neg hlast] at h
  by_cases halias : lAlias = 0 ∨ lAlias = 1
  swap
  · rw [if_neg halias] at h
    obtain ⟨rfl, rfl⟩ := ends_pure.mp h
    exact Or.inl ⟨rfl, rfl, Or.inr (by omega)⟩
  rw [if_pos halias] at h
  by_cases hneg : num < 0
  · have hfault : nameAt (if lAlias = 0 then t.names else t.namesRu) num = .error .fault :=
      if_pos hneg
    rw [hfault] at h
    obtain ⟨rfl, rfl⟩ := ends_throw_bind.mp h
    exact Or.inr (Or.inl ⟨rfl, rfl, hneg, halias⟩)
  obtain ⟨i, rfl⟩ := Int.eq_ofNat_of_zero_le (Int.not_lt.mp hneg)
  have hin : i < (if lAlias = 0 then t.texts else t.textsRu).length := by
    have hlong := t.long
    split <;> omega
  obtain ⟨text, htext⟩ : ∃ text, (if lAlias = 0 then t.texts else t.textsRu)[i]? = some text :=
    ⟨_, List.getElem?_eq_getElem hin⟩
  have hname := nameAt_iff.mpr ⟨i, rfl, t.namesOf_iff.mpr ⟨text, htext, rfl⟩⟩
  have hcopy := (ends_bind_of_ok (ends_lift.mpr ⟨hname.symm, rfl⟩)).mp h
  have hhas : t.Has i text := by
    refine ⟨by omega, ?_⟩
    split at htext
    next => exact Or.inl htext
    next => exact Or.inr htext
  by_cases hset : this.mIMemory = true
  · rw [if_pos hset] at hcopy
    exact Or.inr (Or.inr ⟨hset, i, rfl, _, hhas, hcopy⟩)
  · rw [if_neg hset] at hcopy
    obtain ⟨rfl, rfl⟩ := ends_pure.mp hcopy
    exact Or.inl ⟨rfl, rfl, Or.inl (by omega)⟩

/-- A getter gives the two names of an index, one in each language, and no others. -/
theorem NameTables.given_iff (t : NameTables) (platform : Platform)
    (hset : this.mIMemory = true) (halloc : a.alloc = true) (w : World) (num : Int)
    (u : List ShortWchar) :
    (∃ lAlias w', Ends (getNameOf platform t.names t.namesRu t.size this a num lAlias) w
      (.ok (some (u ++ [0]))) w') ↔
      ∃ i : Nat, num = i ∧ ∃ text, t.Has i text ∧ u = utf16Units text.toList := by
  have hcopy : ∀ {text}, text ∈ t.texts ++ t.textsRu →
      Ends (nameToHost platform this a (wide text)) w (.ok (some (utf16Units text.toList ++ [0])))
        (w.after 0 [.allocMemory ((text.toList.length + 1) * 2) true]) := fun h =>
    nameToHost_text hset halloc (t.zero_notMem h) (t.short _ h) (t.oneUnitEach h) w
  constructor
  · rintro ⟨lAlias, w', h⟩
    rcases t.getNameOf_cases h with ⟨hnone, _⟩ | ⟨hfault, _⟩ | ⟨_, i, hnum, text, hhas, hgot⟩
    · cases hnone
    · cases hfault
    · have hsame := Except.ok.inj (hgot.unique (hcopy hhas.mem)).1
      exact ⟨i, hnum, text, hhas, List.append_cancel_right (Option.some.inj hsame)⟩
  · rintro ⟨i, rfl, text, hhas, rfl⟩
    have hlast : ¬ (t.size : Int) ≤ i := by
      have hi := hhas.1
      omega
    have hgiven : ∀ lAlias : Int, lAlias = 0 ∨ lAlias = 1 →
        (if lAlias = 0 then t.texts else t.textsRu)[i]? = some text →
        Ends (getNameOf platform t.names t.namesRu t.size this a i lAlias) w
          (.ok (some (utf16Units text.toList ++ [0])))
          (w.after 0 [.allocMemory ((text.toList.length + 1) * 2) true]) := by
      intro lAlias halias htext
      have hname : nameAt (if lAlias = 0 then t.names else t.namesRu) i = .ok (wide text) :=
        nameAt_iff.mpr ⟨i, rfl, t.namesOf_iff.mpr ⟨text, htext, rfl⟩⟩
      unfold getNameOf
      rw [if_neg hlast, if_pos halias]
      refine (ends_bind_of_ok (ends_lift.mpr ⟨hname.symm, rfl⟩)).mpr ?_
      rw [if_pos hset]
      exact hcopy hhas.mem
    rcases hhas.2 with htext | htext
    · exact ⟨0, _, hgiven 0 (Or.inl rfl) htext⟩
    · exact ⟨1, _, hgiven 1 (Or.inr rfl) htext⟩

/-- The host finds an index under a name exactly when it is given that name for the index, in
one language or the other. -/
theorem NameTables.find_iff_given (t : NameTables) (platform : Platform)
    (hset : this.mIMemory = true) (halloc : a.alloc = true) (w : World) (hu : 0 ∉ u)
    (hlen : u.length + 1 < 2 ^ 32) {num : Int} (hnum : 0 ≤ num) :
    findIn platform t.names t.namesRu t.size (u ++ 0 :: rest) = .ok num ↔
      ∃ lAlias w', Ends (getNameOf platform t.names t.namesRu t.size this a num lAlias) w
        (.ok (some (u ++ [0]))) w' := by
  obtain ⟨i, rfl⟩ := Int.eq_ofNat_of_zero_le hnum
  rw [t.given_iff platform hset halloc, t.findIn_iff platform hu hlen]
  constructor
  · intro h
    exact ⟨i, rfl, h⟩
  · rintro ⟨j, hj, h⟩
    cases Int.ofNat_inj.mp hj
    exact h

/-- What the names are for: on every platform the host finds a method or a property under a
name exactly when it is given that name for it. -/
theorem names_found_iff_given (platform : Platform) (this : CKafka) (a : Answers)
    (hset : this.mIMemory = true) (halloc : a.alloc = true) (w : World)
    (u rest : List ShortWchar) (hu : 0 ∉ u) (hlen : u.length + 1 < 2 ^ 32) (num : Int)
    (hnum : 0 ≤ num) :
    (findMethod platform (u ++ 0 :: rest) = .ok num ↔
      ∃ lAlias w', Ends (getMethodName platform this a num lAlias) w
        (.ok (some (u ++ [0]))) w') ∧
    (findProp platform (u ++ 0 :: rest) = .ok num ↔
      ∃ lAlias w', Ends (getPropName platform this a num lAlias) w
        (.ok (some (u ++ [0]))) w') :=
  ⟨methodTables.find_iff_given platform hset halloc w hu hlen hnum,
    propTables.find_iff_given platform hset halloc w hu hlen hnum⟩

theorem names_found_iff_given_consume :
    let u := "Consume".toList.map fun c => UInt16.ofNat c.toNat
    (findMethod (.linux true) (u ++ 0 :: [7]) = .ok 2 ↔
      ∃ lAlias w', Ends (getMethodName (.linux true) ⟨true, true⟩ {} 2 lAlias) {}
        (.ok (some (u ++ [0]))) w') ∧
    (findProp (.linux true) (u ++ 0 :: [7]) = .ok 2 ↔
      ∃ lAlias w', Ends (getPropName (.linux true) ⟨true, true⟩ {} 2 lAlias) {}
        (.ok (some (u ++ [0]))) w') :=
  names_found_iff_given (.linux true) ⟨true, true⟩ {} rfl rfl {} _ [7] (by decide +kernel)
    (by decide +kernel) 2 (by decide)

end KafkaAddIn
