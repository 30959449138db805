import KafkaAddIn.Conversions
import Mathlib.Algebra.Group.Nat.Defs

namespace KafkaAddIn

variable {platform : Platform} {names namesRu : List (List Wchar)} {u rest : List ShortWchar}

def leastIndex (names : List (List Wchar)) (size : Nat) (name : List Wchar) : Option Nat :=
  (names.take size).findIdx? (· = name)

/-- The index of `name` in the first table, else in the second, else -1. -/
def lookup (names namesRu : List (List Wchar)) (size : Nat) (name : List Wchar) : Int :=
  match leastIndex names size name with
  | some i => i
  | none =>
    match leastIndex namesRu size name with
    | some i => i
    | none => -1

/-- Every name is terminated, at its end only. -/
def Terminated (names : List (List Wchar)) : Prop :=
  ∀ name ∈ names, name.getLast? = some 0 ∧ 0 ∉ name.dropLast

instance : DecidablePred Terminated := fun names =>
  inferInstanceAs (Decidable (∀ name ∈ names, name.getLast? = some 0 ∧ 0 ∉ name.dropLast))

theorem wcscmpEq_terminated {x y : List Wchar} (hx : 0 ∉ x) (hy : 0 ∉ y)
    (post post' : List Wchar) :
    wcscmpEq (x ++ 0 :: post) (y ++ 0 :: post') = .ok (decide (x = y)) := by
  induction x generalizing y with
  | nil =>
    cases y with
    | nil => rfl
    | cons b y =>
      have hb : 0 ≠ b := fun he => hy (he ▸ List.mem_cons_self)
      simp [wcscmpEq, hb]
  | cons a x ih =>
    have ha : a ≠ 0 := fun he => hx (he ▸ List.mem_cons_self)
    cases y with
    | nil => simp [wcscmpEq, ha]
    | cons b y =>
      have hrest := ih (fun h => hx (List.mem_cons_of_mem _ h))
        (fun h => hy (List.mem_cons_of_mem _ h))
      by_cases hab : a = b
      · subst b
        simp only [List.cons_append, wcscmpEq, ne_eq, not_true_eq_false, if_false, ha, hrest,
          List.cons.injEq, true_and]
      · simp [wcscmpEq, hab]

theorem findNameFrom_eq {y : List Wchar} {size : Nat} (hnames : Terminated names)
    (hsize : size ≤ names.length) (hy : 0 ∉ y) (post : List Wchar) (i : Int) :
    findNameFrom (y ++ 0 :: post) names size i =
      .ok (((leastIndex names size (y ++ [0])).map fun k : Nat => i + k).getD (-1)) := by
  induction names generalizing size i with
  | nil =>
    have hzero : size = 0 := Nat.le_zero.mp hsize
    subst size
    rfl
  | cons name names ih =>
    cases size with
    | zero => rfl
    | succ size =>
      obtain ⟨hlast, hfree⟩ := hnames name List.mem_cons_self
      obtain ⟨x, rfl⟩ := List.getLast?_eq_some_iff.mp hlast
      rw [List.dropLast_concat] at hfree
      have hrest := ih (fun n hn => hnames n (List.mem_cons_of_mem _ hn))
        (Nat.le_of_succ_le_succ hsize) (i + 1)
      have hcmp := wcscmpEq_terminated hfree hy [] post
      unfold findNameFrom
      rw [hcmp]
      by_cases hxy : x = y
      · simp [leastIndex, List.findIdx?_cons, hxy, bind, Except.bind, pure, Except.pure]
      · have hne : ¬ (x ++ [0] = y ++ [0]) := fun he => hxy (List.append_cancel_right he)
        simp only [bind, Except.bind, hxy, decide_false, Bool.false_eq_true, if_false, hrest]
        simp only [leastIndex, List.take_succ_cons, List.findIdx?_cons, hne, decide_false,
          Bool.false_eq_true, if_false, Option.map_map]
        congr 3
        funext k
        simp only [Function.comp_apply]
        omega

theorem findName_eq {y : List Wchar} {size : Nat} (hnames : Terminated names)
    (hsize : size ≤ names.length) (hy : 0 ∉ y) (post : List Wchar) :
    findName names (y ++ 0 :: post) size =
      .ok (((leastIndex names size (y ++ [0])).map fun k : Nat => (k : Int)).getD (-1)) := by
  unfold findName
  rw [Int.toNat_natCast, findNameFrom_eq hnames hsize hy post 0]
  simp

theorem findIn_eq {size : Nat} {wsName : List ShortWchar} {res : UInt32} {y post : List Wchar}
    (hconv : convFromShortWchar platform none wsName 0 = .ok (y ++ 0 :: post, res))
    (hnames : Terminated names) (hnamesRu : Terminated namesRu) (hsize : size ≤ names.length)
    (hsizeRu : size ≤ namesRu.length) (hy : 0 ∉ y) :
    findIn platform names namesRu size wsName = .ok (lookup names namesRu size (y ++ [0])) := by
  unfold findIn
  simp only [hconv, bind, Except.bind, findName_eq hnames hsize hy,
    findName_eq hnamesRu hsizeRu hy]
  unfold lookup
  cases leastIndex names size (y ++ [0]) with
  | none =>
    cases leastIndex namesRu size (y ++ [0]) with
    | none => rfl
    | some k => rfl
  | some k =>
    have hne : ¬ ((k : Int) = -1) := by omega
    simp [hne, pure, Except.pure]

/-- iconv gives up before the first pair of a name, except when the pair is a single unit
and the terminator. -/
theorem iconv_name (hunits : ∀ x ∈ u, 0x20 ≤ x) (rest : List ShortWchar) :
    iconvUtf32ToUtf32le (u.length + 1) (u ++ 0 :: rest) = .ok ⟨[], 0, false⟩ ∨
    (∃ x, u = [x] ∧
      iconvUtf32ToUtf32le (u.length + 1) (u ++ 0 :: rest) = .ok ⟨[x.toUInt32], 2, true⟩) ∨
    (u = [0xFEFF] ∧ iconvUtf32ToUtf32le (u.length + 1) (u ++ 0 :: rest) = .ok ⟨[], 2, true⟩) := by
  rcases u with _ | ⟨x, _ | ⟨y, u⟩⟩
  · exact Or.inl rfl
  · rcases iconv_single x rest with hstop | hone | ⟨rfl, hmark⟩
    · exact Or.inl hstop
    · exact Or.inr (Or.inl ⟨x, rfl, hone⟩)
    · exact Or.inr (Or.inr ⟨rfl, hmark⟩)
  · have hy : 0x10 < y := UInt16.lt_of_lt_of_le (by decide) (hunits y (by simp))
    exact Or.inl (iconv_pair hy x _ _)

theorem zero_notMem_of_units (hunits : ∀ x ∈ u, 0x20 ≤ x) : 0 ∉ u := by
  intro h
  exact absurd (hunits 0 h) (by decide)

/-- Every path converts a name unit for unit, but for a lone byte order mark, which gets
lost. -/
theorem convertInto_name {res : UInt32} (platform : Platform) (hunits : ∀ x ∈ u, 0x20 ≤ x)
    (hres : res.toNat = u.length + 1) (rest : List ShortWchar) :
    ∃ y post res', convertInto platform UInt16.toUInt32
        (iconvUtf32ToUtf32le res.toNat (u ++ 0 :: rest)) (List.replicate res.toNat 0)
        (u ++ 0 :: rest) res = .ok (y ++ 0 :: post, res') ∧
      (y ++ 0 :: post).length = u.length + 1 ∧
      (y = u.map UInt16.toUInt32 ∨ (u = [0xFEFF] ∧ y = [])) := by
  have hcopy : copyUnits UInt16.toUInt32 res.toNat (u ++ 0 :: rest)
      (List.replicate res.toNat 0) = .ok (u.map UInt16.toUInt32 ++ [0]) := by
    rw [hres]
    exact copyUnits_fresh u rest 0 0
  have hlength : (u.map UInt16.toUInt32 ++ [0]).length = u.length + 1 := by simp
  by_cases hplatform : platform = .linux true
  · subst platform
    rw [hres]
    rcases iconv_name hunits rest with hstop | ⟨x, rfl, hone⟩ | ⟨rfl, hmark⟩
    · refine ⟨u.map UInt16.toUInt32, [], res, ?_, hlength, Or.inl rfl⟩
      rw [convertInto_unread hstop, ← hres, hcopy]
      rfl
    · exact ⟨[x.toUInt32], [], 0, convertInto_done hone rfl, rfl, Or.inl rfl⟩
    · exact ⟨[], [0], 0, convertInto_done hmark rfl, rfl, Or.inr ⟨rfl, rfl⟩⟩
  · refine ⟨u.map UInt16.toUInt32, [], res, ?_, hlength, Or.inl rfl⟩
    rw [convertInto_plain hplatform, hcopy]
    rfl

theorem convFromShortWchar_name (platform : Platform) (hunits : ∀ x ∈ u, 0x20 ≤ x)
    (hlen : u.length + 1 < 2 ^ 32) (rest : List ShortWchar) :
    ∃ y post res, convFromShortWchar platform none (u ++ 0 :: rest) 0 = .ok (y ++ 0 :: post, res) ∧
      (y ++ 0 :: post).length = u.length + 1 ∧
      (y = u.map UInt16.toUInt32 ∨ (u = [0xFEFF] ∧ y = [])) := by
  have hres : (UInt32.ofNat (u.length + 1)).toNat = u.length + 1 := UInt32.toNat_ofNat_of_lt' hlen
  obtain ⟨y, post, res', hconv, hshape⟩ :=
    convertInto_name platform hunits hres rest
  refine ⟨y, post, res', ?_, hshape⟩
  rw [convFromShortWchar_eq (zero_notMem_of_units hunits) rfl]
  exact hconv

/-- Whichever way a name is converted, the two tables are searched for it: no name below
the last is empty or a lone byte order mark. -/
theorem findIn_name {size : Nat} (hunits : ∀ x ∈ u, 0x20 ≤ x) (hlen : u.length + 1 < 2 ^ 32)
    (hnames : Terminated names) (hnamesRu : Terminated namesRu) (hsize : size ≤ names.length)
    (hsizeRu : size ≤ namesRu.length)
    (hmark : lookup names namesRu size [0] = lookup names namesRu size [0xFEFF, 0]) :
    findIn platform names namesRu size (u ++ 0 :: rest) =
      .ok (lookup names namesRu size (u.map UInt16.toUInt32 ++ [0])) := by
  obtain ⟨y, post, res, hconv, _, hy⟩ :=
    convFromShortWchar_name platform hunits hlen rest
  rcases hy with rfl | ⟨rfl, rfl⟩
  · have hfree : 0 ∉ u.map UInt16.toUInt32 := by
      intro h
      obtain ⟨x, hx, hzero⟩ := List.mem_map.mp h
      have hx0 : x = 0 := UInt16.toNat_inj.mp (by simpa using congrArg UInt32.toNat hzero)
      exact zero_notMem_of_units hunits (hx0 ▸ hx)
    exact findIn_eq hconv hnames hnamesRu hsize hsizeRu hfree
  · rw [findIn_eq hconv hnames hnamesRu hsize hsizeRu List.not_mem_nil]
    exact congrArg _ hmark

/-- A unit that no name has is found in no table. -/
theorem lookup_of_notMem {y : List Wchar} {x : Wchar} {size : Nat} (hx : x ∈ y)
    (hnames : ∀ name ∈ names ++ namesRu, x ∉ name) : lookup names namesRu size y = -1 := by
  have hnone : ∀ table, (∀ name ∈ table, x ∉ name) → leastIndex table size y = none := by
    intro table htable
    apply List.findIdx?_eq_none_iff.mpr
    intro name hname
    have hne : name ≠ y := by
      intro he
      exact htable name (List.mem_of_mem_take hname) (he ▸ hx)
    exact decide_eq_false hne
  unfold lookup
  rw [hnone names fun name hn => hnames name (List.mem_append_left _ hn),
    hnone namesRu fun name hn => hnames name (List.mem_append_right _ hn)]

/-- Neither a surrogate nor a byte order mark. -/
def plainUnit (x : Wchar) : Bool := isScalar x.toNat && x != 0xFEFF

theorem plain_tables : (gPropNames ++ gPropNamesRu ++ (gMethodNames ++ gMethodNamesRu)).all
    (fun name => name.all plainUnit) = true := by
  decide +kernel

theorem terminated_tables : Terminated gPropNames ∧ Terminated gPropNamesRu ∧
    Terminated gMethodNames ∧ Terminated gMethodNamesRu := by
  decide +kernel

/-- A search gives what the tables say, on every platform, for every name whose length fits
into the `uint32_t` it is counted with. -/
theorem find_exact (platform : Platform) (u rest : List ShortWchar) (hunits : ∀ x ∈ u, 0x20 ≤ x)
    (hlen : u.length + 1 < 2 ^ 32) :
    (∃ dest res, convFromShortWchar platform none (u ++ 0 :: rest) 0 = .ok (dest, res) ∧
      dest.length = u.length + 1) ∧
    findMethod platform (u ++ 0 :: rest) = .ok (lookup gMethodNames gMethodNamesRu
      eMethLast.toNat (u.map UInt16.toUInt32 ++ [0])) ∧
    findProp platform (u ++ 0 :: rest) = .ok (lookup gPropNames gPropNamesRu
      ePropLast.toNat (u.map UInt16.toUInt32 ++ [0])) ∧
    ((∃ x ∈ u, plainUnit x.toUInt32 = false) → findMethod platform (u ++ 0 :: rest) = .ok (-1) ∧
      findProp platform (u ++ 0 :: rest) = .ok (-1)) := by
  obtain ⟨y, post, res, hconv, hroom, _⟩ :=
    convFromShortWchar_name platform hunits hlen rest
  obtain ⟨hprops, hpropsRu, hmethods, hmethodsRu⟩ := terminated_tables
  have hmethod : findMethod platform (u ++ 0 :: rest) = .ok (lookup gMethodNames gMethodNamesRu
      eMethLast.toNat (u.map UInt16.toUInt32 ++ [0])) :=
    findIn_name hunits hlen hmethods hmethodsRu (by decide) (by decide) (by decide +kernel)
  have hprop : findProp platform (u ++ 0 :: rest) = .ok (lookup gPropNames gPropNamesRu
      ePropLast.toNat (u.map UInt16.toUInt32 ++ [0])) :=
    findIn_name hunits hlen hprops hpropsRu (by decide) (by decide) (by decide +kernel)
  refine ⟨⟨_, res, hconv, hroom⟩, hmethod, hprop, ?_⟩
  intro hodd
  obtain ⟨x, hx, hplain⟩ := hodd
  have hmem : x.toUInt32 ∈ u.map UInt16.toUInt32 ++ [0] :=
    List.mem_append_left _ (List.mem_map_of_mem hx)
  have hnot : ∀ name ∈ gPropNames ++ gPropNamesRu ++ (gMethodNames ++ gMethodNamesRu),
      x.toUInt32 ∉ name := by
    intro name hname hin
    have hall := List.all_eq_true.mp (List.all_eq_true.mp plain_tables name hname) _ hin
    rw [hplain] at hall
    cases hall
  rw [hmethod, hprop, lookup_of_notMem hmem fun name hn => hnot name (List.mem_append_right _ hn),
    lookup_of_notMem hmem fun name hn => hnot name (List.mem_append_left _ hn)]
  exact ⟨rfl, rfl⟩

theorem find_exact_cyrillic :
    let u := "ПолучитьВерсию".toList.map fun c => UInt16.ofNat c.toNat
    findMethod (.linux true) (u ++ [0]) = .ok 0 := by
  intro u
  have hlookup : lookup gMethodNames gMethodNamesRu eMethLast.toNat
      (u.map UInt16.toUInt32 ++ [0]) = 0 := by decide +kernel
  have hall : u.all (0x20 ≤ ·) = true := by decide +kernel
  have hunits : ∀ x ∈ u, 0x20 ≤ x := by
    intro x hx
    exact of_decide_eq_true (List.all_eq_true.mp hall x hx)
  rw [← hlookup]
  exact (find_exact (.linux true) u [] hunits (by decide +kernel)).2.1

/-- When the count wraps to zero, the buffer has no unit and no terminator. -/
theorem findIn_wrapped {name : List Wchar} (hu : 0 ∉ u) (hlen : UInt32.ofNat u.length + 1 = 0)
    (size : Nat) : findIn .other (name :: names) namesRu (size + 1 : Nat) (u ++ [0]) =
      .error .fault := by
  have hconv : convFromShortWchar .other none (u ++ [0]) 0 = .ok ([], 0) := by
    unfold convFromShortWchar
    simp only [if_true, getLenShortWcharStr_eq hu, Except.map, UInt32.zero_add, hlen, bind,
      Except.bind]
    rfl
  have hcmp : wcscmpEq name [] = .error .fault := by
    cases name <;> rfl
  have hfind : findNameFrom [] (name :: names) (size + 1) 0 = .error .fault := by
    simp only [findNameFrom, hcmp]
    rfl
  unfold findIn
  simp only [hconv, bind, Except.bind, findName, Int.toNat_natCast, hfind]

/-- A name of 2^32 - 1 units. -/
theorem findMethod_wraps :
    ¬ ∀ u : List ShortWchar, (∀ x ∈ u, 0x20 ≤ x) → findMethod .other (u ++ [0]) =
      .ok (lookup gMethodNames gMethodNamesRu eMethLast.toNat (u.map UInt16.toUInt32 ++ [0])) := by
  intro h
  have hunits : ∀ x ∈ List.replicate (2 ^ 32 - 1) (0x41 : ShortWchar), 0x20 ≤ x := by
    intro x hx
    rw [List.eq_of_mem_replicate hx]
    decide
  have hcount : UInt32.ofNat (List.replicate (2 ^ 32 - 1) (0x41 : ShortWchar)).length + 1 = 0 := by
    rw [List.length_replicate]
    decide
  have hfault : findMethod .other (List.replicate (2 ^ 32 - 1) 0x41 ++ [0]) = .error .fault :=
    findIn_wrapped (zero_notMem_of_units hunits) hcount 2
  have hfound := h _ hunits
  rw [hfault] at hfound
  cases hfound

end KafkaAddIn
