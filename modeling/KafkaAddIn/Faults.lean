import KafkaAddIn.HostBlocks
import KafkaAddIn.Isolation

namespace KafkaAddIn

open Foundation

variable {platform : Platform} {this : CKafka} {a : Answers} {w w' : World} {c : HostCall}
  {s t : Process} {o : Outcome} {history : History} {u rest : List ShortWchar} {n : Nat}

/-- The units make characters of 32 bits, two by two, with none left over. -/
def wholePairs : List ShortWchar → Bool
  | [] => true
  | [_] => false
  | lo :: hi :: rest => isScalar (joinUnits lo hi) && wholePairs rest

/-- iconv starts on the text only where the second unit is taken for the upper half of the
first, and then has to come to its end: the loop behind it would leave the block. -/
def ConvertsSafely (platform : Platform) (u : List ShortWchar) : Prop :=
  platform = .linux true → (∃ y, u[1]? = some y ∧ y ≤ 0x10) → wholePairs (u ++ [0]) = true

/-- What a request needs so as to stay within the component's tables, the blocks it has and the
texts it is handed. -/
def Request.InBounds (platform : Platform) (this : CKafka) (a : Answers) : Request → Prop
  | .getPropName lPropNum lPropAlias => 0 ≤ lPropNum ∨ (lPropAlias ≠ 0 ∧ lPropAlias ≠ 1)
  | .getMethodName lMethodNum lMethodAlias =>
    0 ≤ lMethodNum ∨ (lMethodAlias ≠ 0 ∧ lMethodAlias ≠ 1)
  | .findProp wsPropName => 0 ∈ wsPropName ∧ ConvertsSafely platform (cString 0 wsPropName)
  | .findMethod wsMethodName => 0 ∈ wsMethodName ∧ ConvertsSafely platform (cString 0 wsMethodName)
  | .getPropVal lPropNum _ =>
    Props.ofLong lPropNum = none ∨ this.mIMemory = true ∧ a.alloc = true
  | .callAsFunc lMethodNum _ paParams _ => CallReturns this a lMethodNum paParams
  | _ => True

def StaysInBounds (platform : Platform) (e : Entry Process HostCall Outcome) : Prop :=
  ∀ request this, e.call.op = .request request → e.before.objects e.call.obj = some this →
    request.InBounds platform this e.call.answers

/-- A name to be found is short enough for the count of its units. -/
def Op.ShortName : Op → Prop
  | .request (.findProp name) => (cString 0 name).length + 1 < 2 ^ 32
  | .request (.findMethod name) => (cString 0 name).length + 1 < 2 ^ 32
  | _ => True

/-- Over units that are there, iconv ends, and well where they are whole pairs. It has
written as many characters as it has read pairs. -/
theorem iconvWiden_ok {source : List ShortWchar} (h : n ≤ source.length) :
    ∃ c, iconvWiden n source = .ok c ∧ c.succeeded = wholePairs (source.take n) ∧
      c.consumed = 2 * c.written.length := by
  induction n, source using iconvWiden.induct with
  | case1 source => exact ⟨_, rfl, rfl, rfl⟩
  | case2 source =>
    cases source with
    | nil => simp at h
    | cons x source => exact ⟨_, rfl, rfl, rfl⟩
  | case3 n lo hi source hscalar ih =>
    obtain ⟨c, hc, hdone, hread⟩ := ih (by simpa using h)
    refine ⟨⟨UInt32.ofNat (joinUnits lo hi) :: c.written, c.consumed + 2, c.succeeded⟩, ?_, ?_, ?_⟩
    · simp [iconvWiden, hscalar, hc, Except.map]
    · simp [wholePairs, hscalar, hdone]
    · change c.consumed + 2 = 2 * (c.written.length + 1)
      omega
  | case4 n lo hi source hscalar =>
    refine ⟨⟨[], 0, false⟩, ?_, ?_, rfl⟩
    · simp [iconvWiden, hscalar]
    · simp [wholePairs, hscalar]
  | case5 n source hshort =>
    rcases source with _ | ⟨lo, _ | ⟨hi, source⟩⟩
    · simp at h
    · simp at h
    · exact (hshort lo hi source rfl).elim

theorem copyUnits_short {α β : Type} {conv : α → β} {source : List α} {dest : List β}
    (h : dest.length < n) : copyUnits conv n source dest = .error .fault := by
  induction n generalizing source dest with
  | zero => simp at h
  | succ n ih =>
    cases source with
    | nil => rfl
    | cons x source =>
      cases dest with
      | nil => rfl
      | cons d dest =>
        have hrest : copyUnits conv n source dest = .error .fault :=
          ih (Nat.lt_of_succ_lt_succ h)
        simp [copyUnits, hrest, Except.map]

/-- A text that iconv starts on, in a block of just its size: the loop behind it runs over
the end of the block. -/
theorem convertInto_started {c : Converted Wchar} {x : Wchar} {w : List Wchar}
    {iconv : Except Exit (Converted Wchar)} (hiconv : iconv = .ok c)
    (hwritten : c.written = x :: w) (hstop : c.succeeded = false) (source : List ShortWchar)
    {res : UInt32} (hlen : 0 < res.toNat) :
    convertInto (.linux true) UInt16.toUInt32 iconv (List.replicate res.toNat 0) source res =
      .error .fault := by
  have hshort : ((c.written ++ (List.replicate res.toNat 0).drop c.written.length).drop
      c.written.length).length < res.toNat := by
    rw [List.drop_left, List.length_drop, List.length_replicate, hwritten, List.length_cons]
    omega
  simp only [convertInto, hiconv, bind, Except.bind, hstop, Bool.false_eq_true, if_false,
    copyUnits_short hshort]

/-- The conversion of a text of the host touches no memory but its own. -/
theorem convFromShortWchar_isOk_iff (hu : 0 ∉ u) (hlen : u.length + 1 < 2 ^ 32)
    (rest : List ShortWchar) :
    (convFromShortWchar platform none (u ++ 0 :: rest) 0).isOk = true ↔
      ConvertsSafely platform u := by
  have hres : (UInt32.ofNat (u.length + 1)).toNat = u.length + 1 := UInt32.toNat_ofNat_of_lt' hlen
  have hcopied : ((copyUnits UInt16.toUInt32 (u.length + 1) (u ++ 0 :: rest)
      (List.replicate (u.length + 1) 0)).map (·, UInt32.ofNat (u.length + 1))).isOk = true := by
    rw [copyUnits_fresh]
    rfl
  rw [convFromShortWchar_eq hu rfl, hres]
  by_cases hplatform : platform = .linux true
  swap
  · rw [convertInto_plain hplatform, hres]
    exact iff_of_true hcopied fun h => absurd h hplatform
  subst platform
  have hunread : iconvUtf32ToUtf32le (u.length + 1) (u ++ 0 :: rest) = .ok ⟨[], 0, false⟩ →
      (convertInto (.linux true) UInt16.toUInt32 (iconvUtf32ToUtf32le (u.length + 1)
        (u ++ 0 :: rest)) (List.replicate (u.length + 1) 0) (u ++ 0 :: rest)
        (UInt32.ofNat (u.length + 1))).isOk = true := by
    intro hstop
    rw [convertInto_unread hstop, hres]
    exact hcopied
  rcases u with _ | ⟨x, _ | ⟨y, v⟩⟩
  · exact iff_of_true (hunread rfl) fun _ h => by simp at h
  · refine iff_of_true ?_ fun _ h => by simp at h
    rcases iconv_single x rest with hstop | hone | ⟨rfl, hmark⟩
    · exact hunread hstop
    · exact congrArg Except.isOk (convertInto_done hone rfl)
    · exact congrArg Except.isOk (convertInto_done hmark rfl)
  · have hy : y ≠ 0 := fun he => hu (by simp [he])
    by_cases hsmall : y ≤ 0x10
    · have hroom : v.length + 2 + 1 ≤ (x :: y :: (v ++ 0 :: rest)).length := by simp
      have hmark : joinUnits x y ≠ 0xFEFF := by
        obtain ⟨hbig, _⟩ := joinUnits_pair hy x
        omega
      have htake : (x :: y :: (v ++ 0 :: rest)).take (v.length + 2 + 1) = x :: y :: v ++ [0] := by
        have hsplit : x :: y :: (v ++ 0 :: rest) = (x :: y :: v ++ [0]) ++ rest := by simp
        rw [hsplit, List.take_left' (by simp)]
      obtain ⟨c, hc, hdone, _⟩ := iconvWiden_ok hroom
      rw [htake] at hdone
      have hiconv : iconvUtf32ToUtf32le (v.length + 2 + 1) (x :: y :: (v ++ 0 :: rest)) = .ok c := by
        simp only [iconvUtf32ToUtf32le, hmark, if_false]
        exact hc
      obtain ⟨_, w, hw⟩ := iconv_misread hy hsmall hiconv
      have hsafe : ConvertsSafely (.linux true) (x :: y :: v) ↔ c.succeeded = true := by
        rw [hdone]
        exact ⟨fun h => h rfl ⟨y, rfl, hsmall⟩, fun h _ _ => h⟩
      rw [hsafe]
      cases hend : c.succeeded with
      | true => exact iff_of_true (congrArg Except.isOk (convertInto_done hiconv hend)) rfl
      | false =>
        have hfault := convertInto_started hiconv hw hend (x :: y :: v ++ 0 :: rest)
          (hres.symm ▸ Nat.succ_pos _ : 0 < (UInt32.ofNat ((x :: y :: v).length + 1)).toNat)
        rw [hres] at hfault
        refine iff_of_false ?_ Bool.false_ne_true
        intro h
        cases (congrArg Except.isOk hfault).symm.trans h
    · refine iff_of_true (hunread (iconv_pair (UInt16.not_le.mp hsmall) x _ _)) ?_
      rintro _ ⟨z, hz, hle⟩
      cases hz
      exact absurd hle hsmall

theorem isOk_iff {ε α : Type} {x : Except ε α} : x.isOk = true ↔ ∃ v, x = .ok v := by
  cases x with
  | error e => exact iff_of_false nofun fun ⟨v, hv⟩ => by cases hv
  | ok v => exact iff_of_true rfl ⟨v, rfl⟩

/-- Once the name is converted, the comparisons stay within it. -/
theorem NameTables.findIn_ok (t : NameTables) {d : List Wchar} {res : UInt32} (hu : 0 ∉ u)
    (hlen : u.length + 1 < 2 ^ 32)
    (hconv : convFromShortWchar platform none (u ++ 0 :: rest) 0 = .ok (d, res)) :
    ∃ num, findIn platform t.names t.namesRu t.size (u ++ 0 :: rest) = .ok num := by
  obtain ⟨hterm, htermRu⟩ := t.terminated
  have hsize : t.size ≤ t.names.length := by simpa [NameTables.names] using t.long.1
  have hsizeRu : t.size ≤ t.namesRu.length := by simpa [NameTables.namesRu] using t.long.2
  rcases convFromShortWchar_shape hu hlen hconv with ⟨rfl, _⟩ | ⟨rfl, rfl⟩ |
    ⟨_, x, post, rfl, hx⟩
  · have hfree : 0 ∉ u.map UInt16.toUInt32 := by
      intro hzero
      obtain ⟨x, hx, h0⟩ := List.mem_map.mp hzero
      have hx0 : x = 0 := toUInt32_injective h0
      exact hu (hx0 ▸ hx)
    exact ⟨_, findIn_eq hconv hterm htermRu hsize hsizeRu hfree⟩
  · have hnothing : convFromShortWchar platform none ([0xFEFF] ++ 0 :: rest) 0 =
        .ok ([] ++ 0 :: [0], res) := hconv
    exact ⟨_, findIn_eq hnothing hterm htermRu hsize hsizeRu List.not_mem_nil⟩
  · obtain ⟨hnone, hnoneRu⟩ := t.findName_big hx post
    refine ⟨-1, ?_⟩
    unfold findIn
    simp only [hconv, hnone, hnoneRu, bind, Except.bind, if_true]

theorem NameTables.findIn_isOk_iff (t : NameTables) {wsName : List ShortWchar}
    (hlen : (cString 0 wsName).length + 1 < 2 ^ 32) :
    (findIn platform t.names t.namesRu t.size wsName).isOk = true ↔
      0 ∈ wsName ∧ ConvertsSafely platform (cString 0 wsName) := by
  by_cases hmem : 0 ∈ wsName
  · obtain ⟨u, rest, rfl, hu⟩ := List.eq_append_cons_of_mem hmem
    rw [cString_terminated hu] at hlen ⊢
    rw [← convFromShortWchar_isOk_iff hu hlen rest, and_iff_right hmem]
    constructor
    · intro h
      obtain ⟨num, hnum⟩ := isOk_iff.mp h
      obtain ⟨p, hp, _⟩ := bind_eq_ok_iff.mp hnum
      exact isOk_iff.mpr ⟨p, hp⟩
    · intro h
      obtain ⟨⟨d, res⟩, hconv⟩ := isOk_iff.mp h
      exact isOk_iff.mpr (t.findIn_ok hu hlen hconv)
  · refine iff_of_false ?_ fun h => hmem h.1
    intro h
    obtain ⟨num, hnum⟩ := isOk_iff.mp h
    obtain ⟨p, hp, _⟩ := bind_eq_ok_iff.mp hnum
    obtain ⟨len, hlen, _⟩ := bind_eq_ok_iff.mp hp
    obtain ⟨n, hn, _⟩ := map_eq_ok_iff.mp hlen
    exact hmem (getLenShortWcharStr_ok hn)

theorem NameTables.getNameOf_isOk_iff (t : NameTables) {num lAlias : Int}
    {r : Except Exit (Option (List ShortWchar))} (hclean : ∀ e ∈ w.trace, e.ofHost = false)
    (h : Ends (getNameOf platform t.names t.namesRu t.size this a num lAlias) w r w') :
    r.isOk = true ↔ 0 ≤ num ∨ (lAlias ≠ 0 ∧ lAlias ≠ 1) := by
  rcases t.getNameOf_cases h with ⟨rfl, _, hnull⟩ | ⟨rfl, _, hneg, halias⟩ |
    ⟨hset, i, rfl, text, hhas, hgot⟩
  · exact iff_of_true rfl hnull
  · exact iff_of_false nofun (by omega)
  · obtain ⟨p, rfl, _⟩ := givesBlocks_nameToHost hset (t.text_printable hhas.mem)
      (t.short _ hhas.mem) hclean hgot
    exact iff_of_true rfl (Or.inl (by omega))

theorem runRequest_isOk_iff {request : Request} {r : Except Exit Ret} (htr : w.trace = [])
    (hshort : (Op.request request).ShortName)
    (h : Ends (runRequest platform this a request) w r w') :
    r.isOk = true ↔ request.InBounds platform this a := by
  have hclean : ∀ e ∈ w.trace, e.ofHost = false := by simp [htr]
  cases request with
  | registerExtensionAs =>
    obtain ⟨r₀, hreg, rfl⟩ := ends_bind_pure.mp h
    obtain ⟨ok, p, rfl, _⟩ := givesBlocks_registerExtensionAs hclean hreg
    exact iff_of_true rfl trivial
  | getPropName num lAlias =>
    obtain ⟨r₀, hname, rfl⟩ := ends_bind_pure.mp h
    rw [isOk_map]
    exact propTables.getNameOf_isOk_iff hclean hname
  | getMethodName num lAlias =>
    obtain ⟨r₀, hname, rfl⟩ := ends_bind_pure.mp h
    rw [isOk_map]
    exact methodTables.getNameOf_isOk_iff hclean hname
  | findProp name =>
    obtain ⟨r₀, hfind, rfl⟩ := ends_bind_pure.mp h
    rw [isOk_map, (ends_lift.mp hfind).1]
    exact propTables.findIn_isOk_iff hshort
  | findMethod name =>
    obtain ⟨r₀, hfind, rfl⟩ := ends_bind_pure.mp h
    rw [isOk_map, (ends_lift.mp hfind).1]
    exact methodTables.findIn_isOk_iff hshort
  | getPropVal num pvar =>
    obtain ⟨r₀, hget, rfl⟩ := ends_bind_pure.mp h
    rw [isOk_map]
    exact getPropVal_isOk hget
  | callAsFunc num pvar ps size =>
    obtain ⟨r₀, hcall, rfl⟩ := ends_bind_pure.mp h
    rw [isOk_map]
    exact (ends_callAsFunc htr hcall).isOk
  | getNParams num =>
    obtain ⟨rfl, _⟩ := ends_pure.mp h
    exact iff_of_true rfl trivial
  | getParamDefValue num param pvar =>
    obtain ⟨rfl, _⟩ := ends_pure.mp h
    exact iff_of_true rfl trivial

/-- Nothing else goes wrong than an access out of bounds. -/
def OnlyFaults {α : Type} (x : Except Exit α) : Prop := ∀ e, x = .error e → e = .fault

theorem onlyFaults_ok {α : Type} (v : α) : OnlyFaults (.ok v) := by
  intro e h
  cases h

theorem onlyFaults_fault {α : Type} : OnlyFaults (.error .fault : Except Exit α) := by
  intro e h
  exact (Except.error.inj h).symm

theorem OnlyFaults.map {α β : Type} {x : Except Exit α} (h : OnlyFaults x) (f : α → β) :
    OnlyFaults (x.map f) := by
  intro e he
  cases x with
  | ok v => cases he
  | error e' => exact h e (congrArg Except.error (Except.error.inj he))

theorem OnlyFaults.bind {α β : Type} {x : Except Exit α} {f : α → Except Exit β}
    (h : OnlyFaults x) (hf : ∀ v, OnlyFaults (f v)) : OnlyFaults (x >>= f) := by
  intro e he
  cases x with
  | ok v => exact hf v e he
  | error e' => exact h e (congrArg Except.error (Except.error.inj he))

theorem onlyFaults_copyUnits {α β : Type} (conv : α → β) (n : Nat) (source : List α)
    (dest : List β) : OnlyFaults (copyUnits conv n source dest) := by
  induction n generalizing source dest with
  | zero => exact onlyFaults_ok _
  | succ n ih =>
    cases source with
    | nil => exact onlyFaults_fault
    | cons x source =>
      cases dest with
      | nil => exact onlyFaults_fault
      | cons d dest => exact (ih source dest).map _

theorem onlyFaults_iconvWiden (n : Nat) (source : List ShortWchar) :
    OnlyFaults (iconvWiden n source) := by
  induction n, source using iconvWiden.induct with
  | case1 source => exact onlyFaults_ok _
  | case2 source => exact onlyFaults_ok _
  | case3 n lo hi source hscalar ih =>
    simp only [iconvWiden, hscalar, if_true]
    exact ih.map _
  | case4 n lo hi source hscalar =>
    simp only [iconvWiden, hscalar]
    exact onlyFaults_ok _
  | case5 n source hshort =>
    rcases source with _ | ⟨lo, _ | ⟨hi, source⟩⟩
    · exact onlyFaults_fault
    · exact onlyFaults_fault
    · exact (hshort lo hi source rfl).elim

theorem onlyFaults_iconv (n : Nat) (source : List ShortWchar) :
    OnlyFaults (iconvUtf32ToUtf32le n source) := by
  unfold iconvUtf32ToUtf32le
  split
  · split
    · exact (onlyFaults_iconvWiden _ _).map _
    · exact onlyFaults_iconvWiden _ _
  · exact onlyFaults_iconvWiden _ _

theorem onlyFaults_getLenShortWcharStr (source : List ShortWchar) (res : UInt32) :
    OnlyFaults (getLenShortWcharStr source res) := by
  induction source generalizing res with
  | nil => exact onlyFaults_fault
  | cons u source ih =>
    unfold getLenShortWcharStr
    split
    · exact onlyFaults_ok _
    · exact ih _

theorem onlyFaults_convFromShortWchar (source : List ShortWchar) :
    OnlyFaults (convFromShortWchar platform none source 0) := by
  unfold convFromShortWchar
  refine OnlyFaults.bind ?_ fun len => OnlyFaults.bind ?_ fun dest => ?_
  · exact (onlyFaults_getLenShortWcharStr source 0).map _
  · unfold clearUnits
    split
    · exact onlyFaults_fault
    · exact onlyFaults_ok _
  · unfold convertInto
    split
    · refine (onlyFaults_iconv _ _).bind fun c => ?_
      split
      · exact onlyFaults_ok _
      · exact (onlyFaults_copyUnits _ _ _ _).bind fun _ => onlyFaults_ok _
    · exact (onlyFaults_copyUnits _ _ _ _).bind fun _ => onlyFaults_ok _

theorem onlyFaults_wcscmpEq (x y : List Wchar) : OnlyFaults (wcscmpEq x y) := by
  induction x generalizing y with
  | nil =>
    unfold wcscmpEq
    exact onlyFaults_fault
  | cons u x ih =>
    cases y with
    | nil =>
      unfold wcscmpEq
      exact onlyFaults_fault
    | cons v y =>
      unfold wcscmpEq
      split
      · exact onlyFaults_ok _
      · split
        · exact onlyFaults_ok _
        · exact ih y

theorem onlyFaults_findNameFrom (name : List Wchar) (names : List (List Wchar)) (size : Nat)
    (i : Int) : OnlyFaults (findNameFrom name names size i) := by
  induction size generalizing names i with
  | zero =>
    unfold findNameFrom
    exact onlyFaults_ok _
  | succ size ih =>
    cases names with
    | nil => exact onlyFaults_fault
    | cons n names =>
      unfold findNameFrom
      refine (onlyFaults_wcscmpEq n name).bind fun same => ?_
      split
      · exact onlyFaults_ok _
      · exact ih _ _

theorem onlyFaults_findIn (names namesRu : List (List Wchar)) (size : Int)
    (wsName : List ShortWchar) : OnlyFaults (findIn platform names namesRu size wsName) := by
  unfold findIn
  refine (onlyFaults_convFromShortWchar wsName).bind fun p => ?_
  refine (onlyFaults_findNameFrom p.1 names _ 0).bind fun num => ?_
  split
  · exact onlyFaults_findNameFrom p.1 namesRu _ 0
  · exact onlyFaults_ok _

theorem onlyFaults_stringToTVariant {str : Bytes} {val : TVariant}
    {r : Except Exit (Bool × TVariant)} (h : Ends (stringToTVariant this a str val) w r w') :
    OnlyFaults r := by
  rcases ends_stringToTVariant h with ⟨_, _, rfl, _⟩ | ⟨_, _, rfl, _⟩ | ⟨_, rfl, _⟩
  · exact onlyFaults_ok _
  · exact onlyFaults_fault
  · exact onlyFaults_fault

theorem CallExit.onlyFaults {num : Int} {pvar : TVariant} {ps : Nat → TVariant}
    {r : Except Exit (Bool × TVariant)} (h : CallExit this a num pvar ps w r w') :
    OnlyFaults r := by
  cases h with
  | unknown _ => exact onlyFaults_ok _
  | version _ hstr => exact onlyFaults_stringToTVariant hstr
  | sent _ _ hstr => exact onlyFaults_stringToTVariant hstr
  | notSent _ hprod =>
    cases hprod with
    | unreadable _ _ _ => exact onlyFaults_fault
  | received _ _ => exact onlyFaults_ok _
  | notReceived _ hcons =>
    cases hcons with
    | unreadable _ _ _ => exact onlyFaults_fault

theorem NameTables.onlyFaults_getNameOf (t : NameTables) {num lAlias : Int}
    {r : Except Exit (Option (List ShortWchar))} (hclean : ∀ e ∈ w.trace, e.ofHost = false)
    (h : Ends (getNameOf platform t.names t.namesRu t.size this a num lAlias) w r w') :
    OnlyFaults r := by
  rcases t.getNameOf_cases h with ⟨rfl, _, _⟩ | ⟨rfl, _, _, _⟩ | ⟨hset, i, rfl, text, hhas, hgot⟩
  · exact onlyFaults_ok _
  · exact onlyFaults_fault
  · obtain ⟨p, rfl, _⟩ := givesBlocks_nameToHost hset (t.text_printable hhas.mem)
      (t.short _ hhas.mem) hclean hgot
    exact onlyFaults_ok _

theorem onlyFaults_runRequest {request : Request} {r : Except Exit Ret} (htr : w.trace = [])
    (h : Ends (runRequest platform this a request) w r w') : OnlyFaults r := by
  have hclean : ∀ e ∈ w.trace, e.ofHost = false := by simp [htr]
  cases request with
  | registerExtensionAs =>
    obtain ⟨r₀, hreg, rfl⟩ := ends_bind_pure.mp h
    obtain ⟨ok, p, rfl, _⟩ := givesBlocks_registerExtensionAs hclean hreg
    exact onlyFaults_ok _
  | getPropName num lAlias =>
    obtain ⟨r₀, hname, rfl⟩ := ends_bind_pure.mp h
    exact (propTables.onlyFaults_getNameOf hclean hname).map _
  | getMethodName num lAlias =>
    obtain ⟨r₀, hname, rfl⟩ := ends_bind_pure.mp h
    exact (methodTables.onlyFaults_getNameOf hclean hname).map _
  | findProp name =>
    obtain ⟨r₀, hfind, rfl⟩ := ends_bind_pure.mp h
    rw [(ends_lift.mp hfind).1]
    exact (onlyFaults_findIn _ _ _ name).map _
  | findMethod name =>
    obtain ⟨r₀, hfind, rfl⟩ := ends_bind_pure.mp h
    rw [(ends_lift.mp hfind).1]
    exact (onlyFaults_findIn _ _ _ name).map _
  | getPropVal num pvar =>
    obtain ⟨r₀, hget, rfl⟩ := ends_bind_pure.mp h
    refine OnlyFaults.map ?_ _
    rcases ends_getPropVal hget with ⟨_, rfl, _⟩ | ⟨_, _, hstr⟩
    · exact onlyFaults_ok _
    · exact onlyFaults_stringToTVariant hstr
  | callAsFunc num pvar ps size =>
    obtain ⟨r₀, hcall, rfl⟩ := ends_bind_pure.mp h
    exact (ends_callAsFunc htr hcall).onlyFaults.map _
  | getNParams num =>
    obtain ⟨rfl, _⟩ := ends_pure.mp h
    exact onlyFaults_ok _
  | getParamDefValue num param pvar =>
    obtain ⟨rfl, _⟩ := ends_pure.mp h
    exact onlyFaults_ok _

/-- A call is answered when it stays in bounds, and goes out of them otherwise. -/
theorem answered_step (hshort : c.op.ShortName) (h : stepProcess platform c s = some (o, t)) :
    (StaysInBounds platform ⟨s, c, o, t⟩ ∧ (∃ ret, o.result = .ok ret) ∧ t.dead = false) ∨
      (¬ StaysInBounds platform ⟨s, c, o, t⟩ ∧ o.result = .error .fault ∧ t.dead = true) := by
  obtain ⟨hlive, ⟨l, ok, _, hl, _, rfl, rfl⟩ | ⟨request, this, r, w, hreq, hthis, hrun, rfl, rfl⟩⟩ :=
    stepProcess_cases h
  · refine Or.inl ⟨?_, ⟨.flag ok, rfl⟩, hlive⟩
    intro request this hreq
    have hnone : Op.lifetime l = .request request := hl.symm.trans hreq
    cases hnone
  · rw [hreq] at hshort
    have hok := runRequest_isOk_iff rfl hshort hrun
    have hfaults := onlyFaults_runRequest rfl hrun
    have hbounds : StaysInBounds platform ⟨s, c, ⟨r, w.trace⟩, s.finish r w⟩ ↔
        request.InBounds platform this c.answers := by
      constructor
      · intro hall
        exact hall request this hreq hthis
      · intro hone request' this' hreq' hthis'
        cases hreq.symm.trans hreq'
        cases hthis.symm.trans hthis'
        exact hone
    rw [hbounds, ← hok]
    cases r with
    | ok ret => exact Or.inl ⟨rfl, ⟨ret, rfl⟩, rfl⟩
    | error e =>
      rw [hfaults e rfl]
      exact Or.inr ⟨Bool.false_ne_true, rfl, rfl⟩

/-- A search for a name of one letter and a control character. -/
def controlSearch : List HostCall :=
  newObject 0 ++ [⟨0, .request (.findMethod [0x41, 0x01, 0]), {}⟩]

example : (execFrom (stepProcess (.linux true)) ([], {}) controlSearch).2.dead = true := by
  decide +kernel

end KafkaAddIn
