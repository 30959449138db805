import KafkaAddIn.HostValues
import Mathlib.Data.Option.Basic

namespace KafkaAddIn

open Foundation

variable {this : CKafka} {a : Answers} {s t : Bytes}

/-- The variant hands the host exactly `s`: counted by `strLen`, and with a zero byte
behind it. -/
structure ByteExact (s : Bytes) (val : TVariant) : Prop where
  vt : val.vt = vtypePstr
  strLen : val.strLen.toNat = s.length
  buffer : ∃ cells, val.pstrVal = some cells ∧
    cells.take (s.length + 1) = s.map some ++ [some 0]

theorem length_returnedCells (s : Bytes) : (returnedCells s).length = s.length + 1 := by
  have hle := length_cString_le 0 s
  simp only [returnedCells, List.length_append, List.length_map, List.length_cons,
    List.length_replicate]
  omega

theorem cString_returnedCells (s : Bytes) :
    cString (some 0) (returnedCells s) = (cString 0 s).map some := by
  have hstop : some 0 ∉ (cString 0 s).map some := by
    intro h
    obtain ⟨x, hx, he⟩ := List.mem_map.mp h
    cases he
    exact stop_notMem_cString 0 s hx
  exact cString_terminated hstop _

theorem returnedCells_of_notMem (h : 0 ∉ s) : returnedCells s = s.map some ++ [some 0] := by
  have hall : cString 0 s = s := cString_eq_self_iff.mpr h
  simp [returnedCells, hall]

theorem none_mem_returnedCells (h : 0 ∈ s) : none ∈ returnedCells s := by
  have hlt := length_cString_lt h
  have hpos : s.length - (cString 0 s).length ≠ 0 := by omega
  have hrest : none ∈ List.replicate (s.length - (cString 0 s).length) (none : Option UInt8) :=
    List.mem_replicate.mpr ⟨hpos, rfl⟩
  exact List.mem_append_right _ (List.mem_cons_of_mem _ hrest)

/-- The variant `stringToTVariant` leaves when it has its memory. -/
def returned (s : Bytes) (val : TVariant) : TVariant :=
  { val with
    vt := vtypePstr, pstrVal := some (returnedCells s), strLen := UInt32.ofNat s.length }

theorem byteExact_returned_iff {val : TVariant} (hlen : s.length < 2 ^ 32 - 1) :
    ByteExact s (returned s val) ↔ 0 ∉ s := by
  have htake : (returnedCells s).take (s.length + 1) = returnedCells s :=
    List.take_of_length_le (length_returnedCells s).le
  constructor
  · rintro ⟨_, _, cells, hcells, hbuf⟩ hzero
    cases hcells
    rw [htake] at hbuf
    have hnone := none_mem_returnedCells hzero
    rw [hbuf] at hnone
    simp at hnone
  · intro hzero
    have hcount : (UInt32.ofNat s.length).toNat = s.length := by
      rw [UInt32.toNat_ofNat']
      omega
    refine ⟨rfl, hcount, returnedCells s, rfl, ?_⟩
    rw [htake, returnedCells_of_notMem hzero]

theorem returned_ne {x y : TVariant} (hzero : 0 ∉ s) (hne : t ≠ s) :
    returned t x ≠ returned s y := by
  intro he
  have hcells : returnedCells t = returnedCells s := by
    have hp := congrArg TVariant.pstrVal he
    exact Option.some.inj hp
  have hlen : t.length = s.length := by
    have hl := congrArg List.length hcells
    rw [length_returnedCells, length_returnedCells] at hl
    omega
  have hread : cString 0 t = s := by
    have hc := congrArg (cString (some 0)) hcells
    rw [cString_returnedCells, cString_returnedCells, cString_eq_self_iff.mpr hzero] at hc
    exact List.map_injective_iff.mpr (Option.some_injective _) hc
  -- The reading of `t` is as long as `t`, so it is `t`.
  have hwhole : cString 0 t = t := by
    by_contra hcut
    have hmem : 0 ∈ t := by
      by_contra hfree
      exact hcut (cString_eq_self_iff.mpr hfree)
    have hlt := length_cString_lt hmem
    rw [hread] at hlt
    omega
  exact hne (hwhole.symm.trans hread)

theorem eq_of_byteExact_returned {val : TVariant} (ht : t.length < 2 ^ 32 - 1)
    (h : ByteExact s (returned t val)) : t = s := by
  have hlen : t.length = s.length := by
    have hcount := h.strLen
    change (UInt32.ofNat t.length).toNat = s.length at hcount
    rw [UInt32.toNat_ofNat'] at hcount
    omega
  obtain ⟨cells, hcells, hbuf⟩ := h.buffer
  cases hcells
  rw [← hlen, List.take_of_length_le (length_returnedCells t).le] at hbuf
  have hzero : 0 ∉ t := by
    intro hmem
    have hnone := none_mem_returnedCells hmem
    rw [hbuf] at hnone
    simp at hnone
  rw [returnedCells_of_notMem hzero] at hbuf
  have hmap := (List.append_inj' hbuf rfl).1
  exact List.map_injective_iff.mpr (Option.some_injective _) hmap

theorem stringToTVariant_returned (hset : this.mIMemory = true) (halloc : a.alloc = true)
    (s : Bytes) (val : TVariant) (w : World) :
    Ends (stringToTVariant this a s val) w (.ok (true, returned s val))
      (w.after 0 [.allocMemory (s.length + 1) true]) := by
  have hrun := ends_run (stringToTVariant this a s val) w
  rcases ends_stringToTVariant hrun with ⟨_, _, hok, hw⟩ | ⟨_, hno, _⟩ | ⟨hno, _⟩
  · rw [hok, hw] at hrun
    exact hrun
  · rw [halloc] at hno
    cases hno
  · rw [hset] at hno
    cases hno

theorem getPropVal_returned (hset : this.mIMemory = true) (halloc : a.alloc = true)
    {lPropNum : Int} {prop : Props} (hprop : Props.ofLong lPropNum = some prop)
    (pvar : TVariant) (w : World) :
    Ends (getPropVal this a lPropNum pvar) w (.ok (true, returned (w.propValue prop) pvar))
      (w.after 0 [.allocMemory ((w.propValue prop).length + 1) true]) := by
  have hrun := ends_run (getPropVal this a lPropNum pvar) w
  rcases ends_getPropVal hrun with ⟨hno, _⟩ | ⟨prop', hprop', hstr⟩
  · rw [hprop] at hno
    cases hno
  · rw [hprop] at hprop'
    cases hprop'
    have hret := stringToTVariant_returned hset halloc (w.propValue prop)
      { pvar with vt := vtypePstr } w
    obtain ⟨hr, hw⟩ := Ends.unique hstr hret
    rw [hr, hw] at hrun
    exact hrun

/-- What the strings a host gets back owe it, for one string `s`: the variant holds it
byte for byte, so do the properties while it is stored there, and no other string
gives the same variant. -/
structure ExactResults (this : CKafka) (a : Answers) (s : Bytes) : Prop where
  variant : ∀ val w, ∃ val' w', Ends (stringToTVariant this a s val) w (.ok (true, val')) w' ∧
    ByteExact s val'
  property : ∀ (w : World) lPropNum prop pvar, Props.ofLong lPropNum = some prop →
    w.propValue prop = s →
    ∃ val' w', Ends (getPropVal this a lPropNum pvar) w (.ok (true, val')) w' ∧ ByteExact s val'
  distinct : ∀ t, t.length < 2 ^ 32 - 1 → t ≠ s → ∀ (u w u' w' : World) lPropNum prop pvar x y,
    Props.ofLong lPropNum = some prop → u.propValue prop = t → w.propValue prop = s →
    Ends (getPropVal this a lPropNum pvar) u (.ok (true, x)) u' →
    Ends (getPropVal this a lPropNum pvar) w (.ok (true, y)) w' → x ≠ y

/-- The code counts the string for `strLen` and copies it as a terminated one, so it
keeps its word for the strings without a zero byte, and for no others. -/
theorem exactResults_iff (hset : this.mIMemory = true) (halloc : a.alloc = true)
    (hlen : s.length < 2 ^ 32 - 1) : ExactResults this a s ↔ 0 ∉ s := by
  constructor
  · intro h
    obtain ⟨val', w', hrun, hexact⟩ := h.variant {} {}
    have hret := stringToTVariant_returned hset halloc s {} {}
    have hval : val' = returned s {} := by
      have hr := (Ends.unique hrun hret).1
      exact (Prod.mk.inj (Except.ok.inj hr)).2
    rw [hval] at hexact
    exact (byteExact_returned_iff hlen).mp hexact
  · intro hzero
    have hexact : ∀ val, ByteExact s (returned s val) := fun val =>
      (byteExact_returned_iff hlen).mpr hzero
    refine ⟨?_, ?_, ?_⟩
    · intro val w
      exact ⟨_, _, stringToTVariant_returned hset halloc s val w, hexact val⟩
    · intro w lPropNum prop pvar hprop hval
      have hret := getPropVal_returned hset halloc hprop pvar w
      rw [hval] at hret
      exact ⟨_, _, hret, hexact pvar⟩
    · intro t _ hne u w u' w' lPropNum prop pvar x y hprop hu hw hx hy
      have hxr := (Ends.unique hx (getPropVal_returned hset halloc hprop pvar u)).1
      have hyr := (Ends.unique hy (getPropVal_returned hset halloc hprop pvar w)).1
      rw [hu] at hxr
      rw [hw] at hyr
      cases hxr
      cases hyr
      exact returned_ne hzero hne

theorem exactResults_text :
    (ExactResults { mIMemory := true } {} (ascii "Persisted") ↔ 0 ∉ ascii "Persisted") :=
  exactResults_iff rfl rfl (by decide)

/-- An Avro record begins with a zero byte: the host is told of five bytes and finds
four that nobody wrote. -/
theorem avro_not_exactResults :
    ([0, 0, 0, 0, 7] : Bytes).length < 2 ^ 32 - 1 ∧
      ¬ ExactResults { mIMemory := true } {} [0, 0, 0, 0, 7] := by
  refine ⟨by decide, ?_⟩
  intro h
  obtain ⟨val', w', hrun, hexact⟩ := h.variant {} {}
  have hret : Ends (stringToTVariant { mIMemory := true } {} [0, 0, 0, 0, 7] {}) {}
      (.ok (true, ⟨vtypePstr, false, some [some 0, none, none, none, none, none], [], 5⟩))
      ⟨[], [], 0, [.allocMemory 6 true]⟩ := by rfl
  obtain ⟨hr, _⟩ := Ends.unique hrun hret
  cases hr
  obtain ⟨cells, hcells, hbuf⟩ := hexact.buffer
  cases hcells
  simp at hbuf

end KafkaAddIn
