import KafkaAddIn.Foundation.CString

namespace Foundation

variable {α β : Type} [DecidableEq α] [DecidableEq β] {enc : α → Option (List β)} {stop : α}
  {zero : β} {xs rest : List α} {bytes s : List β} {cells : Cells β} {room : Nat}

/-- `wcstombs`: character by character up to and with the terminator, as far as whole
characters fit into the block. It stops at one that has no encoding. The source has no end
where the result is `none`. -/
def encodeInto (enc : α → Option (List β)) (stop : α) (zero : β) :
    List α → Cells β → Option (Cells β)
  | [], _ => none
  | x :: xs, cells =>
    if x = stop then
      match cells with
      | [] => some []
      | _ :: cells => some (some zero :: cells)
    else
      match enc x with
      | none => some cells
      | some bytes =>
        if cells.length < bytes.length then some cells
        else (encodeInto enc stop zero xs (cells.drop bytes.length)).map (bytes.map some ++ ·)

/-- A terminated string read from a block. It is not known where it runs into a cell that
nobody has written, or over the end. -/
def readCells (zero : β) : Cells β → Option (List β)
  | some b :: cells => if b = zero then some [] else (readCells zero cells).map (b :: ·)
  | _ => none

theorem readCells_append (h : zero ∉ bytes) (cells : Cells β) :
    readCells zero (bytes.map some ++ cells) = (readCells zero cells).map (bytes ++ ·) := by
  induction bytes with
  | nil => simp
  | cons b bytes ih =>
    have hb : b ≠ zero := fun he => h (he ▸ List.mem_cons_self)
    have hrest := ih fun hm => h (List.mem_cons_of_mem _ hm)
    simp only [List.map_cons, List.cons_append, readCells, hb, if_false, hrest, Option.map_map]
    rfl

theorem readCells_unwritten (zero : β) (n : Nat) :
    readCells zero (List.replicate n (none : Option β)) = none := by
  cases n with
  | zero => rfl
  | succ n => rfl

/-- Every character has some bytes, none of them the terminator. -/
def Encodes (enc : α → Option (List β)) (stop : α) (zero : β) : Prop :=
  ∀ x bytes, x ≠ stop → enc x = some bytes → bytes ≠ [] ∧ zero ∉ bytes

/-- One character in front. -/
theorem read_encodeInto_cons {x : α} (hx : x ≠ stop) (hbytes : enc x = some bytes)
    (hfree : zero ∉ bytes) (hfit : bytes.length ≤ room) (xs : List α) :
    (encodeInto enc stop zero (x :: xs) (List.replicate room none)).bind (readCells zero) =
      ((encodeInto enc stop zero xs (List.replicate (room - bytes.length) none)).bind
        (readCells zero)).map (bytes ++ ·) := by
  have hroom : ¬ room < bytes.length := Nat.not_lt.mpr hfit
  simp only [encodeInto, hx, if_false, hbytes, List.length_replicate, hroom, List.drop_replicate]
  cases encodeInto enc stop zero xs (List.replicate (room - bytes.length) none) with
  | none => rfl
  | some cells =>
    rw [Option.map_some, Option.bind_some, Option.bind_some]
    exact readCells_append hfree cells

/-- A character without encoding, or without room, leaves the block without terminator. -/
theorem read_encodeInto_stuck {x : α} (hx : x ≠ stop)
    (hstuck : ∀ bytes, enc x = some bytes → room < bytes.length) (xs : List α) :
    (encodeInto enc stop zero (x :: xs) (List.replicate room none)).bind (readCells zero) =
      none := by
  simp only [encodeInto, hx, if_false]
  cases hbytes : enc x with
  | none => exact readCells_unwritten zero room
  | some bytes =>
    simp only [List.length_replicate, hstuck bytes hbytes, if_true]
    exact readCells_unwritten zero room

/-- A block with fewer cells than the text and its terminator ends up without one. -/
theorem read_encodeInto_short (henc : Encodes enc stop zero) (hxs : stop ∉ xs) (rest : List α)
    (hroom : room ≤ xs.length) :
    (encodeInto enc stop zero (xs ++ stop :: rest) (List.replicate room none)).bind
      (readCells zero) = none := by
  induction xs generalizing room with
  | nil =>
    have hzero : room = 0 := Nat.le_zero.mp hroom
    subst room
    simp [encodeInto, readCells]
  | cons x xs ih =>
    have hx : x ≠ stop := fun he => hxs (he ▸ List.mem_cons_self)
    by_cases hfit : ∃ bytes, enc x = some bytes ∧ bytes.length ≤ room
    · obtain ⟨bytes, hbytes, hfit⟩ := hfit
      obtain ⟨hne, hfree⟩ := henc x bytes hx hbytes
      have hpos := List.length_pos_iff.mpr hne
      rw [List.length_cons] at hroom
      have hrest := ih (fun hm => hxs (List.mem_cons_of_mem _ hm))
        (by omega : room - bytes.length ≤ xs.length)
      rw [List.cons_append, read_encodeInto_cons hx hbytes hfree hfit, hrest, Option.map_none]
    · refine read_encodeInto_stuck hx ?_ (xs ++ stop :: rest)
      intro bytes hbytes
      exact Nat.not_le.mp fun hle => hfit ⟨bytes, hbytes, hle⟩

/-- A block with a cell for each character and the terminator gives back what each character
is encoded as, where this is one unit for each, and nothing that is known otherwise. -/
theorem read_encodeInto_iff (henc : Encodes enc stop zero) (hxs : stop ∉ xs) :
    (encodeInto enc stop zero (xs ++ stop :: rest) (List.replicate (xs.length + 1) none)).bind
      (readCells zero) = some s ↔ xs.map enc = s.map fun b => some [b] := by
  induction xs generalizing s with
  | nil =>
    simp only [List.nil_append, encodeInto, if_true, List.length_nil, Nat.zero_add,
      List.replicate_one, Option.bind_some, readCells, Option.some.injEq, List.map_nil]
    constructor
    · rintro rfl
      rfl
    · intro h
      exact (List.map_eq_nil_iff.mp h.symm).symm
  | cons x xs ih =>
    have hx : x ≠ stop := fun he => hxs (he ▸ List.mem_cons_self)
    have hxs' : stop ∉ xs := fun hm => hxs (List.mem_cons_of_mem _ hm)
    by_cases hone : ∃ b, enc x = some [b]
    · obtain ⟨b, hb⟩ := hone
      obtain ⟨_, hfree⟩ := henc x [b] hx hb
      rw [List.cons_append, List.length_cons, read_encodeInto_cons hx hb hfree (by simp)]
      simp only [List.length_singleton, Nat.add_sub_cancel, Option.map_eq_some_iff, ih hxs',
        List.map_cons, hb]
      constructor
      · rintro ⟨s, hs, rfl⟩
        rw [hs]
        rfl
      · intro h
        obtain ⟨b', s, rfl, hb', hs⟩ := List.map_eq_cons_iff.mp h.symm
        exact ⟨s, hs.symm, by cases hb'; rfl⟩
    · refine iff_of_false ?_ ?_
      · intro h
        by_cases hfit : ∃ bytes, enc x = some bytes ∧ bytes.length ≤ xs.length + 1 + 1
        · obtain ⟨bytes, hbytes, hfit⟩ := hfit
          obtain ⟨hne, hfree⟩ := henc x bytes hx hbytes
          have hpos := List.length_pos_iff.mpr hne
          have htwo : bytes.length ≠ 1 := by
            intro hlen
            obtain ⟨b, rfl⟩ := List.length_eq_one_iff.mp hlen
            exact hone ⟨b, hbytes⟩
          have hshort := read_encodeInto_short henc hxs' rest
            (by omega : xs.length + 1 + 1 - bytes.length ≤ xs.length)
          rw [List.cons_append, List.length_cons, read_encodeInto_cons hx hbytes hfree hfit,
            hshort] at h
          cases h
        · rw [List.cons_append, List.length_cons, read_encodeInto_stuck hx] at h
          · cases h
          · intro bytes hbytes
            exact Nat.not_le.mp fun hle => hfit ⟨bytes, hbytes, hle⟩
      · intro h
        rw [List.map_cons] at h
        obtain ⟨b, _, _, hb, _⟩ := List.map_eq_cons_iff.mp h.symm
        exact hone ⟨b, hb.symm⟩

end Foundation
