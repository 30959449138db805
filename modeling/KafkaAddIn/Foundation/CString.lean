import Mathlib.Data.List.TakeWhile

namespace Foundation

variable {α : Type} [DecidableEq α]

/-- What a reader of a terminated string sees of `xs`: everything before the
first `stop`. -/
def cString (stop : α) (xs : List α) : List α := xs.takeWhile (· ≠ stop)

theorem stop_notMem_cString (stop : α) (xs : List α) : stop ∉ cString stop xs := by
  intro h
  simpa using List.mem_takeWhile_imp h

theorem cString_eq_self_iff {stop : α} {xs : List α} : cString stop xs = xs ↔ stop ∉ xs := by
  rw [cString, List.takeWhile_eq_self_iff]
  constructor
  · intro h hm
    simpa using h stop hm
  · intro h x hx
    have hne : x ≠ stop := fun he => h (he ▸ hx)
    simpa using hne

theorem cString_terminated {stop : α} {xs : List α} (h : stop ∉ xs) (post : List α) :
    cString stop (xs ++ stop :: post) = xs := by
  have hself : xs.takeWhile (· ≠ stop) = xs := cString_eq_self_iff.mpr h
  rw [cString, List.takeWhile_append, hself, if_pos rfl]
  simp

theorem length_cString_le (stop : α) (xs : List α) : (cString stop xs).length ≤ xs.length :=
  (List.takeWhile_prefix _).length_le

theorem length_cString_lt {stop : α} {xs : List α} (h : stop ∈ xs) :
    (cString stop xs).length < xs.length := by
  refine lt_of_le_of_ne (length_cString_le stop xs) ?_
  intro he
  have heq : cString stop xs = xs := (List.takeWhile_prefix _).eq_of_length he
  exact cString_eq_self_iff.mp heq h

/-- A block of memory. A cell nobody has written since the block was handed out
is `none`. -/
abbrev Cells (α : Type) := List (Option α)

/-- `strcpy`: unit by unit up to and with the terminator. It fails when the
block is too short or the source runs out before a terminator. -/
def strcpy (stop : α) : Cells α → List α → Option (Cells α)
  | [], _ => none
  | _, [] => none
  | _ :: cells, x :: xs =>
    if x = stop then some (some stop :: cells)
    else (strcpy stop cells xs).map (some x :: ·)

theorem strcpy_terminated {stop : α} {cells : Cells α} {xs : List α}
    (hroom : xs.length < cells.length) :
    strcpy stop cells (xs ++ [stop]) = some ((cString stop xs).map some ++
      some stop :: cells.drop ((cString stop xs).length + 1)) := by
  induction xs generalizing cells with
  | nil =>
    cases cells with
    | nil => simp at hroom
    | cons c cells => simp [strcpy, cString]
  | cons x xs ih =>
    cases cells with
    | nil => simp at hroom
    | cons c cells =>
      have hroom' : xs.length < cells.length := by simpa using hroom
      by_cases hx : x = stop
      · simp [strcpy, cString, hx]
      · simp only [List.cons_append, strcpy, hx, if_false, ih hroom', Option.map_some, cString,
          List.takeWhile_cons, ne_eq, not_false_eq_true, decide_true, if_true, List.map_cons,
          List.length_cons, List.drop_succ_cons]

end Foundation
