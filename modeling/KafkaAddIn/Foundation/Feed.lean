import KafkaAddIn.Foundation.Runs

namespace Foundation

variable {V : Type}

/-- A log that only grows, and how far a reader has come in it. -/
structure Feed (V : Type) where
  log : List V
  offset : Nat

inductive FeedOp (V : Type)
  | append (v : V)
  | take (v : V)

def Feed.next (f : Feed V) : Option V := f.log[f.offset]?

def appends (ops : List (FeedOp V)) : List V :=
  ops.filterMap fun
    | .append v => some v
    | .take _ => none

def takes (ops : List (FeedOp V)) : List V :=
  ops.filterMap fun
    | .append _ => none
    | .take v => some v

theorem appends_append (ops ops' : List (FeedOp V)) :
    appends (ops ++ ops') = appends ops ++ appends ops' :=
  List.filterMap_append

theorem takes_append (ops ops' : List (FeedOp V)) : takes (ops ++ ops') = takes ops ++ takes ops' :=
  List.filterMap_append

@[simp] theorem appends_map_append (vs : List V) : appends (vs.map .append) = vs := by
  induction vs with
  | nil => rfl
  | cons v vs ih =>
    rw [List.map_cons, ← List.singleton_append, appends_append, ih]
    rfl

@[simp] theorem takes_map_append (vs : List V) : takes (vs.map .append) = [] := by
  induction vs with
  | nil => rfl
  | cons v vs ih =>
    rw [List.map_cons, ← List.singleton_append, takes_append, ih]
    rfl

@[simp] theorem takes_map_take (vs : List V) : takes (vs.map .take) = vs := by
  induction vs with
  | nil => rfl
  | cons v vs ih =>
    rw [List.map_cons, ← List.singleton_append, takes_append, ih]
    rfl

@[simp] theorem appends_map_take (vs : List V) : appends (vs.map .take) = [] := by
  induction vs with
  | nil => rfl
  | cons v vs ih =>
    rw [List.map_cons, ← List.singleton_append, appends_append, ih]
    rfl

theorem takes_flatten (opss : List (List (FeedOp V))) :
    takes opss.flatten = opss.flatMap takes := by
  induction opss with
  | nil => rfl
  | cons ops opss ih => rw [List.flatten_cons, takes_append, ih, List.flatMap_cons]

variable [DecidableEq V]

/-- The reader can take only what comes next. -/
def Feed.apply (f : Feed V) : FeedOp V → Option (Feed V)
  | .append v => some { f with log := f.log ++ [v] }
  | .take v => if f.next = some v then some { f with offset := f.offset + 1 } else none

def Feed.exec (f : Feed V) (ops : List (FeedOp V)) : Option (Feed V) := ops.foldlM Feed.apply f

variable {f f' : Feed V} {ops : List (FeedOp V)}

theorem Feed.exec_append (f : Feed V) (ops ops' : List (FeedOp V)) :
    f.exec (ops ++ ops') = (f.exec ops).bind fun k => k.exec ops' :=
  List.foldlM_append

theorem Feed.exec_appends (f : Feed V) (vs : List V) :
    f.exec (vs.map .append) = some { f with log := f.log ++ vs } := by
  induction vs generalizing f with
  | nil =>
    rw [List.append_nil]
    rfl
  | cons v vs ih =>
    have hrest := ih { f with log := f.log ++ [v] }
    rw [List.append_assoc] at hrest
    exact hrest

/-- What the reader takes is what the log holds from the offset on: one after the other, with
none left out and none twice. -/
theorem Feed.exec_takes (h : f.exec ops = some f') :
    f'.offset = f.offset + (takes ops).length ∧ f.log <+: f'.log ∧
      takes ops <+: f'.log.drop f.offset := by
  induction ops generalizing f with
  | nil =>
    cases Option.some.inj h
    exact ⟨rfl, List.prefix_refl _, List.nil_prefix⟩
  | cons op ops ih =>
    obtain ⟨k, hk, hrest⟩ := Option.bind_eq_some_iff.mp h
    obtain ⟨hoffset, hlog, htakes⟩ := ih hrest
    cases op with
    | append v =>
      cases Option.some.inj hk
      exact ⟨hoffset, (List.prefix_append _ _).trans hlog, htakes⟩
    | take v =>
      simp only [Feed.apply] at hk
      split at hk
      next hnext =>
        cases Option.some.inj hk
        obtain ⟨rest, hgrown⟩ := hlog
        obtain ⟨hlt, hv⟩ := List.getElem?_eq_some_iff.mp hnext
        have hdrop : f'.log.drop f.offset = v :: f'.log.drop (f.offset + 1) := by
          have hlong : f.offset < f'.log.length := by
            rw [← hgrown, List.length_append]
            exact Nat.lt_add_right _ hlt
          have hsame : f'.log[f.offset] = v := by
            rw [← hv]
            simp only [← hgrown]
            exact List.getElem_append_left hlt
          rw [List.drop_eq_getElem_cons hlong, hsame]
        refine ⟨?_, ⟨rest, hgrown⟩, ?_⟩
        · rw [hoffset]
          show f.offset + 1 + (takes ops).length = f.offset + ((takes ops).length + 1)
          omega
        · rw [hdrop]
          exact List.cons_prefix_cons.mpr ⟨rfl, htakes⟩
      next => cases hk

end Foundation
