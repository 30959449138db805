import KafkaAddIn.ConsumeExit
import KafkaAddIn.ProduceExit
import KafkaAddIn.Process

namespace KafkaAddIn

open Foundation

variable {platform : Platform} {this : CKafka} {a : Answers} {w w' : World}

/-- The block that `stringToTVariant` returns for `str`: its bytes up to the first
zero, the terminator, and cells that were never written. -/
def returnedCells (str : Bytes) : Cells UInt8 :=
  (cString 0 str).map some ++ some 0 :: List.replicate (str.length - (cString 0 str).length) none

theorem ends_allocMemory {n : Nat} {r : Except Exit (Option (Cells UInt8))}
    (h : Ends (allocMemory this a n) w r w') :
    (this.mIMemory = true ∧ w' = w.after 0 [.allocMemory n a.alloc] ∧
      r = .ok (if a.alloc then some (List.replicate n none) else none)) ∨
    (this.mIMemory = false ∧ r = .error .fault ∧ w' = w) := by
  unfold allocMemory at h
  split at h
  next hset =>
    simp only [ends_emit_bind, ends_pure] at h
    exact Or.inl ⟨hset, h.2, h.1⟩
  next hnull =>
    obtain ⟨rfl, rfl⟩ := ends_throw.mp h
    exact Or.inr ⟨by simpa using hnull, rfl, rfl⟩

theorem uniform_allocMemory (n : Nat) : Uniform (allocMemory this a n) := by
  unfold allocMemory
  split
  · exact (uniform_emit rfl).bind fun _ => uniform_pure _
  · exact uniform_throw _

theorem copyString_none {str : Bytes} {r : Except Exit (Cells UInt8)}
    (h : Ends (copyString none str) w r w') :
    r = .error .fault ∧ w' = w.after 0 [.wildWrite] := by
  simp only [copyString, Option.bind_none, ends_emit_bind, ends_throw] at h
  exact h

theorem copyString_fresh {str : Bytes} {r : Except Exit (Cells UInt8)}
    (h : Ends (copyString (some (List.replicate (str.length + 1) none)) str) w r w') :
    r = .ok (returnedCells str) ∧ w' = w := by
  have hroom : str.length < (List.replicate (str.length + 1) (none : Option UInt8)).length := by
    simp
  have hle := length_cString_le 0 str
  have hrest : str.length + 1 - ((cString 0 str).length + 1) =
      str.length - (cString 0 str).length := by omega
  simp only [copyString, Option.bind_some, strcpy_terminated hroom, List.drop_replicate, hrest,
    ends_pure] at h
  exact h

theorem uniform_copyString (t1 : Option (Cells UInt8)) (str : Bytes) :
    Uniform (copyString t1 str) := by
  unfold copyString
  split
  · exact uniform_pure _
  · exact (uniform_emit rfl).bind fun _ => uniform_throw _

theorem uniform_stringToTVariant (str : Bytes) (val : TVariant) :
    Uniform (stringToTVariant this a str val) := by
  unfold stringToTVariant
  exact (uniform_allocMemory _).bind fun t1 => (uniform_copyString t1 str).bind fun _ =>
    uniform_pure _

theorem ends_stringToTVariant {str : Bytes} {val : TVariant} {r : Except Exit (Bool × TVariant)}
    (h : Ends (stringToTVariant this a str val) w r w') :
    (this.mIMemory = true ∧ a.alloc = true ∧
      r = .ok (true, { val with
        vt := vtypePstr, pstrVal := some (returnedCells str), strLen := UInt32.ofNat str.length }) ∧
      w' = w.after 0 [.allocMemory (str.length + 1) true]) ∨
    (this.mIMemory = true ∧ a.alloc = false ∧ r = .error .fault ∧
      w' = w.after 0 [.allocMemory (str.length + 1) false, .wildWrite]) ∨
    (this.mIMemory = false ∧ r = .error .fault ∧ w' = w) := by
  unfold stringToTVariant at h
  rcases ends_bind.mp h with ⟨t1, t, halloc, h⟩ | ⟨e, halloc, rfl⟩
  · rcases ends_allocMemory halloc with ⟨hset, rfl, hblock⟩ | ⟨_, herr, _⟩
    · cases ha : a.alloc with
      | true =>
        simp only [ha, if_true, Except.ok.injEq] at hblock
        subst t1
        rcases ends_bind.mp h with ⟨cells, u, hcopy, h⟩ | ⟨e, hcopy, _⟩
        · obtain ⟨hcells, rfl⟩ := copyString_fresh hcopy
          cases hcells
          obtain ⟨rfl, rfl⟩ := ends_pure.mp h
          exact Or.inl ⟨hset, rfl, rfl, by rw [ha]⟩
        · exact absurd (copyString_fresh hcopy).1 (by simp)
      | false =>
        simp only [ha, Bool.false_eq_true, if_false, Except.ok.injEq] at hblock
        subst t1
        rcases ends_bind.mp h with ⟨cells, u, hcopy, _⟩ | ⟨e, hcopy, rfl⟩
        · exact absurd (copyString_none hcopy).1 (by simp)
        · obtain ⟨herr, rfl⟩ := copyString_none hcopy
          cases herr
          exact Or.inr (Or.inl ⟨hset, rfl, rfl, by simp [ha]⟩)
    · cases herr
  · rcases ends_allocMemory halloc with ⟨_, _, hblock⟩ | ⟨hnull, herr, rfl⟩
    · cases hblock
    · cases herr
      exact Or.inr (Or.inr ⟨hnull, rfl, rfl⟩)

/-- The methods that return a string drop the flag of `stringToTVariant`, which is
never false. -/
theorem ends_returned {str : Bytes} {val : TVariant} {r : Except Exit (Bool × TVariant)}
    (h : Ends (stringToTVariant this a str val >>= fun p => pure (true, p.2)) w r w') :
    Ends (stringToTVariant this a str val) w r w' := by
  rcases ends_bind.mp h with ⟨p, t, hs, h⟩ | ⟨e, hs, rfl⟩
  · obtain ⟨rfl, rfl⟩ := ends_pure.mp h
    rcases ends_stringToTVariant hs with ⟨_, _, hok, _⟩ | ⟨_, _, herr, _⟩ | ⟨_, herr, _⟩
    · cases hok
      exact hs
    · cases herr
    · cases herr
  · exact hs

def World.propValue (w : World) : Props → Bytes
  | .eMessage => w.gMessage
  | .eKey => w.gKey

theorem ends_getPropVal {lPropNum : Int} {pvar : TVariant} {r : Except Exit (Bool × TVariant)}
    (h : Ends (getPropVal this a lPropNum pvar) w r w') :
    (Props.ofLong lPropNum = none ∧ r = .ok (false, pvar) ∧ w' = w) ∨
    (∃ prop, Props.ofLong lPropNum = some prop ∧
      Ends (stringToTVariant this a (w.propValue prop) { pvar with vt := vtypePstr }) w r w') := by
  unfold getPropVal at h
  cases hprop : Props.ofLong lPropNum with
  | none =>
    simp only [hprop] at h
    obtain ⟨rfl, rfl⟩ := ends_pure.mp h
    exact Or.inl ⟨rfl, rfl, rfl⟩
  | some prop =>
    refine Or.inr ⟨prop, rfl, ?_⟩
    cases prop with
    | eMessage =>
      simp only [hprop, ends_get_bind] at h
      exact ends_returned h
    | eKey =>
      simp only [hprop, ends_get_bind] at h
      exact ends_returned h

/-- The stages that a call of `callAsFunc` ends after, for the proofs: an answer that is a
string is still to be handed over. Only `consume` touches the globals, and only the methods
that answer with a string need the host's memory. -/
inductive CallExit (this : CKafka) (a : Answers) (lMethodNum : Int) (pvar : TVariant)
    (paParams : Nat → TVariant) (w : World) : Except Exit (Bool × TVariant) → World → Prop
  | unknown : Methods.ofLong lMethodNum = none →
      CallExit this a lMethodNum pvar paParams w (.ok (false, pvar)) w
  | version {r w'} : Methods.ofLong lMethodNum = some .eGetInfo →
      Ends (stringToTVariant this a (ascii versionString) { pvar with vt := vtypePstr }) w r w' →
      CallExit this a lMethodNum pvar paParams w r w'
  | sent {text t r w'} : Methods.ofLong lMethodNum = some .eProduce →
      ProduceExit a paParams w (.ok text) t →
      Ends (stringToTVariant this a (ascii text) { pvar with vt := vtypePstr }) t r w' →
      CallExit this a lMethodNum pvar paParams w r w'
  | notSent {e w'} : Methods.ofLong lMethodNum = some .eProduce →
      ProduceExit a paParams w (.error e) w' →
      CallExit this a lMethodNum pvar paParams w (.error e) w'
  | received {b w'} : Methods.ofLong lMethodNum = some .eConsume →
      ConsumeExit a paParams w (.ok b) w' →
      CallExit this a lMethodNum pvar paParams w
        (.ok (true, { pvar with vt := vtypeBool, bVal := b })) w'
  | notReceived {e w'} : Methods.ofLong lMethodNum = some .eConsume →
      ConsumeExit a paParams w (.error e) w' →
      CallExit this a lMethodNum pvar paParams w (.error e) w'

theorem ends_callAsFunc {lMethodNum lSizeArray : Int} {pvar : TVariant}
    {paParams : Nat → TVariant} {r : Except Exit (Bool × TVariant)} (htr : w.trace = [])
    (h : Ends (callAsFunc this a lMethodNum pvar paParams lSizeArray) w r w') :
    CallExit this a lMethodNum pvar paParams w r w' := by
  unfold callAsFunc at h
  cases hm : Methods.ofLong lMethodNum with
  | none =>
    simp only [hm] at h
    obtain ⟨rfl, rfl⟩ := ends_pure.mp h
    exact CallExit.unknown hm
  | some m =>
    cases m with
    | eGetInfo =>
      simp only [hm] at h
      exact CallExit.version hm (ends_returned h)
    | eProduce =>
      simp only [hm] at h
      rcases ends_bind.mp h with ⟨text, t, hprod, h⟩ | ⟨e, hprod, rfl⟩
      · exact CallExit.sent hm (produce_exit htr hprod) (ends_returned h)
      · exact CallExit.notSent hm (produce_exit htr hprod)
    | eConsume =>
      simp only [hm] at h
      rcases ends_bind.mp h with ⟨b, t, hcons, h⟩ | ⟨e, hcons, rfl⟩
      · obtain ⟨rfl, rfl⟩ := ends_pure.mp h
        exact CallExit.received hm (consume_exit hcons)
      · exact CallExit.notReceived hm (consume_exit hcons)

theorem stringToTVariant_isOk {str : Bytes} {val : TVariant}
    {r : Except Exit (Bool × TVariant)} (h : Ends (stringToTVariant this a str val) w r w') :
    r.isOk = true ↔ this.mIMemory = true ∧ a.alloc = true := by
  rcases ends_stringToTVariant h with ⟨hset, halloc, rfl, _⟩ | ⟨_, hno, rfl, _⟩ | ⟨hno, rfl, _⟩
  · exact iff_of_true rfl ⟨hset, halloc⟩
  · exact iff_of_false nofun fun h => by simp [hno] at h
  · exact iff_of_false nofun fun h => by simp [hno] at h

theorem ProduceExit.isOk {paParams : Nat → TVariant} {r : Except Exit String}
    (h : ProduceExit a paParams w r w') : r.isOk = true ↔ ¬ Unreadable a paParams 6 := by
  cases h with
  | @unreadable k p hk hdec herr =>
    exact iff_of_false nofun fun h => h ⟨k, hk, ⟨p, hdec⟩, herr⟩
  | undecodable _ hdec herr hwhat =>
    refine iff_of_true rfl (not_unreadable_of_error hdec herr ?_)
    intro he
    rw [he] at hwhat
    cases hwhat
  | refused hdec _ _ _ => exact iff_of_true rfl hdec.not_unreadable
  | notCreated hdec _ _ => exact iff_of_true rfl hdec.not_unreadable
  | notEnqueued hopen _ => exact iff_of_true rfl hopen.decoded.not_unreadable
  | persisted hopen _ => exact iff_of_true rfl hopen.decoded.not_unreadable

theorem ConsumeExit.isOk {paParams : Nat → TVariant} {r : Except Exit Bool}
    (h : ConsumeExit a paParams w r w') : r.isOk = true ↔ ¬ Unreadable a paParams 5 := by
  have hleaves := h.leaves
  generalize w'.gMessage = m at hleaves
  generalize w'.gKey = k at hleaves
  cases hleaves with
  | unreadable hun => exact iff_of_false nofun fun h => h hun
  | nothing hno _ => exact iff_of_true rfl hno
  | message hget _ _ => exact iff_of_true rfl hget.not_unreadable
  | both hget _ _ => exact iff_of_true rfl hget.not_unreadable

def CallReturns (this : CKafka) (a : Answers) (lMethodNum : Int) (paParams : Nat → TVariant) :
    Prop :=
  match Methods.ofLong lMethodNum with
  | none => True
  | some .eGetInfo => this.mIMemory = true ∧ a.alloc = true
  | some .eProduce => ¬ Unreadable a paParams 6 ∧ this.mIMemory = true ∧ a.alloc = true
  | some .eConsume => ¬ Unreadable a paParams 5

theorem CallExit.isOk {lMethodNum : Int} {pvar : TVariant} {paParams : Nat → TVariant}
    {r : Except Exit (Bool × TVariant)} (h : CallExit this a lMethodNum pvar paParams w r w') :
    r.isOk = true ↔ CallReturns this a lMethodNum paParams := by
  unfold CallReturns
  cases h with
  | unknown hm =>
    rw [hm]
    exact iff_of_true rfl trivial
  | version hm hstr =>
    rw [hm]
    exact stringToTVariant_isOk hstr
  | sent hm hprod hstr =>
    rw [hm, stringToTVariant_isOk hstr]
    exact (and_iff_right (hprod.isOk.mp rfl)).symm
  | notSent hm hprod =>
    rw [hm]
    exact iff_of_false nofun fun h => absurd (hprod.isOk.mpr h.1) nofun
  | received hm hcons =>
    rw [hm]
    exact iff_of_true rfl (hcons.isOk.mp rfl)
  | notReceived hm hcons =>
    rw [hm]
    exact iff_of_false nofun fun h => absurd (hcons.isOk.mpr h) nofun

theorem uniform_nameToHost (name : List Wchar) : Uniform (nameToHost platform this a name) := by
  unfold nameToHost
  refine (uniform_lift _).bind fun len => (uniform_allocMemory _).bind fun dest => ?_
  cases dest with
  | none => exact uniform_pure _
  | some cells => exact (uniform_lift _).bind fun _ => uniform_pure _

theorem uniform_getNameOf (names namesRu : List (List Wchar)) (last num lAlias : Int) :
    Uniform (getNameOf platform names namesRu last this a num lAlias) := by
  unfold getNameOf
  split
  · exact uniform_pure _
  · split
    · refine (uniform_lift _).bind fun name => ?_
      split
      · exact uniform_nameToHost name
      · exact uniform_pure _
    · exact uniform_pure _

theorem uniform_registerExtensionAs : Uniform (registerExtensionAs platform this a) := by
  unfold registerExtensionAs
  split
  · exact (uniform_nameToHost _).bind fun _ => uniform_pure _
  · exact uniform_pure _

def Request.aside : Request → Bool
  | .getPropVal _ _ => false
  | .callAsFunc _ _ _ _ => false
  | _ => true

theorem uniform_runRequest {request : Request} (haside : request.aside = true) :
    Uniform (runRequest platform this a request) := by
  cases request with
  | registerExtensionAs => exact uniform_registerExtensionAs.bind fun _ => uniform_pure _
  | getPropName num lAlias => exact (uniform_getNameOf _ _ _ _ _).bind fun _ => uniform_pure _
  | getMethodName num lAlias => exact (uniform_getNameOf _ _ _ _ _).bind fun _ => uniform_pure _
  | findProp name => exact (uniform_lift _).bind fun _ => uniform_pure _
  | findMethod name => exact (uniform_lift _).bind fun _ => uniform_pure _
  | getNParams num => exact uniform_pure _
  | getParamDefValue num param pvar => exact uniform_pure _
  | getPropVal num pvar => simp [Request.aside] at haside
  | callAsFunc num pvar paParams size => simp [Request.aside] at haside

end KafkaAddIn
