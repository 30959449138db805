import KafkaAddIn.Names
import KafkaAddIn.Foundation.Runs
import Mathlib.Logic.Function.Basic

namespace KafkaAddIn

open Foundation

/-- The variable of the host that holds the pointer to an object. -/
abbrev ObjId := Nat

/-- The calls that make, prepare and delete an object. -/
inductive Lifetime
  | getClassObject
  | destroyObject
  | init (pConnection : Bool)
  | setMemManager (mem : Bool)
  deriving DecidableEq, Repr

/-- The calls an object answers without changing. -/
inductive Request
  | registerExtensionAs
  | getPropName (lPropNum lPropAlias : Int)
  | getMethodName (lMethodNum lMethodAlias : Int)
  | findProp (wsPropName : List ShortWchar)
  | findMethod (wsMethodName : List ShortWchar)
  | getNParams (lMethodNum : Int)
  | getParamDefValue (lMethodNum lParamNum : Int) (pvarParamDefValue : TVariant)
  | getPropVal (lPropNum : Int) (pvarPropVal : TVariant)
  | callAsFunc (lMethodNum : Int) (pvarRetValue : TVariant) (paParams : Nat → TVariant)
      (lSizeArray : Int)

inductive Op
  | lifetime (l : Lifetime)
  | request (r : Request)

inductive Ret
  | flag (ok : Bool)
  | number (n : Int)
  | name (p : Option (List ShortWchar))
  | extension (ok : Bool) (p : Option (List ShortWchar))
  | variant (ok : Bool) (val : TVariant)
  deriving DecidableEq, Repr

/-- A call with its object and with what the outside answers during it. -/
structure HostCall where
  obj : ObjId
  op : Op
  answers : Answers := {}

structure Outcome where
  result : Except Exit Ret
  trace : List Event

/-- The process that has loaded the component: its globals, the objects made so
far, and whether a fault has ended it. -/
structure Process where
  gMessage : Bytes := []
  gKey : Bytes := []
  next : Handle := 0
  objects : ObjId → Option CKafka := fun _ => none
  dead : Bool := false

def Process.world (s : Process) : World := ⟨s.gMessage, s.gKey, s.next, []⟩

/-- The object after a lifetime call and whether the call succeeds; a null pointer
can only be filled or refused. -/
def updateObject : Lifetime → Option CKafka → Option (Bool × Option CKafka)
  | .getClassObject, none => some (true, some {})
  | .getClassObject, some this => some (false, some this)
  | .destroyObject, none => some (false, none)
  | .destroyObject, some _ => some (true, none)
  | .init pConnection, some this => some (pConnection, some { this with mIConnect := pConnection })
  | .setMemManager mem, some this => some (mem, some { this with mIMemory := mem })
  | _, none => none

def runRequest (platform : Platform) (this : CKafka) (a : Answers) : Request → Call Ret
  | .registerExtensionAs => do
    let (ok, p) ← registerExtensionAs platform this a
    return .extension ok p
  | .getPropName lPropNum lPropAlias => do
    let p ← getPropName platform this a lPropNum lPropAlias
    return .name p
  | .getMethodName lMethodNum lMethodAlias => do
    let p ← getMethodName platform this a lMethodNum lMethodAlias
    return .name p
  | .findProp wsPropName => do
    let n ← lift (findProp platform wsPropName)
    return .number n
  | .findMethod wsMethodName => do
    let n ← lift (findMethod platform wsMethodName)
    return .number n
  | .getNParams lMethodNum => return .number (getNParams lMethodNum)
  | .getParamDefValue lMethodNum lParamNum pvarParamDefValue =>
    return .variant (getParamDefValue lMethodNum lParamNum pvarParamDefValue).1
      (getParamDefValue lMethodNum lParamNum pvarParamDefValue).2
  | .getPropVal lPropNum pvarPropVal => do
    let (ok, val) ← getPropVal this a lPropNum pvarPropVal
    return .variant ok val
  | .callAsFunc lMethodNum pvarRetValue paParams lSizeArray => do
    let (ok, val) ← callAsFunc this a lMethodNum pvarRetValue paParams lSizeArray
    return .variant ok val

def Process.finish (s : Process) (r : Except Exit Ret) (w : World) : Process :=
  { s with gMessage := w.gMessage, gKey := w.gKey, next := w.next, dead := !r.isOk }

/-- One call of the host. Nothing can be called in a dead process, or on an object
that is not there. -/
def stepProcess (platform : Platform) (c : HostCall) (s : Process) : Option (Outcome × Process) :=
  if s.dead then none
  else
    match c.op with
    | .lifetime l =>
      (updateObject l (s.objects c.obj)).map fun (ok, obj) =>
        (⟨.ok (.flag ok), []⟩, { s with objects := Function.update s.objects c.obj obj })
    | .request request =>
      (s.objects c.obj).map fun this =>
        let (r, w) := (runRequest platform this c.answers request).run s.world
        (⟨r, w.trace⟩, s.finish r w)

abbrev History := List (Entry Process HostCall Outcome)

abbrev ProcessRun (platform : Platform) : History → Process → Prop :=
  Run (stepProcess platform) {}

theorem stepProcess_cases {platform : Platform} {c : HostCall} {s t : Process} {o : Outcome}
    (h : stepProcess platform c s = some (o, t)) :
    s.dead = false ∧
    ((∃ l ok obj, c.op = .lifetime l ∧ updateObject l (s.objects c.obj) = some (ok, obj) ∧
        o = ⟨.ok (.flag ok), []⟩ ∧
        t = { s with objects := Function.update s.objects c.obj obj }) ∨
      (∃ request this r w, c.op = .request request ∧ s.objects c.obj = some this ∧
        Ends (runRequest platform this c.answers request) s.world r w ∧ o = ⟨r, w.trace⟩ ∧
        t = s.finish r w)) := by
  unfold stepProcess at h
  split at h
  next => simp at h
  next hd =>
    refine ⟨by simpa using hd, ?_⟩
    cases hop : c.op with
    | lifetime l =>
      simp only [hop, Option.map_eq_some_iff] at h
      obtain ⟨⟨ok, obj⟩, hu, h⟩ := h
      obtain ⟨rfl, rfl⟩ := Prod.mk.inj h
      exact Or.inl ⟨l, ok, obj, rfl, hu, rfl, rfl⟩
    | request request =>
      simp only [hop, Option.map_eq_some_iff] at h
      obtain ⟨this, hthis, h⟩ := h
      obtain ⟨rfl, rfl⟩ := Prod.mk.inj h
      exact Or.inr ⟨request, this, _, _, rfl, hthis, ends_run _ _, rfl, rfl⟩

end KafkaAddIn
