import KafkaAddIn.Component

namespace KafkaAddIn

open Foundation

/-- Where the component runs: with iconv, whose `iconv_open` may fail, or without. -/
inductive Platform
  | linux (iconvOpens : Bool)
  | other
  deriving DecidableEq, Repr

def wide (text : String) : List Wchar := text.toList.map Char.val ++ [0]

def gPropNames : List (List Wchar) := [wide "Message", wide "Key"]

def gPropNamesRu : List (List Wchar) := [wide "Message", wide "Key"]

def gMethodNames : List (List Wchar) :=
  [wide "GetVersion", wide "SendProducer", wide "Consume", wide ""]

def gMethodNamesRu : List (List Wchar) :=
  [wide "ПолучитьВерсию", wide "SendProducer", wide "Consume", wide ""]

/-- How far a conversion got: the units it has written, how many it has read, and
whether it came to the end. Both pointers of the caller are advanced so far. -/
structure Converted (α : Type) where
  written : List α
  consumed : Nat
  succeeded : Bool
  deriving DecidableEq, Repr

/-- A code point that "UTF-32" accepts. -/
def isScalar (u : Nat) : Bool := u < 0xD800 || (0xE000 ≤ u && u < 0x110000)

/-- Two units of the host read as one little-endian unit of 32 bits. -/
def joinUnits (lo hi : ShortWchar) : Nat := lo.toNat + hi.toNat * 0x10000

/-- `iconv` from "UTF-32" to "UTF-32LE" over `n` units of 16 bits. A single unit is
an incomplete character. Fewer characters come out than there is room for. -/
def iconvWiden : Nat → List ShortWchar → Except Exit (Converted Wchar)
  | 0, _ => .ok ⟨[], 0, true⟩
  | 1, _ => .ok ⟨[], 0, false⟩
  | n + 2, lo :: hi :: src =>
    if isScalar (joinUnits lo hi) then
      (iconvWiden n src).map fun c =>
        ⟨UInt32.ofNat (joinUnits lo hi) :: c.written, c.consumed + 2, c.succeeded⟩
    else .ok ⟨[], 0, false⟩
  | _ + 2, _ => .error .fault

/-- A byte order mark in front is read and not written. -/
def iconvUtf32ToUtf32le (n : Nat) (src : List ShortWchar) : Except Exit (Converted Wchar) :=
  match n, src with
  | n + 2, lo :: hi :: rest =>
    if joinUnits lo hi = 0xFEFF then
      (iconvWiden n rest).map fun c => ⟨c.written, c.consumed + 2, c.succeeded⟩
    else iconvWiden (n + 2) (lo :: hi :: rest)
  | n, src => iconvWiden n src

/-- `iconv` from "UTF-32" to "UTF-16LE" over `n` wide units, with room for `t`
units: it stops where a unit is no character or its UTF-16 form does not fit. -/
def iconvNarrow : Nat → List Wchar → Nat → Except Exit (Converted ShortWchar)
  | 0, _, _ => .ok ⟨[], 0, true⟩
  | n + 1, u :: src, t =>
    let units := utf16EncodeChar (Char.ofNat u.toNat)
    if isScalar u.toNat ∧ units.length ≤ t then
      (iconvNarrow n src (t - units.length)).map fun c =>
        ⟨units.map UInt16.ofNat ++ c.written, c.consumed + 1, c.succeeded⟩
    else .ok ⟨[], 0, false⟩
  | _ + 1, [], _ => .error .fault

def iconvUtf32ToUtf16le (n : Nat) (src : List Wchar) (t : Nat) :
    Except Exit (Converted ShortWchar) :=
  match n, src with
  | n + 1, u :: rest =>
    if u = 0xFEFF then
      (iconvNarrow n rest t).map fun c => ⟨c.written, c.consumed + 1, c.succeeded⟩
    else iconvNarrow (n + 1) (u :: rest) t
  | n, src => iconvNarrow n src t

/-- The copying loop at the end of both conversions, from where the pointers
stand. Each turn reads one unit and writes one. -/
def copyUnits {α β : Type} (conv : α → β) : Nat → List α → List β → Except Exit (List β)
  | 0, _, dest => .ok dest
  | n + 1, x :: src, _ :: dest => (copyUnits conv n src dest).map (conv x :: ·)
  | _ + 1, _, _ => .error .fault

/-- `memset(dest, 0, len * sizeof(*dest))` -/
def clearUnits {α : Type} (zero : α) (len : Nat) (dest : List α) : Except Exit (List α) :=
  if dest.length < len then .error .fault else .ok (List.replicate len zero ++ dest.drop len)

def getLenShortWcharStr : List ShortWchar → UInt32 → Except Exit UInt32
  | [], _ => .error .fault
  | u :: src, res => if u = 0 then .ok res else getLenShortWcharStr src (res + 1)

def wcslen : List Wchar → Except Exit Nat
  | [] => .error .fault
  | u :: src => if u = 0 then .ok 0 else (wcslen src).map (· + 1)

/-- The part of both conversions after `memset`: the attempt with iconv, and the
loop over `len` units from where that has left the pointers. -/
def convertInto {α β : Type} (platform : Platform) (conv : α → β)
    (iconv : Except Exit (Converted β)) (dest : List β) (source : List α) (len : UInt32) :
    Except Exit (List β × UInt32) :=
  match platform with
  | .linux true => do
    let c ← iconv
    let dest := c.written ++ dest.drop c.written.length
    if c.succeeded then return (dest, 0)
    else
      let rest ← copyUnits conv len.toNat (source.drop c.consumed) (dest.drop c.written.length)
      return (c.written ++ rest, len)
  | _ => do
    let dest ← copyUnits conv len.toNat source dest
    return (dest, len)

/-- The destination is allocated here when there is none. `len` wraps like the
`uint32_t` it is. -/
def convFromShortWchar (platform : Platform) (dest : Option (List Wchar))
    (source : List ShortWchar) (len : UInt32) : Except Exit (List Wchar × UInt32) := do
  let len ← if len = 0 then (getLenShortWcharStr source 0).map (· + 1) else .ok len
  let dest ← clearUnits 0 len.toNat (dest.getD (List.replicate len.toNat 0))
  convertInto platform UInt16.toUInt32 (iconvUtf32ToUtf32le len.toNat source) dest source len

def convToShortWchar (platform : Platform) (dest : Option (List ShortWchar))
    (source : List Wchar) (len : UInt32) : Except Exit (List ShortWchar × UInt32) := do
  let len ← if len = 0 then (wcslen source).map fun n => UInt32.ofNat (n + 1) else .ok len
  let dest ← clearUnits 0 len.toNat (dest.getD (List.replicate len.toNat 0))
  convertInto platform UInt32.toUInt16 (iconvUtf32ToUtf16le len.toNat source len.toNat) dest
    source len

/-- Whether `wcscmp` finds the two strings equal. -/
def wcscmpEq : List Wchar → List Wchar → Except Exit Bool
  | x :: xs, y :: ys =>
    if x ≠ y then .ok false else if x = 0 then .ok true else wcscmpEq xs ys
  | _, _ => .error .fault

/-- The loop of `findName` from index `i` on, over the `size` names left. -/
def findNameFrom (name : List Wchar) : List (List Wchar) → Nat → Int → Except Exit Int
  | _, 0, _ => .ok (-1)
  | [], _ + 1, _ => .error .fault
  | n :: names, size + 1, i => do
    if ← wcscmpEq n name then return i
    else findNameFrom name names size (i + 1)

def findName (names : List (List Wchar)) (name : List Wchar) (size : Int) : Except Exit Int :=
  findNameFrom name names size.toNat 0

/-- `FindProp` and `FindMethod` but for their tables. -/
def findIn (platform : Platform) (names namesRu : List (List Wchar)) (size : Int)
    (wsName : List ShortWchar) : Except Exit Int := do
  let (name, _) ← convFromShortWchar platform none wsName 0
  let num ← findName names name size
  if num = -1 then findName namesRu name size else return num

def findProp (platform : Platform) (wsPropName : List ShortWchar) : Except Exit Int :=
  findIn platform gPropNames gPropNamesRu ePropLast wsPropName

def findMethod (platform : Platform) (wsMethodName : List ShortWchar) : Except Exit Int :=
  findIn platform gMethodNames gMethodNamesRu eMethLast wsMethodName

/-- An entry of a table; an index below zero reads in front of it. -/
def nameAt (names : List (List Wchar)) (i : Int) : Except Exit (List Wchar) :=
  if i < 0 then .error .fault
  else
    match names[i.toNat]? with
    | some name => .ok name
    | none => .error .fault

/-- The host's copy of a name, when it has the memory: a block of the name's length
and its terminator, filled by `convToShortWchar`. -/
def nameToHost (platform : Platform) (this : CKafka) (a : Answers) (name : List Wchar) :
    Call (Option (List ShortWchar)) := do
  let len ← lift (wcslen name)
  let iActualSize := len + 1
  match ← allocMemory this a (iActualSize * 2) with
  | none => return none
  | some _ =>
    let (copied, _) ← lift (convToShortWchar platform (some (List.replicate iActualSize 0)) name
      (UInt32.ofNat iActualSize))
    return some copied

/-- `GetPropName` and `GetMethodName` but for their tables. -/
def getNameOf (platform : Platform) (names namesRu : List (List Wchar)) (last : Int)
    (this : CKafka) (a : Answers) (num lAlias : Int) : Call (Option (List ShortWchar)) :=
  if last ≤ num then return none
  else if lAlias = 0 ∨ lAlias = 1 then do
    let wsCurrentName ← lift (nameAt (if lAlias = 0 then names else namesRu) num)
    if this.mIMemory then nameToHost platform this a wsCurrentName else return none
  else return none

def getPropName (platform : Platform) (this : CKafka) (a : Answers) (lPropNum lPropAlias : Int) :
    Call (Option (List ShortWchar)) :=
  getNameOf platform gPropNames gPropNamesRu ePropLast this a lPropNum lPropAlias

def getMethodName (platform : Platform) (this : CKafka) (a : Answers)
    (lMethodNum lMethodAlias : Int) : Call (Option (List ShortWchar)) :=
  getNameOf platform gMethodNames gMethodNamesRu eMethLast this a lMethodNum lMethodAlias

/-- The result does not depend on whether the host had the memory. -/
def registerExtensionAs (platform : Platform) (this : CKafka) (a : Answers) :
    Call (Bool × Option (List ShortWchar)) :=
  if this.mIMemory then do
    let name ← nameToHost platform this a (wide "AddInNativeExtension")
    return (true, name)
  else return (false, none)

end KafkaAddIn
