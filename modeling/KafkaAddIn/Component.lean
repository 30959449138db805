import KafkaAddIn.Librdkafka
import KafkaAddIn.Foundation.Utf16

namespace KafkaAddIn

open Foundation

/-- An object of class `CKAFKA`; of its two pointers only whether they are set
matters. -/
structure CKafka where
  mIConnect : Bool := false
  mIMemory : Bool := false
  deriving DecidableEq, Repr

inductive Props
  | eMessage
  | eKey
  deriving DecidableEq, Repr

inductive Methods
  | eGetInfo
  | eProduce
  | eConsume
  deriving DecidableEq, Repr

def ePropLast : Int := 2

def eMethLast : Int := 3

def Props.ofLong (lPropNum : Int) : Option Props :=
  if lPropNum = 0 then some .eMessage else if lPropNum = 1 then some .eKey else none

def Methods.ofLong (lMethodNum : Int) : Option Methods :=
  if lMethodNum = 0 then some .eGetInfo else if lMethodNum = 1 then some .eProduce
  else if lMethodNum = 2 then some .eConsume else none

def ascii (text : String) : Bytes := text.toList.map fun c => UInt8.ofNat c.toNat

def versionString : String := " 1C Kafka / MDM 1.1.3"

def getNParams (lMethodNum : Int) : Nat :=
  match Methods.ofLong lMethodNum with
  | some .eGetInfo => 0
  | some .eProduce => 6
  | some .eConsume => 5
  | none => 0

/-- The result and the default it stores; the parameter's index is not looked at. -/
def getParamDefValue (lMethodNum _lParamNum : Int) (pvarParamDefValue : TVariant) :
    Bool × TVariant :=
  let pvar := { pvarParamDefValue with vt := vtypeEmpty }
  match Methods.ofLong lMethodNum with
  | some .eGetInfo => (true, pvar)
  | some .eProduce => (true, pvar)
  | some .eConsume => (true, pvar)
  | none => (false, pvar)

/-- `wstring_convert<codecvt_utf8_utf16<wchar_t>>::to_bytes`, as documented: no bytes come out
of ill-formed units. (libstdc++ drops an unpaired high surrogate at the very end silently.) -/
def toBytes (wstr : List Wchar) : Option Bytes :=
  (utf16Decode (wstr.map UInt32.toNat)).map utf8Encode

/-- `memory` says whether the strings can be allocated. The units are copied one
for one into wide characters; a length beyond what can be read is a fault. -/
def uint16ToString (memory : Bool) (text : List ShortWchar) (length : UInt32) :
    Except Exit Bytes :=
  if ¬ memory then .error .badAlloc
  else if text.length < length.toNat then .error .fault
  else
    match toBytes ((text.take length.toNat).map UInt16.toUInt32) with
    | some s => .ok s
    | none => .error .rangeError

/-- `uint16ToString((paParams + i)->pwstrVal, (paParams + i)->strLen)`. The tag
`vt` of the entry is not looked at. -/
def decodeParam (a : Answers) (paParams : Nat → TVariant) (i : Nat) : Call Bytes := do
  emit (.readWstr i)
  lift (uint16ToString (a.memory i) (paParams i).pwstrVal (paParams i).strLen)

def decodeParams (a : Answers) (paParams : Nat → TVariant) : Nat → Call (Nat → Bytes)
  | 0 => return fun _ => []
  | n + 1 => do
    let p ← decodeParams a paParams n
    let s ← decodeParam a paParams n
    return Function.update p n s

/-- `try { x } catch (const std::exception& e)`, with `e.what()` given to the
handler. A fault is not an exception and is caught by nobody. -/
def tryStd {α : Type} (x : Call α) (handler : String → Call α) : Call α :=
  tryCatch x fun e =>
    match e.what with
    | some what => handler what
    | none => throw e

/-- One `rd_kafka_conf_set` of a method, with the text it throws on refusal. -/
structure Setting where
  name : String
  value : Bytes
  what : String

def consumeSettings (p_brokers p_group p_username p_password : Bytes) : List Setting :=
  [⟨"bootstrap.servers", p_brokers, "Error setting rebalance callback: "⟩,
   ⟨"group.id", p_group, "error group.id"⟩,
   ⟨"auto.offset.reset", ascii "earliest", "error auto.offset.reset"⟩,
   ⟨"security.protocol", ascii "SASL_PLAINTEXT", "error security.protocol"⟩,
   ⟨"sasl.mechanism", ascii "PLAIN", "error sasl.mechanism"⟩,
   ⟨"sasl.username", p_username, "error sasl.username"⟩,
   ⟨"sasl.password", p_password, "error sasl.password"⟩]

def produceSettings (p_brokers p_username p_password : Bytes) : List Setting :=
  [⟨"bootstrap.servers", p_brokers, "error bootstrap.servers"⟩,
   ⟨"security.protocol", ascii "SASL_PLAINTEXT", "error security.protocol"⟩,
   ⟨"sasl.mechanism", ascii "PLAIN", "error sasl.mechanism"⟩,
   ⟨"sasl.username", p_username, "error sasl.username"⟩,
   ⟨"sasl.password", p_password, "error sasl.password"⟩]

def applySettings (a : Answers) (conf : Handle) : List Setting → Call Unit
  | [] => return
  | s :: rest => do
    let res ← rdKafkaConfSet a conf s.name s.value
    if res ≠ .ok then
      rdKafkaConfDestroy conf
      throw (.runtimeError s.what)
    else
      applySettings a conf rest

/-- The part the two methods share: a configuration, its settings, and the client
made from it. -/
def openClient (a : Answers) (type : ClientType) (settings : List Setting) (failed : String) :
    Call (Handle × Handle) := do
  let conf ← rdKafkaConfNew
  applySettings a conf settings
  match ← rdKafkaNew a type conf with
  | none =>
    rdKafkaConfDestroy conf
    throw (.runtimeError failed)
  | some rk => return (conf, rk)

def setMessage (s : Bytes) : Call Unit := modify fun w => { w with gMessage := s }

def setKey (s : Bytes) : Call Unit := modify fun w => { w with gKey := s }

def buildString (memory : Bool) (s : Bytes) : Call Bytes :=
  if memory then return s else throw .badAlloc

def subscribeTopic (a : Answers) (rk : Handle) (p_topic : Bytes) : Call Unit := do
  rdKafkaPollSetConsumer rk
  let subscription ← rdKafkaTopicPartitionListNew
  rdKafkaTopicPartitionListAdd subscription p_topic
  let err ← rdKafkaSubscribe a rk subscription
  if err ≠ respErrNoError then
    rdKafkaTopicPartitionListDestroy subscription
    rdKafkaDestroy a rk
    throw (.runtimeError "error Failed to subscribe to topic")

/-- From the poll on: the message is given back and the client closed before the
two globals are filled from it. -/
def pollRecord (a : Answers) (rk : Handle) : Call Bool := do
  match ← rdKafkaConsumerPoll a rk with
  | none => return false
  | some rkm =>
    let err ← messageErr rkm
    if err ≠ respErrNoError then
      rdKafkaMessageDestroy rkm
      throw (.runtimeError "Consumer error")
    else
      rdKafkaMessageDestroy rkm
      rdKafkaConsumerClose a rk
      rdKafkaDestroy a rk
      let payload ← messagePayload a rkm
      let message ← buildString a.buildMessage payload
      setMessage message
      let keyBytes ← messageKey a rkm
      let key ← buildString a.buildKey keyBytes
      setKey key
      return true

def consumeBody (a : Answers) (paParams : Nat → TVariant) : Call Bool := do
  setMessage []
  setKey []
  let p ← decodeParams a paParams 5
  let (_, rk) ← openClient a .consumer (consumeSettings (p 0) (p 2) (p 3) (p 4))
    "error Failed to create new consumer"
  subscribeTopic a rk (p 1)
  pollRecord a rk

def consume (a : Answers) (paParams : Nat → TVariant) : Call Bool :=
  tryStd (consumeBody a paParams) fun _ => return false

/-- The body of the `try` block of `produce`. The callback is set on the
configuration the client has been made from. -/
def produceBody (a : Answers) (paParams : Nat → TVariant) : Call String := do
  let p ← decodeParams a paParams 6
  let (conf, rk) ← openClient a .producer (produceSettings (p 0) (p 2) (p 3))
    "error Failed to create new producer"
  rdKafkaConfSetDrMsgCb conf
  emit .signal
  let err ← rdKafkaProducev a rk (p 1) (p 4) (p 4).length (p 5) (p 5).length
  if err ≠ respErrNoError then
    if err = respErrQueueFull then
      rdKafkaPoll a rk 1000
    throw (.runtimeError "Failed to produce to topic")
  else
    rdKafkaPoll a rk 0
    let _ ← rdKafkaFlush a rk 1000
    rdKafkaDestroy a rk
    return "Persisted"

/-- Every exception raised in the body is a `std::exception`, so the second
handler of the source is never entered. -/
def produce (a : Answers) (paParams : Nat → TVariant) : Call String :=
  tryStd (produceBody a paParams) fun what => return "Exception: " ++ what

/-- `m_iMemory->AllocMemory` through a pointer that may be null. Nothing has been
written to the block it returns. -/
def allocMemory (this : CKafka) (a : Answers) (ulCountByte : Nat) :
    Call (Option (Cells UInt8)) := do
  if this.mIMemory then
    emit (.allocMemory ulCountByte a.alloc)
    return if a.alloc then some (List.replicate ulCountByte none) else none
  else
    throw .fault

/-- `strcpy` from a `c_str()`. The pointer holds no block when `AllocMemory` has
failed. -/
def copyString (t1 : Option (Cells UInt8)) (str : Bytes) : Call (Cells UInt8) :=
  match t1.bind fun cells => strcpy 0 cells (str ++ [0]) with
  | some cells => return cells
  | none => do
    emit .wildWrite
    throw .fault

def stringToTVariant (this : CKafka) (a : Answers) (str : Bytes) (val : TVariant) :
    Call (Bool × TVariant) := do
  let val := { val with vt := vtypePstr }
  let t1 ← allocMemory this a (str.length + 1)
  let t1 ← copyString t1 str
  return (true, { val with pstrVal := some t1, strLen := UInt32.ofNat str.length })

def getPropVal (this : CKafka) (a : Answers) (lPropNum : Int) (pvarPropVal : TVariant) :
    Call (Bool × TVariant) := do
  match Props.ofLong lPropNum with
  | some .eMessage =>
    let w ← get
    let (_, val) ← stringToTVariant this a w.gMessage { pvarPropVal with vt := vtypePstr }
    return (true, val)
  | some .eKey =>
    let w ← get
    let (_, val) ← stringToTVariant this a w.gKey { pvarPropVal with vt := vtypePstr }
    return (true, val)
  | none => return (false, pvarPropVal)

/-- The size of the array is passed in and not looked at. -/
def callAsFunc (this : CKafka) (a : Answers) (lMethodNum : Int) (pvarRetValue : TVariant)
    (paParams : Nat → TVariant) (_lSizeArray : Int) : Call (Bool × TVariant) := do
  match Methods.ofLong lMethodNum with
  | some .eGetInfo =>
    let (_, val) ← stringToTVariant this a (ascii versionString)
      { pvarRetValue with vt := vtypePstr }
    return (true, val)
  | some .eProduce =>
    let text ← produce a paParams
    let (_, val) ← stringToTVariant this a (ascii text) { pvarRetValue with vt := vtypePstr }
    return (true, val)
  | some .eConsume =>
    let result ← consume a paParams
    return (true, { pvarRetValue with vt := vtypeBool, bVal := result })
  | none => return (false, pvarRetValue)

end KafkaAddIn
