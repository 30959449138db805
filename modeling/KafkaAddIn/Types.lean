import KafkaAddIn.Foundation.Programs
import KafkaAddIn.Foundation.CString

namespace KafkaAddIn

/-- The counted bytes of a `std::string`. -/
abbrev Bytes := List UInt8

/-- `WCHAR_T`, a unit of the host's strings. -/
abbrev ShortWchar := UInt16

/-- `wchar_t`, a unit of the component's own wide strings. -/
abbrev Wchar := UInt32

abbrev TypeVar := UInt16

def vtypeEmpty : TypeVar := 0
def vtypePstr : TypeVar := 8
def vtypeBool : TypeVar := 11
def vtypePwstr : TypeVar := 22

/-- `tVariant`. The members of the union the component touches are kept apart,
except for `strLen` and `wstrLen`, which lie over each other and are one field
here, as `consume` and `produce` rely on. `pwstrVal` stands for the units that
can be read from that address on, whatever member the host has set: a pointer
to nothing readable is the empty list. -/
structure TVariant where
  vt : TypeVar := vtypeEmpty
  bVal : Bool := false
  pstrVal : Option (Foundation.Cells UInt8) := none
  pwstrVal : List ShortWchar := []
  strLen : UInt32 := 0
  deriving DecidableEq, Repr

/-- What leaves a function instead of a value: the exceptions derived from
`std::exception` that the code can raise, and an access to memory that is not
there, which ends the process. -/
inductive Exit
  | runtimeError (what : String)
  | rangeError
  | badAlloc
  | fault
  deriving DecidableEq, Repr

/-- `what()` of an exception; a fault is none. -/
def Exit.what : Exit → Option String
  | .runtimeError text => some text
  | .rangeError => some "wstring_convert::to_bytes"
  | .badAlloc => some "std::bad_alloc"
  | .fault => none

/-- Handles librdkafka gives out: configurations, clients, lists, messages. -/
abbrev Handle := Nat

/-- `rd_kafka_resp_err_t`; zero is success. -/
abbrev RespErr := Int

def respErrNoError : RespErr := 0
def respErrTimedOut : RespErr := -185
def respErrQueueFull : RespErr := -184

/-- `rd_kafka_conf_res_t` -/
inductive ConfRes
  | unknown
  | invalid
  | ok
  deriving DecidableEq, Repr

/-- `rd_kafka_type_t` -/
inductive ClientType
  | producer
  | consumer
  deriving DecidableEq, Repr

/-- A record of a partition; a null payload or key is `none`. -/
structure Record where
  payload : Option Bytes
  key : Option Bytes
  deriving DecidableEq, Repr

def Record.payloadBytes (r : Record) : Bytes := r.payload.getD []

def Record.keyBytes (r : Record) : Bytes := r.key.getD []

/-- What `rd_kafka_consumer_poll` found: a record when `err` is zero. -/
structure Polled where
  err : RespErr
  record : Record
  deriving DecidableEq, Repr

/-- `rd_kafka_message_t` -/
structure Message where
  handle : Handle
  err : RespErr
  record : Record
  deriving DecidableEq, Repr

/-- The call that serves a delivery report. Reports are served by `rd_kafka_poll`
and `rd_kafka_flush` only, so one that comes later is never received. -/
inductive Arrival
  | atPoll
  | inFlush
  deriving DecidableEq, Repr

structure Delivery where
  arrival : Arrival
  err : RespErr
  deriving DecidableEq, Repr

/-- What everything outside the component answers to the calls made during one
method call: the host's memory manager, the C++ heap, librdkafka and the broker
behind it. The defaults are those of a healthy installation. -/
structure Answers where
  /-- There is memory to transcode the parameter of this index. -/
  memory : Nat → Bool := fun _ => true
  confSet : String → ConfRes := fun _ => .ok
  new : Bool := true
  subscribe : RespErr := respErrNoError
  poll : Option Polled := none
  /-- The bytes found through `payload`/`len` and `key`/`key_len` of a message
  that has been given back already. -/
  stalePayload : Bytes := []
  staleKey : Bytes := []
  /-- The `std::string` of the Message and of the Key can be built. -/
  buildMessage : Bool := true
  buildKey : Bool := true
  closeCommits : Bool := true
  destroyCommits : Bool := true
  producev : RespErr := respErrNoError
  delivery : Option Delivery := none
  /-- `AllocMemory` succeeds. -/
  alloc : Bool := true

/-- The calls a method makes on the world outside, and its accesses to memory
that is not its own. -/
inductive Event
  /-- `pwstrVal` and `strLen` of `paParams[i]` are read, and the units they span. -/
  | readWstr (i : Nat)
  | confNew (conf : Handle)
  | confSet (conf : Handle) (name : String) (value : Bytes) (res : ConfRes)
  | confSetDrMsgCb (conf : Handle)
  | confDestroy (conf : Handle)
  | new (type : ClientType) (conf : Handle) (rk : Option Handle)
  | pollSetConsumer (rk : Handle)
  | listNew (list : Handle)
  | listAdd (list : Handle) (topic : Bytes)
  | listDestroy (list : Handle)
  | subscribe (rk list : Handle) (err : RespErr)
  | consumerPoll (rk : Handle) (rkm : Option Message)
  /-- A field of a message is read, or memory it points to. -/
  | messageRead (rkm : Handle)
  | messageDestroy (rkm : Handle)
  | consumerClose (rk : Handle) (committed : Bool)
  | destroy (rk : Handle) (committed : Bool)
  | signal
  | producev (rk : Handle) (topic key value : Bytes) (err : RespErr)
  | deliveryReport (rk : Handle) (err : RespErr)
  | poll (rk : Handle) (timeout : Nat)
  | flush (rk : Handle) (timeout : Nat) (err : RespErr)
  | allocMemory (ulCountByte : Nat) (ok : Bool)
  /-- A write through a pointer that holds no allocated block. -/
  | wildWrite
  deriving DecidableEq, Repr

/-- What a method call works on: the two globals, the next unused handle, and
the calls made outside so far during this call. -/
structure World where
  gMessage : Bytes := []
  gKey : Bytes := []
  next : Handle := 0
  trace : List Event := []
  deriving DecidableEq, Repr

/-- `k` handles have been given out and the calls `es` made. -/
def World.after (w : World) (k : Nat) (es : List Event) : World :=
  { w with next := w.next + k, trace := w.trace ++ es }

/-- Code of the component that may throw. -/
abbrev Call := ExceptT Exit (StateM World)

def emit (e : Event) : Call Unit := modify (·.after 0 [e])

def fresh : Call Handle := do
  let w ← get
  modify (·.after 1 [])
  return w.next

def lift {α : Type} : Except Exit α → Call α
  | .ok a => pure a
  | .error e => throw e

end KafkaAddIn
