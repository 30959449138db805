import KafkaAddIn.Types

namespace KafkaAddIn

open Foundation

def Event.enqueues (rk : Handle) : Event → Bool
  | .producev rk' _ _ _ err => rk' = rk && err = respErrNoError
  | _ => false

def Event.reports (rk : Handle) : Event → Bool
  | .deliveryReport rk' _ => rk' = rk
  | _ => false

/-- `rk` holds a record that was enqueued and has not been reported on. -/
def outstanding (rk : Handle) (trace : List Event) : Bool :=
  trace.any (Event.enqueues rk) && !trace.any (Event.reports rk)

def rdKafkaConfNew : Call Handle := do
  let conf ← fresh
  emit (.confNew conf)
  return conf

/-- The value is a pointer to a terminated string: librdkafka reads it up to its
first zero byte. -/
def rdKafkaConfSet (a : Answers) (conf : Handle) (name : String) (value : Bytes) :
    Call ConfRes := do
  emit (.confSet conf name (cString 0 value) (a.confSet name))
  return a.confSet name

def rdKafkaConfSetDrMsgCb (conf : Handle) : Call Unit := emit (.confSetDrMsgCb conf)

def rdKafkaConfDestroy (conf : Handle) : Call Unit := emit (.confDestroy conf)

/-- The configuration is taken and freed on success and stays with the caller on
failure. -/
def rdKafkaNew (a : Answers) (type : ClientType) (conf : Handle) : Call (Option Handle) := do
  if a.new then
    let rk ← fresh
    emit (.new type conf (some rk))
    return some rk
  else
    emit (.new type conf none)
    return none

def rdKafkaPollSetConsumer (rk : Handle) : Call Unit := emit (.pollSetConsumer rk)

def rdKafkaTopicPartitionListNew : Call Handle := do
  let list ← fresh
  emit (.listNew list)
  return list

def rdKafkaTopicPartitionListAdd (list : Handle) (topic : Bytes) : Call Unit :=
  emit (.listAdd list (cString 0 topic))

def rdKafkaTopicPartitionListDestroy (list : Handle) : Call Unit := emit (.listDestroy list)

def rdKafkaSubscribe (a : Answers) (rk list : Handle) : Call RespErr := do
  emit (.subscribe rk list a.subscribe)
  return a.subscribe

def rdKafkaConsumerPoll (a : Answers) (rk : Handle) : Call (Option Message) := do
  match a.poll with
  | none =>
    emit (.consumerPoll rk none)
    return none
  | some polled =>
    let handle ← fresh
    let rkm : Message := ⟨handle, polled.err, polled.record⟩
    emit (.consumerPoll rk (some rkm))
    return some rkm

/-- `rkm->err` -/
def messageErr (rkm : Message) : Call RespErr := do
  emit (.messageRead rkm.handle)
  return rkm.err

/-- The bytes behind `rkm->payload` and `rkm->len`. Once the message has been
given back they are whatever the memory holds by then. -/
def messagePayload (a : Answers) (rkm : Message) : Call Bytes := do
  let w ← get
  emit (.messageRead rkm.handle)
  return if Event.messageDestroy rkm.handle ∈ w.trace then a.stalePayload
    else rkm.record.payloadBytes

/-- The bytes behind `rkm->key` and `rkm->key_len`. -/
def messageKey (a : Answers) (rkm : Message) : Call Bytes := do
  let w ← get
  emit (.messageRead rkm.handle)
  return if Event.messageDestroy rkm.handle ∈ w.trace then a.staleKey else rkm.record.keyBytes

def rdKafkaMessageDestroy (rkm : Message) : Call Unit := emit (.messageDestroy rkm.handle)

def rdKafkaConsumerClose (a : Answers) (rk : Handle) : Call Unit :=
  emit (.consumerClose rk a.closeCommits)

/-- The delivery report for the record of `rk`, if it comes in at this point: what becomes of
the record, whether or not the application is told. As no callback was set before the client
was made, librdkafka queues no report for the application; the component's is empty. -/
def serveReports (a : Answers) (rk : Handle) (arrival : Arrival) : Call Unit := do
  let w ← get
  match a.delivery with
  | some delivery =>
    if delivery.arrival = arrival ∧ outstanding rk w.trace then
      emit (.deliveryReport rk delivery.err)
  | none => pure ()

/-- What is still outstanding is discarded. -/
def rdKafkaDestroy (a : Answers) (rk : Handle) : Call Unit :=
  emit (.destroy rk a.destroyCommits)

/-- The topic is a terminated string, the key and the value are counted. A
record is enqueued exactly when no error is returned. -/
def rdKafkaProducev (a : Answers) (rk : Handle) (topic key : Bytes) (keyLen : Nat)
    (value : Bytes) (valueLen : Nat) : Call RespErr := do
  emit (.producev rk (cString 0 topic) (key.take keyLen) (value.take valueLen) a.producev)
  return a.producev

def rdKafkaPoll (a : Answers) (rk : Handle) (timeout : Nat) : Call Unit := do
  emit (.poll rk timeout)
  serveReports a rk .atPoll

/-- It waits for the outstanding reports up to the deadline, and a report with an
error counts as one. -/
def rdKafkaFlush (a : Answers) (rk : Handle) (timeout : Nat) : Call RespErr := do
  serveReports a rk .inFlush
  let w ← get
  let err := if outstanding rk w.trace then respErrTimedOut else respErrNoError
  emit (.flush rk timeout err)
  return err

end KafkaAddIn
