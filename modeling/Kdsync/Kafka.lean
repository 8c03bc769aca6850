import Kdsync.Event

/-!
# From the Kafka consumer to the shared list

What `kafka_polling` of `kdsync.cpp` makes of the result of one `consumer->poll`. The type
`Message` is what cppkafka's `Message` exposes: buffers are ranges of bytes. A message with an
error, the end of a partition included, is not handed on.
-/

namespace Kdsync

/-- A message of the Kafka consumer, as far as `kafka_polling` reads it. -/
structure Message where
  topic : Bytes
  partition : Int32
  payload : Bytes
  key : Bytes
  offset : Int64
  /-- Names and values of the headers. -/
  headerList : List (Bytes × Bytes)
  /-- `get_error` is set. -/
  hasError : Bool := false
  deriving DecidableEq

/-- The `ReplicatedEvent` that `kafka_polling` constructs; its set of replicas is the default. -/
def Message.toEvent (msg : Message) : ReplicatedEvent where
  topic := msg.topic
  partition := msg.partition
  payload := msg.payload
  key := msg.key
  offset := msg.offset
  headers := msg.headerList.map fun header => ⟨header.1, header.2⟩

/-- One iteration of `kafka_polling`: the event it sends, if it sends one. -/
def kafkaPolling (polled : Option Message) : Option ReplicatedEvent :=
  match polled with
  | none => none
  | some msg => if !msg.hasError then some msg.toEvent else none

/-- Events are sent with an empty set of replicas. -/
theorem replicas_of_kafkaPolling {polled : Option Message} {event : ReplicatedEvent}
    (h : kafkaPolling polled = some event) : event.replicas = ∅ := by
  cases polled with
  | none => cases h
  | some msg =>
    simp only [kafkaPolling] at h
    split_ifs at h
    obtain rfl := Option.some.inj h
    rfl

end Kdsync
