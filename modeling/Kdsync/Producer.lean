import Kdsync.Kafka

/-!
# From the shared list to the local cluster

What `replicate_event` of `kdsync.cpp` hands to the Kafka producer, and what cppkafka makes of it.

A Kafka record has three kinds of optional values: a key, a payload and the values of its headers
may each be absent. cppkafka shows an absent value and one of length zero alike, as an empty range
(`Record.message`), and produces the same for all empty vectors of a kind. Which of the two it
produces is left open (`CppKafka`).
-/

namespace Kdsync

/-- A record of a Kafka cluster. `none` is an absent value. -/
structure Record where
  topic : Bytes
  partition : Int32
  key : Option Bytes
  payload : Option Bytes
  headers : List (Bytes × Option Bytes)
  deriving DecidableEq

/-- The message in which the consumer hands out a record. -/
def Record.message (r : Record) (offset : Int64) : Message where
  topic := r.topic
  partition := r.partition
  payload := r.payload.getD []
  key := r.key.getD []
  offset
  headerList := r.headers.map fun header => (header.1, header.2.getD [])

/-- A `MessageBuilder`. -/
structure MessageBuilder where
  topic : Bytes
  partition : Int32
  payload : Bytes
  key : Bytes
  headers : List (Bytes × Bytes) := []
  deriving DecidableEq

/-- `KAFKA_KDSYNC_TOPIC_SUFFIX`: "-global". -/
def kafkaKdsyncTopicSuffix : Bytes := [45, 103, 108, 111, 98, 97, 108]

/-- The argument of `producer->produce` in `replicate_event`. -/
def replicateEvent (event : ReplicatedEvent) : MessageBuilder :=
  let replicationTopic := event.topic ++ kafkaKdsyncTopicSuffix
  if 0 < event.headers.length then
    { topic := replicationTopic
      partition := event.partition
      payload := event.payload
      key := event.key
      headers := event.headers.map fun header => (header.key, header.value) }
  else
    { topic := replicationTopic
      partition := event.partition
      payload := event.payload
      key := event.key }

/-- The values that cppkafka produces for byte vectors: an absent or a zero-length one for the
empty vector. -/
structure CppKafka where
  key : Bytes → Option Bytes
  payload : Bytes → Option Bytes
  headerValue : Bytes → Option Bytes
  getD_key : ∀ bytes, (key bytes).getD [] = bytes
  getD_payload : ∀ bytes, (payload bytes).getD [] = bytes
  getD_headerValue : ∀ bytes, (headerValue bytes).getD [] = bytes

namespace CppKafka

/-- The record that arrives at the cluster. -/
def produce (k : CppKafka) (builder : MessageBuilder) : Record where
  topic := builder.topic
  partition := builder.partition
  key := k.key builder.key
  payload := k.payload builder.payload
  headers := builder.headers.map fun header => (header.1, k.headerValue header.2)

/-- An absent value for the empty vector. -/
def absent (bytes : Bytes) : Option Bytes := if bytes = [] then none else some bytes

theorem getD_absent (bytes : Bytes) : (absent bytes).getD [] = bytes := by
  rw [absent]
  split_ifs with h
  · exact h.symm
  · rfl

/-- A producer that drops the empty values. -/
def dropping : CppKafka where
  key := absent
  payload := absent
  headerValue := absent
  getD_key := getD_absent
  getD_payload := getD_absent
  getD_headerValue := getD_absent

end CppKafka

/-- The record that an instance produces for the event it makes of a consumed record. -/
def forward (k : CppKafka) (r : Record) (offset : Int64) : Option Record :=
  (kafkaPolling (some (r.message offset))).map fun event => k.produce (replicateEvent event)

/-! ### What `replicate_event` reads -/

/-- Without headers, the second branch produces what the first one would. -/
theorem replicateEvent_eq (event : ReplicatedEvent) :
    replicateEvent event =
      { topic := event.topic ++ kafkaKdsyncTopicSuffix
        partition := event.partition
        payload := event.payload
        key := event.key
        headers := event.headers.map fun header => (header.key, header.value) } := by
  rw [replicateEvent]
  split_ifs with h
  · rfl
  · have hnil : event.headers = [] := by
      rw [← List.length_eq_zero_iff]
      omega
    rw [hnil, List.map_nil]

/-- The marks of an event do not matter. -/
@[simp] theorem replicateEvent_withReplicas (event : ReplicatedEvent) (replicas : Finset UInt32) :
    replicateEvent (event.withReplicas replicas) = replicateEvent event := rfl

@[simp] theorem replicateEvent_content (event : ReplicatedEvent) :
    replicateEvent event.content = replicateEvent event := rfl

end Kdsync
