import Mathlib.Data.Finset.Insert
import Mathlib.Data.Finset.Card
import Mathlib.Order.Basic

/-!
# Replicated events

The value types of `serializable_objects.hpp`. A `std::string` and a
`vector<unsigned char>` are both byte strings (`Bytes`), a `set<uint32_t>` is a finite set, and
the fixed-width integers keep their width.

An event is located by the triple of its topic, partition and Kafka offset
(`ReplicatedEvent.triple`): this is the only identity `mark_produced` and `get_events_from`
compare. `ReplicatedEvent.operatorEq` is the `operator==` of the source, which looks at the whole
record but not at the set of instances that have replicated it.
-/

namespace Kdsync

/-- The bytes of a `std::string` or of a `vector<unsigned char>`. -/
abbrev Bytes := List UInt8

/-- A header of a Kafka record. -/
structure ReplicatedHeader where
  key : Bytes
  value : Bytes
  deriving DecidableEq, Repr

/-- A Kafka record on its way to the other clusters, in the source's order of fields. The default
of `replicas` is the default argument of the constructor. -/
structure ReplicatedEvent where
  topic : Bytes
  partition : Int32
  payload : Bytes
  key : Bytes
  offset : Int64
  headers : List ReplicatedHeader
  /-- The instances where the event is successfully replicated. -/
  replicas : Finset UInt32 := ∅
  deriving DecidableEq

namespace ReplicatedEvent

/-- `operator==`: every field but `replicas`. -/
def operatorEq (event other : ReplicatedEvent) : Bool :=
  event.topic == other.topic && event.partition == other.partition &&
    event.payload == other.payload && event.key == other.key &&
    event.offset == other.offset && event.headers == other.headers

/-- What the searches of `EventList` compare. -/
def triple (event : ReplicatedEvent) : Bytes × Int32 × Int64 :=
  (event.topic, event.partition, event.offset)

/-- The test of the searches: `event` carries the given topic, partition and offset. -/
def isAt (lastTopic : Bytes) (lastPartition : Int32) (lastOffset : Int64)
    (event : ReplicatedEvent) : Bool :=
  event.topic == lastTopic && event.partition == lastPartition && event.offset == lastOffset

/-- `replicas.insert(derecho_id)`. -/
def insertReplica (derechoId : UInt32) (event : ReplicatedEvent) : ReplicatedEvent :=
  { event with replicas := insert derechoId event.replicas }

/-- The event with another set of replicas. -/
def withReplicas (event : ReplicatedEvent) (replicas : Finset UInt32) : ReplicatedEvent :=
  { event with replicas }

/-- The event as it was added: no instance has replicated it. -/
def content (event : ReplicatedEvent) : ReplicatedEvent := event.withReplicas ∅

/-- An event of partition 0 without payload, key and headers. -/
def ofOffset (topic : Bytes) (offset : Int64) : ReplicatedEvent where
  topic
  partition := 0
  payload := []
  key := []
  offset
  headers := []

@[simp] theorem isAt_iff {t : Bytes} {p : Int32} {o : Int64} {e : ReplicatedEvent} :
    e.isAt t p o = true ↔ e.triple = (t, p, o) := by
  simp [isAt, triple, and_assoc]

@[simp] theorem replicas_insertReplica (i : UInt32) (e : ReplicatedEvent) :
    (e.insertReplica i).replicas = insert i e.replicas := rfl

@[simp] theorem triple_insertReplica (i : UInt32) (e : ReplicatedEvent) :
    (e.insertReplica i).triple = e.triple := rfl

@[simp] theorem content_insertReplica (i : UInt32) (e : ReplicatedEvent) :
    (e.insertReplica i).content = e.content := rfl

@[simp] theorem replicas_withReplicas (e : ReplicatedEvent) (r : Finset UInt32) :
    (e.withReplicas r).replicas = r := rfl

@[simp] theorem triple_withReplicas (e : ReplicatedEvent) (r : Finset UInt32) :
    (e.withReplicas r).triple = e.triple := rfl

@[simp] theorem content_withReplicas (e : ReplicatedEvent) (r : Finset UInt32) :
    (e.withReplicas r).content = e.content := rfl

@[simp] theorem triple_content (e : ReplicatedEvent) : e.content.triple = e.triple := rfl

theorem content_eq_self {e : ReplicatedEvent} (h : e.replicas = ∅) : e.content = e := by
  cases e
  simp_all [content, withReplicas]

/-- `operator==` compares the events as they were added. -/
theorem operatorEq_iff {e f : ReplicatedEvent} :
    e.operatorEq f = true ↔ e.content = f.content := by
  simp [operatorEq, content, withReplicas, and_assoc]

end ReplicatedEvent

end Kdsync
