import Kdsync.EventList
import Kdsync.Main
import Kdsync.Library.Codec

/-!
# State transfer

A joining instance receives the list as bytes: mutils writes the fields named in
`DEFAULT_SERIALIZATION_SUPPORT` one after the other and rebuilds each object by calling its
constructor with the fields it reads. What mutils does with a single field is a parameter
(`Mutils`), a faithful codec for each type of field.

The live list and its copy come from different constructors. `EventList.new` keeps the chunk it is
given, `EventList.ofFields` turns a chunk below one into `INT_MAX`, so a copy is equal exactly when
the chunk is not zero (`transfer_faithful_iff`).
-/

namespace Kdsync

/-- The formats of mutils for the types of the fields. -/
structure Mutils where
  uint32 : Codec UInt32
  int32 : Codec Int32
  int64 : Codec Int64
  string : Codec Bytes
  buffer : Codec Bytes
  set : Codec (Finset UInt32)
  vector {α : Type} : Codec α → Codec (List α)

namespace Mutils

variable (m : Mutils)

/-- `DEFAULT_SERIALIZATION_SUPPORT(ReplicatedHeader, key, value)`. -/
def header : Codec ReplicatedHeader :=
  (m.string.prod m.buffer).ofFields (fun h => (h.key, h.value)) (fun x => ⟨x.1, x.2⟩) fun _ => rfl

/-- `DEFAULT_SERIALIZATION_SUPPORT(ReplicatedEvent, topic, partition, payload, key, offset,
headers, replicas)`. -/
def event : Codec ReplicatedEvent :=
  (m.string.prod <| m.int32.prod <| m.buffer.prod <| m.buffer.prod <| m.int64.prod <|
    (m.vector m.header).prod m.set).ofFields
    (fun e => (e.topic, e.partition, e.payload, e.key, e.offset, e.headers, e.replicas))
    (fun x => ⟨x.1, x.2.1, x.2.2.1, x.2.2.2.1, x.2.2.2.2.1, x.2.2.2.2.2.1, x.2.2.2.2.2.2⟩)
    fun _ => rfl

/-- The fields of `DEFAULT_SERIALIZATION_SUPPORT(EventList, n_replicas, event_chunk, events)`. -/
def listFields : Codec (UInt32 × Int32 × List ReplicatedEvent) :=
  m.uint32.prod <| m.int32.prod <| m.vector m.event

/-- The bytes of a list. -/
def serialize (l : EventList) : List UInt8 :=
  m.listFields.encode (l.nReplicas, l.eventChunk, l.events)

/-- The list rebuilt from bytes: the `int` that was written is passed as an unsigned argument. -/
def deserialize (bytes : List UInt8) : Option EventList :=
  (m.listFields.decode bytes).map fun x => EventList.ofFields x.1.1 x.1.2.1.toUInt32 x.1.2.2

/-- The list a joining instance gets. -/
def transfer (l : EventList) : Option EventList := m.deserialize (m.serialize l)

/-- The copy is what the constructor makes of the members. -/
theorem transfer_eq (l : EventList) :
    m.transfer l = some (EventList.ofFields l.nReplicas l.eventChunk.toUInt32 l.events) := by
  have h := m.listFields.decode_encode (l.nReplicas, l.eventChunk, l.events) []
  rw [List.append_nil] at h
  rw [transfer, deserialize, serialize, h]
  rfl

end Mutils

namespace EventList

/-- Two lists that answer every query alike, now and after any further calls. -/
def SameAnswers (l copy : EventList) : Prop :=
  ∀ calls, (∀ i, (copy.replay calls).getEvents i = (l.replay calls).getEvents i) ∧
    ∀ t p o, (copy.replay calls).getEventsFrom t p o = (l.replay calls).getEventsFrom t p o

/-- The two constructors agree on every chunk but zero. -/
theorem ofFields_chunk_eq_iff (chunk : UInt32) :
    (if chunk < 1 then UInt32.ofNat intMax else chunk).toInt32 = chunk.toInt32 ↔ chunk ≠ 0 := by
  have hlt : chunk < 1 ↔ chunk = 0 := by
    rw [UInt32.lt_iff_toNat_lt, ← UInt32.toNat_inj]
    simp
  by_cases h : chunk = 0
  · subst h
    decide
  · simp [hlt, h]

end EventList

/-! ### A concrete format -/

/-- Fixed-width integers, and strings, buffers, sets and vectors with an end mark. -/
def Mutils.plain : Mutils where
  uint32 := .littleEndian 4 UInt32.toNat UInt32.ofNat fun a => by
    rw [Nat.mod_eq_of_lt (by simpa using a.toNat_lt), UInt32.ofNat_toNat]
  int32 := .littleEndian 4 (fun a => a.toUInt32.toNat) (fun n => (UInt32.ofNat n).toInt32)
    fun a => by
      rw [Nat.mod_eq_of_lt (by simpa using a.toUInt32.toNat_lt), UInt32.ofNat_toNat,
        Int32.toInt32_toUInt32]
  int64 := .littleEndian 8 (fun a => a.toUInt64.toNat) (fun n => (UInt64.ofNat n).toInt64)
    fun a => by
      rw [Nat.mod_eq_of_lt (by simpa using a.toUInt64.toNat_lt), UInt64.ofNat_toNat,
        Int64.toInt64_toUInt64]
  string := .list .byte
  buffer := .list .byte
  set := .finset (.littleEndian 4 UInt32.toNat UInt32.ofNat fun a => by
    rw [Nat.mod_eq_of_lt (by simpa using a.toNat_lt), UInt32.ofNat_toNat]) UInt32.toNat
      fun _ _ => UInt32.toNat_inj.mp
  vector := .list

/-! ### Main results -/

/-- **State transfer gives a joining instance the same list**, and the same answers from then on,
exactly when the chunk is not zero. -/
theorem transfer_faithful_iff (m : Mutils) (n chunk : UInt32) (calls : List Call) :
    (∃ copy, m.transfer ((EventList.new n chunk).replay calls) = some copy ∧
      copy.nReplicas = ((EventList.new n chunk).replay calls).nReplicas ∧
      copy.eventChunk = ((EventList.new n chunk).replay calls).eventChunk ∧
      copy.events = ((EventList.new n chunk).replay calls).events ∧
      ((EventList.new n chunk).replay calls).SameAnswers copy) ↔ chunk ≠ 0 := by
  set l := (EventList.new n chunk).replay calls with hl
  have hchunk : l.eventChunk = chunk.toInt32 := EventList.eventChunk_replay _ _
  rw [m.transfer_eq, hchunk, UInt32.toUInt32_toInt32]
  constructor
  · rintro ⟨copy, hcopy, -, hsame, -⟩
    obtain rfl := Option.some.inj hcopy
    exact (EventList.ofFields_chunk_eq_iff chunk).mp hsame
  · intro hne
    have hcopy : EventList.ofFields l.nReplicas chunk l.events = l := by
      rw [EventList.ofFields, (EventList.ofFields_chunk_eq_iff chunk).mpr hne, ← hchunk]
    exact ⟨l, congrArg some hcopy, rfl, hchunk, rfl, fun _ => ⟨fun _ => rfl, fun _ _ _ => rfl⟩⟩

/-- **A chunk of zero is not transferred.** With `EVENT_CHUNK=0` the live list never serves an
event, while a copy of it serves all of them. -/
theorem transfer_of_zero_chunk :
    eventChunkOf (some [48]) = some 0 ∧
    ∃ copy, Mutils.plain.transfer (EventList.new 2 0) = some copy ∧
      copy.eventChunk ≠ (EventList.new 2 0).eventChunk ∧
      ¬ (EventList.new 2 0).SameAnswers copy := by
  refine ⟨by decide, _, Mutils.plain.transfer_eq _, by decide, fun h => ?_⟩
  -- one event, asked for by an instance that has not replicated it
  have hquery := (h [.addEvent ⟨[116], 0, [1], [], 0, [], ∅⟩]).1 0
  exact absurd hquery (by decide)

end Kdsync
