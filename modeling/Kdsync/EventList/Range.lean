import Kdsync.EventList.Chunk
import Kdsync.EventList.Nested
import Kdsync.Main

/-!
# The range of a query

Both queries compute `next(first, min(event_chunk, remaining))` with `int`s. The member
`event_chunk` comes from an unsigned argument: half of the arguments become a negative member, and
`next` then goes backwards. The constructor of the factory takes a chunk of zero as it is, and the
queries then serve nothing; the other constructor looks for this, but compares the unsigned
argument, so it lets the negative members through as well.

`ValidRange` says that the range stays inside the list and is not empty while an event is pending.
`validRange_iff` says for which chunks and lists it holds.
-/

namespace Kdsync

namespace EventList

/-- The range of a query with the given start and result is a segment of the list, and not empty
if an event stands behind the start. -/
structure ValidRange (l : EventList) (first : ℕ) (result : Option (List ReplicatedEvent)) :
    Prop where
  nonneg : 0 ≤ (l.count first).toInt
  le : (l.count first).toInt ≤ (l.events.length - first : ℕ)
  progress : 1 ≤ l.events.length - first → 1 ≤ (l.count first).toInt
  segment : result = some ((l.events.drop first).take (l.count first).toInt.toNat)

section Range

variable {l : EventList} {first : ℕ}

/-- The range is valid exactly for a positive member, or zero at the end of the list. -/
theorem validRange_iff_toInt (hlen : l.events.length ≤ intMax) (hfirst : first ≤ l.events.length) :
    ValidRange l first (l.chunkFrom first) ↔
      0 < l.eventChunk.toInt ∨ l.eventChunk.toInt = 0 ∧ first = l.events.length := by
  have hcount := toInt_count hlen first
  constructor
  · intro h
    have hnonneg := h.nonneg
    have hprogress := h.progress
    rw [hcount] at hnonneg hprogress
    omega
  · intro h
    have hnonneg : 0 ≤ (l.count first).toInt := by
      rw [hcount]
      omega
    refine ⟨hnonneg, by rw [hcount]; omega, fun hpos => by rw [hcount]; omega, ?_⟩
    have hneg : ¬ l.count first < 0 := by
      rw [Int32.lt_iff_toInt_lt, Int32.toInt_zero]
      exact Int.not_lt.mpr hnonneg
    rw [chunkFrom, if_neg hneg]
    rfl

end Range

/-! ### The member of each constructor -/

section Constructors

variable {l : EventList} {n chunk : UInt32} {first : ℕ}

/-- A chunk above `INT_MAX` becomes negative. -/
theorem toInt_toInt32_neg (h : intMax < chunk.toNat) : chunk.toInt32.toInt < 0 := by
  rw [Int32.toInt, UInt32.toBitVec_toInt32, BitVec.toInt_neg_iff]
  rw [intMax] at h
  change 2 ^ 32 ≤ 2 * chunk.toNat
  omega

/-- If the member is the chunk as it is, the range of a query is valid exactly if the chunk is at
most `INT_MAX`, and not zero unless the query starts at the end. -/
theorem validRange_iff_of_toInt32 (hl : l.eventChunk = chunk.toInt32)
    (hlen : l.events.length ≤ intMax) (hfirst : first ≤ l.events.length) :
    ValidRange l first (l.chunkFrom first) ↔
      chunk.toNat ≤ intMax ∧ (chunk = 0 → first = l.events.length) := by
  rw [validRange_iff_toInt hlen hfirst, hl, ← UInt32.toNat_inj, UInt32.toNat_zero]
  rcases Nat.lt_or_ge intMax chunk.toNat with hlt | hge
  · have hneg := toInt_toInt32_neg hlt
    omega
  · rw [toInt_toInt32 hge]
    omega

/-- If the member comes from the constructor that looks for a chunk of zero, the range of a query is
valid exactly if the chunk is at most `INT_MAX`. -/
theorem validRange_iff_of_ofFields {events : List ReplicatedEvent}
    (hl : l.eventChunk = (ofFields n chunk events).eventChunk)
    (hlen : l.events.length ≤ intMax) (hfirst : first ≤ l.events.length) :
    ValidRange l first (l.chunkFrom first) ↔ chunk.toNat ≤ intMax := by
  rw [validRange_iff_of_toInt32 hl hlen hfirst]
  have hmax : (UInt32.ofNat intMax).toNat = intMax := rfl
  split_ifs with hzero
  · rw [UInt32.lt_iff_toNat_lt, UInt32.toNat_one] at hzero
    have hpos : UInt32.ofNat intMax ≠ 0 := by decide
    rw [hmax]
    exact ⟨fun _ => by rw [intMax]; omega, fun _ => ⟨Nat.le_refl _, fun h => absurd h hpos⟩⟩
  · refine and_iff_left fun h => absurd ?_ hzero
    rw [h]
    decide

end Constructors

/-! ### Main results -/

section Starts

variable {l : EventList}

/-- Nothing is pending for `get_events` when everything is marked. -/
theorem firstNotReplicated_eq_length_iff {i : UInt32} :
    l.firstNotReplicated i = l.events.length ↔ ∀ e ∈ l.events, i ∈ e.replicas := by
  simp [firstNotReplicated, List.findIdx_eq_length]

/-- Nothing is pending for `get_events_from` when it finds the last event, or the list is empty. -/
theorem firstNotReplicatedFrom_eq_length_iff {t : Bytes} {p : Int32} {o : Int64} :
    l.firstNotReplicatedFrom t p o = l.events.length ↔
      l.events = [] ∨ target l.events t p o + 1 = l.events.length := by
  have hle : target l.events t p o ≤ l.events.length := target_le
  rw [firstNotReplicatedFrom_eq_target, ← List.length_eq_zero_iff]
  split_ifs <;> omega

end Starts

/-- **When the range of a query is valid.** For a list of at most `INT_MAX` events and any
arguments, the chunk must be at most `INT_MAX`. With the constructor of the factory it must not be
zero either, unless no event is pending for the query. -/
theorem validRange_iff (n chunk : UInt32) (copied : List ReplicatedEvent) (calls : List Call)
    (l copy : EventList) (hl : (new n chunk).replay calls = l)
    (hcopy : (ofFields n chunk copied).replay calls = copy) (hlen : l.events.length ≤ intMax)
    (hlenCopy : copy.events.length ≤ intMax) (i : UInt32) (t : Bytes) (p : Int32) (o : Int64) :
    (ValidRange l (l.firstNotReplicated i) (l.getEvents i) ↔
      chunk.toNat ≤ intMax ∧ (chunk = 0 → ∀ e ∈ l.events, i ∈ e.replicas)) ∧
    (ValidRange l (l.firstNotReplicatedFrom t p o) (l.getEventsFrom t p o) ↔
      chunk.toNat ≤ intMax ∧
        (chunk = 0 → l.events = [] ∨ target l.events t p o + 1 = l.events.length)) ∧
    (ValidRange copy (copy.firstNotReplicated i) (copy.getEvents i) ↔ chunk.toNat ≤ intMax) ∧
    (ValidRange copy (copy.firstNotReplicatedFrom t p o) (copy.getEventsFrom t p o) ↔
      chunk.toNat ≤ intMax) := by
  have hmember : l.eventChunk = chunk.toInt32 := hl ▸ eventChunk_replay _ _
  have hmemberCopy : copy.eventChunk = (ofFields n chunk copied).eventChunk :=
    hcopy ▸ eventChunk_replay _ _
  refine ⟨?_, ?_, ?_, ?_⟩
  · rw [getEvents, validRange_iff_of_toInt32 hmember hlen (firstNotReplicated_le _ _),
      firstNotReplicated_eq_length_iff]
  · rw [getEventsFrom, validRange_iff_of_toInt32 hmember hlen (firstNotReplicatedFrom_le _ _ _ _),
      firstNotReplicatedFrom_eq_length_iff]
  · rw [getEvents, validRange_iff_of_ofFields hmemberCopy hlenCopy (firstNotReplicated_le _ _)]
  · rw [getEventsFrom,
      validRange_iff_of_ofFields hmemberCopy hlenCopy (firstNotReplicatedFrom_le _ _ _ _)]

/-- A list of one event for both constructors, and a query of each kind. -/
theorem validRange_iff_oneEvent :
    let l := (new 2 0).replay [.addEvent (.ofOffset [] 1)]
    let copy := (ofFields 2 0 [.ofOffset [] 0]).replay [.addEvent (.ofOffset [] 1)]
    (ValidRange l (l.firstNotReplicated 0) (l.getEvents 0) ↔
      (0 : UInt32).toNat ≤ intMax ∧ ((0 : UInt32) = 0 → ∀ e ∈ l.events, 0 ∈ e.replicas)) ∧
    (ValidRange l (l.firstNotReplicatedFrom [] 0 1) (l.getEventsFrom [] 0 1) ↔
      (0 : UInt32).toNat ≤ intMax ∧
        ((0 : UInt32) = 0 → l.events = [] ∨ target l.events [] 0 1 + 1 = l.events.length)) ∧
    (ValidRange copy (copy.firstNotReplicated 0) (copy.getEvents 0) ↔
      (0 : UInt32).toNat ≤ intMax) ∧
    (ValidRange copy (copy.firstNotReplicatedFrom [] 0 1) (copy.getEventsFrom [] 0 1) ↔
      (0 : UInt32).toNat ≤ intMax) :=
  validRange_iff 2 0 [.ofOffset [] 0] [.addEvent (.ofOffset [] 1)] _ _ rfl rfl (by decide)
    (by decide) 0 [] 0 1

/-- **Ranges are invalid for half of the chunks.** `EVENT_CHUNK=-1` becomes a chunk for which the
range of a query is invalid with either constructor, as soon as the list has an event. -/
theorem not_validRange_of_negative :
    eventChunkOf (some [45, 49]) = some 4294967295 ∧
    (¬ ∀ (n chunk : UInt32) (calls : List Call) (l : EventList), (new n chunk).replay calls = l →
      l.events.length ≤ intMax → ∀ i, ValidRange l (l.firstNotReplicated i) (l.getEvents i)) ∧
    ¬ ∀ (n chunk : UInt32) (copied : List ReplicatedEvent) (calls : List Call) (copy : EventList),
      (ofFields n chunk copied).replay calls = copy → copy.events.length ≤ intMax →
      ∀ i, ValidRange copy (copy.firstNotReplicated i) (copy.getEvents i) := by
  refine ⟨by decide, fun h => ?_, fun h => ?_⟩
  · have hvalid := h 2 4294967295 [.addEvent (.ofOffset [] 0)] _ rfl (by decide) 0
    exact absurd hvalid.nonneg (by decide)
  · have hvalid := h 2 4294967295 [.ofOffset [] 0] [] _ rfl (by decide) 0
    exact absurd hvalid.nonneg (by decide)

/-- `EVENT_CHUNK=0`: with the constructor of the factory, a pending event is not served. -/
example : eventChunkOf (some [48]) = some 0 ∧
    ((new 2 0).addEvent (.ofOffset [] 0)).getEvents 0 = some [] := by
  decide

end EventList

end Kdsync
