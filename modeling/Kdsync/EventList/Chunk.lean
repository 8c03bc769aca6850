import Kdsync.EventList
import Mathlib.Algebra.Order.Ring.Int

/-!
# The chunk a query returns

`getEvents` and `getEventsFrom` end with the same computation on `int`s. A result is always a
contiguous segment (`exists_take_of_chunkFrom`), and for a chunk in `1..INT_MAX` and a list of at
most `INT_MAX` events it is the first `event_chunk` events from the chosen position on
(`chunkFrom_eq_take`).
-/

namespace Kdsync

namespace EventList

/-- Whatever the chunk, a result is a segment of the list that starts at `first`. -/
theorem exists_take_of_chunkFrom {l : EventList} {first : ℕ} {batch : List ReplicatedEvent}
    (h : l.chunkFrom first = some batch) : ∃ k, batch = (l.events.drop first).take k := by
  rw [chunkFrom] at h
  split at h
  · cases h
  · exact ⟨_, (Option.some.inj h).symm⟩

/-- `get_events` starts inside the list or at its end. -/
theorem firstNotReplicated_le (l : EventList) (i : UInt32) :
    l.firstNotReplicated i ≤ l.events.length := List.findIdx_le_length

/-- `get_events_from` starts inside the list or at its end. -/
theorem firstNotReplicatedFrom_le (l : EventList) (t : Bytes) (p : Int32) (o : Int64) :
    l.firstNotReplicatedFrom t p o ≤ l.events.length := by
  have hle : l.events.findIdx (·.isAt t p o) ≤ l.events.length := List.findIdx_le_length
  rw [firstNotReplicatedFrom]
  split_ifs <;> omega

theorem toInt_toInt32 {c : UInt32} (h : c.toNat ≤ intMax) : c.toInt32.toInt = c.toNat := by
  rw [intMax] at h
  rw [Int32.toInt, UInt32.toBitVec_toInt32, BitVec.toInt_eq_toNat_of_lt]
  · simp
  · simp
    omega

private theorem toInt_ofNat {n : ℕ} (h : n ≤ intMax) : (Int32.ofNat n).toInt = n := by
  rw [intMax] at h
  exact Int32.toInt_ofNat_of_lt (by omega)

private theorem toInt_min (a b : Int32) : (min a b).toInt = min a.toInt b.toInt := by
  change (if a ≤ b then a else b).toInt = _
  split_ifs with h
  · exact (min_eq_left (Int32.le_iff_toInt_le.mp h)).symm
  · exact (min_eq_right (Int.le_of_lt (Int.not_le.mp fun hle =>
      h (Int32.le_iff_toInt_le.mpr hle)))).symm

/-- The count is the smaller of the member and the number of remaining events. -/
theorem toInt_count {l : EventList} (hlen : l.events.length ≤ intMax) (first : ℕ) :
    (l.count first).toInt = min l.eventChunk.toInt (l.events.length - first : ℕ) := by
  rw [count, toInt_min, toInt_ofNat (by omega)]

/-- In range, a query returns the first `chunk` events from its start on. -/
theorem chunkFrom_eq_take {l : EventList} {chunk : UInt32} (hl : l.eventChunk = chunk.toInt32)
    (hchunk : chunk.toNat ≤ intMax) (hlen : l.events.length ≤ intMax) (first : ℕ) :
    l.chunkFrom first = some ((l.events.drop first).take chunk.toNat) := by
  have hcount := toInt_count hlen first
  rw [hl, toInt_toInt32 hchunk] at hcount
  have hneg : ¬ l.count first < 0 := by
    rw [Int32.lt_iff_toInt_lt, hcount, Int32.toInt_zero]
    omega
  have hnat : (l.count first).toNatClampNeg = min chunk.toNat (l.events.length - first) := by
    rw [Int32.toNatClampNeg, hcount]
    omega
  rw [chunkFrom, if_neg hneg, hnat, ← List.length_drop, ← List.take_eq_take_min]

end EventList

end Kdsync
