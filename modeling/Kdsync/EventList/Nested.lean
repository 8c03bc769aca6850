import Kdsync.EventList.Chunk
import Kdsync.Library.MarkedList

/-!
# The sets of replicas are nested

`mark_produced` marks a prefix of the list and erases one range; `get_events` looks for the first
unmarked event only. Both are right because of one invariant over all histories
(`EventList.Nested`): the set of replicas of an earlier event contains the set of a later one,
and no event of the list is completed.

* `markLoop_fst` and `markLoop_snd`: what the loop of `mark_produced` leaves behind, namely the
  marked list and the number of completed events at its start.
* `replicas_nested`: the invariant after any history.
* `markProduced_removes_completed`: `mark_produced` removes exactly the completed events.
* `getEvents_serves_pending`: `get_events` serves exactly the events that are not marked.
-/

namespace Kdsync

open MarkedList (mapFirst)

namespace EventList

/-- Position of the first event with the given triple, the length of the list if there is none. -/
def target (events : List ReplicatedEvent) (t : Bytes) (p : Int32) (o : Int64) : ℕ :=
  events.findIdx (·.isAt t p o)

/-- The events after the marking: `derechoId` is inserted up to and including the first event with
the given triple, and everywhere if there is none. -/
def marked (events : List ReplicatedEvent) (derechoId : UInt32) (t : Bytes) (p : Int32)
    (o : Int64) : List ReplicatedEvent :=
  mapFirst (·.insertReplica derechoId) (target events t p o + 1) events

/-- All `n` instances have replicated the event. -/
def completed (n : UInt32) (event : ReplicatedEvent) : Bool :=
  decide (event.replicas.card = n.toNat)

/-- What `mark_produced` is for: insert the id up to the first match, then remove the completed
events wherever they stand. -/
def reference (l : EventList) (derechoId : UInt32) (t : Bytes) (p : Int32) (o : Int64) :
    EventList :=
  { l with events := (marked l.events derechoId t p o).filter fun e => !completed l.nReplicas e }

/-! ### The search for a triple -/

section Target

variable {t : Bytes} {p : Int32} {o : Int64} {events : List ReplicatedEvent}

theorem target_le : target events t p o ≤ events.length := List.findIdx_le_length

theorem target_eq_length (h : ∀ e ∈ events, e.triple ≠ (t, p, o)) :
    target events t p o = events.length :=
  List.findIdx_eq_length.mpr fun e he =>
    Bool.eq_false_iff.mpr fun hat => h e he (ReplicatedEvent.isAt_iff.mp hat)

/-- New events do not move what is found. -/
theorem target_append_of_lt (h : target events t p o < events.length)
    (events' : List ReplicatedEvent) :
    target (events ++ events') t p o = target events t p o :=
  List.findIdx_append.trans (if_pos h)

theorem find?_isAt : events.find? (·.isAt t p o) = events[target events t p o]? :=
  List.find?_eq_getElem?_findIdx

/-- `get_events_from` starts behind the event its search finds. -/
theorem firstNotReplicatedFrom_eq_target (l : EventList) : l.firstNotReplicatedFrom t p o =
    if target l.events t p o = l.events.length then 0 else target l.events t p o + 1 := rfl

end Target

/-! ### The loop of `mark_produced` -/

section Loop

variable {n i : UInt32} {t : Bytes} {p : Int32} {o : Int64}

theorem target_cons (e : ReplicatedEvent) (events : List ReplicatedEvent) :
    target (e :: events) t p o = if e.isAt t p o then 0 else target events t p o + 1 := by
  cases h : e.isAt t p o <;> simp [target, List.findIdx_cons, h]

theorem marked_cons (e : ReplicatedEvent) (events : List ReplicatedEvent) :
    marked (e :: events) i t p o =
      e.insertReplica i :: if e.isAt t p o then events else marked events i t p o := by
  rw [marked, target_cons]
  split_ifs with h <;> simp [marked]

/-- The loop leaves the marked list, whatever `last_completed` was. -/
theorem markLoop_fst (ptr last : ℕ) (events : List ReplicatedEvent) :
    (markLoop n i t p o ptr last events).1 = marked events i t p o := by
  induction events generalizing ptr last with
  | nil => simp [markLoop, marked]
  | cons e events ih =>
    rw [markLoop, marked_cons]
    split_ifs with h <;> simp [ih]

/-- Number of completed events at the start of a list. -/
def completedFirst (n : UInt32) (events : List ReplicatedEvent) : ℕ :=
  events.findIdx fun e => !completed n e

private theorem completedFirst_cons (e : ReplicatedEvent) (events : List ReplicatedEvent) :
    completedFirst n (e :: events) = if completed n e then completedFirst n events + 1 else 0 := by
  cases h : completed n e <;> simp [completedFirst, List.findIdx_cons, h]

/-- If the completed events come first in the marked list and none was completed before, the loop
ends with `last_completed` behind the last of them. -/
theorem markLoop_snd {ptr last : ℕ} {events : List ReplicatedEvent}
    (hanti : MarkedList.Antitone (completed n) (marked events i t p o))
    (hnone : ∀ e ∈ events, completed n e = false) :
    (markLoop n i t p o ptr last events).2 =
      if completedFirst n (marked events i t p o) = 0 then last
      else ptr + completedFirst n (marked events i t p o) := by
  induction events generalizing ptr last with
  | nil => simp [markLoop, marked, completedFirst]
  | cons e events ih =>
    rw [marked_cons] at hanti ⊢
    rw [markLoop, completedFirst_cons]
    by_cases hfound : e.isAt t p o = true
    · -- the loop stops here, and no later event was visited
      have hzero : completedFirst n events = 0 :=
        MarkedList.findIdx_not_eq_zero fun b hb => hnone b (List.mem_cons_of_mem _ hb)
      simp only [hfound, if_true, hzero]
      by_cases hc : (insert i e.replicas).card = n.toNat <;> simp [completed, hc]
    · simp only [hfound, Bool.false_eq_true, if_false] at hanti ⊢
      rw [ih hanti.tail fun b hb => hnone b (List.mem_cons_of_mem _ hb)]
      by_cases hc : (insert i e.replicas).card = n.toNat
      · -- `last_completed` moves behind `e`, and further on if the next event is completed
        have hdone : completed n (e.insertReplica i) = true := by simp [completed, hc]
        simp only [hdone, ReplicatedEvent.replicas_insertReplica, hc, if_true,
          Nat.add_one_ne_zero, if_false]
        split_ifs <;> omega
      · -- `e` is not completed, and neither is what follows
        have hzero : completedFirst n (marked events i t p o) = 0 :=
          MarkedList.findIdx_not_eq_zero (hanti.eq_false_of_head (decide_eq_false hc))
        simp [completed, hc, hzero]

end Loop

/-! ### The invariant -/

/-- The invariant of the shared list. -/
structure Nested (l : EventList) : Prop where
  /-- An earlier event is marked by every instance that has marked a later one. -/
  nested : MarkedList.Nested ReplicatedEvent.replicas l.events
  /-- No completed event stays in the list. -/
  incomplete : ∀ e ∈ l.events, e.replicas.card < l.nReplicas.toNat

section Preservation

variable {l : EventList} {i : UInt32} {t : Bytes} {p : Int32} {o : Int64}

theorem Nested.marked (h : l.Nested) :
    MarkedList.Nested ReplicatedEvent.replicas (marked l.events i t p o) :=
  h.nested.mapFirst (fun _ => rfl) _

/-- The marking adds at most one id to an event, so no set becomes larger than `n_replicas`. -/
theorem Nested.card_marked_le (h : l.Nested) :
    ∀ e ∈ EventList.marked l.events i t p o, e.replicas.card ≤ l.nReplicas.toNat := by
  intro e he
  rcases MarkedList.mem_mapFirst he with he | ⟨f, hf, rfl⟩
  · exact (h.incomplete e he).le
  · exact (Finset.card_insert_le _ _).trans (h.incomplete f hf)

theorem Nested.completed_eq_false (h : l.Nested) :
    ∀ e ∈ l.events, completed l.nReplicas e = false := by
  intro e he
  have := h.incomplete e he
  simp only [completed, decide_eq_false_iff_not]
  omega

/-- The completed events stand at the start of the marked list. -/
theorem Nested.antitone_completed (h : l.Nested) :
    MarkedList.Antitone (completed l.nReplicas) (EventList.marked l.events i t p o) :=
  h.marked.antitone_card h.card_marked_le

/-- **`mark_produced` removes exactly the completed events**: the range erase is the filter. -/
theorem Nested.markProduced_eq_reference (h : l.Nested) :
    l.markProduced i t p o = l.reference i t p o := by
  have hlast : (markLoop l.nReplicas i t p o 0 0 l.events).2 =
      completedFirst l.nReplicas (EventList.marked l.events i t p o) := by
    rw [markLoop_snd h.antitone_completed h.completed_eq_false]
    split_ifs with h0 <;> omega
  simp only [markProduced, reference, markLoop_fst, hlast]
  rw [MarkedList.filter_not_eq_drop h.antitone_completed]
  rfl

theorem nested_new (n chunk : UInt32) : (new n chunk).Nested where
  nested := List.Pairwise.nil
  incomplete := by simp [new]

/-- An event without marks that comes last keeps the sets of marks nested. -/
theorem Nested.addEvent (h : l.Nested) (hn : 1 ≤ l.nReplicas) {e : ReplicatedEvent}
    (he : e.replicas = ∅) : (l.addEvent e).Nested where
  nested := h.nested.append he
  incomplete := by
    intro f hf
    rcases List.mem_append.mp hf with hf | hf
    · exact h.incomplete f hf
    · obtain rfl := List.mem_singleton.mp hf
      have hpos : 1 ≤ l.nReplicas.toNat := UInt32.le_iff_toNat_le.mp hn
      rw [he, Finset.card_empty]
      exact hpos

/-- Marking keeps the sets nested, and what is completed is erased. -/
theorem Nested.markProduced (h : l.Nested) : (l.markProduced i t p o).Nested := by
  rw [h.markProduced_eq_reference]
  refine ⟨h.marked.sublist List.filter_sublist, fun e he => ?_⟩
  obtain ⟨hmem, hinc⟩ := List.mem_filter.mp he
  have hle := h.card_marked_le e hmem
  simp only [completed, Bool.not_eq_true', decide_eq_false_iff_not] at hinc
  exact lt_of_le_of_ne hle hinc

/-- A call keeps the sets of marks nested, and erases the events that it completes. -/
theorem Nested.apply (h : l.Nested) (hn : 1 ≤ l.nReplicas) {call : Call} (hc : call.Fresh) :
    (l.apply call).Nested := by
  cases call with
  | addEvent e => exact h.addEvent hn hc
  | markProduced => exact h.markProduced

/-- **Every history keeps the list nested**, whatever ids and targets it marks. -/
theorem Nested.replay (h : l.Nested) (hn : 1 ≤ l.nReplicas) {calls : List Call}
    (hc : ∀ call ∈ calls, call.Fresh) : (l.replay calls).Nested := by
  induction calls using List.reverseRecOn with
  | nil => exact h
  | append_singleton calls call ih =>
    rw [replay_append, replay_singleton]
    refine (ih fun c hmem => hc c (by simp [hmem])).apply ?_ (hc call (by simp))
    rwa [nReplicas_replay]

end Preservation

/-! ### Main results -/

/-- Two events with one triple, the first of which is marked by two of three instances, and the
third instance marks past both. -/
def repeatedTriple : List Call :=
  [.addEvent (.ofOffset [] 0), .addEvent (.ofOffset [] 0), .markProduced 0 [] 0 0,
    .markProduced 1 [] 0 0]

/-- **The sets of replicas are nested.** After any history that starts with an empty list, whatever
ids and targets it marks, an earlier event is marked by every instance that has marked a later one,
and no event is completed. So the marks of one more call make no set larger than `n`, and the test
for a completed event is not stepped over. -/
theorem replicas_nested (n chunk : UInt32) (hn : 1 ≤ n) (calls : List Call)
    (hc : ∀ call ∈ calls, call.Fresh) :
    (((new n chunk).replay calls).events.Pairwise fun earlier later =>
      later.replicas ⊆ earlier.replicas) ∧
    (∀ e ∈ ((new n chunk).replay calls).events, e.replicas.card < n.toNat) ∧
    ∀ i t p o, ∀ e ∈ marked ((new n chunk).replay calls).events i t p o,
      e.replicas.card ≤ n.toNat := by
  have h := (nested_new n chunk).replay hn hc
  have hmember : ((new n chunk).replay calls).nReplicas = n := nReplicas_replay _ _
  refine ⟨h.nested, fun e he => ?_, fun i t p o e he => ?_⟩
  · rw [← hmember]
    exact h.incomplete e he
  · rw [← hmember]
    exact h.card_marked_le e he

theorem replicas_nested_repeatedTriple :
    (((new 3 10).replay repeatedTriple).events.Pairwise fun earlier later =>
      later.replicas ⊆ earlier.replicas) ∧
    (∀ e ∈ ((new 3 10).replay repeatedTriple).events, e.replicas.card < 3) ∧
    ∀ i t p o, ∀ e ∈ marked ((new 3 10).replay repeatedTriple).events i t p o,
      e.replicas.card ≤ 3 :=
  replicas_nested 3 10 (by decide) repeatedTriple (by decide)

/-- **`mark_produced` removes exactly the completed events.** After any history that starts with
an empty list, it is the reference that marks up to the first match and then filters. -/
theorem markProduced_removes_completed (n chunk : UInt32) (hn : 1 ≤ n) (calls : List Call)
    (hc : ∀ call ∈ calls, call.Fresh) (i : UInt32) (t : Bytes) (p : Int32) (o : Int64) :
    ((new n chunk).replay calls).markProduced i t p o =
      ((new n chunk).replay calls).reference i t p o :=
  ((nested_new n chunk).replay hn hc).markProduced_eq_reference

theorem markProduced_removes_completed_repeatedTriple :
    ((new 3 10).replay repeatedTriple).markProduced 2 [] 0 5 =
      ((new 3 10).replay repeatedTriple).reference 2 [] 0 5 :=
  markProduced_removes_completed 3 10 (by decide) repeatedTriple (by decide) 2 [] 0 5

/-- **`get_events` serves exactly the pending events.** After any history that starts with an
empty list, it returns the first `event_chunk` of the events that `i` has not marked. -/
theorem getEvents_serves_pending (n chunk : UInt32) (hn : 1 ≤ n) (hmax : chunk.toNat ≤ intMax)
    (calls : List Call) (hc : ∀ call ∈ calls, call.Fresh)
    (hlen : ((new n chunk).replay calls).events.length ≤ intMax) (i : UInt32) :
    ((new n chunk).replay calls).getEvents i =
      some ((((new n chunk).replay calls).events.filter fun e => i ∉ e.replicas).take
        chunk.toNat) := by
  have hnested := (nested_new n chunk).replay hn hc
  have hchunk : ((new n chunk).replay calls).eventChunk = chunk.toInt32 := eventChunk_replay _ _
  rw [getEvents, chunkFrom_eq_take hchunk hmax hlen, firstNotReplicated,
    ← MarkedList.filter_not_eq_drop (hnested.nested.antitone_mem i)]
  simp

theorem getEvents_serves_pending_repeatedTriple :
    ((new 3 10).replay repeatedTriple).getEvents 0 =
      some ((((new 3 10).replay repeatedTriple).events.filter fun e => 0 ∉ e.replicas).take 10) :=
  getEvents_serves_pending 3 10 (by decide) (by decide) repeatedTriple (by decide)
    (by decide +kernel) 0

end EventList

end Kdsync
