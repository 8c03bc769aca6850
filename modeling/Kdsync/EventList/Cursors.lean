import Kdsync.EventList.Nested
import Kdsync.Library.CursorLog

/-!
# The event list refines a log with one cursor per instance

The shared list with its sets of replicas stands for something simpler: the log of all added
events and, for each of the `n_replicas` instances, the number of events it has acknowledged
(`Cursors`). `Refines` says that the list is the live part of that log, each event with the set of
instances that have passed it, and every call keeps it so (`Refines.apply`).

The abstract effect of `mark_produced` is to move one cursor behind the event its search finds
(`Cursors.apply`). Under unique triples and advancing targets this is the position of the target
itself: `spec` is that abstract machine, with its own guards, and `eventList_refines_cursors` the
refinement of it.
-/

namespace Kdsync

/-- The log of added events with a cursor for each instance. -/
abbrev Cursors (ids : Finset UInt32) := CursorLog ids ReplicatedEvent

/-- The event with the instances that have passed it, as it stands in the concrete list. -/
def stamp (a : ReplicatedEvent × Finset UInt32) : ReplicatedEvent := a.1.withReplicas a.2

/-- A call of one of the instances `ids`, with events as kdsync adds them. -/
def Call.By (ids : Finset UInt32) : Call → Prop
  | .addEvent event => event.replicas = ∅
  | .markProduced derechoId _ _ _ => derechoId ∈ ids

namespace Cursors

variable {ids : Finset UInt32}

/-- Number of log entries up to and including the first live event with the given triple, and the
whole log if there is none. -/
def found (s : Cursors ids) (t : Bytes) (p : Int32) (o : Int64) : ℕ :=
  s.low + EventList.target (s.log.drop s.low) t p o + 1

/-- The abstract effect of a call. -/
def apply (s : Cursors ids) : Call → Cursors ids
  | .addEvent event => s.append event
  | .markProduced derechoId t p o => s.advance derechoId (s.found t p o)

/-- The abstract effect of a history. -/
def replay (s : Cursors ids) (calls : List Call) : Cursors ids := calls.foldl apply s

@[simp] theorem replay_nil (s : Cursors ids) : s.replay [] = s := rfl

@[simp] theorem replay_append (s : Cursors ids) (calls calls' : List Call) :
    s.replay (calls ++ calls') = (s.replay calls).replay calls' := by simp [replay]

@[simp] theorem replay_singleton (s : Cursors ids) (call : Call) : s.replay [call] = s.apply call :=
  rfl

/-- The log of a history is what it added. -/
theorem log_replay (h : ids.Nonempty) (calls : List Call) :
    (replay (CursorLog.init h) calls).log = added calls := by
  induction calls using List.reverseRecOn with
  | nil => rfl
  | append_singleton calls call ih =>
    rw [replay_append, replay_singleton, added_append, ← ih]
    cases call <;> simp [apply]

/-- No call brings an erased event back. -/
theorem low_le_low_replay (s : Cursors ids) (calls : List Call) : s.low ≤ (s.replay calls).low := by
  induction calls using List.reverseRecOn with
  | nil => exact Nat.le_refl _
  | append_singleton calls call ih =>
    rw [replay_append, replay_singleton]
    refine ih.trans ?_
    cases call with
    | addEvent e => exact Nat.le_refl _
    | markProduced i t p o => exact CursorLog.low_le_low_advance

/-- The cursor of an instance that sends no mark stays where it is. -/
theorem cursor_replay_of_unmarked (s : Cursors ids) {i : UInt32} {calls : List Call}
    (h : ∀ t p o, .markProduced i t p o ∉ calls) : (s.replay calls).cursor i = s.cursor i := by
  induction calls using List.reverseRecOn with
  | nil => rfl
  | append_singleton calls call ih =>
    rw [replay_append, replay_singleton]
    have hcalls : (s.replay calls).cursor i = s.cursor i :=
      ih fun t p o hmem => h t p o (List.mem_append_left _ hmem)
    cases call with
    | addEvent e => exact hcalls
    | markProduced j t p o =>
      have hne : i ≠ j := by
        rintro rfl
        exact h t p o (by simp)
      exact (CursorLog.cursor_advance_of_ne hne).trans hcalls

end Cursors

/-! ### The refinement -/

/-- The list is the live part of the log, each event with the instances that have passed it. -/
structure Refines {ids : Finset UInt32} (s : Cursors ids) (l : EventList) : Prop where
  events : l.events = s.live.map stamp
  card : ids.card = l.nReplicas.toNat

namespace Refines

variable {ids : Finset UInt32} {s : Cursors ids} {l : EventList}

/-- A refined list is nested. -/
theorem nested (h : Refines s l) : l.Nested where
  nested := by
    rw [h.events]
    exact List.pairwise_map.mpr s.nested_live
  incomplete := by
    intro e he
    rw [h.events] at he
    obtain ⟨a, ha, rfl⟩ := List.mem_map.mp he
    rw [← h.card]
    exact CursorLog.card_lt_of_mem_live ha

theorem init (hne : ids.Nonempty) (n chunk : UInt32) (hcard : ids.card = n.toNat) :
    Refines (CursorLog.init hne) (EventList.new n chunk) where
  events := by simp [EventList.new, CursorLog.live, CursorLog.entries, CursorLog.init]
  card := hcard

/-- Searches of the list find what they would find in the live part of the log. -/
theorem target_eq (h : Refines s l) (t : Bytes) (p : Int32) (o : Int64) :
    EventList.target l.events t p o = EventList.target (s.log.drop s.low) t p o := by
  rw [h.events, ← CursorLog.map_fst_live, EventList.target, EventList.target, List.findIdx_map,
    List.findIdx_map]
  rfl

/-- Marking the stamped entries is stamping the marked ones. -/
private theorem mapFirst_map_stamp (i : UInt32) (k : ℕ)
    (entries : List (ReplicatedEvent × Finset UInt32)) :
    MarkedList.mapFirst (·.insertReplica i) k (entries.map stamp) =
      (MarkedList.mapFirst (fun a => (a.1, insert i a.2)) k entries).map stamp := by
  simp only [MarkedList.mapFirst, List.map_append, List.map_take, List.map_drop, List.map_map]
  rfl

theorem addEvent (h : Refines s l) {e : ReplicatedEvent} (he : e.replicas = ∅) :
    Refines (s.append e) (l.addEvent e) where
  events := by
    have hstamp : stamp (e, ∅) = e := ReplicatedEvent.content_eq_self he
    rw [CursorLog.live_append, List.map_append, ← h.events]
    simp [EventList.addEvent, hstamp]
  card := h.card

/-- **`mark_produced` moves one cursor**, behind the event its search finds. -/
theorem markProduced (h : Refines s l) {i : UInt32} (hi : i ∈ ids) (t : Bytes) (p : Int32)
    (o : Int64) : Refines (s.advance i (s.found t p o)) (l.markProduced i t p o) where
  events := by
    have hsub : s.found t p o - s.low = EventList.target l.events t p o + 1 := by
      rw [h.target_eq, Cursors.found]
      omega
    rw [h.nested.markProduced_eq_reference, CursorLog.live_advance hi, hsub]
    simp only [EventList.reference, EventList.marked]
    nth_rewrite 2 [h.events]
    rw [mapFirst_map_stamp, List.filter_map, h.card]
    rfl
  card := h.card

/-- **One call.** A list that refines a log with its cursors still does so after a call by one of
the instances. -/
theorem apply (h : Refines s l) {call : Call} (hc : call.By ids) :
    Refines (s.apply call) (l.apply call) := by
  cases call with
  | addEvent e => exact h.addEvent hc
  | markProduced i t p o => exact h.markProduced hc t p o

/-- **A history.** A list that refines a log with its cursors still does so after any calls by the
instances. -/
theorem replay (h : Refines s l) {calls : List Call} (hc : ∀ call ∈ calls, call.By ids) :
    Refines (s.replay calls) (l.replay calls) := by
  induction calls using List.reverseRecOn with
  | nil => exact h
  | append_singleton calls call ih =>
    rw [EventList.replay_append, EventList.replay_singleton, Cursors.replay_append,
      Cursors.replay_singleton]
    exact (ih fun c hmem => hc c (by simp [hmem])).apply (hc call (by simp))

/-- The list holds the events from the smallest cursor on. -/
theorem events_eq_drop (h : Refines s l) : l.events = (s.entries.map stamp).drop s.low := by
  rw [h.events, CursorLog.live, List.map_drop]

theorem length_events (h : Refines s l) : l.events.length = s.log.length - s.low := by
  rw [h.events, List.length_map, CursorLog.length_live]

/-- `get_events` starts at the cursor of the caller. -/
theorem firstNotReplicated_eq (h : Refines s l) {i : UInt32} (hi : i ∈ ids) :
    l.firstNotReplicated i = s.cursor i - s.low := by
  rw [EventList.firstNotReplicated, h.events, List.findIdx_map, ← CursorLog.findIdx_live hi]
  rfl

/-- `get_events_from` starts behind the event its search finds, or at the smallest cursor. -/
theorem firstNotReplicatedFrom_eq (h : Refines s l) (t : Bytes) (p : Int32) (o : Int64) :
    l.firstNotReplicatedFrom t p o =
      if EventList.target (s.log.drop s.low) t p o = s.log.length - s.low then 0
      else EventList.target (s.log.drop s.low) t p o + 1 := by
  rw [← h.target_eq, ← h.length_events]
  rfl

end Refines

end Kdsync
