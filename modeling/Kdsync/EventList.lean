import Kdsync.Event
import Mathlib.Data.List.Induction

/-!
# The shared event list

`class EventList` of `serializable_objects.hpp`. Iterators are positions in the list of events,
`events.end()` is its length, and the `while` loop of `mark_produced` is `markLoop`, which walks
the same events with the same three variables.

The members and the arguments keep the widths of the source: `n_replicas` is unsigned, the member
`event_chunk` is a signed `int` built from an unsigned argument, and `remaining` narrows a
distance to an `int`. The range constructor of the result is only defined when the count is not
negative, so the queries return an `Option`.
-/

namespace Kdsync

/-- `INT_MAX`. -/
def intMax : ℕ := 2147483647

/-- The replicated object: the members of `class EventList`. -/
structure EventList where
  nReplicas : UInt32
  /-- Number of events to retrieve at the same time. -/
  eventChunk : Int32
  events : List ReplicatedEvent
  deriving DecidableEq

namespace EventList

/-- The constructor the factory of `main` calls. -/
def new (nReplicas eventChunk : UInt32) : EventList where
  nReplicas
  eventChunk := eventChunk.toInt32
  events := []

/-- The constructor deserialisation calls: a chunk below one becomes `INT_MAX`. -/
def ofFields (nReplicas eventChunk : UInt32) (events : List ReplicatedEvent) : EventList where
  nReplicas
  eventChunk := (if eventChunk < 1 then UInt32.ofNat intMax else eventChunk).toInt32
  events

/-- `add_event`: new events go to the end of the list. -/
def addEvent (l : EventList) (event : ReplicatedEvent) : EventList :=
  { l with events := l.events ++ [event] }

/-- The `while` loop of `mark_produced` from position `ptr` on. It returns the visited and the
unvisited events and the final `last_completed`. -/
def markLoop (nReplicas derechoId : UInt32) (lastTopic : Bytes) (lastPartition : Int32)
    (lastOffset : Int64) : ℕ → ℕ → List ReplicatedEvent → List ReplicatedEvent × ℕ
  | _, lastCompleted, [] => ([], lastCompleted)
  | ptr, lastCompleted, event :: rest =>
    let found := event.isAt lastTopic lastPartition lastOffset
    let marked := event.insertReplica derechoId
    let lastCompleted := if marked.replicas.card = nReplicas.toNat then ptr + 1 else lastCompleted
    if found then (marked :: rest, lastCompleted)
    else
      let next := markLoop nReplicas derechoId lastTopic lastPartition lastOffset (ptr + 1)
        lastCompleted rest
      (marked :: next.1, next.2)

/-- `mark_produced`: mark up to the first event with the given triple, then erase the events
before `last_completed`. -/
def markProduced (l : EventList) (derechoId : UInt32) (lastTopic : Bytes) (lastPartition : Int32)
    (lastOffset : Int64) : EventList :=
  let loop := markLoop l.nReplicas derechoId lastTopic lastPartition lastOffset 0 0 l.events
  { l with events := loop.1.drop loop.2 }

/-- `min(event_chunk, remaining)` for a range that starts at position `first`: both are `int`,
and the distance to the end of the list is narrowed to one. -/
def count (l : EventList) (first : ℕ) : Int32 :=
  let remaining := Int32.ofNat (l.events.length - first)
  min l.eventChunk remaining

/-- The end of both queries: the range of `count` events from position `first` on. `none` is the
invalid range of a negative count. -/
def chunkFrom (l : EventList) (first : ℕ) : Option (List ReplicatedEvent) :=
  if l.count first < 0 then none
  else some ((l.events.drop first).take (l.count first).toNatClampNeg)

/-- `first_not_replicated` of `get_events`: the `find_if_not`. -/
def firstNotReplicated (l : EventList) (derechoId : UInt32) : ℕ :=
  l.events.findIdx fun event => !decide (derechoId ∈ event.replicas)

/-- `get_events`: some of the events that are not marked by `derechoId`. -/
def getEvents (l : EventList) (derechoId : UInt32) : Option (List ReplicatedEvent) :=
  l.chunkFrom (l.firstNotReplicated derechoId)

/-- `first_not_replicated` of `get_events_from`: after the first event with the given triple, and
the beginning of the list if there is none. -/
def firstNotReplicatedFrom (l : EventList) (lastTopic : Bytes) (lastPartition : Int32)
    (lastOffset : Int64) : ℕ :=
  let lastReplicated := l.events.findIdx (·.isAt lastTopic lastPartition lastOffset)
  if lastReplicated = l.events.length then 0 else lastReplicated + 1

/-- `get_events_from`: some of the events after the given one. -/
def getEventsFrom (l : EventList) (lastTopic : Bytes) (lastPartition : Int32)
    (lastOffset : Int64) : Option (List ReplicatedEvent) :=
  l.chunkFrom (l.firstNotReplicatedFrom lastTopic lastPartition lastOffset)

/-- The query of `derecho_polling` on the replica of the instance itself: `get_events` while
`last_event` is `NULL`, and `get_events_from` afterwards. -/
def query (l : EventList) (myId : UInt32) (lastEvent : Option ReplicatedEvent) :
    Option (List ReplicatedEvent) :=
  match lastEvent with
  | some last => l.getEventsFrom last.topic last.partition last.offset
  | none => l.getEvents myId

end EventList

/-! ### Histories of calls -/

/-- A call of one of the two ordered RPC functions that change the list. -/
inductive Call
  | addEvent (event : ReplicatedEvent)
  | markProduced (derechoId : UInt32) (lastTopic : Bytes) (lastPartition : Int32)
      (lastOffset : Int64)
  deriving DecidableEq

/-- A call as kdsync makes it: an event is added with an empty set of replicas. -/
def Call.Fresh : Call → Prop
  | .addEvent event => event.replicas = ∅
  | .markProduced .. => True

instance (call : Call) : Decidable call.Fresh :=
  match call with
  | .addEvent event => inferInstanceAs (Decidable (event.replicas = ∅))
  | .markProduced .. => isTrue trivial

/-- The event a call adds, if it adds one. -/
def Call.added? : Call → Option ReplicatedEvent
  | .addEvent event => some event
  | .markProduced .. => none

/-- The events added by a history, in the order of the calls. -/
def added (calls : List Call) : List ReplicatedEvent := calls.filterMap Call.added?

@[simp] theorem added_nil : added [] = [] := rfl

@[simp] theorem added_append (calls calls' : List Call) :
    added (calls ++ calls') = added calls ++ added calls' := by simp [added]

@[simp] theorem added_addEvent (event : ReplicatedEvent) : added [.addEvent event] = [event] := rfl

@[simp] theorem added_markProduced (i : UInt32) (t : Bytes) (p : Int32) (o : Int64) :
    added [.markProduced i t p o] = [] := rfl

/-- No two events carry the same triple. -/
def Distinct (events : List ReplicatedEvent) : Prop :=
  (events.map ReplicatedEvent.triple).Nodup

instance (events : List ReplicatedEvent) : Decidable (Distinct events) :=
  inferInstanceAs (Decidable (List.Nodup _))

/-- Fewer events are distinct as well. -/
theorem Distinct.of_prefix {events events' : List ReplicatedEvent} (h : Distinct events')
    (hle : events <+: events') : Distinct events :=
  h.sublist (hle.sublist.map _)

namespace EventList

/-- One call on the list. -/
def apply (l : EventList) : Call → EventList
  | .addEvent event => l.addEvent event
  | .markProduced derechoId lastTopic lastPartition lastOffset =>
    l.markProduced derechoId lastTopic lastPartition lastOffset

/-- A history of calls on the list. -/
def replay (l : EventList) (calls : List Call) : EventList := calls.foldl apply l

@[simp] theorem replay_nil (l : EventList) : l.replay [] = l := rfl

@[simp] theorem replay_append (l : EventList) (calls calls' : List Call) :
    l.replay (calls ++ calls') = (l.replay calls).replay calls' := by simp [replay]

@[simp] theorem replay_singleton (l : EventList) (call : Call) : l.replay [call] = l.apply call :=
  rfl

/-- No call changes the parameters of the list. -/
theorem nReplicas_replay (l : EventList) (calls : List Call) :
    (l.replay calls).nReplicas = l.nReplicas := by
  induction calls using List.reverseRecOn with
  | nil => rfl
  | append_singleton calls call ih => cases call <;> simpa [apply, addEvent, markProduced] using ih

theorem eventChunk_replay (l : EventList) (calls : List Call) :
    (l.replay calls).eventChunk = l.eventChunk := by
  induction calls using List.reverseRecOn with
  | nil => rfl
  | append_singleton calls call ih => cases call <;> simpa [apply, addEvent, markProduced] using ih

end EventList

end Kdsync
