import Kdsync.EventList
import Kdsync.Kafka
import Kdsync.Library.Broadcast

/-!
# A group of kdsync instances

The two loops of `kdsync.cpp` over Derecho. An `ordered_send` is a message of a `Broadcast`: one
total order of all calls, in the order of sending for each instance, of which every replica
applies a growing prefix. The replica of an instance is the list that its prefix produces
(`System.list`); a query is a `p2p_send` to the instance itself and reads that list.

An action is one step of one instance (`act`): an iteration of `kafka_polling`, the query of
`derecho_polling` or its failure, one round of the `for` loop, the code behind that loop, a crash
and a restart, or a step of Derecho on its behalf. `last_event` and `mark_produced` are updated
and sent in one action: nothing reads the former before the latter is sent.

The positions in `Served`, `Batch` and the trace `System.replicated` are not part of the program.
They count the events added before, and tell apart events that the program cannot tell apart.
-/

namespace Kdsync

/-- An event that a query has served, and the number of events added before it. -/
structure Served where
  event : ReplicatedEvent
  position : ℕ
  deriving DecidableEq

/-- An `ordered_send`. -/
inductive Rpc
  | addEvent (event : ReplicatedEvent)
  | markProduced (last : Served)
  deriving DecidableEq

/-- The call of a message: marks carry the id of the sender and the triple of the event. -/
def Rpc.call (sender : UInt32) : Rpc → Call
  | .addEvent event => .addEvent event
  | .markProduced last =>
    .markProduced sender last.event.topic last.event.partition last.event.offset

/-- The calls of a part of the total order. -/
def calls (order : List (UInt32 × Rpc)) : List Call := order.map fun m => m.2.call m.1

/-- A nonempty `events_to_replicate` in the `for` loop: the events that are not replicated yet,
the position of the first of them, and `back()`. -/
structure Batch where
  rest : List ReplicatedEvent
  next : ℕ
  back : ReplicatedEvent
  deriving DecidableEq

/-- The last event of a batch. -/
def Batch.last (b : Batch) : Served := ⟨b.back, b.next + b.rest.length - 1⟩

/-- The local variables of `derecho_polling`. -/
structure Polling where
  lastEvent : Option Served := none
  batch : Option Batch := none
  deriving DecidableEq

/-- The parameters the instances are started with. -/
structure Config where
  ids : Finset UInt32
  nReplicas : UInt32
  eventChunk : UInt32
  /-- The subscribed topic of each instance. -/
  topic : UInt32 → Bytes
  nonempty : ids.Nonempty
  card_ids : ids.card = nReplicas.toNat
  chunk_pos : 0 < eventChunk.toNat
  chunk_le : eventChunk.toNat ≤ intMax

/-- The state of the group. An instance without local variables is down. -/
structure System where
  net : Broadcast UInt32 Rpc
  polling : UInt32 → Option Polling
  /-- What each instance has passed to `replicate_event`. -/
  replicated : UInt32 → List Served

namespace System

/-- All instances have started, nothing has happened. -/
def init : System where
  net := .init
  polling _ := some {}
  replicated _ := []

/-- The events added so far, in the total order. -/
def log (s : System) : List ReplicatedEvent := added (calls s.net.order)

/-- The events added so far on the replica of an instance. -/
def localLog (s : System) (r : UInt32) : List ReplicatedEvent := added (calls (s.net.delivered r))

/-- The replica of an instance. -/
def list (c : Config) (s : System) (r : UInt32) : EventList :=
  (EventList.new c.nReplicas c.eventChunk).replay (calls (s.net.delivered r))

/-- The positions of the events that an instance has replicated, as it has replicated them. -/
def trace (s : System) (i : UInt32) : List ℕ := (s.replicated i).map Served.position

/-- Number of events that are no longer on the replica of an instance. -/
def erased (c : Config) (s : System) (r : UInt32) : ℕ :=
  (s.localLog r).length - (s.list c r).events.length

/-- `first_not_replicated` of the query of `derecho_polling`. -/
def first (c : Config) (s : System) (i : UInt32) (lastEvent : Option Served) : ℕ :=
  match lastEvent with
  | some last =>
    (s.list c i).firstNotReplicatedFrom last.event.topic last.event.partition last.event.offset
  | none => (s.list c i).firstNotReplicated i

/-- The query of `derecho_polling`. -/
def query (c : Config) (s : System) (i : UInt32) (lastEvent : Option Served) :
    Option (List ReplicatedEvent) := (s.list c i).query i (lastEvent.map Served.event)

/-- New local variables for an instance. -/
def setPolling (s : System) (i : UInt32) (p : Option Polling) : System :=
  { s with polling := Function.update s.polling i p }

/-- `replicate_event`. -/
def replicateEvent (s : System) (i : UInt32) (x : Served) : System :=
  { s with replicated := Function.update s.replicated i (s.replicated i ++ [x]) }

/-- `ordered_send`. -/
def orderedSend (s : System) (i : UInt32) (rpc : Rpc) : System :=
  { s with net := s.net.send i rpc }

@[simp] theorem net_init : init.net = .init := rfl

section Operations

variable (s : System) (i : UInt32) (p : Option Polling) (x : Served) (rpc : Rpc)

@[simp] theorem net_setPolling : (s.setPolling i p).net = s.net := rfl

@[simp] theorem polling_setPolling_self : (s.setPolling i p).polling i = p :=
  Function.update_self ..

@[simp] theorem replicated_setPolling : (s.setPolling i p).replicated = s.replicated := rfl

@[simp] theorem trace_setPolling : (s.setPolling i p).trace = s.trace := rfl

@[simp] theorem polling_replicateEvent : (s.replicateEvent i x).polling = s.polling := rfl

@[simp] theorem replicated_replicateEvent_self :
    (s.replicateEvent i x).replicated i = s.replicated i ++ [x] := Function.update_self ..

@[simp] theorem trace_replicateEvent_self :
    (s.replicateEvent i x).trace i = s.trace i ++ [x.position] := by simp [trace]

@[simp] theorem net_orderedSend : (s.orderedSend i rpc).net = s.net.send i rpc := rfl

@[simp] theorem polling_orderedSend : (s.orderedSend i rpc).polling = s.polling := rfl

end Operations

end System

/-- What an instance does, or Derecho on its behalf. -/
inductive Action
  /-- An iteration of `kafka_polling`, with the result of `poll`. -/
  | kafkaPoll (polled : Option Message)
  /-- The query of `derecho_polling`. -/
  | query
  /-- The query ends in the caught exception. -/
  | queryFails
  /-- A round of the `for` loop. -/
  | replicate
  /-- The assignment of `last_event` and the `ordered_send` of `mark_produced`. -/
  | mark
  /-- The oldest message of the instance becomes part of the total order. -/
  | sequence
  /-- The replica applies the next message of the total order. -/
  | deliver
  | crash
  /-- The instance restarts under its id, with the list of the whole total order. The order stands
  for the instances that are up: one of them sends the list, as `Program.act` has it. -/
  | rejoin
  deriving DecidableEq

/-- One action of instance `i`. A query whose range is invalid has no step. -/
def act (c : Config) (s : System) (i : UInt32) : Action → Option System
  | .kafkaPoll polled => do
    let _ ← s.polling i
    guard (∀ msg ∈ polled, msg.topic = c.topic i)
    match kafkaPolling polled with
    | none => some s
    | some event => some (s.orderedSend i (.addEvent event))
  | .query => do
    match ← s.polling i with
    | ⟨lastEvent, none⟩ =>
      let eventsToReplicate ← s.query c i lastEvent
      match eventsToReplicate.getLast? with
      -- an empty batch is neither replicated nor marked
      | none => some s
      | some back =>
        let next := s.erased c i + s.first c i lastEvent
        some (s.setPolling i (some ⟨lastEvent, some ⟨eventsToReplicate, next, back⟩⟩))
    | _ => none
  | .queryFails => do
    match ← s.polling i with
    -- `events_to_replicate` stays empty
    | ⟨_, none⟩ => some s
    | _ => none
  | .replicate => do
    match ← s.polling i with
    | ⟨lastEvent, some ⟨event :: rest, next, back⟩⟩ =>
      some ((s.setPolling i (some ⟨lastEvent, some ⟨rest, next + 1, back⟩⟩)).replicateEvent i
        ⟨event, next⟩)
    | _ => none
  | .mark => do
    match ← s.polling i with
    | ⟨_, some ⟨[], next, back⟩⟩ =>
      -- `back()` was the last event to be replicated
      let last : Served := ⟨back, next - 1⟩
      some ((s.setPolling i (some ⟨some last, none⟩)).orderedSend i (.markProduced last))
    | _ => none
  | .sequence => (s.net.sequence i).map fun net => { s with net }
  | .deliver => do
    -- a replica that is down applies nothing
    let _ ← s.polling i
    (s.net.deliver i).map fun net => { s with net }
  | .crash => do
    let _ ← s.polling i
    some { s.setPolling i none with net := s.net.crash i }
  | .rejoin =>
    match s.polling i with
    -- `last_event` is `NULL` again, and nothing is left of an interrupted batch
    | none => some { s.setPolling i (some {}) with net := s.net.join i }
    | some _ => none

/-- One step of the group: an action of one of its instances. -/
def step (c : Config) (s : System) (a : UInt32 × Action) : Option System :=
  if a.1 ∈ c.ids then act c s a.1 a.2 else none

/-! ### The outcomes of an action -/

/-- The outcomes of an action of instance `i`. -/
inductive Effect (c : Config) (s : System) (i : UInt32) : Action → System → Prop
  | ignored {polled : Option Message} (h : kafkaPolling polled = none) :
      Effect c s i (.kafkaPoll polled) s
  | added {polled : Option Message} {event : ReplicatedEvent} {p : Polling}
      (hp : s.polling i = some p) (h : kafkaPolling polled = some event) :
      Effect c s i (.kafkaPoll polled) (s.orderedSend i (.addEvent event))
  | idle {lastEvent : Option Served} (hp : s.polling i = some ⟨lastEvent, none⟩)
      (hq : s.query c i lastEvent = some []) : Effect c s i .query s
  | served {lastEvent : Option Served} {events : List ReplicatedEvent} {back : ReplicatedEvent}
      (hp : s.polling i = some ⟨lastEvent, none⟩) (hq : s.query c i lastEvent = some events)
      (hback : events.getLast? = some back) :
      Effect c s i .query (s.setPolling i
        (some ⟨lastEvent, some ⟨events, s.erased c i + s.first c i lastEvent, back⟩⟩))
  | failed : Effect c s i .queryFails s
  | replicated {lastEvent : Option Served} {event back : ReplicatedEvent}
      {rest : List ReplicatedEvent} {next : ℕ}
      (hp : s.polling i = some ⟨lastEvent, some ⟨event :: rest, next, back⟩⟩) :
      Effect c s i .replicate
        ((s.setPolling i (some ⟨lastEvent, some ⟨rest, next + 1, back⟩⟩)).replicateEvent i
          ⟨event, next⟩)
  | marked {lastEvent : Option Served} {back : ReplicatedEvent} {next : ℕ}
      (hp : s.polling i = some ⟨lastEvent, some ⟨[], next, back⟩⟩) :
      Effect c s i .mark ((s.setPolling i (some ⟨some ⟨back, next - 1⟩, none⟩)).orderedSend i
        (.markProduced ⟨back, next - 1⟩))
  | sequenced {net : Broadcast UInt32 Rpc} (h : s.net.sequence i = some net) :
      Effect c s i .sequence { s with net }
  | delivered {p : Polling} {net : Broadcast UInt32 Rpc} (hp : s.polling i = some p)
      (h : s.net.deliver i = some net) : Effect c s i .deliver { s with net }
  | crashed : Effect c s i .crash { s.setPolling i none with net := s.net.crash i }
  | rejoined (hp : s.polling i = none) :
      Effect c s i .rejoin { s.setPolling i (some {}) with net := s.net.join i }

/-- Every step is one of the outcomes. -/
theorem Effect.of_act {c : Config} {s s' : System} {i : UInt32} {a : Action}
    (h : act c s i a = some s') : Effect c s i a s' := by
  cases a with
  | kafkaPoll polled =>
    simp only [act, Option.bind_eq_bind, Option.bind_eq_some_iff] at h
    obtain ⟨p, hp, -, -, h⟩ := h
    split at h
    · obtain rfl := Option.some.inj h
      exact .ignored ‹_›
    · obtain rfl := Option.some.inj h
      exact .added hp ‹_›
  | query =>
    simp only [act, Option.bind_eq_bind, Option.bind_eq_some_iff] at h
    obtain ⟨p, hp, h⟩ := h
    split at h
    · obtain ⟨events, hq, h⟩ := Option.bind_eq_some_iff.mp h
      split at h
      · obtain rfl := Option.some.inj h
        exact .idle hp (List.getLast?_eq_none_iff.mp ‹_› ▸ hq)
      · obtain rfl := Option.some.inj h
        exact .served hp hq ‹_›
    · cases h
  | queryFails =>
    simp only [act, Option.bind_eq_bind, Option.bind_eq_some_iff] at h
    obtain ⟨p, hp, h⟩ := h
    split at h
    · obtain rfl := Option.some.inj h
      exact .failed
    · cases h
  | replicate =>
    simp only [act, Option.bind_eq_bind, Option.bind_eq_some_iff] at h
    obtain ⟨p, hp, h⟩ := h
    split at h
    · obtain rfl := Option.some.inj h
      exact .replicated hp
    · cases h
  | mark =>
    simp only [act, Option.bind_eq_bind, Option.bind_eq_some_iff] at h
    obtain ⟨p, hp, h⟩ := h
    split at h
    · obtain rfl := Option.some.inj h
      exact .marked hp
    · cases h
  | sequence =>
    obtain ⟨net, hnet, rfl⟩ := Option.map_eq_some_iff.mp h
    exact .sequenced hnet
  | deliver =>
    simp only [act, Option.bind_eq_bind, Option.bind_eq_some_iff] at h
    obtain ⟨p, hp, h⟩ := h
    obtain ⟨net, hnet, rfl⟩ := Option.map_eq_some_iff.mp h
    exact .delivered hp hnet
  | crash =>
    simp only [act, Option.bind_eq_bind, Option.bind_eq_some_iff] at h
    obtain ⟨p, -, h⟩ := h
    obtain rfl := Option.some.inj h
    exact .crashed
  | rejoin =>
    simp only [act] at h
    split at h
    · obtain rfl := Option.some.inj h
      exact .rejoined ‹_›
    · cases h

/-- A step of the group is an action of one of its instances. -/
theorem Effect.of_step {c : Config} {s s' : System} {a : UInt32 × Action}
    (h : step c s a = some s') : a.1 ∈ c.ids ∧ Effect c s a.1 a.2 s' := by
  rw [step] at h
  split_ifs at h with hi
  exact ⟨hi, .of_act h⟩

/-! ### Set-ups -/

/-- Neither a crash nor a restart. -/
def Action.Steady : Action → Prop
  | .crash | .rejoin => False
  | _ => True

instance (a : Action) : Decidable a.Steady :=
  match a with
  | .crash | .rejoin => isFalse id
  | .kafkaPoll _ | .query | .queryFails | .replicate | .mark | .sequence | .deliver =>
    isTrue trivial

/-- The events that `kafka_polling` of instance `i` sends in the course of some actions. -/
def handed (actions : List (UInt32 × Action)) (i : UInt32) : List ReplicatedEvent :=
  actions.filterMap fun a =>
    match a.2 with
    | .kafkaPoll polled => if a.1 = i then kafkaPolling polled else none
    | _ => none

/-- The set-up of the README: one topic for all clusters. Each consumer hands out every record
once, and for each partition in the order of the offsets. -/
structure SharedTopic (c : Config) (actions : List (UInt32 × Action)) : Prop where
  topic : ∀ i ∈ c.ids, ∀ j ∈ c.ids, c.topic i = c.topic j
  inOrder : ∀ i ∈ c.ids, (handed actions i).Pairwise fun event event' =>
    event.partition = event'.partition → event.offset < event'.offset

/-- A topic for each cluster. A consumer may hand out a record again. -/
structure OwnTopics (c : Config) (actions : List (UInt32 × Action)) : Prop where
  topic : ∀ i ∈ c.ids, ∀ j ∈ c.ids, c.topic i = c.topic j → i = j
  redelivered : ∀ i ∈ c.ids, ∀ event ∈ handed actions i, ∀ event' ∈ handed actions i,
    event.triple = event'.triple → event = event'

/-- Two instances with the default chunk, and their topics. -/
def twoInstances (topic : UInt32 → Bytes) : Config where
  ids := {0, 1}
  nReplicas := 2
  eventChunk := 10
  topic
  nonempty := ⟨0, by decide⟩
  card_ids := by decide
  chunk_pos := by decide
  chunk_le := by decide

theorem forall_mem_twoInstances {topic : UInt32 → Bytes} {P : UInt32 → Prop} (h₀ : P 0) (h₁ : P 1) :
    ∀ i ∈ (twoInstances topic).ids, P i := by
  intro i hi
  rcases Finset.mem_insert.mp hi with rfl | hi
  · exact h₀
  · exact Finset.mem_singleton.mp hi ▸ h₁

/-- `KAFKA_TOPIC`: the topic "test". -/
def kafkaTopic : Bytes := [116, 101, 115, 116]

/-- Two instances with the default topic. -/
def oneTopic : Config := twoInstances fun _ => kafkaTopic

/-- Two instances with a topic each. -/
def twoTopics : Config := twoInstances fun i => if i = 0 then [97] else [98]

/-- A record without key and headers. -/
def record (topic : Bytes) (partition : Int32) (offset : Int64) (payload : Bytes) : Message where
  topic
  partition
  payload
  key := []
  offset
  headerList := []

/-- Instance `i` takes some steps. -/
def acts (i : UInt32) (actions : List Action) : List (UInt32 × Action) :=
  actions.map fun a => (i, a)

/-- Instance `i` polls a record, and its message is ordered. -/
def adds (i : UInt32) (msg : Message) : List (UInt32 × Action) :=
  acts i [.kafkaPoll (some msg), .sequence]

/-- Both of two instances take a step. -/
def both (a : Action) : List (UInt32 × Action) := [(0, a), (1, a)]

/-- Both of two instances replicate and mark a batch of one event, and apply both marks. -/
def replicateOne : List (UInt32 × Action) :=
  [.query, .replicate, .mark, .sequence, .deliver, .deliver].flatMap both

end Kdsync
