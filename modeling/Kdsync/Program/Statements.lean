import Kdsync.Program.GlobalTopic

/-!
# Statement by statement

`Program` takes an iteration of `kafka_polling`, a call of `replicate_event` and the code behind the
`for` loop in one action each. Here the two threads of a process take them apart. Between `poll` and
the `ordered_send` of the event, between `produce` and the return of `flush`, and between the
assignment of `last_event` and the `ordered_send` of the mark, anything else may happen: steps of
the other thread, of Derecho and of other processes, the delivery of the queued record or its
failure, and the end of the process.

`Processes.Views` is what the program makes of the processes: it has not begun what is not finished.
Every statement is followed by the action it completes, or by none (`Processes.follows_of_acts`). A
process that ends while a record is queued ends with a round that times out.
-/

namespace Kdsync

/-- `kafka_polling`. -/
inductive KafkaThread
  /-- At `consumer->poll`. -/
  | polling
  /-- At the `ordered_send` of the event that is made of the message. -/
  | sending (msg : Message)
  deriving DecidableEq

/-- What has become of a queued record. -/
inductive Delivery
  | waiting
  | accepted
  | failed
  deriving DecidableEq

/-- `derecho_polling`. -/
inductive DerechoThread
  /-- At the query. -/
  | querying (lastEvent : Option ReplicatedEvent)
  /-- At the head of the `for` loop, with the events that are not replicated yet, and `back()`. -/
  | replicating (lastEvent : Option ReplicatedEvent) (events : List ReplicatedEvent)
      (back : ReplicatedEvent)
  /-- At `producer->flush`, with the record of an event queued. -/
  | flushing (lastEvent : Option ReplicatedEvent) (event : ReplicatedEvent)
      (rest : List ReplicatedEvent) (back : ReplicatedEvent) (delivery : Delivery)
  /-- At the `ordered_send` of the mark for `last_event`. -/
  | marking (lastEvent : ReplicatedEvent)
  deriving DecidableEq

/-- A process with its two threads. -/
structure Process where
  kafka : KafkaThread := .polling
  derecho : DerechoThread := .querying none
  deriving DecidableEq

/-- The processes, with Derecho between them and the clusters behind them. -/
structure Processes where
  net : Broadcast UInt32 Call
  lists : UInt32 → EventList
  processes : UInt32 → Option Process
  /-- The records that a cluster has accepted from its instance. -/
  clusters : UInt32 → List MessageBuilder

namespace Processes

/-- All processes have started, nothing has happened. -/
def init (c : Config) : Processes where
  net := .init
  lists _ := .new c.nReplicas c.eventChunk
  processes _ := some {}
  clusters _ := []

/-- The query of `derecho_polling`, on the replica of the process itself. -/
def query (s : Processes) (i : UInt32) (lastEvent : Option ReplicatedEvent) :
    Option (List ReplicatedEvent) := (s.lists i).query i lastEvent

/-- New variables for process `i`, or none when it has ended. -/
def setProcess (s : Processes) (i : UInt32) (process : Option Process) : Processes :=
  { s with processes := Function.update s.processes i process }

/-- `ordered_send`. -/
def orderedSend (s : Processes) (i : UInt32) (call : Call) : Processes :=
  { s with net := s.net.send i call }

/-- Process `i` ends, and its waiting calls are lost. -/
def exit (s : Processes) (i : UInt32) : Processes :=
  { s.setProcess i none with net := s.net.crash i }

/-- What the threads of a process do, or Derecho and the cluster for them. -/
inductive Statement
  /-- `consumer->poll`, and the construction of the event. -/
  | poll (polled : Option Message)
  /-- The `ordered_send` of `add_event`. -/
  | addEvent
  | query
  /-- The query ends in the caught exception. -/
  | queryFails
  /-- `producer->produce`. It throws if the record cannot be queued. -/
  | produce (queued : Bool)
  /-- The cluster accepts the queued record, or the delivery fails. -/
  | report (accepted : Bool)
  /-- `producer->flush` returns or throws. -/
  | flush (returns : Bool)
  /-- The assignment of `last_event`. -/
  | setLastEvent
  /-- The `ordered_send` of `mark_produced`. -/
  | markProduced
  /-- The oldest call of the process becomes part of the total order. -/
  | sequence
  /-- The replica applies the next call of the total order. -/
  | deliver
  | crash
  /-- The process is started again, and is sent the list of the given instance. -/
  | rejoin (donor : UInt32)
  deriving DecidableEq

/-- One statement of process `i`. -/
def act (m : Mutils) (c : Config) (s : Processes) (i : UInt32) : Statement → Option Processes
  | .poll polled => do
    match ← s.processes i with
    | ⟨.polling, derecho⟩ =>
      guard (∀ msg ∈ polled, msg.topic = c.topic i)
      match polled with
      | none => some s
      | some msg =>
        if !msg.hasError then some (s.setProcess i (some ⟨.sending msg, derecho⟩)) else some s
    | _ => none
  | .addEvent => do
    match ← s.processes i with
    | ⟨.sending msg, derecho⟩ =>
      some ((s.setProcess i (some ⟨.polling, derecho⟩)).orderedSend i (.addEvent msg.toEvent))
    | _ => none
  | .query => do
    match ← s.processes i with
    | ⟨kafka, .querying lastEvent⟩ =>
      let eventsToReplicate ← s.query i lastEvent
      match eventsToReplicate.getLast? with
      | none => some s
      | some back =>
        some (s.setProcess i (some ⟨kafka, .replicating lastEvent eventsToReplicate back⟩))
    | _ => none
  | .queryFails => do
    match ← s.processes i with
    | ⟨_, .querying _⟩ => some s
    | _ => none
  | .produce queued => do
    match ← s.processes i with
    | ⟨kafka, .replicating lastEvent (event :: rest) back⟩ =>
      if queued then
        some (s.setProcess i (some ⟨kafka, .flushing lastEvent event rest back .waiting⟩))
      else some (s.exit i)
    | _ => none
  | .report accepted => do
    match ← s.processes i with
    | ⟨kafka, .flushing lastEvent event rest back .waiting⟩ =>
      if accepted then
        some
          { s.setProcess i (some ⟨kafka, .flushing lastEvent event rest back .accepted⟩) with
            clusters := Function.update s.clusters i (s.clusters i ++ [replicateEvent event]) }
      else some (s.setProcess i (some ⟨kafka, .flushing lastEvent event rest back .failed⟩))
    | _ => none
  | .flush returns => do
    match ← s.processes i with
    | ⟨kafka, .flushing lastEvent _ rest back delivery⟩ =>
      if returns then
        -- nothing is queued any more
        if delivery = .waiting then none
        else some (s.setProcess i (some ⟨kafka, .replicating lastEvent rest back⟩))
      else some (s.exit i)
    | _ => none
  | .setLastEvent => do
    match ← s.processes i with
    | ⟨kafka, .replicating _ [] back⟩ => some (s.setProcess i (some ⟨kafka, .marking back⟩))
    | _ => none
  | .markProduced => do
    match ← s.processes i with
    | ⟨kafka, .marking last⟩ =>
      some ((s.setProcess i (some ⟨kafka, .querying (some last)⟩)).orderedSend i
        (.markProduced i last.topic last.partition last.offset))
    | _ => none
  | .sequence => (s.net.sequence i).map fun net => { s with net }
  | .deliver => do
    let _ ← s.processes i
    let x ← s.net.order[s.net.applied i]?
    let net ← s.net.deliver i
    some { s with net, lists := Function.update s.lists i ((s.lists i).apply x.2) }
  | .crash => do
    let _ ← s.processes i
    some (s.exit i)
  | .rejoin donor =>
    match s.processes i with
    | none => do
      guard (donor ∈ c.ids ∧ (s.processes donor).isSome ∧
        s.net.applied donor = s.net.order.length)
      let copy ← m.transfer (s.lists donor)
      some
        { s.setProcess i (some {}) with
          net := s.net.join i
          lists := Function.update s.lists i copy }
    | some _ => none

/-- One step: a statement of one of the processes. -/
def step (m : Mutils) (c : Config) (s : Processes) (a : UInt32 × Statement) : Option Processes :=
  if a.1 ∈ c.ids then act m c s a.1 a.2 else none

/-- What a statement of process `i` does, case by case. -/
inductive Acts (m : Mutils) (c : Config) (s : Processes) (i : UInt32) : Statement → Processes → Prop
  | skip {polled : Option Message} {derecho : DerechoThread}
      (hp : s.processes i = some ⟨.polling, derecho⟩) (hpolled : kafkaPolling polled = none) :
      Acts m c s i (.poll polled) s
  | poll {msg : Message} {derecho : DerechoThread} (hp : s.processes i = some ⟨.polling, derecho⟩)
      (htopic : msg.topic = c.topic i) (herror : msg.hasError = false) :
      Acts m c s i (.poll (some msg)) (s.setProcess i (some ⟨.sending msg, derecho⟩))
  | addEvent {msg : Message} {derecho : DerechoThread}
      (hp : s.processes i = some ⟨.sending msg, derecho⟩) :
      Acts m c s i .addEvent
        ((s.setProcess i (some ⟨.polling, derecho⟩)).orderedSend i (.addEvent msg.toEvent))
  | queryEmpty {kafka : KafkaThread} {lastEvent : Option ReplicatedEvent}
      (hp : s.processes i = some ⟨kafka, .querying lastEvent⟩)
      (hquery : s.query i lastEvent = some []) : Acts m c s i .query s
  | query {kafka : KafkaThread} {lastEvent : Option ReplicatedEvent}
      {events : List ReplicatedEvent} {back : ReplicatedEvent}
      (hp : s.processes i = some ⟨kafka, .querying lastEvent⟩)
      (hquery : s.query i lastEvent = some events) (hback : events.getLast? = some back) :
      Acts m c s i .query (s.setProcess i (some ⟨kafka, .replicating lastEvent events back⟩))
  | queryFails {kafka : KafkaThread} {lastEvent : Option ReplicatedEvent}
      (hp : s.processes i = some ⟨kafka, .querying lastEvent⟩) : Acts m c s i .queryFails s
  | produce {kafka : KafkaThread} {lastEvent : Option ReplicatedEvent}
      {event back : ReplicatedEvent} {rest : List ReplicatedEvent}
      (hp : s.processes i = some ⟨kafka, .replicating lastEvent (event :: rest) back⟩) :
      Acts m c s i (.produce true)
        (s.setProcess i (some ⟨kafka, .flushing lastEvent event rest back .waiting⟩))
  | refused {kafka : KafkaThread} {lastEvent : Option ReplicatedEvent}
      {event back : ReplicatedEvent} {rest : List ReplicatedEvent}
      (hp : s.processes i = some ⟨kafka, .replicating lastEvent (event :: rest) back⟩) :
      Acts m c s i (.produce false) (s.exit i)
  | accepted {kafka : KafkaThread} {lastEvent : Option ReplicatedEvent}
      {event back : ReplicatedEvent} {rest : List ReplicatedEvent}
      (hp : s.processes i = some ⟨kafka, .flushing lastEvent event rest back .waiting⟩) :
      Acts m c s i (.report true)
        { s.setProcess i (some ⟨kafka, .flushing lastEvent event rest back .accepted⟩) with
          clusters := Function.update s.clusters i (s.clusters i ++ [replicateEvent event]) }
  | failed {kafka : KafkaThread} {lastEvent : Option ReplicatedEvent}
      {event back : ReplicatedEvent} {rest : List ReplicatedEvent}
      (hp : s.processes i = some ⟨kafka, .flushing lastEvent event rest back .waiting⟩) :
      Acts m c s i (.report false)
        (s.setProcess i (some ⟨kafka, .flushing lastEvent event rest back .failed⟩))
  | flush {kafka : KafkaThread} {lastEvent : Option ReplicatedEvent}
      {event back : ReplicatedEvent} {rest : List ReplicatedEvent} {delivery : Delivery}
      (hp : s.processes i = some ⟨kafka, .flushing lastEvent event rest back delivery⟩)
      (hdelivery : delivery ≠ .waiting) :
      Acts m c s i (.flush true) (s.setProcess i (some ⟨kafka, .replicating lastEvent rest back⟩))
  | timedOut {kafka : KafkaThread} {lastEvent : Option ReplicatedEvent}
      {event back : ReplicatedEvent} {rest : List ReplicatedEvent} {delivery : Delivery}
      (hp : s.processes i = some ⟨kafka, .flushing lastEvent event rest back delivery⟩) :
      Acts m c s i (.flush false) (s.exit i)
  | setLastEvent {kafka : KafkaThread} {lastEvent : Option ReplicatedEvent}
      {back : ReplicatedEvent} (hp : s.processes i = some ⟨kafka, .replicating lastEvent [] back⟩) :
      Acts m c s i .setLastEvent (s.setProcess i (some ⟨kafka, .marking back⟩))
  | markProduced {kafka : KafkaThread} {last : ReplicatedEvent}
      (hp : s.processes i = some ⟨kafka, .marking last⟩) :
      Acts m c s i .markProduced
        ((s.setProcess i (some ⟨kafka, .querying (some last)⟩)).orderedSend i
          (.markProduced i last.topic last.partition last.offset))
  | sequence {net : Broadcast UInt32 Call} (hnet : s.net.sequence i = some net) :
      Acts m c s i .sequence { s with net }
  | deliver {process : Process} {x : UInt32 × Call} {net : Broadcast UInt32 Call}
      (hp : s.processes i = some process) (hx : s.net.order[s.net.applied i]? = some x)
      (hnet : s.net.deliver i = some net) :
      Acts m c s i .deliver
        { s with net, lists := Function.update s.lists i ((s.lists i).apply x.2) }
  | crash {process : Process} (hp : s.processes i = some process) : Acts m c s i .crash (s.exit i)
  | rejoin {donor : UInt32} {copy : EventList} (hp : s.processes i = none)
      (hdonor : donor ∈ c.ids ∧ (s.processes donor).isSome ∧
        s.net.applied donor = s.net.order.length)
      (hcopy : m.transfer (s.lists donor) = some copy) :
      Acts m c s i (.rejoin donor)
        { s.setProcess i (some {}) with
          net := s.net.join i
          lists := Function.update s.lists i copy }

/-- Every statement that a process executes has one of the listed outcomes. -/
theorem acts_of_act {m : Mutils} {c : Config} {s s' : Processes} {i : UInt32} {a : Statement}
    (h : act m c s i a = some s') : Acts m c s i a s' := by
  cases a with
  | sequence =>
    obtain ⟨net, hnet, rfl⟩ := Option.map_eq_some_iff.mp h
    exact .sequence hnet
  | deliver =>
    simp only [act, Option.bind_eq_bind, Option.bind_eq_some_iff] at h
    obtain ⟨process, hp, x, hx, net, hnet, h⟩ := h
    exact Option.some.inj h ▸ .deliver hp hx hnet
  | rejoin donor =>
    simp only [act] at h
    split at h
    · rename_i hp
      simp only [Option.bind_eq_bind, Option.bind_eq_some_iff] at h
      obtain ⟨u, hguard, copy, hcopy, h⟩ := h
      exact Option.some.inj h ▸ .rejoin hp ((Option.guard_eq_some' u).mp hguard) hcopy
    · cases h
  | crash =>
    simp only [act, Option.bind_eq_bind, Option.bind_eq_some_iff] at h
    obtain ⟨process, hp, h⟩ := h
    exact Option.some.inj h ▸ .crash hp
  | poll polled =>
    simp only [act, Option.bind_eq_bind, Option.bind_eq_some_iff] at h
    obtain ⟨⟨kafka, derecho⟩, hp, h⟩ := h
    cases kafka with
    | sending msg => cases h
    | polling =>
      obtain ⟨u, hguard, h⟩ := Option.bind_eq_some_iff.mp h
      cases polled with
      | none => exact Option.some.inj h ▸ .skip hp rfl
      | some msg =>
        cases herror : msg.hasError with
        | true =>
          simp only [herror, Bool.not_true, Bool.false_eq_true, if_false] at h
          exact Option.some.inj h ▸ .skip hp (by simp [kafkaPolling, herror])
        | false =>
          simp only [herror, Bool.not_false, if_true] at h
          exact Option.some.inj h ▸ .poll hp ((Option.guard_eq_some' u).mp hguard msg rfl) herror
  | addEvent =>
    simp only [act, Option.bind_eq_bind, Option.bind_eq_some_iff] at h
    obtain ⟨⟨kafka, derecho⟩, hp, h⟩ := h
    cases kafka with
    | polling => cases h
    | sending msg => exact Option.some.inj h ▸ .addEvent hp
  | query =>
    simp only [act, Option.bind_eq_bind, Option.bind_eq_some_iff] at h
    obtain ⟨⟨kafka, derecho⟩, hp, h⟩ := h
    cases derecho with
    | querying lastEvent =>
      obtain ⟨events, hquery, h⟩ := Option.bind_eq_some_iff.mp h
      cases hback : events.getLast? with
      | none =>
        rw [hback] at h
        rw [List.getLast?_eq_none_iff.mp hback] at hquery
        exact Option.some.inj h ▸ .queryEmpty hp hquery
      | some back =>
        rw [hback] at h
        exact Option.some.inj h ▸ .query hp hquery hback
    | _ => cases h
  | queryFails =>
    simp only [act, Option.bind_eq_bind, Option.bind_eq_some_iff] at h
    obtain ⟨⟨kafka, derecho⟩, hp, h⟩ := h
    cases derecho with
    | querying lastEvent => exact Option.some.inj h ▸ .queryFails hp
    | _ => cases h
  | produce queued =>
    simp only [act, Option.bind_eq_bind, Option.bind_eq_some_iff] at h
    obtain ⟨⟨kafka, derecho⟩, hp, h⟩ := h
    obtain _ | ⟨lastEvent, _ | ⟨event, rest⟩, back⟩ | _ | _ := derecho
    case replicating.cons =>
      cases queued with
      | true => exact Option.some.inj h ▸ .produce hp
      | false => exact Option.some.inj h ▸ .refused hp
    all_goals cases h
  | report accepted =>
    simp only [act, Option.bind_eq_bind, Option.bind_eq_some_iff] at h
    obtain ⟨⟨kafka, derecho⟩, hp, h⟩ := h
    obtain _ | _ | ⟨lastEvent, event, rest, back, _ | _ | _⟩ | _ := derecho
    case flushing.waiting =>
      cases accepted with
      | true => exact Option.some.inj h ▸ .accepted hp
      | false => exact Option.some.inj h ▸ .failed hp
    all_goals cases h
  | flush returns =>
    simp only [act, Option.bind_eq_bind, Option.bind_eq_some_iff] at h
    obtain ⟨⟨kafka, derecho⟩, hp, h⟩ := h
    cases derecho with
    | flushing lastEvent event rest back delivery =>
      cases returns with
      | true =>
        simp only [if_true] at h
        split_ifs at h with hdelivery
        exact Option.some.inj h ▸ .flush hp hdelivery
      | false => exact Option.some.inj h ▸ .timedOut hp
    | _ => cases h
  | setLastEvent =>
    simp only [act, Option.bind_eq_bind, Option.bind_eq_some_iff] at h
    obtain ⟨⟨kafka, derecho⟩, hp, h⟩ := h
    obtain _ | ⟨lastEvent, _ | ⟨event, rest⟩, back⟩ | _ | _ := derecho
    case replicating.nil => exact Option.some.inj h ▸ .setLastEvent hp
    all_goals cases h
  | markProduced =>
    simp only [act, Option.bind_eq_bind, Option.bind_eq_some_iff] at h
    obtain ⟨⟨kafka, derecho⟩, hp, h⟩ := h
    cases derecho with
    | marking last => exact Option.some.inj h ▸ .markProduced hp
    | _ => cases h

end Processes

/-! ### What the actions make of it -/

/-- The record of a thread that the cluster has and the program does not have yet. -/
def DerechoThread.pending : DerechoThread → List MessageBuilder
  | .flushing _ event _ _ .accepted => [replicateEvent event]
  | _ => []

/-- The thread as the program has it. It has not begun what is not finished. -/
inductive DerechoThread.Views : DerechoThread → Thread → Prop
  | querying {lastEvent : Option ReplicatedEvent} : Views (.querying lastEvent) ⟨lastEvent, none⟩
  | replicating {lastEvent : Option ReplicatedEvent} {events : List ReplicatedEvent}
      {back : ReplicatedEvent} :
      Views (.replicating lastEvent events back) ⟨lastEvent, some (events, back)⟩
  | flushing {lastEvent : Option ReplicatedEvent} {event back : ReplicatedEvent}
      {rest : List ReplicatedEvent} {delivery : Delivery} :
      Views (.flushing lastEvent event rest back delivery) ⟨lastEvent, some (event :: rest, back)⟩
  | marking {lastEvent : Option ReplicatedEvent} {back : ReplicatedEvent} :
      Views (.marking back) ⟨lastEvent, some ([], back)⟩

/-- What `kafka_polling` holds is a record of the subscribed topic. -/
def KafkaThread.Holds (topic : Bytes) : KafkaThread → Prop
  | .polling => True
  | .sending msg => msg.topic = topic ∧ msg.hasError = false

/-- A process with its cluster, and the thread of the program with its cluster, view each other: the
cluster of the process may be ahead by a record whose `flush` has not returned. -/
inductive ViewsAt (topic : Bytes) :
    Option Process → List MessageBuilder → Option Thread → List MessageBuilder → Prop
  | down {cluster accepted : List MessageBuilder} (hcluster : cluster = accepted) :
      ViewsAt topic none cluster none accepted
  | up {kafka : KafkaThread} {derecho : DerechoThread} {thread : Thread}
      {cluster accepted : List MessageBuilder} (hkafka : kafka.Holds topic)
      (hderecho : derecho.Views thread) (hcluster : cluster = accepted ++ derecho.pending) :
      ViewsAt topic (some ⟨kafka, derecho⟩) cluster (some thread) accepted

/-- A round of the `for` loop. -/
theorem Program.act_round {m : Mutils} {c : Config} {p : Program} {i : UInt32}
    {lastEvent : Option ReplicatedEvent} {event back : ReplicatedEvent}
    {rest : List ReplicatedEvent}
    (ht : p.threads i = some ⟨lastEvent, some (event :: rest, back)⟩) (outcome : Outcome) :
    Program.act m c p i (.round outcome) = some (if outcome.returns then
      (p.replicateEvent i event outcome).setThread i (some ⟨lastEvent, some (rest, back)⟩)
      else (p.replicateEvent i event outcome).crash i) := by
  simp only [Program.act, ht, Option.bind_eq_bind, Option.bind_some]
  split <;> rfl

namespace Processes

/-- The processes and the program have the same calls under way and the same lists, and view each
other at every instance. -/
structure Views (c : Config) (s : Processes) (p : Program) : Prop where
  net : s.net = p.net
  lists : s.lists = p.lists
  instances : ∀ i, ViewsAt (c.topic i) (s.processes i) (s.clusters i) (p.threads i) (p.accepted i)

/-- The actions that happen with a statement. -/
def Statement.actions (process : Option Process) : Statement → List Program.Action
  | .poll _ | .produce true | .report _ | .setLastEvent => []
  | .addEvent =>
    match process with
    | some ⟨.sending msg, _⟩ => [.kafkaPoll (some msg)]
    | _ => []
  | .query => [.query]
  | .queryFails => [.queryFails]
  | .produce false => [.round .refused]
  | .flush true =>
    match process with
    | some ⟨_, .flushing _ _ _ _ .accepted⟩ => [.round .accepted]
    | some ⟨_, .flushing _ _ _ _ .failed⟩ => [.round .failed]
    | _ => []
  | .flush false | .crash =>
    match process with
    | some ⟨_, .flushing _ _ _ _ delivery⟩ => [.round (.timedOut (delivery = .accepted))]
    | _ => [.crash]
  | .markProduced => [.mark]
  | .sequence => [.sequence]
  | .deliver => [.deliver]
  | .rejoin donor => [.rejoin donor]

section Step

variable {m : Mutils} {c : Config} {s s' : Processes} {p : Program} {i : UInt32}

theorem views_init (c : Config) : (init c).Views c (.init c) where
  net := rfl
  lists := rfl
  instances _ := .up trivial .querying rfl

/-- A process that runs, as the program has it. -/
theorem Views.exists_thread (h : s.Views c p) {kafka : KafkaThread} {derecho : DerechoThread}
    (hi : s.processes i = some ⟨kafka, derecho⟩) :
    ∃ thread, p.threads i = some thread ∧ kafka.Holds (c.topic i) ∧ derecho.Views thread ∧
      s.clusters i = p.accepted i ++ derecho.pending := by
  have hview := h.instances i
  generalize p.threads i = thread at hview
  rw [hi] at hview
  cases hview with
  | up hkafka hderecho hcluster => exact ⟨_, rfl, hkafka, hderecho, hcluster⟩

/-- An instance whose process is down is down in the program, where its cluster has the same
records. -/
theorem Views.threads_eq_none (h : s.Views c p) (hi : s.processes i = none) :
    p.threads i = none ∧ s.clusters i = p.accepted i := by
  have hview := h.instances i
  generalize p.threads i = thread at hview
  rw [hi] at hview
  cases hview with
  | down hcluster => exact ⟨rfl, hcluster⟩

/-- If a process with its cluster and an instance with its cluster view each other, they can take
the places of those at `i`. -/
theorem Views.update (h : s.Views c p) {process : Option Process} {cluster : List MessageBuilder}
    {thread : Option Thread} {accepted : List MessageBuilder}
    (hi : ViewsAt (c.topic i) process cluster thread accepted) :
    ({ s.setProcess i process with clusters := Function.update s.clusters i cluster }).Views c
      { p.setThread i thread with accepted := Function.update p.accepted i accepted } where
  net := h.net
  lists := h.lists
  instances j := by
    simp only [Processes.setProcess, Program.setThread]
    rcases eq_or_ne j i with rfl | hj
    · simpa only [Function.update_self] using hi
    · simpa only [Function.update_of_ne hj] using h.instances j

/-- A new process and a new thread that view each other over the same clusters can take the places
of those at `i`. -/
theorem Views.setThread (h : s.Views c p) {process : Option Process} {thread : Option Thread}
    (hi : ViewsAt (c.topic i) process (s.clusters i) thread (p.accepted i)) :
    (s.setProcess i process).Views c (p.setThread i thread) := by
  have hupdate := h.update hi
  rwa [Function.update_eq_self, Function.update_eq_self] at hupdate

/-- A new process that still views the thread at `i` can take the place of the process there. -/
theorem Views.setProcess (h : s.Views c p) {process : Option Process}
    (hi : ViewsAt (c.topic i) process (s.clusters i) (p.threads i) (p.accepted i)) :
    (s.setProcess i process).Views c p := by
  have hupdate := h.setThread hi
  rwa [Program.setThread, Function.update_eq_self] at hupdate

theorem Views.orderedSend (h : s.Views c p) (call : Call) :
    (s.orderedSend i call).Views c (p.orderedSend i call) where
  net := congrArg (·.send i call) h.net
  lists := h.lists
  instances := h.instances

theorem Views.query_eq (h : s.Views c p) (lastEvent : Option ReplicatedEvent) :
    s.query i lastEvent = p.query i lastEvent := by
  rw [Processes.query, Program.query, h.lists]

/-- When a process ends and the program takes over what its cluster has, both are down with the same
records. -/
theorem Views.exit (h : s.Views c p) {accepted : List MessageBuilder}
    (hcluster : s.clusters i = accepted) : (s.exit i).Views c
      (({ p with accepted := Function.update p.accepted i accepted } : Program).crash i) := by
  have hupdate := h.update (i := i) (.down hcluster)
  rw [Function.update_eq_self] at hupdate
  exact ⟨congrArg (·.crash i) h.net, hupdate.lists, hupdate.instances⟩

/-- The program can take the actions that happen with a statement, to a state that views the one
after the statement. -/
def Follows (m : Mutils) (c : Config) (s : Processes) (p : Program) (i : UInt32) (a : Statement)
    (s' : Processes) : Prop :=
  ∃ p', Machine.exec (Program.step m c) p
    ((a.actions (s.processes i)).map fun action => (i, action)) = some p' ∧ s'.Views c p'

/-- A statement with which no action happens is followed by no step of the program. -/
theorem follows_nil {a : Statement} (hnil : a.actions (s.processes i) = [])
    (h : s'.Views c p) : Follows m c s p i a s' := ⟨p, by rw [hnil]; rfl, h⟩

/-- A statement with which one action happens is followed by a step of that action. -/
theorem follows_one {a : Statement} {action : Program.Action} {p' : Program} (hi : i ∈ c.ids)
    (hone : a.actions (s.processes i) = [action]) (hact : Program.act m c p i action = some p')
    (h : s'.Views c p') : Follows m c s p i a s' := by
  refine ⟨p', ?_, h⟩
  rw [hone, List.map_singleton, Machine.exec_cons, Program.step, if_pos hi, hact]
  rfl

variable (h : s.Views c p)

include h

/-- The record that is queued stays with the cluster as its delivery has left it. -/
theorem follows_exit_of_queued {a : Statement} {kafka : KafkaThread}
    {lastEvent : Option ReplicatedEvent} {event back : ReplicatedEvent}
    {rest : List ReplicatedEvent} {delivery : Delivery} (hi : i ∈ c.ids)
    (hp : s.processes i = some ⟨kafka, .flushing lastEvent event rest back delivery⟩)
    (ha : a.actions (s.processes i) = [.round (.timedOut (delivery = .accepted))]) :
    Follows m c s p i a (s.exit i) := by
  obtain ⟨thread, ht, -, hderecho, hcluster⟩ := h.exists_thread hp
  cases hderecho
  refine follows_one hi ha (Program.act_round ht _) (h.exit ?_)
  rw [hcluster]
  cases delivery with
  | accepted => rfl
  | _ => exact List.append_nil _

/-- A process that ends while nothing is queued is followed by a crash of its instance. -/
theorem follows_exit {a : Statement} {kafka : KafkaThread} {derecho : DerechoThread}
    (hi : i ∈ c.ids) (hp : s.processes i = some ⟨kafka, derecho⟩) (hpending : derecho.pending = [])
    (ha : a.actions (s.processes i) = [.crash]) : Follows m c s p i a (s.exit i) := by
  obtain ⟨thread, ht, -, -, hcluster⟩ := h.exists_thread hp
  rw [hpending, List.append_nil] at hcluster
  have hview := h.exit hcluster
  rw [Function.update_eq_self] at hview
  refine follows_one hi ha ?_ hview
  simp only [Program.act, ht, Option.bind_eq_bind, Option.bind_some]

/-- The return of `flush` is followed by the round of the loop, which brings the program the record.
-/
theorem follows_flush {kafka : KafkaThread} {lastEvent : Option ReplicatedEvent}
    {event back : ReplicatedEvent} {rest : List ReplicatedEvent} {delivery : Delivery}
    (hi : i ∈ c.ids)
    (hp : s.processes i = some ⟨kafka, .flushing lastEvent event rest back delivery⟩)
    (hdelivery : delivery ≠ .waiting) :
    Follows m c s p i (.flush true)
      (s.setProcess i (some ⟨kafka, .replicating lastEvent rest back⟩)) := by
  obtain ⟨thread, ht, hkafka, hderecho, hcluster⟩ := h.exists_thread hp
  cases hderecho
  have hview : ∀ accepted, s.clusters i = accepted →
      (s.setProcess i (some ⟨kafka, .replicating lastEvent rest back⟩)).Views c
        ({ p.setThread i (some ⟨lastEvent, some (rest, back)⟩) with
          accepted := Function.update p.accepted i accepted }) := by
    intro accepted haccepted
    have hat : ViewsAt (c.topic i) (some ⟨kafka, .replicating lastEvent rest back⟩)
        (s.clusters i) (some ⟨lastEvent, some (rest, back)⟩) accepted :=
      .up hkafka .replicating (haccepted.trans (List.append_nil accepted).symm)
    have hupdate := h.update hat
    rwa [Function.update_eq_self] at hupdate
  cases delivery with
  | waiting => contradiction
  | accepted =>
    exact follows_one hi (by rw [hp]; rfl) (Program.act_round ht .accepted) (hview _ hcluster)
  | failed =>
    exact follows_one hi (by rw [hp]; rfl) (Program.act_round ht .failed)
      (hview _ (hcluster.trans (List.append_nil _)))

theorem follows_rejoin {donor : UInt32} {copy : EventList} (hi : i ∈ c.ids)
    (hp : s.processes i = none)
    (hdonor : donor ∈ c.ids ∧ (s.processes donor).isSome ∧
      s.net.applied donor = s.net.order.length)
    (hcopy : m.transfer (s.lists donor) = some copy) :
    Follows m c s p i (.rejoin donor)
      { s.setProcess i (some {}) with
        net := s.net.join i
        lists := Function.update s.lists i copy } := by
  obtain ⟨ht, hcluster⟩ := h.threads_eq_none hp
  have hup : (p.threads donor).isSome = (s.processes donor).isSome := by
    cases hd : s.processes donor with
    | none => rw [(h.threads_eq_none hd).1]; rfl
    | some process =>
      obtain ⟨thread, htd, -⟩ := h.exists_thread hd
      rw [htd]
      rfl
  have hat : ViewsAt (c.topic i) (some {}) (s.clusters i) (some {}) (p.accepted i) :=
    .up trivial .querying (hcluster.trans (List.append_nil _).symm)
  have hview : ({ s.setProcess i (some {}) with
      net := s.net.join i, lists := Function.update s.lists i copy } : Processes).Views c
        { p.setThread i (some {}) with
          net := p.net.join i, lists := Function.update p.lists i copy } :=
    ⟨by rw [h.net], by rw [h.lists], (h.setThread hat).instances⟩
  refine follows_one hi rfl ?_ hview
  rw [h.net, ← hup] at hdonor
  rw [h.lists] at hcopy
  simp only [Program.act, ht, Option.bind_eq_bind, (Option.guard_eq_some' ()).mpr hdonor, hcopy,
    Option.bind_some]

/-- **Every step** is followed by the actions that happen with it. -/
theorem follows_of_acts {a : Statement} (hi : i ∈ c.ids) (hacts : Acts m c s i a s') :
    Follows m c s p i a s' := by
  cases hacts with
  | skip => exact follows_nil rfl h
  | poll hp htopic herror =>
    obtain ⟨thread, ht, -, hderecho, hcluster⟩ := h.exists_thread hp
    exact follows_nil rfl (h.setProcess (ht ▸ .up ⟨htopic, herror⟩ hderecho hcluster))
  | addEvent hp =>
    obtain ⟨thread, ht, ⟨htopic, herror⟩, hderecho, hcluster⟩ := h.exists_thread hp
    refine follows_one hi (by rw [hp]; rfl) ?_
      ((h.setProcess (ht ▸ .up trivial hderecho hcluster)).orderedSend _)
    simp [Program.act, ht, guard, htopic, kafkaPolling, herror]
  | queryEmpty hp hquery =>
    obtain ⟨thread, ht, -, hderecho, -⟩ := h.exists_thread hp
    cases hderecho
    rw [h.query_eq] at hquery
    refine follows_one hi rfl ?_ h
    simp only [Program.act, ht, Option.bind_eq_bind, Option.bind_some, hquery, List.getLast?_nil]
  | query hp hquery hback =>
    obtain ⟨thread, ht, hkafka, hderecho, hcluster⟩ := h.exists_thread hp
    cases hderecho
    rw [h.query_eq] at hquery
    refine follows_one hi rfl ?_ (h.setThread (.up hkafka .replicating hcluster))
    simp only [Program.act, ht, Option.bind_eq_bind, Option.bind_some, hquery, hback]
  | queryFails hp =>
    obtain ⟨thread, ht, -, hderecho, -⟩ := h.exists_thread hp
    cases hderecho
    refine follows_one hi rfl ?_ h
    simp only [Program.act, ht, Option.bind_eq_bind, Option.bind_some]
  | produce hp =>
    obtain ⟨thread, ht, hkafka, hderecho, hcluster⟩ := h.exists_thread hp
    cases hderecho
    exact follows_nil rfl (h.setProcess (ht ▸ .up hkafka .flushing hcluster))
  | refused hp =>
    obtain ⟨thread, ht, -, hderecho, hcluster⟩ := h.exists_thread hp
    cases hderecho
    exact follows_one hi rfl (Program.act_round ht .refused)
      (h.exit (hcluster.trans (List.append_nil _)))
  | @accepted kafka lastEvent event back rest hp =>
    obtain ⟨thread, ht, hkafka, hderecho, hcluster⟩ := h.exists_thread hp
    cases hderecho
    have hat : ViewsAt (c.topic i) (some ⟨kafka, .flushing lastEvent event rest back .accepted⟩)
        (s.clusters i ++ [replicateEvent event]) (p.threads i) (p.accepted i) := by
      rw [ht, hcluster]
      exact .up hkafka .flushing (congrArg (· ++ _) (List.append_nil _))
    have hupdate := h.update hat
    rw [Program.setThread, Function.update_eq_self, Function.update_eq_self] at hupdate
    exact follows_nil rfl hupdate
  | failed hp =>
    obtain ⟨thread, ht, hkafka, hderecho, hcluster⟩ := h.exists_thread hp
    cases hderecho
    exact follows_nil rfl (h.setProcess (ht ▸ .up hkafka .flushing hcluster))
  | flush hp hdelivery => exact follows_flush h hi hp hdelivery
  | timedOut hp => exact follows_exit_of_queued h hi hp (by rw [hp]; rfl)
  | setLastEvent hp =>
    obtain ⟨thread, ht, hkafka, hderecho, hcluster⟩ := h.exists_thread hp
    cases hderecho
    exact follows_nil rfl (h.setProcess (ht ▸ .up hkafka .marking hcluster))
  | markProduced hp =>
    obtain ⟨thread, ht, hkafka, hderecho, hcluster⟩ := h.exists_thread hp
    cases hderecho
    refine follows_one hi rfl ?_ ((h.setThread (.up hkafka .querying hcluster)).orderedSend _)
    simp only [Program.act, ht, Option.bind_eq_bind, Option.bind_some]
  | @sequence net hnet =>
    have hview : ({ s with net } : Processes).Views c { p with net } := ⟨rfl, h.lists, h.instances⟩
    refine follows_one hi rfl ?_ hview
    simp only [Program.act, ← h.net, hnet, Option.map_some]
  | @deliver process x net hp hx hnet =>
    obtain ⟨thread, ht, -⟩ := h.exists_thread hp
    have hview : ({ s with
        net, lists := Function.update s.lists i ((s.lists i).apply x.2) } : Processes).Views c
          { p with net, lists := Function.update p.lists i ((p.lists i).apply x.2) } :=
      ⟨rfl, by rw [h.lists], h.instances⟩
    refine follows_one hi rfl ?_ hview
    simp only [Program.act, ht, ← h.net, hx, hnet, Option.bind_eq_bind, Option.bind_some]
  | @crash process hp =>
    obtain ⟨kafka, derecho⟩ := process
    cases derecho with
    | flushing => exact follows_exit_of_queued h hi hp (by rw [hp]; rfl)
    | _ => exact follows_exit h hi hp rfl (by rw [hp]; rfl)
  | rejoin hp hdonor hcopy => exact follows_rejoin h hi hp hdonor hcopy

end Step

end Processes

end Kdsync
