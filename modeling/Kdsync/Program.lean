import Kdsync.Clusters
import Kdsync.EventList.Transfer

/-!
# The program itself

The group model and its clusters count positions, and have the list of each replica as what the
total order makes of it. Here nothing is left that the program does not have: every replica keeps
one list and changes it in place, a query reads that list, and an instance that restarts is sent the
bytes of the list of another one (`Program.step`).

Forgetting the positions of the group model gives the program (`Clusters.erase`), and every run of
the program comes from such a run (`Program.exists_clusters`). What is proved with the positions
therefore holds of the program.
-/

namespace Kdsync

/-- The local variables of `derecho_polling`. Inside the `for` loop: the events that are not
replicated yet, and `back()`. -/
structure Thread where
  lastEvent : Option ReplicatedEvent := none
  batch : Option (List ReplicatedEvent × ReplicatedEvent) := none
  deriving DecidableEq

/-- The instances, with Derecho between them and the clusters behind them. -/
structure Program where
  /-- The calls of `ordered_send`. -/
  net : Broadcast UInt32 Call
  /-- The list on the replica of an instance. -/
  lists : UInt32 → EventList
  /-- `derecho_polling`, unless the instance is down. -/
  threads : UInt32 → Option Thread
  /-- The records that a cluster has accepted from its instance. -/
  accepted : UInt32 → List MessageBuilder

namespace Program

/-- All instances have started, nothing has happened. -/
def init (c : Config) : Program where
  net := .init
  lists _ := .new c.nReplicas c.eventChunk
  threads _ := some {}
  accepted _ := []

/-- The events added so far, in the total order. -/
def log (s : Program) : List ReplicatedEvent := added (s.net.order.map Prod.snd)

/-- The events added so far on the replica of an instance. -/
def localLog (s : Program) (r : UInt32) : List ReplicatedEvent :=
  added ((s.net.delivered r).map Prod.snd)

/-- The query of `derecho_polling`, on the replica of the instance itself. -/
def query (s : Program) (i : UInt32) (lastEvent : Option ReplicatedEvent) :
    Option (List ReplicatedEvent) := (s.lists i).query i lastEvent

/-- New local variables for an instance. -/
def setThread (s : Program) (i : UInt32) (t : Option Thread) : Program :=
  { s with threads := Function.update s.threads i t }

/-- `ordered_send`. -/
def orderedSend (s : Program) (i : UInt32) (call : Call) : Program :=
  { s with net := s.net.send i call }

/-- An instance ends. -/
def crash (s : Program) (i : UInt32) : Program :=
  { s.setThread i none with net := s.net.crash i }

/-- `replicate_event`, with what becomes of the record. -/
def replicateEvent (s : Program) (i : UInt32) (event : ReplicatedEvent) (outcome : Outcome) :
    Program :=
  { s with accepted := Function.update s.accepted i (outcome.produce event (s.accepted i)) }

/-- What an instance does, or Derecho on its behalf. -/
inductive Action
  /-- An iteration of `kafka_polling`, with the result of `poll`. -/
  | kafkaPoll (polled : Option Message)
  /-- The query of `derecho_polling`. -/
  | query
  /-- The query ends in the caught exception. -/
  | queryFails
  /-- A round of the `for` loop, with what becomes of the record. -/
  | round (outcome : Outcome)
  /-- The assignment of `last_event` and the `ordered_send` of `mark_produced`. -/
  | mark
  /-- The oldest call of the instance becomes part of the total order. -/
  | sequence
  /-- The replica applies the next call of the total order. -/
  | deliver
  | crash
  /-- The instance restarts under its id, and is sent the list of the given instance. -/
  | rejoin (donor : UInt32)
  deriving DecidableEq

/-- One action of instance `i`. A query whose range is invalid has no step. -/
def act (m : Mutils) (c : Config) (s : Program) (i : UInt32) : Action → Option Program
  | .kafkaPoll polled => do
    let _ ← s.threads i
    guard (∀ msg ∈ polled, msg.topic = c.topic i)
    match kafkaPolling polled with
    | none => some s
    | some event => some (s.orderedSend i (.addEvent event))
  | .query => do
    match ← s.threads i with
    | ⟨lastEvent, none⟩ =>
      let eventsToReplicate ← s.query i lastEvent
      match eventsToReplicate.getLast? with
      -- an empty batch is neither replicated nor marked
      | none => some s
      | some back => some (s.setThread i (some ⟨lastEvent, some (eventsToReplicate, back)⟩))
    | _ => none
  | .queryFails => do
    match ← s.threads i with
    -- `events_to_replicate` stays empty
    | ⟨_, none⟩ => some s
    | _ => none
  | .round outcome => do
    match ← s.threads i with
    | ⟨lastEvent, some (event :: rest, back)⟩ =>
      let s := s.replicateEvent i event outcome
      -- an exception ends the program
      if outcome.returns then some (s.setThread i (some ⟨lastEvent, some (rest, back)⟩))
      else some (s.crash i)
    | _ => none
  | .mark => do
    match ← s.threads i with
    | ⟨_, some ([], back)⟩ =>
      some ((s.setThread i (some ⟨some back, none⟩)).orderedSend i
        (.markProduced i back.topic back.partition back.offset))
    | _ => none
  | .sequence => (s.net.sequence i).map fun net => { s with net }
  | .deliver => do
    -- a replica that is down applies nothing
    let _ ← s.threads i
    let x ← s.net.order[s.net.applied i]?
    let net ← s.net.deliver i
    some { s with net, lists := Function.update s.lists i ((s.lists i).apply x.2) }
  | .crash => do
    let _ ← s.threads i
    some (s.crash i)
  | .rejoin donor =>
    match s.threads i with
    | none => do
      -- the list is that of a member that has applied the whole total order
      guard (donor ∈ c.ids ∧ (s.threads donor).isSome ∧ s.net.applied donor = s.net.order.length)
      let copy ← m.transfer (s.lists donor)
      some
        { s.setThread i (some {}) with
          net := s.net.join i
          lists := Function.update s.lists i copy }
    | some _ => none

/-- One step of the program: an action of one of the instances. -/
def step (m : Mutils) (c : Config) (s : Program) (a : UInt32 × Action) : Option Program :=
  if a.1 ∈ c.ids then act m c s a.1 a.2 else none

/-- The action in the model that counts positions. -/
def Action.counted : Action → Clusters.Action
  | .kafkaPoll polled => .group (.kafkaPoll polled)
  | .query => .group .query
  | .queryFails => .group .queryFails
  | .round outcome => .round outcome
  | .mark => .group .mark
  | .sequence => .group .sequence
  | .deliver => .group .deliver
  | .crash => .group .crash
  | .rejoin _ => .group .rejoin

end Program

/-! ### Forgetting the positions -/

/-- The local variables without positions. -/
def Polling.erase (p : Polling) : Thread :=
  ⟨p.lastEvent.map Served.event, p.batch.map fun b => (b.rest, b.back)⟩

/-- The program without positions. -/
def Clusters.erase (c : Config) (s : Clusters) : Program where
  net := s.system.net.map Rpc.call
  lists := s.system.list c
  threads i := (s.system.polling i).map Polling.erase
  accepted := s.accepted

namespace Clusters

section Erase

variable {m : Mutils} {c : Config} {s : Clusters} {i : UInt32} {a : Program.Action} {p : Program}

theorem erase_init (c : Config) : (init.erase c) = .init c := rfl

/-- New local variables for one instance. -/
theorem erase_update (polling : UInt32 → Option Polling) (q : Option Polling) :
    (fun j => (Function.update polling i q j).map Polling.erase) =
      Function.update (fun j => (polling j).map Polling.erase) i (q.map Polling.erase) := by
  funext j
  rcases eq_or_ne j i with rfl | hj
  · rw [Function.update_self, Function.update_self]
  · rw [Function.update_of_ne hj, Function.update_of_ne hj]

theorem erase_setPolling (q : Option Polling) :
    ({ s with system := s.system.setPolling i q }).erase c =
      (s.erase c).setThread i (q.map Polling.erase) := by
  simp only [erase, Program.setThread, System.setPolling, erase_update]
  rfl

theorem erase_orderedSend (rpc : Rpc) :
    ({ s with system := s.system.orderedSend i rpc }).erase c =
      (s.erase c).orderedSend i (rpc.call i) := by
  simp only [erase, Program.orderedSend, System.orderedSend, Broadcast.map_send]
  rfl

theorem erase_crash :
    ({ s with system := { s.system.setPolling i none with net := s.system.net.crash i } }).erase c =
      (s.erase c).crash i := by
  simp only [erase, Program.crash, Program.setThread, System.setPolling, erase_update,
    Broadcast.map_crash]
  rfl

/-- A query reads the same events from the list of the program as from that of the group. -/
theorem query_erase (lastEvent : Option Served) :
    (s.erase c).query i (lastEvent.map Served.event) = s.system.query c i lastEvent := rfl

/-- The local variables of an instance that is up are those of the group model without positions. -/
theorem exists_polling_of_erase {t : Thread} (h : (s.erase c).threads i = some t) :
    ∃ q, s.system.polling i = some q ∧ q.erase = t := Option.map_eq_some_iff.mp h

/-! ### One step -/

theorem exists_act_kafkaPoll {polled : Option Message}
    (h : Program.act m c (s.erase c) i (.kafkaPoll polled) = some p) :
    ∃ system, act c s.system i (.kafkaPoll polled) = some system ∧
      ({ s with system }).erase c = p := by
  simp only [Program.act, Option.bind_eq_bind, Option.bind_eq_some_iff] at h
  obtain ⟨t, ht, u, hguard, h⟩ := h
  obtain ⟨q, hq, -⟩ := exists_polling_of_erase ht
  simp only [act, hq, Option.bind_eq_bind, Option.bind_some, hguard]
  cases hpolled : kafkaPolling polled with
  | none =>
    simp only [hpolled, Option.some.injEq] at h
    exact ⟨s.system, rfl, h⟩
  | some event =>
    simp only [hpolled, Option.some.injEq] at h
    exact ⟨_, rfl, (erase_orderedSend _).trans h⟩

theorem exists_act_query (h : Program.act m c (s.erase c) i .query = some p) :
    ∃ system, act c s.system i .query = some system ∧ ({ s with system }).erase c = p := by
  simp only [Program.act, Option.bind_eq_bind, Option.bind_eq_some_iff] at h
  obtain ⟨t, ht, h⟩ := h
  obtain ⟨⟨lastEvent, batch⟩, hq, rfl⟩ := exists_polling_of_erase ht
  cases batch with
  | some b => cases h
  | none =>
    simp only [Polling.erase, Option.map_none, query_erase, Option.bind_eq_some_iff] at h
    obtain ⟨events, hevents, h⟩ := h
    simp only [act, hq, Option.bind_eq_bind, Option.bind_some, hevents]
    cases hback : events.getLast? with
    | none =>
      simp only [hback, Option.some.injEq] at h
      exact ⟨s.system, rfl, h⟩
    | some back =>
      simp only [hback, Option.some.injEq] at h
      exact ⟨_, rfl, (erase_setPolling _).trans h⟩

theorem exists_act_queryFails (h : Program.act m c (s.erase c) i .queryFails = some p) :
    ∃ system, act c s.system i .queryFails = some system ∧ ({ s with system }).erase c = p := by
  simp only [Program.act, Option.bind_eq_bind, Option.bind_eq_some_iff] at h
  obtain ⟨t, ht, h⟩ := h
  obtain ⟨⟨lastEvent, batch⟩, hq, rfl⟩ := exists_polling_of_erase ht
  cases batch with
  | some b => cases h
  | none =>
    refine ⟨s.system, ?_, Option.some.inj h⟩
    simp only [act, hq, Option.bind_eq_bind, Option.bind_some]

theorem exists_act_mark (h : Program.act m c (s.erase c) i .mark = some p) :
    ∃ system, act c s.system i .mark = some system ∧ ({ s with system }).erase c = p := by
  simp only [Program.act, Option.bind_eq_bind, Option.bind_eq_some_iff] at h
  obtain ⟨t, ht, h⟩ := h
  obtain ⟨⟨lastEvent, batch⟩, hq, rfl⟩ := exists_polling_of_erase ht
  match batch with
  | none => cases h
  | some ⟨_ :: _, _, _⟩ => cases h
  | some ⟨[], next, back⟩ =>
    refine ⟨_, by simp only [act, hq, Option.bind_eq_bind, Option.bind_some]; rfl, ?_⟩
    rw [← Option.some.inj h]
    exact (erase_orderedSend (s := { s with system := s.system.setPolling i _ }) _).trans
      (congrArg (Program.orderedSend · i _) (erase_setPolling _))

theorem exists_act_sequence (h : Program.act m c (s.erase c) i .sequence = some p) :
    ∃ system, act c s.system i .sequence = some system ∧ ({ s with system }).erase c = p := by
  simp only [Program.act, Option.map_eq_some_iff] at h
  obtain ⟨net, hnet, rfl⟩ := h
  rw [erase, Broadcast.map_sequence] at hnet
  obtain ⟨net, hsequence, rfl⟩ := Option.map_eq_some_iff.mp hnet
  refine ⟨{ s.system with net }, by simp only [act, hsequence, Option.map_some], ?_⟩
  obtain ⟨_, _, -, -, -, hdelivered⟩ := Broadcast.sequence_cases hsequence
  simp only [erase, Program.mk.injEq, true_and, and_true]
  funext r
  rw [System.list, System.list, hdelivered]

theorem exists_act_deliver (h : Program.act m c (s.erase c) i .deliver = some p) :
    ∃ system, act c s.system i .deliver = some system ∧ ({ s with system }).erase c = p := by
  simp only [Program.act, Option.bind_eq_bind, Option.bind_eq_some_iff] at h
  obtain ⟨t, ht, y, hy, net, hnet, h⟩ := h
  obtain ⟨q, hq, -⟩ := exists_polling_of_erase ht
  rw [erase, Broadcast.map_deliver] at hnet
  obtain ⟨net, hdeliver, rfl⟩ := Option.map_eq_some_iff.mp hnet
  refine ⟨{ s.system with net }, ?_, ?_⟩
  · simp only [act, hq, Option.bind_eq_bind, Option.bind_some, hdeliver, Option.map_some]
  · obtain ⟨x, hx, -, -, hdelivered⟩ := Broadcast.deliver_cases hdeliver
    have hcall : y = (x.1, x.2.call x.1) := by
      have hget : (s.erase c).net.order[(s.erase c).net.applied i]? =
          (s.system.net.order[s.system.net.applied i]?).map fun x => (x.1, x.2.call x.1) :=
        List.getElem?_map
      rw [hget, hx] at hy
      exact (Option.some.inj hy).symm
    rw [← Option.some.inj h, hcall]
    simp only [erase, Program.mk.injEq, true_and, and_true]
    funext r
    rw [System.list, hdelivered]
    rcases eq_or_ne r i with rfl | hr
    · rw [Function.update_self, Function.update_self, calls_append, EventList.replay_append]
      rfl
    · rw [Function.update_of_ne hr, Function.update_of_ne hr]
      rfl

theorem exists_act_crash (h : Program.act m c (s.erase c) i .crash = some p) :
    ∃ system, act c s.system i .crash = some system ∧ ({ s with system }).erase c = p := by
  simp only [Program.act, Option.bind_eq_bind, Option.bind_eq_some_iff] at h
  obtain ⟨t, ht, h⟩ := h
  obtain ⟨q, hq, -⟩ := exists_polling_of_erase ht
  refine ⟨_, by simp only [act, hq, Option.bind_eq_bind, Option.bind_some]; rfl, ?_⟩
  exact erase_crash.trans (Option.some.inj h)

/-- A replica that is sent the list of another one has the same list. -/
theorem transfer_list (m : Mutils) (c : Config) (s : System) (r : UInt32) :
    m.transfer (s.list c r) = some (s.list c r) := by
  have hchunk : (s.list c r).eventChunk = c.eventChunk.toInt32 := EventList.eventChunk_replay _ _
  have hne : c.eventChunk ≠ 0 := by
    intro hzero
    have hpos := c.chunk_pos
    rw [hzero] at hpos
    exact absurd hpos (by decide)
  rw [m.transfer_eq, hchunk, UInt32.toUInt32_toInt32, EventList.ofFields,
    (EventList.ofFields_chunk_eq_iff _).mpr hne, ← hchunk]

theorem exists_act_rejoin {donor : UInt32}
    (h : Program.act m c (s.erase c) i (.rejoin donor) = some p) :
    ∃ system, act c s.system i .rejoin = some system ∧ ({ s with system }).erase c = p := by
  simp only [Program.act] at h
  split at h
  · rename_i ht
    have hq : s.system.polling i = none := Option.map_eq_none_iff.mp ht
    simp only [Option.bind_eq_bind, Option.bind_eq_some_iff] at h
    obtain ⟨u, hguard, copy, hcopy, h⟩ := h
    have hdonor : s.system.net.applied donor = s.system.net.order.length := by
      simpa [erase, Broadcast.map] using ((Option.guard_eq_some' u).mp hguard).2.2
    have hwhole : s.system.net.delivered donor = s.system.net.order :=
      List.take_of_length_le hdonor.ge
    refine ⟨_, by simp only [act, hq]; rfl, ?_⟩
    rw [← Option.some.inj h]
    obtain rfl := Option.some.inj ((transfer_list m c s.system donor).symm.trans hcopy)
    simp only [erase, Program.setThread, System.setPolling, erase_update, Broadcast.map_join,
      Program.mk.injEq, true_and, and_true]
    refine ⟨funext fun r => ?_, rfl⟩
    rw [System.list]
    rcases eq_or_ne r i with rfl | hr
    · rw [Function.update_self, Broadcast.delivered_join_self, System.list, hwhole]
    · rw [Function.update_of_ne hr, Broadcast.delivered_join_of_ne hr]
      rfl
  · cases h

theorem exists_step_of_round {outcome : Outcome} (hi : i ∈ c.ids)
    (h : Program.act m c (s.erase c) i (.round outcome) = some p) :
    ∃ s', step c s (i, .round outcome) = some s' ∧ s'.erase c = p := by
  simp only [Program.act, Option.bind_eq_bind, Option.bind_eq_some_iff] at h
  obtain ⟨t, ht, h⟩ := h
  obtain ⟨⟨lastEvent, batch⟩, hq, rfl⟩ := exists_polling_of_erase ht
  match batch with
  | none => cases h
  | some ⟨[], _, _⟩ => cases h
  | some ⟨event :: rest, next, back⟩ =>
    have hnext : s.system.nextRound i = some ⟨event, next⟩ := by simp only [System.nextRound, hq]
    cases hreturns : outcome.returns with
    | false =>
      simp only [Polling.erase, Option.map_some, hreturns, Bool.false_eq_true, if_false,
        Option.some.injEq] at h
      refine ⟨{ s.produce i ⟨event, next⟩ outcome with
        system := { s.system.setPolling i none with net := s.system.net.crash i } }, ?_,
        (erase_crash (s := s.produce i ⟨event, next⟩ outcome)).trans h⟩
      simp only [step, hnext, Action.inGroup, hreturns, Bool.false_eq_true, if_false, Kdsync.step,
        hi, if_true, act, hq, Option.bind_eq_bind, Option.bind_some]
    | true =>
      simp only [Polling.erase, Option.map_some, hreturns, if_true, Option.some.injEq] at h
      refine ⟨{ s.produce i ⟨event, next⟩ outcome with
        system := (s.system.setPolling i
          (some ⟨lastEvent, some ⟨rest, next + 1, back⟩⟩)).replicateEvent i ⟨event, next⟩ }, ?_,
        (erase_setPolling (s := s.produce i ⟨event, next⟩ outcome) _).trans h⟩
      simp only [step, hnext, Action.inGroup, hreturns, if_true, Kdsync.step, hi, act, hq,
        Option.bind_eq_bind, Option.bind_some]

/-- **Every step of the program** is a step of the model that counts positions. -/
theorem exists_step (h : Program.step m c (s.erase c) (i, a) = some p) :
    ∃ s', step c s (i, a.counted) = some s' ∧ s'.erase c = p := by
  rw [Program.step] at h
  split_ifs at h with hi
  have hgroup : ∀ {action : Kdsync.Action}, action ≠ .replicate →
      (∃ system, act c s.system i action = some system ∧ ({ s with system }).erase c = p) →
        ∃ s', step c s (i, .group action) = some s' ∧ s'.erase c = p := by
    rintro action hne ⟨system, hact, herase⟩
    refine ⟨{ s with system }, ?_, herase⟩
    rw [step_group hne, Kdsync.step, if_pos hi, hact, Option.map_some]
  cases a with
  | kafkaPoll polled => exact hgroup (by simp) (exists_act_kafkaPoll h)
  | query => exact hgroup (by simp) (exists_act_query h)
  | queryFails => exact hgroup (by simp) (exists_act_queryFails h)
  | round outcome => exact exists_step_of_round hi h
  | mark => exact hgroup (by simp) (exists_act_mark h)
  | sequence => exact hgroup (by simp) (exists_act_sequence h)
  | deliver => exact hgroup (by simp) (exists_act_deliver h)
  | crash => exact hgroup (by simp) (exists_act_crash h)
  | rejoin donor => exact hgroup (by simp) (exists_act_rejoin h)

end Erase

end Clusters

/-! ### Runs -/

namespace Program

/-- The actions in the model that counts positions. -/
def counted (actions : List (UInt32 × Action)) : List (UInt32 × Clusters.Action) :=
  actions.map fun a => (a.1, a.2.counted)

section Runs

variable {m : Mutils} {c : Config} {p : Program} {ok : Program → UInt32 × Action → Prop}
  {actions : List (UInt32 × Action)}

/-- Every run of the program comes from a run that counts positions. -/
theorem exists_clusters (ok' : Clusters → UInt32 × Clusters.Action → Prop)
    (hok : ∀ s a, ok (s.erase c) a → ok' s (a.1, a.2.counted))
    (h : Machine.Run (step m c) ok (.init c) actions p) :
    ∃ s, Machine.Run (Clusters.step c) ok' .init (counted actions) s ∧ s.erase c = p := by
  refine h.lift ok' (fun p s => s.erase c = p) (fun a => (a.1, a.2.counted))
    (Clusters.erase_init c) fun p a p' s hs ha hstep => ?_
  subst hs
  exact ⟨hok s a ha, Clusters.exists_step hstep⟩

theorem log_erase (s : Clusters) : (s.erase c).log = s.system.log := by
  rw [log, System.log, calls, Clusters.erase, Broadcast.map, List.map_map]
  rfl

theorem localLog_erase (s : Clusters) (r : UInt32) :
    (s.erase c).localLog r = s.system.localLog r := by
  rw [localLog, System.localLog, calls, Clusters.erase, Broadcast.delivered_map, List.map_map]
  rfl

/-- **The replicas are one state machine.** In every run the list of a replica is what the calls it
has applied make of a new list, also when it was sent as bytes after a restart, any number of times.
Two replicas that have applied equally many calls hold the same list. -/
theorem lists_eq_replay (h : Machine.Run (step m c) ok (.init c) actions p) :
    (∀ r, p.lists r =
      (EventList.new c.nReplicas c.eventChunk).replay ((p.net.delivered r).map Prod.snd)) ∧
    ∀ r r', p.net.applied r = p.net.applied r' → p.lists r = p.lists r' := by
  obtain ⟨s, -, rfl⟩ := exists_clusters (fun _ _ => True) (fun _ _ _ => trivial) h
  have hreplay : ∀ r, (s.erase c).lists r =
      (EventList.new c.nReplicas c.eventChunk).replay
        (((s.erase c).net.delivered r).map Prod.snd) := by
    intro r
    rw [Clusters.erase, Broadcast.delivered_map, List.map_map]
    rfl
  refine ⟨hreplay, fun r r' happlied => ?_⟩
  rw [hreplay, hreplay, Broadcast.delivered, Broadcast.delivered, happlied]

end Runs

/-- Both of two instances take a step. -/
def both (a : Action) : List (UInt32 × Action) := [(0, a), (1, a)]

/-- Both of two instances replicate and mark a batch of one event, and apply both marks. -/
def replicateOne : List (UInt32 × Action) :=
  [.query, .round .accepted, .mark, .sequence, .deliver, .deliver].flatMap both

/-- The record of instance 0 is accepted, but `flush` throws. Instance 0 restarts with the list of
instance 1, and produces the record again. -/
def timedOutOnce : List (UInt32 × Action) :=
  [(0, .kafkaPoll (some (record [97] 0 0 [1]))), (0, .sequence)] ++ both .deliver ++
    [(0, .query), (0, .round (.timedOut true)), (0, .rejoin 1)] ++ replicateOne

theorem lists_eq_replay_timedOutOnce :
    ∃ p : Program, (p.lists 0).events = [] ∧ p.lists 0 = p.lists 1 := by
  obtain ⟨p, hrun, hcheck⟩ := Machine.Run.exists_of_exec (step .plain twoTopics)
    (fun _ _ => True) (.init twoTopics) timedOutOnce
    (fun p => (p.lists 0).events = [] ∧ p.net.applied 0 = p.net.applied 1) (by decide +kernel)
  obtain ⟨hempty, happlied⟩ := of_decide_eq_true hcheck
  exact ⟨p, hempty, (lists_eq_replay hrun).2 0 1 happlied⟩

end Program

end Kdsync
