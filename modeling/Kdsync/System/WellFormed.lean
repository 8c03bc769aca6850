import Kdsync.System
import Kdsync.EventList.Cursors
import Kdsync.EventList.Chunk

/-!
# What every run keeps

The positions that accompany the events are right: an event in a batch, in `last_event`, in a mark
under way or in the trace of an instance stands in the log at its position, up to its set of
replicas (`WellFormed`). No run breaks this, with crashes, with colliding triples and whatever the
consumers hand out.

Every call of the group is one of the instances' own, so the list of each replica refines its log
with one cursor for each instance (`WellFormed.refines`). A query starts at a position of that log
(`WellFormed.getElem?_query`) that is a cursor or lies behind a match.
-/

namespace Kdsync

open ReplicatedEvent (content)

/-- The event stands in the log at its position, up to its set of replicas. -/
def Served.In (x : Served) (log : List ReplicatedEvent) : Prop :=
  log[x.position]?.map content = some x.event.content

/-- The events of a batch stand in the log. -/
structure Batch.In (b : Batch) (log : List ReplicatedEvent) : Prop where
  rest : ∀ k event, b.rest[k]? = some event → Served.In ⟨event, b.next + k⟩ log
  pos : 0 < b.next + b.rest.length
  last : b.last.In log

/-- The events an instance holds stand in the log. -/
structure Polling.In (p : Polling) (log : List ReplicatedEvent) : Prop where
  lastEvent : ∀ x, p.lastEvent = some x → x.In log
  batch : ∀ b, p.batch = some b → b.In log

section In

variable {x : Served} {log log' : List ReplicatedEvent}

theorem getElem?_mono {α : Type*} {l l' : List α} {k : ℕ} {y : α} (hle : l <+: l')
    (h : l[k]? = some y) : l'[k]? = some y := by
  obtain ⟨hk, rfl⟩ := List.getElem?_eq_some_iff.mp h
  exact List.prefix_iff_getElem?.mp hle k hk

theorem Served.In.mono (h : x.In log) (hle : log <+: log') : x.In log' := by
  obtain ⟨e, he, hcontent⟩ := Option.map_eq_some_iff.mp h
  rw [Served.In, getElem?_mono hle he, Option.map_some, hcontent]

theorem Served.In.lt_length (h : x.In log) : x.position < log.length := by
  obtain ⟨e, he, -⟩ := Option.map_eq_some_iff.mp h
  exact (List.getElem?_eq_some_iff.mp he).1

/-- The event of the log carries the same triple. -/
theorem Served.In.exists_getElem? (h : x.In log) : ∃ e, log[x.position]? = some e ∧
    e.topic = x.event.topic ∧ e.partition = x.event.partition ∧ e.offset = x.event.offset := by
  obtain ⟨e, he, hcontent⟩ := Option.map_eq_some_iff.mp h
  have htriple : e.triple = x.event.triple := by
    simpa using congrArg ReplicatedEvent.triple hcontent
  exact ⟨e, he, by simpa [ReplicatedEvent.triple] using htriple⟩

theorem Batch.In.mono {b : Batch} (h : b.In log) (hle : log <+: log') : b.In log' where
  rest k event hk := (h.rest k event hk).mono hle
  pos := h.pos
  last := h.last.mono hle

theorem Polling.In.start : Polling.In {} log where
  lastEvent x hx := by cases hx
  batch b hb := by cases hb

theorem Polling.In.mono {p : Polling} (h : p.In log) (hle : log <+: log') : p.In log' where
  lastEvent x hx := (h.lastEvent x hx).mono hle
  batch b hb := (h.batch b hb).mono hle

end In

/-! ### What an outcome changes -/

section Changes

variable {c : Config} {s s' : System} {i j r : UInt32} {a : Action}

@[simp] theorem calls_append (order order' : List (UInt32 × Rpc)) :
    calls (order ++ order') = calls order ++ calls order' := by simp [calls]

@[simp] theorem calls_singleton (m : UInt32 × Rpc) : calls [m] = [m.2.call m.1] := rfl

theorem added_calls_prefix {order order' : List (UInt32 × Rpc)} (h : order <+: order') :
    added (calls order) <+: added (calls order') :=
  (h.map _).filterMap _

theorem localLog_prefix_log (s : System) (r : UInt32) : s.localLog r <+: s.log :=
  added_calls_prefix (s.net.delivered_prefix r)

/-- The total order only grows. -/
theorem Effect.order_prefix (h : Effect c s i a s') : s.net.order <+: s'.net.order := by
  cases h with
  | sequenced hnet =>
    obtain ⟨m, waiting, -, horder, -⟩ := Broadcast.sequence_cases hnet
    exact ⟨_, horder.symm⟩
  | delivered _ hnet =>
    obtain ⟨m, -, horder, -⟩ := Broadcast.deliver_cases hnet
    exact ⟨[], by simp [horder]⟩
  | _ => exact List.prefix_rfl

/-- The log only grows. -/
theorem Effect.log_prefix (h : Effect c s i a s') : s.log <+: s'.log :=
  added_calls_prefix h.order_prefix

/-- The prefix of each replica only grows. -/
theorem Effect.delivered_prefix (h : Effect c s i a s') (r : UInt32) :
    s.net.delivered r <+: s'.net.delivered r := by
  cases h with
  | sequenced hnet =>
    obtain ⟨m, waiting, -, -, -, hdelivered⟩ := Broadcast.sequence_cases hnet
    exact ⟨[], by simp [hdelivered]⟩
  | delivered _ hnet =>
    obtain ⟨m, -, -, -, hdelivered⟩ := Broadcast.deliver_cases hnet
    rcases eq_or_ne r i with rfl | hr
    · exact ⟨[m], by simp [hdelivered]⟩
    · exact ⟨[], by simp [hdelivered, hr]⟩
  | rejoined =>
    rcases eq_or_ne r i with rfl | hr
    · simpa using s.net.delivered_prefix r
    · exact ⟨[], by simp [hr]⟩
  | _ => exact List.prefix_rfl

theorem Effect.localLog_prefix (h : Effect c s i a s') (r : UInt32) :
    s.localLog r <+: s'.localLog r :=
  added_calls_prefix (h.delivered_prefix r)

/-- A message is sent by `kafka_polling` or behind the `for` loop. -/
theorem Effect.mem_sentBy (h : Effect c s i a s') {rpc : Rpc} (hmem : rpc ∈ s'.net.sentBy j) :
    rpc ∈ s.net.sentBy j ∨ (∃ event, rpc = .addEvent event ∧ event.replicas = ∅) ∨
      a = .mark ∧ j = i ∧ ∃ lastEvent next back,
        s.polling i = some ⟨lastEvent, some ⟨[], next, back⟩⟩ ∧
          rpc = .markProduced ⟨back, next - 1⟩ := by
  cases h with
  | added _ hevent =>
    rcases eq_or_ne j i with rfl | hj
    · simp only [System.net_orderedSend, Broadcast.sentBy_send_self, List.mem_append,
        List.mem_singleton] at hmem
      exact hmem.imp_right fun heq => .inl ⟨_, heq, replicas_of_kafkaPolling hevent⟩
    · exact .inl (Broadcast.sentBy_send_of_ne hj ▸ hmem)
  | marked hp =>
    rcases eq_or_ne j i with rfl | hj
    · simp only [System.net_orderedSend, System.net_setPolling, Broadcast.sentBy_send_self,
        List.mem_append, List.mem_singleton] at hmem
      exact hmem.imp_right fun heq => .inr ⟨rfl, rfl, _, _, _, hp, heq⟩
    · exact .inl (Broadcast.sentBy_send_of_ne hj ▸ hmem)
  | sequenced hnet => exact .inl (Broadcast.sentBy_sequence hnet j ▸ hmem)
  | delivered _ hnet => exact .inl (Broadcast.sentBy_deliver hnet j ▸ hmem)
  | crashed =>
    rcases eq_or_ne j i with rfl | hj
    · simp only [Broadcast.sentBy_crash_self] at hmem
      exact .inl (List.mem_append_left _ hmem)
    · simp only [Broadcast.sentBy_crash_of_ne hj] at hmem
      exact .inl hmem
  | _ => exact .inl hmem

/-- An instance replicates the next event of its batch. -/
theorem Effect.mem_replicated (h : Effect c s i a s') {x : Served} (hmem : x ∈ s'.replicated j) :
    x ∈ s.replicated j ∨ j = i ∧ ∃ lastEvent rest back,
      s.polling i = some ⟨lastEvent, some ⟨x.event :: rest, x.position, back⟩⟩ := by
  cases h with
  | replicated hp =>
    rcases eq_or_ne j i with rfl | hj
    · simp only [System.replicated_replicateEvent_self, System.replicated_setPolling,
        List.mem_append, List.mem_singleton] at hmem
      rcases hmem with hmem | rfl
      · exact .inl hmem
      · exact .inr ⟨rfl, _, _, _, hp⟩
    · simp only [System.replicateEvent, Function.update_of_ne hj] at hmem
      exact .inl hmem
  | _ => exact .inl hmem

/-- The trace of each instance only grows. -/
theorem Effect.replicated_subset (h : Effect c s i a s') (j : UInt32) :
    s.replicated j ⊆ s'.replicated j := by
  cases h with
  | replicated =>
    rcases eq_or_ne j i with rfl | hj
    · simp
    · simp [System.replicateEvent, hj]
  | _ => exact List.Subset.refl _

/-- An action changes the local variables and the trace of one instance only. -/
theorem Effect.polling_of_ne (h : Effect c s i a s') (hj : j ≠ i) :
    s'.polling j = s.polling j := by
  cases h <;> first | rfl | exact Function.update_of_ne hj _ _

theorem Effect.replicated_of_ne (h : Effect c s i a s') (hj : j ≠ i) :
    s'.replicated j = s.replicated j := by
  cases h <;> first | rfl | exact Function.update_of_ne hj _ _

theorem Effect.sentBy_of_ne (h : Effect c s i a s') (hj : j ≠ i) :
    s'.net.sentBy j = s.net.sentBy j := by
  cases h with
  | added => exact Broadcast.sentBy_send_of_ne hj
  | marked => exact Broadcast.sentBy_send_of_ne hj
  | sequenced hnet => exact Broadcast.sentBy_sequence hnet j
  | delivered _ hnet => exact Broadcast.sentBy_deliver hnet j
  | crashed => exact Broadcast.sentBy_crash_of_ne hj
  | _ => rfl

theorem Effect.outbox_of_ne (h : Effect c s i a s') (hj : j ≠ i) :
    s'.net.outbox j = s.net.outbox j := by
  cases h with
  | added => exact Broadcast.outbox_send_of_ne hj
  | marked => exact Broadcast.outbox_send_of_ne hj
  | sequenced hnet =>
    obtain ⟨m, waiting, -, -, houtbox, -⟩ := Broadcast.sequence_cases hnet
    simp [houtbox, hj]
  | delivered _ hnet =>
    obtain ⟨m, -, -, houtbox, -⟩ := Broadcast.deliver_cases hnet
    simp [houtbox]
  | crashed => exact Broadcast.outbox_crash_of_ne hj
  | _ => rfl

/-- Only a crash takes an instance down. -/
theorem Effect.isSome_polling (h : Effect c s i a s') (ha : a ≠ .crash)
    (hj : (s.polling j).isSome) : (s'.polling j).isSome := by
  rcases eq_or_ne j i with rfl | hne
  · cases h with
    | served => simp
    | replicated => simp
    | marked => simp
    | rejoined => simp [System.setPolling]
    | crashed => exact absurd rfl ha
    | _ => exact hj
  · rwa [h.polling_of_ne hne]

/-- After new local variables for instance `i`, an instance has them or is another one and has its
old ones. -/
theorem System.polling_setPolling {q : Option Polling} {p : Polling}
    (h : (s.setPolling i q).polling j = some p) :
    j = i ∧ q = some p ∨ j ≠ i ∧ s.polling j = some p := by
  rcases eq_or_ne j i with rfl | hj
  · exact .inl ⟨rfl, by simpa [System.setPolling] using h⟩
  · exact .inr ⟨hj, by simpa [System.setPolling, hj] using h⟩

end Changes

/-! ### The invariant -/

/-- The calls are the instances' own, and every event stands in the log at its position. -/
structure WellFormed (c : Config) (s : System) : Prop where
  calls_by : ∀ j, ∀ rpc ∈ s.net.sentBy j, (rpc.call j).By c.ids
  marks : ∀ j x, .markProduced x ∈ s.net.sentBy j → x.In s.log
  polling : ∀ j p, s.polling j = some p → p.In (s.localLog j)
  replicated : ∀ j, ∀ x ∈ s.replicated j, x.In s.log

/-- The cursors that a list stands for, after it has applied a part of the total order. -/
def Config.cursors (c : Config) (order : List (UInt32 × Rpc)) : Cursors c.ids :=
  Cursors.replay (CursorLog.init c.nonempty) (calls order)

theorem Config.cursors_append (c : Config) (order order' : List (UInt32 × Rpc)) :
    c.cursors (order ++ order') = (c.cursors order).replay (calls order') := by
  rw [Config.cursors, calls_append, Cursors.replay_append]
  rfl

@[simp] theorem Config.cursors_concat (c : Config) (order : List (UInt32 × Rpc))
    (m : UInt32 × Rpc) :
    c.cursors (order ++ [m]) = (c.cursors order).apply (m.2.call m.1) :=
  c.cursors_append order [m]

@[simp] theorem Config.log_cursors (c : Config) (order : List (UInt32 × Rpc)) :
    (c.cursors order).log = added (calls order) := Cursors.log_replay _ _

/-- The cursors that the replica of an instance stands for. -/
def System.cursors (c : Config) (s : System) (r : UInt32) : Cursors c.ids :=
  c.cursors (s.net.delivered r)

section Replica

variable {c : Config} {s : System} {r : UInt32}

@[simp] theorem log_cursors : (s.cursors c r).log = s.localLog r := Cursors.log_replay _ _

theorem query_eq (c : Config) (s : System) (i : UInt32) (lastEvent : Option Served) :
    s.query c i lastEvent = (s.list c i).chunkFrom (s.first c i lastEvent) := by
  cases lastEvent <;> rfl

namespace WellFormed

/-- The list of each replica refines its log with one cursor for each instance. -/
theorem refines (h : WellFormed c s) (r : UInt32) : Refines (s.cursors c r) (s.list c r) := by
  refine (Refines.init c.nonempty c.nReplicas c.eventChunk c.card_ids).replay fun call hcall => ?_
  obtain ⟨m, hm, rfl⟩ := List.mem_map.mp hcall
  have horder : m ∈ s.net.order := (s.net.delivered_prefix r).subset hm
  exact h.calls_by m.1 m.2 (Broadcast.mem_sentBy_of_mem_order horder)

/-- The erased events are the ones below the smallest cursor. -/
theorem erased_eq (h : WellFormed c s) (r : UInt32) : s.erased c r = (s.cursors c r).low := by
  have hlow := (s.cursors c r).low_le_length
  rw [System.erased, (h.refines r).length_events, log_cursors]
  rw [log_cursors] at hlow
  omega

theorem erased_add_length (h : WellFormed c s) (r : UInt32) :
    s.erased c r + (s.list c r).events.length = (s.localLog r).length := by
  have hlow := (s.cursors c r).low_le_length
  rw [h.erased_eq, (h.refines r).length_events]
  rw [log_cursors] at hlow ⊢
  omega

/-- The list of a replica is its log from the erased events on, up to the sets of replicas. -/
theorem getElem?_list (h : WellFormed c s) (r : UInt32) (k : ℕ) :
    (s.list c r).events[k]?.map content = (s.localLog r)[s.erased c r + k]?.map content := by
  rw [(h.refines r).events, List.getElem?_map, CursorLog.getElem?_live, h.erased_eq, log_cursors]
  simp [Option.map_map, Function.comp_def, stamp]

/-- The events of a query stand in the log of the replica, from the position of its start on. -/
theorem getElem?_query (h : WellFormed c s) {i : UInt32} {lastEvent : Option Served}
    {events : List ReplicatedEvent} (hq : s.query c i lastEvent = some events) {k : ℕ}
    {event : ReplicatedEvent} (hk : events[k]? = some event) :
    Served.In ⟨event, s.erased c i + s.first c i lastEvent + k⟩ (s.localLog i) := by
  rw [query_eq] at hq
  obtain ⟨n, rfl⟩ := EventList.exists_take_of_chunkFrom hq
  rw [List.getElem?_take] at hk
  split_ifs at hk
  rw [List.getElem?_drop] at hk
  rw [Served.In, Nat.add_assoc, ← h.getElem?_list, hk, Option.map_some]

end WellFormed

end Replica

namespace WellFormed

variable {c : Config} {s s' : System} {i : UInt32} {a : Action}

theorem init (c : Config) : WellFormed c .init where
  calls_by j rpc hrpc := by simp at hrpc
  marks j x hx := by simp at hx
  polling j p hp := by
    obtain rfl := Option.some.inj hp
    exact .start
  replicated j x hx := by cases hx

/-- The events that a query returns stand in the log of the replica, from where the query starts. -/
private theorem served_in (h : WellFormed c s) {lastEvent : Option Served}
    {events : List ReplicatedEvent} {back : ReplicatedEvent}
    (hq : s.query c i lastEvent = some events) (hback : events.getLast? = some back) :
    Batch.In ⟨events, s.erased c i + s.first c i lastEvent, back⟩ (s.localLog i) where
  rest k event hk := h.getElem?_query hq hk
  pos := by
    cases events with
    | nil => cases hback
    | cons event rest => exact Nat.add_pos_right _ rest.length.succ_pos
  last := by
    rw [List.getLast?_eq_getElem?] at hback
    have hin := h.getElem?_query hq hback
    have hpos : 0 < events.length := by
      have := (List.getElem?_eq_some_iff.mp hback).1
      omega
    rwa [← Nat.add_sub_assoc hpos] at hin

/-- After a step, the local variables still refer to events of the log of their replica. -/
private theorem polling_effect (h : WellFormed c s) (he : Effect c s i a s') (j : UInt32)
    (p : Polling) (hp : s'.polling j = some p) : p.In (s'.localLog j) := by
  suffices hlocal : p.In (s.localLog j) from hlocal.mono (he.localLog_prefix j)
  cases he with
  | served hlast hq hback =>
    obtain ⟨rfl, hnew⟩ | ⟨-, hold⟩ := System.polling_setPolling hp
    · obtain rfl := Option.some.inj hnew
      refine ⟨(h.polling _ _ hlast).lastEvent, fun b hb => ?_⟩
      obtain rfl := Option.some.inj hb
      exact h.served_in hq hback
    · exact h.polling _ _ hold
  | @replicated lastEvent event back rest next hlast =>
    obtain ⟨rfl, hnew⟩ | ⟨-, hold⟩ := System.polling_setPolling hp
    · obtain rfl := Option.some.inj hnew
      have hbatch := (h.polling _ _ hlast).batch _ rfl
      refine ⟨(h.polling _ _ hlast).lastEvent, fun b hb => ?_⟩
      obtain rfl := Option.some.inj hb
      -- the rest of the batch is one event shorter and starts one position later
      refine ⟨fun k e hk => ?_, Nat.add_pos_left next.succ_pos _, ?_⟩
      · rw [Nat.add_assoc, Nat.add_comm 1]
        exact hbatch.rest (k + 1) e hk
      · have hlastIn := hbatch.last
        simp only [Batch.last, List.length_cons] at hlastIn ⊢
        rwa [Nat.add_assoc, Nat.add_comm 1]
    · exact h.polling _ _ hold
  | marked hlast =>
    obtain ⟨rfl, hnew⟩ | ⟨-, hold⟩ := System.polling_setPolling hp
    · obtain rfl := Option.some.inj hnew
      refine ⟨fun x hx => ?_, fun b hb => by cases hb⟩
      obtain rfl := Option.some.inj hx
      exact ((h.polling _ _ hlast).batch _ rfl).last
    · exact h.polling _ _ hold
  | crashed =>
    obtain ⟨-, hnew⟩ | ⟨-, hold⟩ := System.polling_setPolling hp
    · cases hnew
    · exact h.polling _ _ hold
  | rejoined =>
    obtain ⟨-, hnew⟩ | ⟨-, hold⟩ := System.polling_setPolling hp
    · obtain rfl := Option.some.inj hnew
      exact .start
    · exact h.polling _ _ hold
  | _ => exact h.polling _ _ hp

/-- **Every step keeps the positions right.** -/
theorem effect (h : WellFormed c s) (hi : i ∈ c.ids) (he : Effect c s i a s') :
    WellFormed c s' where
  calls_by j rpc hrpc := by
    obtain hrpc | ⟨event, rfl, hevent⟩ | ⟨-, rfl, lastEvent, next, back, -, rfl⟩ :=
      he.mem_sentBy hrpc
    · exact h.calls_by j rpc hrpc
    · exact hevent
    · exact hi
  marks j x hx := by
    obtain hx | ⟨event, heq, -⟩ | ⟨-, rfl, lastEvent, next, back, hp, heq⟩ :=
      he.mem_sentBy hx
    · exact (h.marks j x hx).mono he.log_prefix
    · cases heq
    · obtain rfl := Rpc.markProduced.inj heq
      have hlast := ((h.polling _ _ hp).batch _ rfl).last
      exact hlast.mono ((localLog_prefix_log s _).trans he.log_prefix)
  polling := h.polling_effect he
  replicated j x hx := by
    obtain hx | ⟨rfl, lastEvent, rest, back, hp⟩ := he.mem_replicated hx
    · exact (h.replicated j x hx).mono he.log_prefix
    · have hfirst := ((h.polling _ _ hp).batch _ rfl).rest 0 x.event rfl
      exact hfirst.mono ((localLog_prefix_log s _).trans he.log_prefix)

end WellFormed

end Kdsync
