import Kdsync.System.Search
import Kdsync.EventList.Unique
import Kdsync.Library.Machine

/-!
# Exact replication when triples are unique

When no two added events carry the same triple, the searches of the program find what they look
for, and `last_event`, the marks under way, the cursors on all replicas and the batch of an
instance fit together (`Exact`): the cursor of an instance on a replica is where its last mark
applied there points, the marks of an instance only go forward, and a query starts exactly where
the instance has stopped (`Exact.start_eq_done`).

This holds through crashes as well: an instance that restarts finds on its new list all marks it
has sent, for the others are lost with it.
-/

namespace Kdsync

open Broadcast (from_)

/-! ### The marks of one sender -/

/-- Number of events up to the last mark in a sequence of messages. -/
def marksUpto (sent : List Rpc) : ℕ :=
  sent.foldl (fun k rpc =>
    match rpc with
    | .addEvent _ => k
    | .markProduced x => x.position + 1) 0

/-- Each mark is for an event behind the one of the mark before. -/
def Advancing (sent : List Rpc) : Prop :=
  ∀ before x, before ++ [.markProduced x] <+: sent → marksUpto before ≤ x.position

section Marks

variable {sent sent' : List Rpc} {x : Served}

@[simp] theorem marksUpto_nil : marksUpto [] = 0 := rfl

@[simp] theorem marksUpto_addEvent (sent : List Rpc) (event : ReplicatedEvent) :
    marksUpto (sent ++ [.addEvent event]) = marksUpto sent := by simp [marksUpto]

@[simp] theorem marksUpto_markProduced (sent : List Rpc) (x : Served) :
    marksUpto (sent ++ [.markProduced x]) = x.position + 1 := by simp [marksUpto]

theorem Advancing.of_prefix (h : Advancing sent) (hle : sent' <+: sent) : Advancing sent' :=
  fun before x hmark => h before x (hmark.trans hle)

theorem Advancing.append_addEvent (h : Advancing sent) (event : ReplicatedEvent) :
    Advancing (sent ++ [.addEvent event]) := by
  intro before x hmark
  obtain heq | hle := List.prefix_concat_iff.mp hmark
  · have hlast := (List.append_inj' heq rfl).2
    simp at hlast
  · exact h before x hle

theorem Advancing.append_markProduced (h : Advancing sent) (hx : marksUpto sent ≤ x.position) :
    Advancing (sent ++ [.markProduced x]) := by
  intro before y hmark
  obtain heq | hle := List.prefix_concat_iff.mp hmark
  · obtain ⟨rfl, hlast⟩ := List.append_inj' heq rfl
    obtain rfl : y = x := by simpa using hlast
    exact hx
  · exact h before y hle

/-- Further marks only go forward. -/
theorem Advancing.marksUpto_le (h : Advancing sent) (hle : sent' <+: sent) :
    marksUpto sent' ≤ marksUpto sent := by
  induction sent using List.reverseRecOn with
  | nil => rw [List.prefix_nil.mp hle]
  | append_singleton sent rpc ih =>
    obtain rfl | hle := List.prefix_concat_iff.mp hle
    · exact Nat.le_refl _
    · refine (ih (h.of_prefix (List.prefix_append _ _)) hle).trans ?_
      cases rpc with
      | addEvent event => simp
      | markProduced x =>
        rw [marksUpto_markProduced]
        exact (h sent x List.prefix_rfl).trans (Nat.le_succ _)

end Marks

/-! ### The invariant -/

/-- The local variables of an instance fit to the marks it has sent and to those among them that
its own replica has applied. -/
structure Polling.Fits (p : Polling) (sent applied : List Rpc) : Prop where
  lastEvent : ∀ x, p.lastEvent = some x → marksUpto sent = x.position + 1
  restarted : p.lastEvent = none → marksUpto applied = marksUpto sent
  batch : ∀ b, p.batch = some b →
    marksUpto sent ≤ b.next ∧ marksUpto sent < b.next + b.rest.length

namespace Polling.Fits

variable {p : Polling} {sent applied applied' : List Rpc} {lastEvent : Option Served}
  {event back : ReplicatedEvent} {events rest : List ReplicatedEvent} {next : ℕ}

theorem start (sent : List Rpc) : Fits {} sent sent where
  lastEvent x hx := by cases hx
  restarted _ := rfl
  batch b hb := by cases hb

/-- The replica applies further marks. -/
theorem extend (h : p.Fits sent applied) (hsent : Advancing sent) (hle : applied <+: applied')
    (hle' : applied' <+: sent) : p.Fits sent applied' where
  lastEvent := h.lastEvent
  restarted hnone := by
    refine (hsent.marksUpto_le hle').antisymm ?_
    rw [← h.restarted hnone]
    exact (hsent.of_prefix hle').marksUpto_le hle
  batch := h.batch

theorem append_addEvent (h : p.Fits sent applied) (event : ReplicatedEvent) :
    p.Fits (sent ++ [.addEvent event]) applied := by
  constructor <;> rw [marksUpto_addEvent]
  · exact h.lastEvent
  · exact h.restarted
  · exact h.batch

/-- Local variables whose query returns a batch that starts behind the marks still fit the messages.
-/
theorem served (h : Fits ⟨lastEvent, none⟩ sent applied) (hnext : next = marksUpto sent)
    (hback : events.getLast? = some back) :
    Fits ⟨lastEvent, some ⟨events, next, back⟩⟩ sent applied where
  lastEvent := h.lastEvent
  restarted := h.restarted
  batch b hb := by
    obtain rfl := Option.some.inj hb
    cases events with
    | nil => cases hback
    | cons event rest => simp [hnext]

/-- Local variables that go on to the next event of the batch still fit the messages. -/
theorem replicated (h : Fits ⟨lastEvent, some ⟨event :: rest, next, back⟩⟩ sent applied) :
    Fits ⟨lastEvent, some ⟨rest, next + 1, back⟩⟩ sent applied where
  lastEvent := h.lastEvent
  restarted := h.restarted
  batch b hb := by
    obtain rfl := Option.some.inj hb
    have hbatch := h.batch _ rfl
    simp only [List.length_cons] at hbatch
    dsimp only at hbatch ⊢
    omega

/-- When a batch is through, its last event lies behind the earlier marks, and becomes `last_event`
and a mark that fit. -/
theorem marked (h : Fits ⟨lastEvent, some ⟨[], next, back⟩⟩ sent applied) :
    marksUpto sent ≤ next - 1 ∧
      Fits ⟨some ⟨back, next - 1⟩, none⟩ (sent ++ [.markProduced ⟨back, next - 1⟩]) applied := by
  refine ⟨Nat.le_sub_one_of_lt (by simpa using (h.batch _ rfl).2), ?_⟩
  constructor
  · intro x hx
    obtain rfl := Option.some.inj hx
    exact marksUpto_markProduced _ _
  · intro hnone
    cases hnone
  · intro b hb
    cases hb

end Polling.Fits

/-- Instance `j` fits to its marks; while it is down, none of them is waiting. -/
structure ExactAt (s : System) (j : UInt32) : Prop where
  advancing : Advancing (s.net.sentBy j)
  polling : ∀ p, s.polling j = some p → p.Fits (s.net.sentBy j) (from_ j (s.net.delivered j))
  down : s.polling j = none → s.net.outbox j = []

/-- All instances fit to their marks, and all cursors to the marks that have been applied. -/
structure Exact (c : Config) (s : System) : Prop where
  instances : ∀ j, ExactAt s j
  cursor : ∀ applied, applied <+: s.net.order →
    ∀ j, (c.cursors applied).cursor j = marksUpto (from_ j applied)

/-- Number of events an instance is through with, counted by its batch or by its marks. -/
def System.done (s : System) (j : UInt32) : ℕ :=
  match s.polling j with
  | some ⟨_, some b⟩ => b.next
  | _ => marksUpto (s.net.sentBy j)

namespace Exact

variable {c : Config} {s s' : System} {i j r : UInt32} {a : Action}

theorem init (c : Config) : Exact c .init where
  instances j := by
    refine ⟨fun before x hmark => ?_, fun p hp => ?_, fun hp => by cases hp⟩
    · have hnil := List.prefix_nil.mp hmark
      simp at hnil
    · obtain rfl := Option.some.inj hp
      exact .start []
  cursor applied hle j := by
    obtain rfl : applied = [] := List.prefix_nil.mp hle
    rfl

/-- On every replica, the cursor of an instance is where its last applied mark points. -/
theorem cursor_eq (h : Exact c s) (r j : UInt32) :
    (s.cursors c r).cursor j = marksUpto (from_ j (s.net.delivered r)) :=
  h.cursor _ (s.net.delivered_prefix r) j

/-- No replica knows of more marks than the instance has sent. -/
theorem cursor_le (h : Exact c s) (r j : UInt32) :
    (s.cursors c r).cursor j ≤ marksUpto (s.net.sentBy j) := by
  rw [h.cursor_eq]
  exact (h.instances j).advancing.marksUpto_le (s.net.from_delivered_prefix j r)

/-- **A query starts where the instance has stopped.** -/
theorem start_eq_done (h : Exact c s) (hw : WellFormed c s) (hlog : Distinct s.log)
    (hi : i ∈ c.ids) {lastEvent : Option Served} (hp : s.polling i = some ⟨lastEvent, none⟩) :
    s.erased c i + s.first c i lastEvent = s.done i := by
  have hdone : s.done i = marksUpto (s.net.sentBy i) := by simp [System.done, hp]
  have hcursor := h.cursor_le i i
  have hlow := CursorLog.low_le_cursor (s := s.cursors c i) hi
  rw [hdone]
  -- the marks on the replica after a restart, and `last_event` from then on
  cases lastEvent with
  | none => rw [hw.start_none hi, h.cursor_eq, ((h.instances i).polling _ hp).restarted rfl]
  | some x =>
    have hlast := ((h.instances i).polling _ hp).lastEvent x rfl
    have hlocal : Distinct (s.cursors c i).log := by
      rw [log_cursors]
      exact hlog.of_prefix (localLog_prefix_log s i)
    obtain ⟨e, he, ht, hpart, ho⟩ := ((hw.polling _ _ hp).lastEvent x rfl).exists_getElem?
    rw [← log_cursors (c := c)] at he
    have hstart := (hw.refines i).firstNotReplicatedFrom_of_getElem? hlocal he
    rw [ht, hpart, ho, ← hw.erased_eq] at hstart
    rw [hw.erased_eq] at hstart ⊢
    rw [System.first, hstart]
    omega

/-! ### One step -/

/-- A step that changes neither the messages nor the local variables of instance `j` keeps it exact.
-/
private theorem frame (h : ExactAt s j) (he : Effect c s i a s')
    (hpolling : s'.polling j = s.polling j) (hsent : s'.net.sentBy j = s.net.sentBy j)
    (hdown : s.polling j = none → s'.net.outbox j = []) : ExactAt s' j where
  advancing := hsent ▸ h.advancing
  polling p hp := by
    rw [hsent]
    exact (h.polling p (hpolling ▸ hp)).extend h.advancing
      (Broadcast.from_mono (he.delivered_prefix j)) (hsent ▸ s'.net.from_delivered_prefix j j)
  down hp := hdown (hpolling ▸ hp)

/-- An instance stays exact with new local variables that fit its messages. -/
private theorem setPolling (h : ExactAt s i) {p : Polling}
    (hp : p.Fits (s.net.sentBy i) (from_ i (s.net.delivered i))) :
    ExactAt (s.setPolling i (some p)) i where
  advancing := h.advancing
  polling q hq := by
    rw [System.polling_setPolling_self] at hq
    exact Option.some.inj hq ▸ hp
  down hq := by simp at hq

/-- An instance stays exact with one more message if its marks still advance and its local variables
fit. -/
private theorem orderedSend {rpc : Rpc} (hup : s.polling i ≠ none)
    (hadvancing : Advancing (s.net.sentBy i ++ [rpc]))
    (hfits : ∀ p, s.polling i = some p →
      p.Fits (s.net.sentBy i ++ [rpc]) (from_ i (s.net.delivered i))) :
    ExactAt (s.orderedSend i rpc) i where
  advancing := by
    rw [System.net_orderedSend, Broadcast.sentBy_send_self]
    exact hadvancing
  polling p hp := by
    rw [System.net_orderedSend, Broadcast.sentBy_send_self]
    exact hfits p hp
  down hp := absurd hp hup

private theorem effect_self (h : Exact c s) (hw : WellFormed c s) (hlog : Distinct s.log)
    (hi : i ∈ c.ids) (he : Effect c s i a s') : ExactAt s' i := by
  have hat := h.instances i
  have heff := he
  cases he with
  | ignored => exact hat
  | idle => exact hat
  | failed => exact hat
  | sequenced hnet =>
    refine frame hat heff rfl (Broadcast.sentBy_sequence hnet i) fun hp => ?_
    -- a crashed instance has nothing to order
    obtain ⟨m, waiting, hout, -⟩ := Broadcast.sequence_cases hnet
    rw [hat.down hp] at hout
    cases hout
  | delivered _ hnet =>
    refine frame hat heff rfl (Broadcast.sentBy_deliver hnet i) fun hp => ?_
    obtain ⟨m, -, -, houtbox, -⟩ := Broadcast.deliver_cases hnet
    exact (congrFun houtbox i).trans (hat.down hp)
  | added hp =>
    exact orderedSend (by simp [hp]) (hat.advancing.append_addEvent _)
      fun q hq => (hat.polling q hq).append_addEvent _
  | served hp hq hback =>
    refine setPolling hat ((hat.polling _ hp).served ?_ hback)
    rw [h.start_eq_done hw hlog hi hp]
    simp [System.done, hp]
  | replicated hp =>
    have h' := setPolling hat (hat.polling _ hp).replicated
    exact ⟨h'.advancing, h'.polling, h'.down⟩
  | marked hp =>
    obtain ⟨hle, hfits⟩ := (hat.polling _ hp).marked
    refine orderedSend (by simp) (hat.advancing.append_markProduced hle) fun p hp' => ?_
    rw [System.polling_setPolling_self] at hp'
    exact Option.some.inj hp' ▸ hfits
  | crashed =>
    refine ⟨?_, fun p hp => ?_, fun _ => Broadcast.outbox_crash_self⟩
    · simp only [Broadcast.sentBy_crash_self]
      exact hat.advancing.of_prefix (List.prefix_append _ _)
    · exact absurd ((s.polling_setPolling_self i none).symm.trans hp) (by simp)
  | rejoined hp =>
    refine ⟨hat.advancing, fun p hp' => ?_, fun hp' => ?_⟩
    · -- the marks that were not ordered are lost, and the new list knows of all others
      have hsent : s.net.sentBy i = from_ i s.net.order := by simp [Broadcast.sentBy, hat.down hp]
      obtain rfl := Option.some.inj ((s.polling_setPolling_self i (some {})).symm.trans hp')
      simp only [Broadcast.sentBy_join, Broadcast.delivered_join_self, hsent]
      exact .start _
    · exact absurd ((s.polling_setPolling_self i (some {})).symm.trans hp') (by simp)

/-- A mark that becomes part of the order moves the cursor of its sender to its target. -/
private theorem cursor_sequence (h : Exact c s) (hw : WellFormed c s) (hlog : Distinct s.log)
    {m : UInt32 × Rpc} {waiting : List Rpc} (hout : s.net.outbox m.1 = m.2 :: waiting)
    (j : UInt32) :
    (c.cursors (s.net.order ++ [m])).cursor j = marksUpto (from_ j (s.net.order ++ [m])) := by
  obtain ⟨k, rpc⟩ := m
  have hbefore := h.cursor s.net.order List.prefix_rfl
  rw [Config.cursors_concat, Broadcast.from_append, Broadcast.from_singleton]
  cases rpc with
  | addEvent event =>
    refine (hbefore j).trans ?_
    rcases eq_or_ne k j with rfl | hj
    · simp
    · simp [hj]
  | markProduced x =>
    rcases eq_or_ne j k with rfl | hj
    · rw [if_pos rfl, marksUpto_markProduced]
      have hsent : from_ j s.net.order ++ [.markProduced x] <+: s.net.sentBy j := by
        rw [Broadcast.sentBy, hout]
        exact ⟨waiting, by simp⟩
      have hmem : .markProduced x ∈ s.net.sentBy j := hsent.subset (by simp)
      have hj : j ∈ c.ids := hw.calls_by j _ hmem
      -- the target has been added, and it is live since the cursor has not passed it
      have hle := (h.instances j).advancing _ x hsent
      rw [← hbefore j] at hle
      have hlow := (CursorLog.low_le_cursor hj).trans hle
      obtain ⟨e, he, ht, hpart, ho⟩ := (hw.marks j x hmem).exists_getElem?
      have hlt := (hw.marks j x hmem).lt_length
      rw [System.log, ← Config.log_cursors c] at he hlt
      have hdistinct : Distinct (c.cursors s.net.order).log := by
        rwa [Config.log_cursors]
      simp only [Rpc.call, Cursors.apply, ← ht, ← hpart, ← ho]
      rw [Cursors.found_of_getElem? hdistinct he hlow, CursorLog.cursor_advance_self]
      omega
    · rw [if_neg hj.symm, List.append_nil]
      exact (CursorLog.cursor_advance_of_ne hj).trans (hbefore j)

/-- **Every step keeps the variables, the marks and the cursors together.** -/
theorem effect (h : Exact c s) (hw : WellFormed c s) (hlog : Distinct s.log) (hi : i ∈ c.ids)
    (he : Effect c s i a s') : Exact c s' where
  instances j := by
    rcases eq_or_ne j i with rfl | hj
    · exact h.effect_self hw hlog hi he
    · refine frame (h.instances j) he (he.polling_of_ne hj) (he.sentBy_of_ne hj) fun hp => ?_
      exact (he.outbox_of_ne hj).trans ((h.instances j).down hp)
  cursor := by
    cases he with
    | sequenced hnet =>
      obtain ⟨m, waiting, hout, horder, -⟩ := Broadcast.sequence_cases hnet
      intro applied hle j
      rw [horder] at hle
      obtain rfl | hle := List.prefix_concat_iff.mp hle
      · exact h.cursor_sequence hw hlog (m := (i, m)) hout j
      · exact h.cursor applied hle j
    | delivered _ hnet =>
      obtain ⟨m, -, horder, -⟩ := Broadcast.deliver_cases hnet
      rw [horder]
      exact h.cursor
    | _ => exact h.cursor

/-- What an instance has marked, it is through with. -/
theorem marksUpto_le_done (h : Exact c s) (j : UInt32) :
    marksUpto (s.net.sentBy j) ≤ s.done j := by
  rw [System.done]
  split
  · exact (((h.instances j).polling _ ‹_›).batch _ rfl).1
  · exact Nat.le_refl _

/-- An instance goes on with the event it has stopped at, and only a crash takes it back. -/
theorem done_effect (h : Exact c s) (hw : WellFormed c s) (hlog : Distinct s.log) (hi : i ∈ c.ids)
    (he : Effect c s i a s') (j : UInt32) :
    s'.done j = s.done j ∧ s'.trace j = s.trace j ∨
      s'.done j = s.done j + 1 ∧ s'.trace j = s.trace j ++ [s.done j] ∨
      a = .crash ∧ s'.done j ≤ s.done j ∧ s'.trace j = s.trace j := by
  rcases eq_or_ne j i with rfl | hj
  · cases he with
    | ignored => exact .inl ⟨rfl, rfl⟩
    | idle => exact .inl ⟨rfl, rfl⟩
    | failed => exact .inl ⟨rfl, rfl⟩
    | added =>
      refine .inl ⟨?_, rfl⟩
      simp only [System.done, System.orderedSend, Broadcast.sentBy_send_self, marksUpto_addEvent]
    | served hp hq hback =>
      refine .inl ⟨?_, rfl⟩
      rw [← h.start_eq_done hw hlog hi hp]
      simp [System.done]
    | @replicated lastEvent event back rest next hp =>
      have hdone : s.done j = next := by simp only [System.done, hp]
      rw [hdone]
      refine .inr (.inl ⟨?_, ?_⟩)
      · simp [System.done]
      · simp
    | @marked lastEvent back next hp =>
      -- the mark takes the place of the batch it is sent for
      have hnext := (((h.instances j).polling _ hp).batch _ rfl).2
      simp only [List.length_nil, Nat.add_zero] at hnext
      refine .inl ⟨?_, rfl⟩
      simp only [System.done, hp, System.setPolling, System.orderedSend, Function.update_self,
        Broadcast.sentBy_send_self, marksUpto_markProduced]
      omega
    | sequenced hnet =>
      refine .inl ⟨?_, rfl⟩
      simp only [System.done, Broadcast.sentBy_sequence hnet]
    | delivered _ hnet =>
      refine .inl ⟨?_, rfl⟩
      simp only [System.done, Broadcast.sentBy_deliver hnet]
    | crashed =>
      -- what the batch had added is lost, with the marks that are not ordered
      refine .inr (.inr ⟨rfl, ?_, rfl⟩)
      have hordered := (h.instances j).advancing.marksUpto_le (List.prefix_append _ _)
      refine le_trans ?_ (hordered.trans (h.marksUpto_le_done j))
      simp [System.done, System.setPolling]
    | rejoined hp =>
      refine .inl ⟨?_, rfl⟩
      simp [System.done, System.setPolling, hp]
  · refine .inl ⟨?_, ?_⟩
    · simp only [System.done, he.polling_of_ne hj, he.sentBy_of_ne hj]
    · simp only [System.trace, he.replicated_of_ne hj]

end Exact

end Kdsync
