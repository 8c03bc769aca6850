import Kdsync.System.Search
import Kdsync.Library.Machine

/-!
# While an instance is down

The list keeps the events that an instance has not marked, also when the instance is gone: its
ordered marks reach up to some position of the log (`System.acknowledged`), and until it restarts no
replica erases an event from there on. When it restarts, its first query starts with that very event
(`outage`).

No assumption on the triples is made. Where two events carry the same triple, a mark may reach
further than the event it is sent for, but it is still the marks of the instance itself that say how
far the others may erase.
-/

namespace Kdsync

open ReplicatedEvent (content)

/-- How far the ordered marks of an instance reach, on a list that has applied all of them. -/
def System.acknowledged (c : Config) (s : System) (j : UInt32) : ℕ :=
  (c.cursors s.net.order).cursor j

/-- No call takes a cursor back. -/
theorem Cursors.cursor_le_replay {ids : Finset UInt32} (s : Cursors ids) (calls : List Call)
    (i : UInt32) : s.cursor i ≤ (s.replay calls).cursor i := by
  induction calls using List.reverseRecOn with
  | nil => exact Nat.le_refl _
  | append_singleton calls call ih =>
    rw [replay_append, replay_singleton]
    refine ih.trans ?_
    cases call with
    | addEvent e => exact Nat.le_refl _
    | markProduced j t p o => exact CursorLog.cursor_le_cursor_advance

section State

variable {c : Config} {s s' : System} {i j r : UInt32} {a : Action}

/-- No replica knows more than the whole order says. -/
theorem cursor_le_acknowledged (s : System) (r j : UInt32) :
    (s.cursors c r).cursor j ≤ s.acknowledged c j := by
  obtain ⟨later, hlater⟩ := s.net.delivered_prefix r
  rw [System.acknowledged, ← hlater, Config.cursors_append]
  exact Cursors.cursor_le_replay _ _ _

/-- Nothing is erased behind the ordered marks of an instance. -/
theorem WellFormed.erased_le_acknowledged (hw : WellFormed c s) (hj : j ∈ c.ids) (r : UInt32) :
    s.erased c r ≤ s.acknowledged c j := by
  rw [hw.erased_eq]
  exact (CursorLog.low_le_cursor hj).trans (cursor_le_acknowledged s r j)

/-- The messages of others do not move the cursor of an instance. -/
theorem Cursors.cursor_apply_of_ne {ids : Finset UInt32} (s : Cursors ids) {i j : UInt32}
    (hij : i ≠ j) (rpc : Rpc) : (s.apply (rpc.call i)).cursor j = s.cursor j := by
  cases rpc with
  | addEvent event => rfl
  | markProduced x => exact CursorLog.cursor_advance_of_ne hij.symm

/-- An instance that is down has no message that waits. -/
def Quiet (s : System) (j : UInt32) : Prop := s.polling j = none → s.net.outbox j = []

theorem Quiet.effect (h : Quiet s j) (he : Effect c s i a s') : Quiet s' j := by
  rcases eq_or_ne j i with rfl | hj
  · cases he with
    | added hp => exact fun hdown => absurd (hp.symm.trans hdown) (by simp)
    | marked => exact fun hdown => by simp at hdown
    | served => exact fun hdown => by simp at hdown
    | replicated => exact fun hdown => by simp at hdown
    | rejoined => exact fun hdown => absurd hdown (by simp [System.setPolling])
    | sequenced hnet =>
      intro hdown
      obtain ⟨m, waiting, hout, -⟩ := Broadcast.sequence_cases hnet
      rw [h hdown] at hout
      cases hout
    | delivered hp => exact fun hdown => absurd (hp.symm.trans hdown) (by simp)
    | crashed => exact fun _ => Broadcast.outbox_crash_self
    | _ => exact h
  · rw [Quiet, he.polling_of_ne hj, he.outbox_of_ne hj]
    exact h

/-- **One step** while an instance is down: it stays down until it restarts, and its marks reach as
far as before. -/
theorem Quiet.acknowledged_effect (h : Quiet s j) (hdown : s.polling j = none)
    (he : Effect c s i a s') (hrejoin : (i, a) ≠ (j, .rejoin)) :
    s'.polling j = none ∧ s'.acknowledged c j = s.acknowledged c j := by
  have hout := h hdown
  rcases eq_or_ne j i with rfl | hj
  · cases he with
    | added hp => exact absurd (hp.symm.trans hdown) (by simp)
    | served hp => exact absurd (hp.symm.trans hdown) (by simp)
    | replicated hp => exact absurd (hp.symm.trans hdown) (by simp)
    | marked hp => exact absurd (hp.symm.trans hdown) (by simp)
    | delivered hp => exact absurd (hp.symm.trans hdown) (by simp)
    | rejoined => exact absurd rfl hrejoin
    | sequenced hnet =>
      obtain ⟨m, waiting, hwaiting, -⟩ := Broadcast.sequence_cases hnet
      rw [hout] at hwaiting
      cases hwaiting
    | crashed => exact ⟨System.polling_setPolling_self .., rfl⟩
    | _ => exact ⟨hdown, rfl⟩
  · refine ⟨(he.polling_of_ne hj).trans hdown, ?_⟩
    cases he with
    | sequenced hnet =>
      obtain ⟨m, waiting, -, horder, -⟩ := Broadcast.sequence_cases hnet
      rw [System.acknowledged, System.acknowledged, horder, Config.cursors_concat]
      exact Cursors.cursor_apply_of_ne _ hj.symm _
    | delivered _ hnet =>
      obtain ⟨m, -, horder, -⟩ := Broadcast.deliver_cases hnet
      rw [System.acknowledged, System.acknowledged, horder]
    | _ => rfl

/-- Without a `last_event`, a query returns the events from the cursor of the instance on. -/
theorem WellFormed.query_none (hw : WellFormed c s) (hi : i ∈ c.ids)
    (hlen : (s.list c i).events.length ≤ intMax) :
    ∃ events, s.query c i none = some events ∧ events.map content =
      (((s.localLog i).map content).drop ((s.cursors c i).cursor i)).take c.eventChunk.toNat := by
  have hmember : (s.list c i).eventChunk = c.eventChunk.toInt32 := EventList.eventChunk_replay _ _
  refine ⟨_, (query_eq c s i none).trans
    (EventList.chunkFrom_eq_take hmember c.chunk_le hlen _), ?_⟩
  have hlist : (s.list c i).events.map content =
      ((s.localLog i).map content).drop (s.erased c i) := by
    refine List.ext_getElem? fun k => ?_
    rw [List.getElem?_map, List.getElem?_drop, List.getElem?_map, hw.getElem?_list]
  rw [List.map_take, List.map_drop, hlist, List.drop_drop, hw.start_none hi]

end State

/-! ### Main result -/

section Runs

variable {c : Config} {s s' s'' : System} {ok ok' : System → UInt32 × Action → Prop}
  {actions later : List (UInt32 × Action)} {j : UInt32}

/-- Every run keeps the positions right, and the instances that are down quiet. -/
theorem quiet_of_run (h : Machine.Run (step c) ok .init actions s) :
    WellFormed c s ∧ ∀ j, Quiet s j := by
  refine h.invariant (fun s => WellFormed c s ∧ ∀ j, Quiet s j)
    ⟨.init c, fun j hdown => by cases hdown⟩ ?_
  rintro s a s' ⟨hw, hquiet⟩ - hstep
  obtain ⟨hi, he⟩ := Effect.of_step hstep
  exact ⟨hw.effect hi he, fun j => (hquiet j).effect he⟩

/-- **An outage.** In every run, whatever triples its events carry: while an instance is down, no
replica erases an event that its ordered marks do not cover, however far the others go. When the
instance restarts, its first query returns the events from there on. -/
theorem outage (h : Machine.Run (step c) ok .init actions s) (hj : j ∈ c.ids)
    (hdown : s.polling j = none) (h' : Machine.Run (step c) ok' s later s')
    (hlater : (j, .rejoin) ∉ later) :
    (∀ r, s'.erased c r ≤ s.acknowledged c j) ∧
    ∀ s'', step c s' (j, .rejoin) = some s'' → (s''.list c j).events.length ≤ intMax →
      ∃ events, s''.query c j none = some events ∧ events.map content =
        ((s'.log.map content).drop (s.acknowledged c j)).take c.eventChunk.toNat := by
  obtain ⟨hw, hquiet⟩ := quiet_of_run h
  obtain ⟨hw', -, -, hack⟩ : WellFormed c s' ∧ Quiet s' j ∧ s'.polling j = none ∧
      s'.acknowledged c j = s.acknowledged c j := by
    clear hw
    induction h' with
    | nil => exact ⟨(quiet_of_run h).1, hquiet j, hdown, rfl⟩
    | snoc _ _ hstep ih =>
      rw [List.mem_append, not_or, List.mem_singleton] at hlater
      obtain ⟨hw, hquiet, hdown, hack⟩ := ih hlater.1
      obtain ⟨hi, he⟩ := Effect.of_step hstep
      obtain ⟨hdown', hack'⟩ := hquiet.acknowledged_effect hdown he (Ne.symm hlater.2)
      exact ⟨hw.effect hi he, hquiet.effect he, hdown', hack'.trans hack⟩
  refine ⟨fun r => hack ▸ hw'.erased_le_acknowledged hj r, fun s'' hstep hlen => ?_⟩
  obtain ⟨hi, he⟩ := Effect.of_step hstep
  have hw'' := hw'.effect hi he
  obtain ⟨events, hq, hcontents⟩ := hw''.query_none hj hlen
  refine ⟨events, hq, hcontents.trans ?_⟩
  -- the new list is that of the whole order
  cases he with
  | rejoined =>
    rw [System.localLog, System.cursors, Broadcast.delivered_join_self, ← hack]
    rfl

end Runs

/-- Instance 1 crashes with one of two events marked, and instance 0 goes on. -/
theorem outage_twoTopics :
    ∃ s s' : System, s.acknowledged twoTopics 1 = 1 ∧ s'.trace 0 = [0, 1] ∧
      ∀ r, s'.erased twoTopics r ≤ s.acknowledged twoTopics 1 := by
  let after := acts 0 [.query, .replicate, .mark, .sequence, .deliver]
  obtain ⟨s, hrun, hcheck⟩ := Machine.Run.exists_of_exec (step twoTopics) (fun _ _ => True) .init
    (adds 0 (record [97] 0 0 [1]) ++ both .deliver ++ replicateOne ++
      adds 1 (record [98] 0 0 [2]) ++ both .deliver ++ acts 1 [.crash])
    (fun s => (s.polling 1 = none ∧ s.acknowledged twoTopics 1 = 1) ∧
      (Machine.exec (Machine.guarded (step twoTopics) fun _ _ => True) s after).any
        (fun s' => s'.trace 0 = [0, 1]) = true) (by decide +kernel)
  obtain ⟨⟨hdown, hack⟩, hafter⟩ := of_decide_eq_true hcheck
  obtain ⟨s', hrun', htrace⟩ := Machine.Run.exists_of_exec (step twoTopics) (fun _ _ => True) s
    after (fun s' => s'.trace 0 = [0, 1]) hafter
  exact ⟨s, s', hack, of_decide_eq_true htrace,
    (outage hrun (by decide) hdown hrun' (by decide)).1⟩

end Kdsync
