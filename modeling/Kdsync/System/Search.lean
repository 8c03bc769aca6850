import Kdsync.System.WellFormed

/-!
# What the searches of a group find

Both searches of the program run on one replica: the query of `derecho_polling` looks for
`last_event` (`System.lookedFor`), and a replica that applies `mark_produced` looks for its target
(`System.nextMark`). A search for an event that the replica holds ends there or earlier
(`WellFormed.target_le`), so the query does not start behind the place where it should. What a mark
passes becomes the cursor of its sender (`WellFormed.cursor_mark`).
-/

namespace Kdsync

open ReplicatedEvent (content)

/-- The `last_event` that a query of instance `i` looks for. -/
def System.lookedFor (s : System) (i : UInt32) : Option Served :=
  match s.polling i with
  | some ⟨lastEvent, none⟩ => lastEvent
  | _ => none

/-- The event of the mark that the replica of instance `r` applies next. -/
def System.nextMark (s : System) (r : UInt32) : Option Served :=
  match s.net.order[s.net.applied r]? with
  | some (_, .markProduced x) => some x
  | _ => none

/-- Number of events that `mark_produced` marks. -/
def EventList.reach (l : EventList) (event : ReplicatedEvent) : ℕ :=
  min (target l.events event.topic event.partition event.offset + 1) l.events.length

/-- The event is on the replica of instance `r`. -/
def System.Holds (c : Config) (s : System) (r : UInt32) (x : Served) : Prop :=
  s.erased c r ≤ x.position ∧ x.position < s.erased c r + (s.list c r).events.length

instance (c : Config) (s : System) (r : UInt32) (x : Served) : Decidable (s.Holds c r x) :=
  inferInstanceAs (Decidable (_ ∧ _))

section Searches

variable {s : System} {i r : UInt32} {x : Served}

theorem System.exists_of_lookedFor (h : x ∈ s.lookedFor i) :
    ∃ p, s.polling i = some p ∧ p.lastEvent = some x := by
  rw [System.lookedFor] at h
  split at h
  · exact ⟨_, ‹_›, h⟩
  · cases h

theorem System.exists_of_nextMark (h : x ∈ s.nextMark r) :
    ∃ j, s.net.order[s.net.applied r]? = some (j, .markProduced x) := by
  rw [System.nextMark] at h
  split at h
  · obtain rfl := Option.some.inj h
    exact ⟨_, ‹_›⟩
  · cases h

end Searches

/-! ### The cursors of a replica -/

section Cursors

variable {c : Config} {s : System} {i r : UInt32}

/-- Only the replica that applies a message changes its cursors. -/
theorem cursors_deliver {net : Broadcast UInt32 Rpc} (h : s.net.deliver i = some net) :
    ∃ m, s.net.order[s.net.applied i]? = some m ∧
      System.cursors c { s with net } i = (s.cursors c i).apply (m.2.call m.1) ∧
      ∀ r ≠ i, System.cursors c { s with net } r = s.cursors c r := by
  obtain ⟨m, hm, -, -, hdelivered⟩ := Broadcast.deliver_cases h
  refine ⟨m, hm, ?_, fun r hr => ?_⟩
  · simp [System.cursors, hdelivered]
  · simp [System.cursors, hdelivered, hr]

theorem cursors_sequence {net : Broadcast UInt32 Rpc} (h : s.net.sequence i = some net) :
    System.cursors c { s with net } r = s.cursors c r := by
  obtain ⟨m, waiting, -, -, -, hdelivered⟩ := Broadcast.sequence_cases h
  simp [System.cursors, hdelivered]

/-- An erased event stays erased. -/
theorem WellFormed.erased_mono {s' : System} {a : Action} (hw : WellFormed c s)
    (hw' : WellFormed c s') (he : Effect c s i a s') (r : UInt32) :
    s.erased c r ≤ s'.erased c r := by
  obtain ⟨later, hlater⟩ := he.delivered_prefix r
  have hcursors : s'.cursors c r = (s.cursors c r).replay (calls later) := by
    rw [System.cursors, ← hlater, Config.cursors_append]
    rfl
  rw [hw.erased_eq, hw'.erased_eq, hcursors]
  exact Cursors.low_le_low_replay _ _

/-- Before its first mark, the cursor of an instance is at the beginning of the log. -/
theorem cursor_eq_zero_of_unmarked {j : UInt32} (h : ∀ x, .markProduced x ∉ s.net.sentBy j)
    (r : UInt32) : (s.cursors c r).cursor j = 0 := by
  refine Cursors.cursor_replay_of_unmarked _ fun t p o hmem => ?_
  obtain ⟨⟨k, rpc⟩, hm, hcall⟩ := List.mem_map.mp hmem
  have horder := (s.net.delivered_prefix r).subset hm
  cases rpc with
  | addEvent e => cases hcall
  | markProduced x =>
    simp only [Rpc.call, Call.markProduced.injEq] at hcall
    exact h x (hcall.1 ▸ Broadcast.mem_sentBy_of_mem_order horder)

/-- The instances in the set of replicas of an event have their cursor behind it. -/
theorem WellFormed.lt_cursor_of_mem_replicas (h : WellFormed c s) {k : ℕ} {event : ReplicatedEvent}
    (hk : (s.list c r).events[k]? = some event) {j : UInt32} (hj : j ∈ event.replicas) :
    s.erased c r + k < (s.cursors c r).cursor j := by
  rw [(h.refines r).events, List.getElem?_map, CursorLog.getElem?_live, Option.map_map] at hk
  obtain ⟨e, -, rfl⟩ := Option.map_eq_some_iff.mp hk
  rw [h.erased_eq]
  exact (CursorLog.mem_passed.mp hj).2

/-- A mark moves the cursor of its sender behind the events it marks. -/
theorem WellFormed.cursor_mark (h : WellFormed c s) (r j : UInt32) (x : ReplicatedEvent) :
    ((s.cursors c r).apply (.markProduced j x.topic x.partition x.offset)).cursor j =
      max ((s.cursors c r).cursor j) (s.erased c r + (s.list c r).reach x) := by
  have hlen := h.erased_add_length r
  rw [Cursors.apply, CursorLog.cursor_advance_self, Cursors.found, ← (h.refines r).target_eq,
    log_cursors, EventList.reach, ← h.erased_eq]
  omega

end Cursors

/-! ### Bounds for the local variables -/

/-- `last_event` lies below `high`, and a batch goes on between `low` and `high`. -/
structure Polling.Within (p : Polling) (low high : ℕ) : Prop where
  lastEvent : ∀ x, p.lastEvent = some x → x.position < high
  batch : ∀ b, p.batch = some b → low ≤ b.next ∧ b.next ≤ high

namespace Polling.Within

variable {p : Polling} {lastEvent : Option Served} {events rest : List ReplicatedEvent}
  {event back : ReplicatedEvent} {low high next : ℕ}

theorem start (low high : ℕ) : Within {} low high where
  lastEvent x hx := by cases hx
  batch b hb := by cases hb

theorem mono (h : p.Within low high) {high' : ℕ} (hle : high ≤ high') : p.Within low high' where
  lastEvent x hx := (h.lastEvent x hx).trans_le hle
  batch b hb := ⟨(h.batch b hb).1, (h.batch b hb).2.trans hle⟩

/-- A batch is served. -/
theorem served (h : Within ⟨lastEvent, none⟩ low high) (hlow : low ≤ next) (hhigh : next ≤ high) :
    Within ⟨lastEvent, some ⟨events, next, back⟩⟩ low high where
  lastEvent := h.lastEvent
  batch b hb := by
    obtain rfl := Option.some.inj hb
    exact ⟨hlow, hhigh⟩

/-- Local variables that go on to the next event of the batch keep to the interval, extended behind
it. -/
theorem replicated (h : Within ⟨lastEvent, some ⟨event :: rest, next, back⟩⟩ low high) :
    Within ⟨lastEvent, some ⟨rest, next + 1, back⟩⟩ low (max high (next + 1)) where
  lastEvent x hx := lt_max_of_lt_left (h.lastEvent x hx)
  batch b hb := by
    obtain rfl := Option.some.inj hb
    exact ⟨(h.batch _ rfl).1.trans (Nat.le_succ next), le_max_right _ _⟩

/-- Local variables whose batch becomes `last_event` keep to the interval. -/
theorem marked (h : Within ⟨lastEvent, some ⟨[], next, back⟩⟩ low high) (hpos : 0 < next) :
    Within ⟨some ⟨back, next - 1⟩, none⟩ low high where
  lastEvent x hx := by
    obtain rfl := Option.some.inj hx
    exact (Nat.sub_one_lt_of_lt hpos).trans_le (h.batch _ rfl).2
  batch b hb := by cases hb

end Polling.Within

/-- A batch that is through was not empty. -/
theorem WellFormed.next_pos {c : Config} {s : System} {i : UInt32} (hw : WellFormed c s)
    {lastEvent : Option Served} {next : ℕ} {back : ReplicatedEvent}
    (hp : s.polling i = some ⟨lastEvent, some ⟨[], next, back⟩⟩) : 0 < next :=
  ((hw.polling _ _ hp).batch _ rfl).pos

/-! ### The search for an event that the replica holds -/

/-- When a query looks for `last_event`, the own replica holds that event or no event of its
triple. Nobody crashes. -/
def QueryHeld (c : Config) (s : System) (a : UInt32 × Action) : Prop :=
  match a.2 with
  | .query => ∀ x ∈ s.lookedFor a.1,
    s.Holds c a.1 x ∨ ∀ event ∈ (s.list c a.1).events, event.triple ≠ x.event.triple
  | .crash | .rejoin => False
  | _ => True

instance (c : Config) (s : System) (a : UInt32 × Action) : Decidable (QueryHeld c s a) :=
  match a with
  | (_, .query) => inferInstanceAs (Decidable (∀ x ∈ _, _ ∨ ∀ event ∈ _, _))
  | (_, .crash) | (_, .rejoin) => isFalse id
  | (_, .kafkaPoll _) | (_, .queryFails) | (_, .replicate) | (_, .mark) | (_, .sequence)
  | (_, .deliver) => isTrue trivial

section Held

variable {c : Config} {s : System} {r : UInt32} {x : Served}

/-- The search for an event that the replica holds stops there or earlier. -/
theorem WellFormed.target_le (hw : WellFormed c s) (hx : x.In s.log) (hheld : s.Holds c r x) :
    s.erased c r + EventList.target (s.list c r).events x.event.topic x.event.partition
      x.event.offset ≤ x.position := by
  obtain ⟨hlow, hhigh⟩ := hheld
  have hlt : x.position - s.erased c r < (s.list c r).events.length := by omega
  have hcontent : ((s.list c r).events[x.position - s.erased c r]).content = x.event.content := by
    have hlist := hw.getElem?_list r (x.position - s.erased c r)
    have hlocal : x.position < (s.localLog r).length := by
      rw [← hw.erased_add_length r]
      exact hhigh
    have hlog := getElem?_mono (localLog_prefix_log s r) (List.getElem?_eq_getElem hlocal)
    rw [Nat.add_sub_cancel' hlow, List.getElem?_eq_getElem hlt, List.getElem?_eq_getElem hlocal,
      ← hlog, hx] at hlist
    exact Option.some.inj hlist
  by_contra hcon
  have hbefore : x.position - s.erased c r < (s.list c r).events.findIdx
      (·.isAt x.event.topic x.event.partition x.event.offset) := by
    simp only [EventList.target] at hcon
    omega
  have htriple : ((s.list c r).events[x.position - s.erased c r]).triple = x.event.triple :=
    by simpa using congrArg ReplicatedEvent.triple hcontent
  exact Bool.eq_false_iff.mp (List.not_of_lt_findIdx hbefore)
    (ReplicatedEvent.isAt_iff.mpr htriple)

/-- A query for an event that the replica holds starts behind it or earlier. -/
theorem WellFormed.start_le_of_holds (hw : WellFormed c s) (hx : x.In s.log)
    (hheld : s.Holds c r x) : s.erased c r + s.first c r (some x) ≤ x.position + 1 := by
  have htarget := hw.target_le hx hheld
  rw [System.first, EventList.firstNotReplicatedFrom_eq_target]
  split_ifs <;> omega

/-- A query that finds nothing starts at the beginning of the list. -/
theorem System.first_eq_zero_of_miss
    (hmiss : ∀ event ∈ (s.list c r).events, event.triple ≠ x.event.triple) :
    s.first c r (some x) = 0 := by
  rw [System.first, EventList.firstNotReplicatedFrom_eq_target,
    if_pos (EventList.target_eq_length hmiss)]

/-- Without a `last_event`, a query starts at the cursor of the instance. -/
theorem WellFormed.start_none (hw : WellFormed c s) (hr : r ∈ c.ids) :
    s.erased c r + s.first c r none = (s.cursors c r).cursor r := by
  rw [System.first, (hw.refines r).firstNotReplicated_eq hr, hw.erased_eq,
    Nat.add_sub_cancel' (CursorLog.low_le_cursor hr)]

end Held

end Kdsync
