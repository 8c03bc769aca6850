import Kdsync.System.Exact
import Kdsync.System.AtLeastOnce

/-!
# Runs with unique triples

When no two added events carry the same triple, as with a topic for each cluster and consumers
that hand out every record once:

* `inStep_of_run`: without crashes, each instance replicates every event of its list exactly once
  and in the total order, and no event is erased or marked before.
* `nothingSkipped_of_run`: through any crashes and restarts, an instance marks only what it or an
  earlier incarnation has replicated, and it resumes without a gap.
-/

namespace Kdsync

open ReplicatedEvent (content)
open Broadcast (from_)

/-! ### What the invariant says about a state -/

section State

variable {c : Config} {s : System} {i j r : UInt32}

/-- What is marked on a replica, its sender is through with. -/
theorem Exact.lt_done_of_mem_replicas (h : Exact c s) (hw : WellFormed c s) {k : ℕ}
    {event : ReplicatedEvent} (hk : (s.list c r).events[k]? = some event)
    (hj : j ∈ event.replicas) : s.erased c r + k < s.done j :=
  (hw.lt_cursor_of_mem_replicas hk hj).trans_le ((h.cursor_le r j).trans (h.marksUpto_le_done j))

/-- What is erased on a replica, all instances are through with. -/
theorem Exact.erased_le_done (h : Exact c s) (hw : WellFormed c s) (hj : j ∈ c.ids) (r : UInt32) :
    s.erased c r ≤ s.done j := by
  rw [hw.erased_eq]
  exact (CursorLog.low_le_cursor hj).trans ((h.cursor_le r j).trans (h.marksUpto_le_done j))

/-- A replica holds the event of the mark that it applies next. -/
theorem Exact.holds_of_nextMark (h : Exact c s) (hw : WellFormed c s) {x : Served}
    (hx : x ∈ s.nextMark r) : s.Holds c r x := by
  obtain ⟨j, hm⟩ := System.exists_of_nextMark hx
  have hsent := Broadcast.mem_sentBy_of_mem_order (List.mem_of_getElem? hm)
  have hj : j ∈ c.ids := hw.calls_by j _ hsent
  have hnext : s.net.delivered r ++ [(j, .markProduced x)] <+: s.net.order :=
    s.net.delivered_concat hm ▸ List.take_prefix _ _
  have hmarks : from_ j (s.net.delivered r ++ [(j, .markProduced x)]) =
      from_ j (s.net.delivered r) ++ [.markProduced x] := by
    rw [Broadcast.from_append, Broadcast.from_singleton, if_pos rfl]
  constructor
  · -- the sender has not marked as far as this before
    have hprefix : from_ j (s.net.delivered r) ++ [.markProduced x] <+: s.net.sentBy j :=
      hmarks ▸ (Broadcast.from_mono hnext).trans (List.prefix_append _ _)
    have hle := (h.instances j).advancing _ x hprefix
    rw [← h.cursor_eq] at hle
    rw [hw.erased_eq]
    exact (CursorLog.low_le_cursor hj).trans hle
  · -- the cursor behind the target is within the log
    have hcursor := h.cursor _ hnext j
    have hle := (c.cursors (s.net.delivered r ++ [(j, .markProduced x)])).cursor_le j
    rw [hcursor, hmarks, marksUpto_markProduced, Config.log_cursors, calls_append, added_append]
      at hle
    rw [hw.erased_add_length]
    simpa [Rpc.call, System.localLog, Nat.succ_le_iff] using hle

/-- In range, a query returns the next chunk of the events the instance is not through with. -/
theorem Exact.query_eq_take (h : Exact c s) (hw : WellFormed c s) (hlog : Distinct s.log)
    (hi : i ∈ c.ids) {lastEvent : Option Served} (hp : s.polling i = some ⟨lastEvent, none⟩)
    (hlen : (s.list c i).events.length ≤ intMax) :
    ∃ events, s.query c i lastEvent = some events ∧
      events.map content =
        (((s.localLog i).map content).drop (s.done i)).take c.eventChunk.toNat := by
  have hmember : (s.list c i).eventChunk = c.eventChunk.toInt32 := EventList.eventChunk_replay _ _
  refine ⟨_, (query_eq c s i lastEvent).trans
    (EventList.chunkFrom_eq_take hmember c.chunk_le hlen _), ?_⟩
  have hlist : (s.list c i).events.map content =
      ((s.localLog i).map content).drop (s.erased c i) := by
    refine List.ext_getElem? fun k => ?_
    rw [List.getElem?_map, List.getElem?_drop, List.getElem?_map, hw.getElem?_list]
  rw [List.map_take, List.map_drop, hlist, List.drop_drop, h.start_eq_done hw hlog hi hp]

/-- An instance that is up is through with events of its own replica. -/
theorem Exact.done_le_length (h : Exact c s) (hw : WellFormed c s) (hup : (s.polling i).isSome) :
    s.done i ≤ (s.localLog i).length := by
  obtain ⟨p, hp⟩ := Option.isSome_iff_exists.mp hup
  have hin := hw.polling i p hp
  rcases p with ⟨lastEvent, none | b⟩
  · have hdone : s.done i = marksUpto (s.net.sentBy i) := by simp [System.done, hp]
    rw [hdone]
    cases lastEvent with
    | none =>
      rw [← ((h.instances i).polling _ hp).restarted rfl, ← h.cursor_eq, ← log_cursors (c := c)]
      exact (s.cursors c i).cursor_le i
    | some x =>
      rw [((h.instances i).polling _ hp).lastEvent x rfl]
      exact (hin.lastEvent x rfl).lt_length
  · have hdone : s.done i = b.next := by simp [System.done, hp]
    have hpos := (hin.batch b rfl).pos
    have hlast := (hin.batch b rfl).last.lt_length
    simp only [Batch.last] at hlast
    omega

end State

/-! ### Without crashes -/

/-- Instance `i` replicates the events of its list exactly once and in their order, and nobody
counts on it for events it has not replicated. -/
structure InStep (c : Config) (s : System) (i : UInt32) : Prop where
  /-- The replicated events are the first events added to the own replica. -/
  contents : (s.replicated i).map (fun x => x.event.content) <+: (s.localLog i).map content
  /-- Each of them was replicated once. -/
  positions : s.trace i = List.range (s.replicated i).length
  /-- Only replicated events are marked, on any replica. -/
  marked : ∀ r ∈ c.ids, ∀ k event, (s.list c r).events[k]? = some event → i ∈ event.replicas →
    s.erased c r + k < (s.replicated i).length
  /-- Only replicated events are erased, on any replica. -/
  erased : ∀ r ∈ c.ids, s.erased c r ≤ (s.replicated i).length
  /-- The own replica holds the target of the mark it applies next. -/
  target : ∀ x ∈ s.nextMark i, s.Holds c i x
  /-- A query returns the next chunk of events that are not replicated. -/
  query : ∀ lastEvent, s.polling i = some ⟨lastEvent, none⟩ →
    (s.list c i).events.length ≤ intMax →
    ∃ events, s.query c i lastEvent = some events ∧
      events.map content =
        (((s.localLog i).map content).drop (s.replicated i).length).take c.eventChunk.toNat

section Runs

variable {c : Config} {s : System} {actions : List (UInt32 × Action)}

/-- Without crashes, an instance has replicated what it is through with, once and in order. -/
private theorem trace_eq_range_of_run
    (h : Machine.Run (step c) (fun _ a => a.2.Steady) .init actions s) (hlog : Distinct s.log) :
    WellFormed c s ∧ Exact c s ∧
      ∀ j, (s.polling j).isSome ∧ s.trace j = List.range (s.done j) := by
  suffices hinv : WellFormed c s ∧ (Distinct s.log → Exact c s ∧
      ∀ j, (s.polling j).isSome ∧ s.trace j = List.range (s.done j)) from ⟨hinv.1, hinv.2 hlog⟩
  refine h.invariant (fun s => WellFormed c s ∧ (Distinct s.log → Exact c s ∧
    ∀ j, (s.polling j).isSome ∧ s.trace j = List.range (s.done j)))
    ⟨.init c, fun _ => ⟨.init c, fun j => ⟨rfl, rfl⟩⟩⟩ ?_
  rintro s a s' ⟨hw, hexact⟩ hsteady hstep
  obtain ⟨hi, he⟩ := Effect.of_step hstep
  have hcrash : a.2 ≠ .crash := by
    rintro heq
    rw [heq] at hsteady
    exact hsteady
  refine ⟨hw.effect hi he, fun hlog' => ?_⟩
  have hlog := hlog'.of_prefix he.log_prefix
  obtain ⟨h, htrace⟩ := hexact hlog
  refine ⟨h.effect hw hlog hi he, fun j => ⟨he.isSome_polling hcrash (htrace j).1, ?_⟩⟩
  obtain ⟨hdone, htrace'⟩ | ⟨hdone, htrace'⟩ | ⟨heq, -⟩ := h.done_effect hw hlog hi he j
  · rw [htrace', hdone, (htrace j).2]
  · rw [htrace', hdone, (htrace j).2, List.range_succ]
  · exact absurd heq hcrash

/-- **Exact replication in order.** In every run without crashes whose events carry pairwise
different triples, every instance is in step. -/
theorem inStep_of_run (h : Machine.Run (step c) (fun _ a => a.2.Steady) .init actions s)
    (hlog : Distinct s.log) : ∀ i ∈ c.ids, InStep c s i := by
  intro i hi
  obtain ⟨hw, hexact, htrace⟩ := trace_eq_range_of_run h hlog
  obtain ⟨hup, hrange⟩ := htrace i
  have hdone : s.done i = (s.replicated i).length := by
    simpa [System.trace] using (congrArg List.length hrange).symm
  refine ⟨?_, hdone ▸ hrange, fun r _ k event hk hmem => ?_, fun r _ => ?_,
    fun x hx => hexact.holds_of_nextMark hw hx, fun lastEvent hp hlen => ?_⟩
  · refine List.prefix_iff_getElem?.mpr fun n hn => ?_
    rw [List.length_map, ← hdone] at hn
    -- the event replicated as number `n` stands at position `n`
    have hlt : n < (s.replicated i).length := hdone ▸ hn
    have hposition : ((s.replicated i)[n]).position = n := by
      have hget : (s.trace i)[n]? = some n := by rw [hrange, List.getElem?_range hn]
      rw [System.trace, List.getElem?_map, List.getElem?_eq_getElem hlt] at hget
      exact Option.some.inj hget
    have hin := hw.replicated i _ (List.getElem_mem hlt)
    rw [Served.In, hposition] at hin
    have hlocal := List.getElem?_eq_getElem (hn.trans_le (hexact.done_le_length hw hup))
    rw [getElem?_mono (localLog_prefix_log s i) hlocal] at hin
    rw [List.getElem?_map, hlocal, hin, List.getElem_map]
  · exact hdone ▸ hexact.lt_done_of_mem_replicas hw hk hmem
  · exact hdone ▸ hexact.erased_le_done hw hi r
  · exact hdone ▸ hexact.query_eq_take hw hlog hi hp hlen

end Runs

/-- Two clusters with a topic each, and the same partition and offset. -/
theorem inStep_of_run_twoTopics :
    ∃ s, s.erased twoTopics 0 = 2 ∧ ∀ i ∈ twoTopics.ids, InStep twoTopics s i := by
  obtain ⟨s, hrun, hcheck⟩ := Machine.Run.exists_of_exec (step twoTopics) (fun _ a => a.2.Steady)
    .init (adds 0 (record [97] 0 0 [1]) ++ both .deliver ++ replicateOne ++
      adds 1 (record [98] 0 0 [2]) ++ both .deliver ++ replicateOne)
    (fun s => s.erased twoTopics 0 = 2 ∧ Distinct s.log) (by decide +kernel)
  obtain ⟨herased, hlog⟩ := of_decide_eq_true hcheck
  exact ⟨s, herased, inStep_of_run hrun hlog⟩

/-! ### Crashes and restarts -/

/-- Instance `i` or an earlier incarnation has replicated everything that is counted on. -/
structure NothingSkipped (c : Config) (s : System) (i : UInt32) : Prop where
  /-- What is marked, on any replica. -/
  marked : ∀ r ∈ c.ids, ∀ k event, (s.list c r).events[k]? = some event → i ∈ event.replicas →
    Covers SameEvent s i (s.erased c r + k)
  /-- What is erased, on any replica. -/
  erased : ∀ r ∈ c.ids, ∀ p < s.erased c r, Covers SameEvent s i p
  /-- What stands before the start of a query. -/
  resumed : ∀ lastEvent, s.polling i = some ⟨lastEvent, none⟩ →
    ∀ p < s.erased c i + s.first c i lastEvent, Covers SameEvent s i p

section Runs

variable {c : Config} {s : System} {ok : System → UInt32 × Action → Prop}
  {actions : List (UInt32 × Action)}

/-- A position of the trace is that of a replicated event. -/
theorem covers_of_mem_trace (hw : WellFormed c s) {i : UInt32} {p : ℕ}
    (h : p ∈ s.trace i) : Covers SameEvent s i p := by
  obtain ⟨x, hx, rfl⟩ := List.mem_map.mp h
  obtain ⟨e, he, hcontent⟩ := Option.map_eq_some_iff.mp (hw.replicated i x hx)
  exact ⟨e, he, x, hx, rfl, ReplicatedEvent.operatorEq_iff.mpr hcontent.symm⟩

/-- Through crashes and restarts, some incarnation has replicated what an instance is through
with. -/
private theorem mem_trace_of_run (h : Machine.Run (step c) ok .init actions s)
    (hlog : Distinct s.log) :
    WellFormed c s ∧ Exact c s ∧ ∀ j, ∀ p < s.done j, p ∈ s.trace j := by
  suffices hinv : WellFormed c s ∧
      (Distinct s.log → Exact c s ∧ ∀ j, ∀ p < s.done j, p ∈ s.trace j) from
    ⟨hinv.1, hinv.2 hlog⟩
  refine h.invariant (fun s => WellFormed c s ∧
    (Distinct s.log → Exact c s ∧ ∀ j, ∀ p < s.done j, p ∈ s.trace j))
    ⟨.init c, fun _ => ⟨.init c, fun j p hp => absurd hp (Nat.not_lt_zero p)⟩⟩ ?_
  rintro s a s' ⟨hw, hexact⟩ - hstep
  obtain ⟨hi, he⟩ := Effect.of_step hstep
  refine ⟨hw.effect hi he, fun hlog' => ?_⟩
  have hlog := hlog'.of_prefix he.log_prefix
  obtain ⟨h, htrace⟩ := hexact hlog
  refine ⟨h.effect hw hlog hi he, fun j p hp => ?_⟩
  obtain ⟨hdone, htrace'⟩ | ⟨hdone, htrace'⟩ | ⟨-, hdone, htrace'⟩ :=
    h.done_effect hw hlog hi he j
  · rw [htrace']
    exact htrace j p (hdone ▸ hp)
  · rw [htrace', List.mem_append, List.mem_singleton]
    rcases Nat.lt_succ_iff_lt_or_eq.mp (hdone ▸ hp) with hlt | heq
    · exact .inl (htrace j p hlt)
    · exact .inr heq
  · rw [htrace']
    exact htrace j p (hp.trans_le hdone)

/-- **At least once across crash and rejoin.** In every run, with crashes and restarts at any
moment, whose events carry pairwise different triples, no instance is counted on for an event that
it has not replicated. -/
theorem nothingSkipped_of_run (h : Machine.Run (step c) ok .init actions s)
    (hlog : Distinct s.log) : ∀ i ∈ c.ids, NothingSkipped c s i := by
  intro i hi
  obtain ⟨hw, hexact, htrace⟩ := mem_trace_of_run h hlog
  refine ⟨fun r _ k event hk hmem => ?_, fun r _ p hp => ?_, fun lastEvent hpolling p hp => ?_⟩
  · exact covers_of_mem_trace hw (htrace i _ (hexact.lt_done_of_mem_replicas hw hk hmem))
  · exact covers_of_mem_trace hw (htrace i p (hp.trans_le (hexact.erased_le_done hw hi r)))
  · rw [hexact.start_eq_done hw hlog hi hpolling] at hp
    exact covers_of_mem_trace hw (htrace i p hp)

end Runs

/-- Instance 0 crashes after it has replicated an event and before it has sent the mark; it
replicates the event again after its restart. -/
theorem nothingSkipped_of_run_twoTopics :
    ∃ s, (s.erased twoTopics 1 = 1 ∧ s.trace 0 = [0, 0]) ∧
      ∀ i ∈ twoTopics.ids, NothingSkipped twoTopics s i := by
  obtain ⟨s, hrun, hcheck⟩ := Machine.Run.exists_of_exec (step twoTopics) (fun _ _ => True)
    .init (adds 0 (record [97] 0 0 [1]) ++ both .deliver ++ both .query ++ both .replicate ++
      acts 1 [.mark, .sequence] ++ acts 0 [.crash, .rejoin, .query, .replicate, .mark, .sequence] ++
      both .deliver ++ acts 1 [.deliver])
    (fun s => (s.erased twoTopics 1 = 1 ∧ s.trace 0 = [0, 0]) ∧ Distinct s.log)
    (by decide +kernel)
  obtain ⟨hstate, hlog⟩ := of_decide_eq_true hcheck
  exact ⟨s, hstate, nothingSkipped_of_run hrun hlog⟩

end Kdsync
