import Kdsync.Library.Relay
import Kdsync.System.Order
import Kdsync.System.Unique

/-!
# The group passes on its log

What the group is for is a `Relay`: one log, and each instance puts out its events one after the
other. With unique triples every run of the group follows one (`relay_of_run`), through crashes and
restarts: replicating an event is putting out the next one, a crash is the only way back, and
nothing is erased that an instance has not passed.

The results about readers then hold of the instances. They agree on the order of events through
crashes and restarts as well (`orderAgreement_of_distinct`), and an instance replicates an event at
most once more than it crashes (`count_trace_le`).
-/

namespace Kdsync

open ReplicatedEvent (content)

/-- The log of the group, and the instances as its readers. -/
def System.relay (s : System) : Relay UInt32 ReplicatedEvent where
  log := s.log
  next := s.done
  output := s.trace

/-- Only the instance that crashes falls back, and only once. -/
def FallsBackAt (a : UInt32 × Action) (moves : List (Relay.Move UInt32 ReplicatedEvent)) : Prop :=
  ∀ i, moves.countP (Relay.Move.takesBack i) ≤ [a].count (i, .crash)

/-! ### One step -/

section Step

variable {c : Config} {s s' : System} {i j : UInt32} {a : Action}

theorem Effect.done_of_ne (he : Effect c s i a s') (hj : j ≠ i) : s'.done j = s.done j := by
  simp only [System.done, he.polling_of_ne hj, he.sentBy_of_ne hj]

theorem Effect.trace_of_ne (he : Effect c s i a s') (hj : j ≠ i) : s'.trace j = s.trace j := by
  simp only [System.trace, he.replicated_of_ne hj]

/-- What changes at one instance only. -/
theorem eq_update {β : Type} {f g : UInt32 → β} (h : ∀ j ≠ i, g j = f j) :
    g = Function.update f i (g i) := by
  funext j
  rcases eq_or_ne j i with rfl | hj
  · rw [Function.update_self]
  · rw [Function.update_of_ne hj, h j hj]

/-- The position of a replicated event is in the log. -/
theorem WellFormed.lt_length_of_mem_trace (hw : WellFormed c s) {p : ℕ} (hp : p ∈ s.trace i) :
    p < s.log.length := by
  obtain ⟨x, hx, rfl⟩ := List.mem_map.mp hp
  exact (hw.replicated i x hx).lt_length

/-- **One step** is followed by the relay: the log grows, and the instance puts out the next event
or falls back. -/
theorem Exact.exists_moves (h : Exact c s) (hw : WellFormed c s) (hlog : Distinct s.log)
    (hi : i ∈ c.ids) (he : Effect c s i a s') :
    ∃ moves, FallsBackAt (i, a) moves ∧ Machine.exec Relay.step s.relay moves = some s'.relay := by
  obtain ⟨entries, hentries⟩ := he.log_prefix
  have hdoneOf : s'.done = Function.update s.done i (s'.done i) :=
    eq_update fun j hj => he.done_of_ne hj
  have htraceOf : s'.trace = Function.update s.trace i (s'.trace i) :=
    eq_update fun j hj => he.trace_of_ne hj
  have hextend : Machine.exec Relay.step s.relay [.extend entries] =
      some { s.relay with log := s'.log } := hentries ▸ Relay.exec_extend entries
  obtain ⟨hdone, htrace⟩ | ⟨hdone, htrace⟩ | ⟨rfl, hdone, htrace⟩ := h.done_effect hw hlog hi he i
  · refine ⟨[.extend entries], fun k => by simp [Relay.Move.takesBack], ?_⟩
    rw [hdone, Function.update_eq_self] at hdoneOf
    rw [htrace, Function.update_eq_self] at htraceOf
    rw [hextend, System.relay, System.relay, hdoneOf, htraceOf]
  · -- the event is in the log, since it is in the trace after the step
    have hlt : s.done i < s'.log.length :=
      (hw.effect hi he).lt_length_of_mem_trace (i := i) (by simp [htrace])
    refine ⟨[.extend entries] ++ [.emit i], fun k => by simp [Relay.Move.takesBack],
      (Relay.exec_emit hextend hlt).trans ?_⟩
    rw [hdone] at hdoneOf
    rw [htrace] at htraceOf
    simp only [System.relay, hdoneOf, htraceOf]
  · refine ⟨[.extend entries] ++ [.fallBack i (s'.done i)], fun k => ?_,
      (Relay.exec_fallBack hextend hdone).trans ?_⟩
    · rw [List.countP_append, List.count_singleton]
      by_cases hk : i = k
      · simp [Relay.Move.takesBack, hk]
      · simp [Relay.Move.takesBack, hk]
    · rw [htrace, Function.update_eq_self] at htraceOf
      simp only [System.relay, ← hdoneOf, htraceOf]

end Step

/-- An instance that has replicated the first events of the log, each once and in their order. -/
theorem WellFormed.contents_replicated {c : Config} {s : System} (hw : WellFormed c s) {i : UInt32}
    {n : ℕ} (htrace : s.trace i = List.range n) :
    (s.replicated i).map (·.event.content) =
      (s.log.take (s.replicated i).length).map content := by
  have hlength : (s.replicated i).length = n := by
    simpa [System.trace] using congrArg List.length htrace
  refine List.ext_getElem? fun k => ?_
  rw [List.getElem?_map, List.getElem?_map, List.getElem?_take]
  split_ifs with hk
  · -- the event replicated as number `k` stands at position `k`
    have hposition : ((s.replicated i)[k]).position = k := by
      have hget : (s.trace i)[k]? = some k := by rw [htrace, List.getElem?_range (hlength ▸ hk)]
      rw [System.trace, List.getElem?_map, List.getElem?_eq_getElem hk] at hget
      exact Option.some.inj hget
    have hin := hw.replicated i _ (List.getElem_mem hk)
    rw [Served.In, hposition] at hin
    rw [List.getElem?_eq_getElem hk, Option.map_some, hin]
  · rw [List.getElem?_eq_none (Nat.le_of_not_lt hk)]
    rfl

/-! ### Runs -/

section Runs

variable {c : Config} {s : System} {ok : System → UInt32 × Action → Prop}
  {actions : List (UInt32 × Action)}

/-- If the triples of the log are unique after a run, they were before each of its steps. -/
theorem run_distinct (h : Machine.Run (step c) ok .init actions s) (hlog : Distinct s.log) :
    Machine.Run (step c) (fun s a => ok s a ∧ Distinct s.log) .init actions s :=
  h.backward (fun _ _ _ hstep hlog' =>
    hlog'.of_prefix (Effect.log_prefix (Effect.of_step hstep).2)) hlog

/-- The moves of a run fall back as often as instances crash. -/
theorem countP_takesBack_le {moves : List (List (Relay.Move UInt32 ReplicatedEvent))}
    (h : List.Forall₂ FallsBackAt actions moves) (i : UInt32) :
    moves.flatten.countP (Relay.Move.takesBack i) ≤ actions.count (i, .crash) := by
  induction h with
  | nil => exact Nat.le_refl _
  | @cons a move _ _ hmove _ ih =>
    rw [List.flatten_cons, List.countP_append, ← List.singleton_append, List.count_append]
    exact Nat.add_le_add (hmove i) ih

/-- Every run with unique triples is followed by the relay. -/
theorem exists_relay_of_run (h : Machine.Run (step c) ok .init actions s)
    (hlog : Distinct s.log) : WellFormed c s ∧ Exact c s ∧
      ∃ moves, Machine.exec Relay.step .init moves = some s.relay ∧
        ∀ i, moves.countP (Relay.Move.takesBack i) ≤ actions.count (i, .crash) := by
  obtain ⟨⟨hw, hexact⟩, moves, hmatching, hexec⟩ := (run_distinct h hlog).simulation System.relay
    (fun s => WellFormed c s ∧ Exact c s) FallsBackAt ⟨.init c, .init c⟩
    fun s a s' hs hok hstep => by
      obtain ⟨hi, he⟩ := Effect.of_step hstep
      exact ⟨⟨hs.1.effect hi he, hs.2.effect hs.1 hok.2 hi he⟩,
        hs.2.exists_moves hs.1 hok.2 hi he⟩
  have hinit : System.init.relay = Relay.init := by
    simp only [System.relay, Relay.init, Relay.mk.injEq]
    exact ⟨rfl, rfl, rfl⟩
  exact ⟨hw, hexact, moves.flatten, hinit ▸ hexec, countP_takesBack_le hmatching⟩

/-- What an instance has replicated is what a reader has put out that falls back at most once for
each of its crashes. -/
theorem passed_of_run (h : Machine.Run (step c) ok .init actions s) (hlog : Distinct s.log)
    (i : UInt32) : ∃ fallBacks ≤ actions.count (i, .crash),
      Relay.Passed (s.done i) (s.trace i) fallBacks := by
  obtain ⟨-, -, moves, hexec, hcount⟩ := exists_relay_of_run h hlog
  exact ⟨_, hcount i, Relay.passed_of_exec hexec i⟩

/-! ### Main results -/

/-- **The group passes on its log.** Every run whose events carry pairwise different triples, with
crashes and restarts at any moment, is followed by moves of a log with the instances as its readers.
An instance falls back at most as often as it crashes, no list loses an event that some instance has
not passed, and a query returns the next events of the log. -/
theorem relay_of_run (h : Machine.Run (step c) ok .init actions s) (hlog : Distinct s.log) :
    (∃ moves, Machine.exec Relay.step .init moves = some s.relay ∧
      ∀ i, moves.countP (Relay.Move.takesBack i) ≤ actions.count (i, .crash)) ∧
    (∀ r, ∀ i ∈ c.ids, s.erased c r ≤ s.relay.next i) ∧
    ∀ i ∈ c.ids, ∀ lastEvent, s.polling i = some ⟨lastEvent, none⟩ →
      (s.list c i).events.length ≤ intMax →
      ∃ events, s.query c i lastEvent = some events ∧ events.map content =
        (((s.localLog i).map content).drop (s.relay.next i)).take c.eventChunk.toNat := by
  obtain ⟨hw, hexact, hrelay⟩ := exists_relay_of_run h hlog
  exact ⟨hrelay, fun r i hi => hexact.erased_le_done hw hi r,
    fun i hi lastEvent hp hlen => hexact.query_eq_take hw hlog hi hp hlen⟩

end Runs

/-- Instance 0 crashes after it has replicated two events and before the mark of the second one is
ordered. -/
def crashAhead : List (UInt32 × Action) :=
  adds 0 (record [97] 0 0 [1]) ++ both .deliver ++ replicateOne ++
    adds 1 (record [98] 0 0 [2]) ++ both .deliver ++
    acts 0 [.query, .replicate, .mark, .crash, .rejoin, .query, .replicate]

theorem exists_run_crashAhead :
    ∃ s, Machine.Run (step twoTopics) (fun _ _ => True) .init crashAhead s ∧
      s.trace 0 = [0, 1, 1] ∧ Distinct s.log := by
  obtain ⟨s, hrun, hcheck⟩ := Machine.Run.exists_of_exec (step twoTopics) (fun _ _ => True) .init
    crashAhead (fun s => s.trace 0 = [0, 1, 1] ∧ Distinct s.log) (by decide +kernel)
  exact ⟨s, hrun, of_decide_eq_true hcheck⟩

theorem relay_of_run_crashAhead :
    ∃ s : System, s.trace 0 = [0, 1, 1] ∧ ∃ moves,
      Machine.exec Relay.step .init moves = some s.relay ∧
        ∀ i, moves.countP (Relay.Move.takesBack i) ≤ crashAhead.count (i, .crash) := by
  obtain ⟨s, hrun, htrace, hlog⟩ := exists_run_crashAhead
  exact ⟨s, htrace, (relay_of_run hrun hlog).1⟩

section Runs

variable {c : Config} {s : System} {ok : System → UInt32 × Action → Prop}
  {actions : List (UInt32 × Action)}

/-- **Agreement through crashes.** In every run whose events carry pairwise different triples, with
crashes and restarts at any moment, any two instances agree on the order in which they replicate two
events for the first time. -/
theorem orderAgreement_of_distinct (h : Machine.Run (step c) ok .init actions s)
    (hlog : Distinct s.log) : OrderAgreement c s := by
  intro i _ j _ p q hpi hqi hpj hqj
  obtain ⟨_, -, hi⟩ := passed_of_run h hlog i
  obtain ⟨_, -, hj⟩ := passed_of_run h hlog j
  exact hi.firsts.agree hj.firsts hpi hqi hpj hqj

end Runs

theorem orderAgreement_of_distinct_crashAhead :
    ∃ s, s.trace 0 = [0, 1, 1] ∧ OrderAgreement twoTopics s := by
  obtain ⟨s, hrun, htrace, hlog⟩ := exists_run_crashAhead
  exact ⟨s, htrace, orderAgreement_of_distinct hrun hlog⟩

section Runs

variable {c : Config} {s : System} {ok : System → UInt32 × Action → Prop}
  {actions : List (UInt32 × Action)}

/-- **Duplicates come from crashes.** In every run whose events carry pairwise different triples, an
instance replicates an event at most once more than it crashes. An instance that has not crashed has
replicated the first events of the log, each once and in their order, whatever the others do. -/
theorem count_trace_le (h : Machine.Run (step c) ok .init actions s) (hlog : Distinct s.log)
    (i : UInt32) :
    (∀ p, (s.trace i).count p ≤ actions.count (i, .crash) + 1) ∧
    ((i, .crash) ∉ actions → (s.replicated i).map (·.event.content) =
      (s.log.take (s.replicated i).length).map content) := by
  obtain ⟨fallBacks, hle, hpassed⟩ := passed_of_run h hlog i
  refine ⟨fun p => ?_, fun hcrash => ?_⟩
  · have hcount := hpassed.count_le p
    split_ifs at hcount <;> omega
  · rw [List.count_eq_zero_of_not_mem hcrash] at hle
    exact (exists_relay_of_run h hlog).1.contents_replicated
      (hpassed.output_eq_range (Nat.le_zero.mp hle))

end Runs

theorem count_trace_le_crashAhead :
    ∃ s : System, s.trace 0 = [0, 1, 1] ∧ (∀ p, (s.trace 0).count p ≤ 2) ∧
      (s.replicated 1).map (·.event.content) =
        (s.log.take (s.replicated 1).length).map content := by
  obtain ⟨s, hrun, htrace, hlog⟩ := exists_run_crashAhead
  exact ⟨s, htrace, (count_trace_le hrun hlog 0).1, (count_trace_le hrun hlog 1).2 (by decide)⟩

end Kdsync
