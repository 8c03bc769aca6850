import Kdsync.Outcome
import Kdsync.System.Relay

/-!
# The group with its clusters

The group model says which events an instance passes to `replicate_event`. Here each cluster keeps
the records it has accepted from its instance, and every round of the `for` loop has an outcome: a
record may be accepted or fail, or an exception ends the program, also after the cluster has
accepted the record. The rounds of a loop come to what `replicateAll` says of it (`exec_loop`): one
that no exception leaves brings its batch to the cluster exactly if no record of it fails after it
was queued (`exec_loop_of_returns`).

If no record fails after it was queued, each step is followed by the `Relay` of the group's log that
has the "-global" topics as the output of its readers (`exists_moves`).
-/

namespace Kdsync

/-- The event of the next round of the `for` loop. -/
def System.nextRound (s : System) (i : UInt32) : Option Served :=
  match s.polling i with
  | some ⟨_, some ⟨event :: _, next, _⟩⟩ => some ⟨event, next⟩
  | _ => none

/-- The cluster accepts the record. -/
def Outcome.stores : Outcome → Bool
  | .accepted | .timedOut true => true
  | .refused | .timedOut false | .failed => false

theorem Outcome.produce_eq (outcome : Outcome) (event : ReplicatedEvent)
    (accepted : List MessageBuilder) : outcome.produce event accepted =
      if outcome.stores then accepted ++ [replicateEvent event] else accepted := by
  cases outcome with
  | timedOut stored => cases stored <;> rfl
  | _ => rfl

/-- The group and the "-global" topics of the clusters. -/
structure Clusters where
  system : System
  /-- The records that a cluster has accepted from its instance. -/
  accepted : UInt32 → List MessageBuilder
  /-- The positions of their events in the log. They are not part of the program. -/
  positions : UInt32 → List ℕ

namespace Clusters

/-- All instances have started, and the "-global" topics are empty. -/
def init : Clusters where
  system := .init
  accepted _ := []
  positions _ := []

/-- What an instance does. -/
inductive Action
  /-- An action of the group that produces nothing. -/
  | group (a : Kdsync.Action)
  /-- A round of the `for` loop, with what becomes of the record. -/
  | round (outcome : Outcome)
  deriving DecidableEq

/-- What the action is in the group: an exception leaves the loop and ends the program. -/
def Action.inGroup : Action → Kdsync.Action
  | .group a => a
  | .round outcome => if outcome.returns then .replicate else .crash

/-- The actions in the group. -/
def inGroup (actions : List (UInt32 × Action)) : List (UInt32 × Kdsync.Action) :=
  actions.map fun a => (a.1, a.2.inGroup)

/-- A round of the loop goes on with the batch or ends the program. -/
theorem Action.inGroup_round (outcome : Outcome) :
    (Action.round outcome).inGroup = .replicate ∨ (Action.round outcome).inGroup = .crash := by
  cases hreturns : outcome.returns with
  | true => exact .inl (if_pos hreturns)
  | false => exact .inr (if_neg (by rw [hreturns]; decide))

/-- An action that is neither a round of the loop nor a crash in the group is no round. -/
theorem Action.eq_group_of_inGroup {a : Action} {action : Kdsync.Action} (h : a.inGroup = action)
    (hreplicate : action ≠ .replicate) (hcrash : action ≠ .crash) : a = .group action := by
  cases a with
  | group => exact congrArg _ h
  | round outcome =>
    obtain hround | hround := Action.inGroup_round outcome
    · exact absurd (h.symm.trans hround) hreplicate
    · exact absurd (h.symm.trans hround) hcrash

/-- What becomes of the record of the event `x` at the cluster of instance `i`. -/
def produce (s : Clusters) (i : UInt32) (x : Served) (outcome : Outcome) : Clusters :=
  { s with
    accepted := Function.update s.accepted i (outcome.produce x.event (s.accepted i))
    positions := if outcome.stores then
      Function.update s.positions i (s.positions i ++ [x.position]) else s.positions }

/-- One step of the group and its clusters. -/
def step (c : Config) (s : Clusters) (a : UInt32 × Action) : Option Clusters :=
  match a.2 with
  | .group .replicate => none
  | .group action => (Kdsync.step c s.system (a.1, action)).map fun system => { s with system }
  | .round outcome => do
    let x ← s.system.nextRound a.1
    let system ← Kdsync.step c s.system (a.1, a.2.inGroup)
    some { s.produce a.1 x outcome with system }

/-- No record fails after it was queued. -/
def Action.Reliable (a : Action) : Prop := a ≠ .round .failed

instance (a : Action) : Decidable a.Reliable := inferInstanceAs (Decidable (_ ≠ _))

/-! ### One step -/

/-- The outcomes of an action. -/
inductive Effect (s : Clusters) (i : UInt32) : Action → Clusters → Prop
  | group {a : Kdsync.Action} {system : System} (ha : a ≠ .replicate) :
      Effect s i (.group a) { s with system }
  | round {outcome : Outcome} {x : Served} {system : System}
      (hx : s.system.nextRound i = some x) :
      Effect s i (.round outcome) { s.produce i x outcome with system }

section Step

variable {c : Config} {s s' : Clusters} {i : UInt32} {a : Action}

@[simp] theorem accepted_produce_self (s : Clusters) (i : UInt32) (x : Served)
    (outcome : Outcome) :
    (s.produce i x outcome).accepted i = outcome.produce x.event (s.accepted i) :=
  Function.update_self ..

@[simp] theorem accepted_produce_of_ne {j : UInt32} (hj : j ≠ i) (x : Served) (outcome : Outcome) :
    (s.produce i x outcome).accepted j = s.accepted j := Function.update_of_ne hj ..

/-- An action of the group leaves the clusters as they are. -/
theorem step_group {action : Kdsync.Action} (ha : action ≠ .replicate) :
    step c s (i, .group action) =
      (Kdsync.step c s.system (i, action)).map fun system => { s with system } := by
  cases action with
  | replicate => exact absurd rfl ha
  | _ => rfl

/-- A step of the group and its clusters is a step of the group, and has one of the outcomes. -/
theorem Effect.of_step (h : step c s (i, a) = some s') :
    Kdsync.step c s.system (i, a.inGroup) = some s'.system ∧ Effect s i a s' := by
  cases a with
  | group action =>
    have hne : action ≠ .replicate := by
      rintro rfl
      cases h
    rw [step_group hne] at h
    obtain ⟨system, hsystem, rfl⟩ := Option.map_eq_some_iff.mp h
    exact ⟨hsystem, .group hne⟩
  | round outcome =>
    simp only [step, Option.bind_eq_bind, Option.bind_eq_some_iff] at h
    obtain ⟨x, hx, system, hsystem, h⟩ := h
    obtain rfl := Option.some.inj h
    exact ⟨hsystem, .round hx⟩

end Step

/-! ### The loop -/

/-- The rounds of the `for` loop, up to one that throws. -/
def loop (i : UInt32) (outcome : ℕ → Outcome) : List ReplicatedEvent → List (UInt32 × Action)
  | [] => []
  | _ :: rest =>
    (i, .round (outcome 0)) ::
      if (outcome 0).returns then loop i (fun j => outcome (j + 1)) rest else []

section Loop

variable {c : Config} {s : Clusters} {i : UInt32} {lastEvent : Option Served}
  {event back : ReplicatedEvent} {rest : List ReplicatedEvent} {next : ℕ}

/-- A round hands its record to the cluster, and goes on with the batch or ends the program. -/
theorem exists_step_round (hi : i ∈ c.ids)
    (hp : s.system.polling i = some ⟨lastEvent, some ⟨event :: rest, next, back⟩⟩)
    (outcome : Outcome) : ∃ s', step c s (i, .round outcome) = some s' ∧
      s'.accepted i = outcome.produce event (s.accepted i) ∧
      s'.system.polling i =
        if outcome.returns then some ⟨lastEvent, some ⟨rest, next + 1, back⟩⟩ else none := by
  obtain ⟨system, hsystem, hpolling⟩ : ∃ system,
      Kdsync.step c s.system (i, (Action.round outcome).inGroup) = some system ∧
        system.polling i =
          if outcome.returns then some ⟨lastEvent, some ⟨rest, next + 1, back⟩⟩ else none := by
    cases hreturns : outcome.returns with
    | false =>
      refine ⟨{ s.system.setPolling i none with net := s.system.net.crash i }, ?_, by simp⟩
      simp only [Action.inGroup, hreturns, Bool.false_eq_true, if_false, Kdsync.step, hi, if_true,
        act, hp, Option.bind_eq_bind, Option.bind_some]
    | true =>
      refine ⟨(s.system.setPolling i
        (some ⟨lastEvent, some ⟨rest, next + 1, back⟩⟩)).replicateEvent i ⟨event, next⟩, ?_,
        by simp⟩
      simp only [Action.inGroup, hreturns, Kdsync.step, hi, if_true, act, hp, Option.bind_eq_bind,
        Option.bind_some]
  have hnext : s.system.nextRound i = some ⟨event, next⟩ := by simp only [System.nextRound, hp]
  refine ⟨{ s.produce i ⟨event, next⟩ outcome with system }, ?_, accepted_produce_self .., hpolling⟩
  simp only [step, hnext, hsystem, Option.bind_eq_bind, Option.bind_some]

/-- **The rounds make up the loop.** After them the cluster has the records that `replicateAll` says
it has, and the instance is at the end of its batch or down. -/
theorem exec_loop (hi : i ∈ c.ids) (events : List ReplicatedEvent) (outcome : ℕ → Outcome)
    (hp : s.system.polling i = some ⟨lastEvent, some ⟨events, next, back⟩⟩) :
    ∃ s', Machine.exec (step c) s (loop i outcome events) = some s' ∧
      s'.accepted i = (replicateAll outcome (s.accepted i) events).2 ∧
      s'.system.polling i = if (replicateAll outcome (s.accepted i) events).1 then
        some ⟨lastEvent, some ⟨[], next + events.length, back⟩⟩ else none := by
  induction events generalizing outcome s next with
  | nil => exact ⟨s, rfl, rfl, hp⟩
  | cons event rest ih =>
    obtain ⟨s₁, hround, haccepted₁, hp₁⟩ := exists_step_round hi hp (outcome 0)
    rw [loop, Machine.exec_cons, hround, Option.bind_some, replicateAll]
    cases hreturns : (outcome 0).returns with
    | false =>
      simp only [hreturns, Bool.false_eq_true, if_false] at hp₁ ⊢
      exact ⟨s₁, rfl, haccepted₁, hp₁⟩
    | true =>
      simp only [hreturns, if_true] at hp₁ ⊢
      obtain ⟨s', hexec, haccepted, hp'⟩ := ih (fun j => outcome (j + 1)) hp₁
      rw [haccepted₁] at haccepted hp'
      refine ⟨s', hexec, haccepted, ?_⟩
      rw [hp', List.length_cons, Nat.add_assoc, Nat.add_comm 1]

/-- A loop that no exception leaves gets to the end of the batch, whose records are then in the
cluster exactly if none of them has failed after it was queued. -/
theorem exec_loop_of_returns (hi : i ∈ c.ids) {events : List ReplicatedEvent}
    {outcome : ℕ → Outcome} (hreturns : ∀ j < events.length, (outcome j).returns = true)
    (hp : s.system.polling i = some ⟨lastEvent, some ⟨events, next, back⟩⟩) :
    ∃ s', Machine.exec (step c) s (loop i outcome events) = some s' ∧
      s'.system.polling i = some ⟨lastEvent, some ⟨[], next + events.length, back⟩⟩ ∧
      (s'.accepted i = s.accepted i ++ events.map replicateEvent ↔
        ∀ j < events.length, outcome j ≠ .failed) := by
  obtain ⟨s', hexec, haccepted, hp'⟩ := exec_loop hi events outcome hp
  rw [if_pos (replicateAll_fst.mpr hreturns)] at hp'
  refine ⟨s', hexec, hp', ?_⟩
  rw [haccepted]
  exact replicateAll_snd _ hreturns

end Loop

end Clusters

/-! ### The clusters as readers -/

section Done

variable {c : Config} {s s' : System} {i : UInt32} {a : Kdsync.Action} {x : Served}

/-- The next event of a batch is the one the instance has stopped at. -/
theorem System.done_of_nextRound (hx : s.nextRound i = some x) : s.done i = x.position := by
  rw [System.nextRound] at hx
  split at hx
  · obtain rfl := Option.some.inj hx
    simp only [System.done, *]
  · cases hx

theorem WellFormed.in_of_nextRound (hw : WellFormed c s) (hx : s.nextRound i = some x) :
    x.In s.log := by
  rw [System.nextRound] at hx
  split at hx
  · obtain rfl := Option.some.inj hx
    exact (((hw.polling _ _ ‹_›).batch _ rfl).rest 0 _ rfl).mono (localLog_prefix_log s i)
  · cases hx

/-- The record that is produced for an event is that of the log. -/
theorem Served.In.record_eq {log : List ReplicatedEvent} (h : x.In log) :
    log[x.position]?.map replicateEvent = some (replicateEvent x.event) := by
  obtain ⟨event, hevent, hcontent⟩ := Option.map_eq_some_iff.mp h
  rw [hevent, Option.map_some, ← replicateEvent_content, hcontent, replicateEvent_content]

/-- An action other than a round of the loop adds nothing to the trace of its instance. -/
theorem Effect.trace_eq (he : Effect c s i a s') (ha : a ≠ .replicate) :
    s'.trace i = s.trace i := by
  cases he with
  | replicated => exact absurd rfl ha
  | _ => rfl

theorem Effect.length_trace (he : Effect c s i .replicate s') :
    (s'.trace i).length = (s.trace i).length + 1 := by
  cases he
  simp

/-- A round of the loop raises `done` of its instance by one. -/
theorem Exact.done_replicate (h : Exact c s) (hw : WellFormed c s) (hlog : Distinct s.log)
    (hi : i ∈ c.ids) (he : Effect c s i .replicate s') : s'.done i = s.done i + 1 := by
  have hlength := he.length_trace
  obtain ⟨-, htrace⟩ | ⟨hdone, -⟩ | ⟨-, -, htrace⟩ := h.done_effect hw hlog hi he i
  · rw [htrace] at hlength
    omega
  · exact hdone
  · rw [htrace] at hlength
    omega

/-- An action other than a round of the loop leaves `done` of its instance as it is, unless it is a
crash, which may take it back. -/
theorem Exact.done_of_ne_replicate (h : Exact c s) (hw : WellFormed c s) (hlog : Distinct s.log)
    (hi : i ∈ c.ids) (he : Effect c s i a s') (ha : a ≠ .replicate) :
    s'.done i = s.done i ∨ a = .crash ∧ s'.done i ≤ s.done i := by
  obtain ⟨hdone, -⟩ | ⟨-, htrace⟩ | ⟨hcrash, hdone, -⟩ := h.done_effect hw hlog hi he i
  · exact .inl hdone
  · rw [he.trace_eq ha] at htrace
    simp at htrace
  · exact .inr ⟨hcrash, hdone⟩

end Done

namespace Clusters

/-- The log of the group, and the "-global" topics as what its readers put out. -/
def relay (s : Clusters) : Relay UInt32 ReplicatedEvent where
  log := s.system.log
  next := s.system.done
  output := s.positions

section Step

variable {c : Config} {s s' : Clusters} {i : UInt32} {a : Action}

/-- **One step** is followed by the relay. A record that is accepted before an exception is put out
before its reader falls back. -/
theorem exists_moves (h : Exact c s.system) (hw : WellFormed c s.system)
    (hlog : Distinct s.system.log) (hi : i ∈ c.ids)
    (he : Kdsync.Effect c s.system i a.inGroup s'.system) (heffect : Effect s i a s')
    (hreliable : a.Reliable) :
    ∃ moves, FallsBackAt (i, a.inGroup) moves ∧
      Machine.exec Relay.step s.relay moves = some s'.relay := by
  obtain ⟨entries, hentries⟩ := he.log_prefix
  have hdoneOf : s'.system.done = Function.update s.system.done i (s'.system.done i) :=
    eq_update fun j hj => he.done_of_ne hj
  have hextend : Machine.exec Relay.step s.relay [.extend entries] =
      some { s.relay with log := s'.system.log } := hentries ▸ Relay.exec_extend entries
  -- an action that puts out nothing
  have hquiet : a.inGroup ≠ .replicate → s'.positions = s.positions →
      ∃ moves, FallsBackAt (i, a.inGroup) moves ∧
        Machine.exec Relay.step s.relay moves = some s'.relay := by
    intro hne hpositions
    obtain hdone | ⟨hcrash, hdone⟩ := h.done_of_ne_replicate hw hlog hi he hne
    · refine ⟨[.extend entries], fun k => by simp [Relay.Move.takesBack], ?_⟩
      rw [hdone, Function.update_eq_self] at hdoneOf
      rw [hextend, relay, relay, hdoneOf, hpositions]
    · refine ⟨[.extend entries] ++ [.fallBack i (s'.system.done i)], fun k => ?_,
        (Relay.exec_fallBack hextend hdone).trans ?_⟩
      · rw [List.countP_append, List.count_singleton, hcrash]
        by_cases hk : i = k <;> simp [Relay.Move.takesBack, hk]
      · simp only [relay, ← hdoneOf, hpositions]
  cases heffect with
  | group ha => exact hquiet ha rfl
  | @round outcome x system hx =>
    have hposition := System.done_of_nextRound hx
    have hlt : s.system.done i < system.log.length := by
      rw [hposition]
      exact ((hw.in_of_nextRound hx).mono he.log_prefix).lt_length
    cases outcome with
    | refused => exact hquiet (by decide) rfl
    | failed => exact absurd rfl hreliable
    | accepted =>
      refine ⟨[.extend entries] ++ [.emit i], fun k => by simp [Relay.Move.takesBack],
        (Relay.exec_emit hextend hlt).trans ?_⟩
      rw [h.done_replicate hw hlog hi he] at hdoneOf
      simp only [relay, hdoneOf, hposition, produce, Outcome.stores, if_true]
    | timedOut stored =>
      cases stored with
      | false => exact hquiet (by decide) rfl
      | true =>
        -- the record is in the cluster, and the program ends
        have hdone : system.done i ≤ s.system.done i + 1 := by
          obtain hdone | ⟨-, hdone⟩ := h.done_of_ne_replicate hw hlog hi he (by decide)
          · exact hdone.trans_le (Nat.le_succ _)
          · exact hdone.trans (Nat.le_succ _)
        have hemit := Relay.exec_emit hextend hlt
        refine ⟨[.extend entries] ++ [.emit i] ++ [.fallBack i (system.done i)], fun k => ?_,
          (Relay.exec_fallBack hemit ?_).trans ?_⟩
        · rw [List.countP_append, List.count_singleton]
          by_cases hk : i = k <;> simp [Relay.Move.takesBack, hk, Action.inGroup, Outcome.returns]
        · simpa [relay] using hdone
        · rw [Function.update_idem]
          simp only [relay, ← hdoneOf, hposition, produce, Outcome.stores, if_true]

end Step

end Clusters

end Kdsync
