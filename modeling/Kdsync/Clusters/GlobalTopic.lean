import Kdsync.Clusters

/-!
# The "-global" topics

If no record fails after it was queued, the "-global" topics are the output of the readers of the
group's log (`exists_relay_of_clusters`), and their records are those of the events at the
positions that are put out (`Stored`). So a cluster has the record of each event that its instance
is through with (`record_mem_accepted`), and the records of a beginning of the log, up to
repetitions, in the order of the log (`copyOf_accepted`).
-/

namespace Kdsync

namespace Clusters

section Step

variable {c : Config} {s s' : Clusters} {i : UInt32} {a : Action}

/-! ### The records of the clusters -/

/-- The records of a cluster are those of the events at the positions. -/
def Stored (s : Clusters) : Prop :=
  ∀ i, List.Forall₂ (fun p record => s.system.log[p]?.map Kdsync.replicateEvent = some record)
    (s.positions i) (s.accepted i)

theorem stored_init : Stored .init := fun _ => .nil

/-- One step keeps the records. -/
theorem Stored.effect (h : s.Stored) (hw : WellFormed c s.system)
    (he : Kdsync.Effect c s.system i a.inGroup s'.system) (heffect : Effect s i a s') :
    s'.Stored := by
  have hmono : ∀ (p : ℕ) record, s.system.log[p]?.map Kdsync.replicateEvent = some record →
      s'.system.log[p]?.map Kdsync.replicateEvent = some record := by
    intro p record hrecord
    obtain ⟨event, hevent, hproduced⟩ := Option.map_eq_some_iff.mp hrecord
    rw [getElem?_mono he.log_prefix hevent, Option.map_some, hproduced]
  intro k
  have hbefore := (h k).imp hmono
  cases heffect with
  | group => exact hbefore
  | @round outcome x system hx =>
    cases hstores : outcome.stores with
    | false =>
      simp only [produce, Outcome.produce_eq, hstores, Bool.false_eq_true, if_false,
        Function.update_eq_self]
      exact hbefore
    | true =>
      simp only [produce, Outcome.produce_eq, hstores, if_true]
      rcases eq_or_ne k i with rfl | hk
      · rw [Function.update_self, Function.update_self]
        exact List.rel_append hbefore
          (.cons (hmono _ _ ((hw.in_of_nextRound hx).record_eq)) .nil)
      · rw [Function.update_of_ne hk, Function.update_of_ne hk]
        exact hbefore

end Step

/-! ### Runs -/

section Runs

variable {c : Config} {s : Clusters} {actions : List (UInt32 × Action)}

/-- The actions of a run of the group and its clusters are, in the group, a run of the group. -/
theorem run_inGroup {ok : Clusters → UInt32 × Action → Prop}
    (h : Machine.Run (step c) ok .init actions s) :
    Machine.Run (Kdsync.step c) (fun _ _ => True) .init (inGroup actions) s.system := by
  obtain ⟨system, hrun, rfl⟩ := h.lift (fun _ _ => True) (fun s system => s.system = system)
    (fun a => (a.1, a.2.inGroup)) rfl fun s a s' system hsystem _ hstep =>
      ⟨trivial, s'.system, hsystem ▸ (Effect.of_step hstep).1, rfl⟩
  exact hrun

/-- Every run with unique triples whose records do not fail is followed by the relay. -/
theorem exists_relay_of_clusters
    (h : Machine.Run (step c) (fun _ a => a.2.Reliable) .init actions s)
    (hlog : Distinct s.system.log) :
    (WellFormed c s.system ∧ Exact c s.system ∧ s.Stored) ∧
    ∃ moves, Machine.exec Relay.step .init moves = some s.relay ∧
      ∀ i, moves.countP (Relay.Move.takesBack i) ≤ (inGroup actions).count (i, .crash) := by
  have hunique := h.backward (P := fun s => Distinct s.system.log)
    (fun _ _ _ hstep hlog' =>
      hlog'.of_prefix
        (Kdsync.Effect.log_prefix (Kdsync.Effect.of_step (Effect.of_step hstep).1).2)) hlog
  obtain ⟨hinv, moves, hmatching, hexec⟩ := hunique.simulation relay
    (fun s => WellFormed c s.system ∧ Exact c s.system ∧ s.Stored)
    (fun a moves => FallsBackAt (a.1, a.2.inGroup) moves)
    ⟨.init c, .init c, stored_init⟩ fun s a s' hs hok hstep => by
      obtain ⟨hw, hexact, hstored⟩ := hs
      obtain ⟨hgroup, heffect⟩ := Effect.of_step hstep
      obtain ⟨hi, he⟩ := Kdsync.Effect.of_step hgroup
      exact ⟨⟨hw.effect hi he, hexact.effect hw hok.2 hi he, hstored.effect hw he heffect⟩,
        exists_moves hexact hw hok.2 hi he heffect hok.1⟩
  have hinit : init.relay = Relay.init := by
    simp only [relay, Relay.init, Relay.mk.injEq]
    exact ⟨rfl, rfl, rfl⟩
  exact ⟨hinv, moves.flatten, hinit ▸ hexec,
    countP_takesBack_le (List.forall₂_map_left_iff.mpr hmatching)⟩

/-- The records are those of a beginning of the log, each for the first time in the order of the
log, and none of them is there more than `times` times. -/
structure CopyOf (log : List ReplicatedEvent) (times : ℕ) (positions : List ℕ)
    (records : List MessageBuilder) : Prop where
  records : List.Forall₂ (fun p record => log[p]?.map Kdsync.replicateEvent = some record)
    positions records
  upto : ∃ high, ∀ p, p ∈ positions ↔ p < high
  firsts : positions.FirstsAscend
  count_le : ∀ p, positions.count p ≤ times

/-- What a cluster has accepted, as the output of a reader. -/
theorem passed_of_clusters (h : Machine.Run (step c) (fun _ a => a.2.Reliable) .init actions s)
    (hlog : Distinct s.system.log) (i : UInt32) :
    ∃ fallBacks ≤ (inGroup actions).count (i, .crash),
      Relay.Passed (s.system.done i) (s.positions i) fallBacks := by
  obtain ⟨-, moves, hexec, hcount⟩ := exists_relay_of_clusters h hlog
  exact ⟨_, hcount i, Relay.passed_of_exec hexec i⟩

/-- The record of an event that an instance is through with is in its cluster. -/
theorem record_mem_accepted (h : Machine.Run (step c) (fun _ a => a.2.Reliable) .init actions s)
    (hlog : Distinct s.system.log) {i : UInt32} {p : ℕ} (hp : p < s.system.done i) :
    ∃ event, s.system.log[p]? = some event ∧ Kdsync.replicateEvent event ∈ s.accepted i := by
  obtain ⟨⟨-, -, hstored⟩, -⟩ := exists_relay_of_clusters h hlog
  obtain ⟨_, -, hpassed⟩ := passed_of_clusters h hlog i
  obtain ⟨k, hk, hget⟩ := List.mem_iff_getElem.mp (hpassed.mem_output hp)
  have hk' : k < (s.accepted i).length := (hstored i).length_eq ▸ hk
  have hrecord := (hstored i).get hk hk'
  rw [List.get_eq_getElem, List.get_eq_getElem, hget] at hrecord
  obtain ⟨event, hevent, hproduced⟩ := Option.map_eq_some_iff.mp hrecord
  exact ⟨event, hevent, hproduced ▸ List.getElem_mem hk'⟩

/-- A cluster whose instance was never down has a beginning of the log. -/
theorem accepted_eq_take (h : Machine.Run (step c) (fun _ a => a.2.Reliable) .init actions s)
    (hlog : Distinct s.system.log) {i : UInt32} (hcrash : (i, .crash) ∉ inGroup actions) :
    s.accepted i =
      (s.system.log.take (s.accepted i).length).map Kdsync.replicateEvent := by
  obtain ⟨⟨-, -, hstored⟩, -⟩ := exists_relay_of_clusters h hlog
  obtain ⟨fallBacks, hle, hpassed⟩ := passed_of_clusters h hlog i
  rw [List.count_eq_zero_of_not_mem hcrash] at hle
  have hrange := hpassed.output_eq_range (Nat.le_zero.mp hle)
  have hlength := (hstored i).length_eq
  refine List.ext_getElem? fun k => ?_
  rw [List.getElem?_map, List.getElem?_take]
  split_ifs with hk
  · -- the record accepted as number `k` is that of the event at position `k`
    have hrecord := (hstored i).get (hlength ▸ hk) hk
    rw [List.getElem?_eq_getElem hk]
    simpa only [hrange, List.get_eq_getElem, List.getElem_range] using hrecord.symm
  · rw [List.getElem?_eq_none (Nat.le_of_not_lt hk)]
    rfl

/-- Each cluster has a beginning of the log, up to repetitions. -/
theorem copyOf_accepted (h : Machine.Run (step c) (fun _ a => a.2.Reliable) .init actions s)
    (hlog : Distinct s.system.log) (i : UInt32) :
    CopyOf s.system.log ((inGroup actions).count (i, .crash) + 1) (s.positions i)
      (s.accepted i) := by
  obtain ⟨⟨-, -, hstored⟩, -⟩ := exists_relay_of_clusters h hlog
  obtain ⟨fallBacks, hle, hpassed⟩ := passed_of_clusters h hlog i
  obtain ⟨high, -, hmem⟩ := hpassed.upto
  refine ⟨hstored i, ⟨high, hmem⟩, hpassed.firsts, fun p => ?_⟩
  have hcount := hpassed.count_le p
  split_ifs at hcount <;> omega

end Runs

/-! ### One topic -/

/-- A record is in the "-global" topic of `t` exactly if its event is from `t`. -/
theorem topic_replicateEvent_iff (event : ReplicatedEvent) (t : Bytes) :
    (Kdsync.replicateEvent event).topic = t ++ kafkaKdsyncTopicSuffix ↔ event.topic = t := by
  rw [replicateEvent_eq]
  exact List.append_left_inj _

/-- The records of a "-global" topic are those of the events of its topic. -/
theorem filter_map_replicateEvent (events : List ReplicatedEvent) (t : Bytes) :
    ((events.map Kdsync.replicateEvent).filter fun record =>
      record.topic = t ++ kafkaKdsyncTopicSuffix) =
        (events.filter fun event => event.topic = t).map Kdsync.replicateEvent := by
  rw [List.filter_map]
  congr 1
  refine List.filter_congr fun event _ => ?_
  simp only [Function.comp_apply, topic_replicateEvent_iff]

end Clusters

end Kdsync
