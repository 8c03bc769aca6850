import Kdsync.Clusters.GlobalTopic
import Kdsync.Program
import Kdsync.System.Origin

/-!
# What the clusters get

From one consumer to all "-global" topics, in every run of the program in which no record fails
after it was queued and no two events carry one triple. Instances may end and restart at any moment,
queries may fail, and records may be refused or time out.

* `held_or_replicated`: an event stays on every list until it is in all clusters. With a record
  that fails it may be nowhere (`not_held_or_replicated_of_failed`).
* `copyOf_log`: the "-global" topics are copies of one log, with repetitions where an instance was
  down.
* `globalTopic_of_ownTopics`: with a topic for each instance, a "-global" topic has the first
  records of each topic in their order.
-/

namespace Kdsync

namespace Program

/-- No record fails after it was queued. -/
def Action.Reliable (a : Action) : Prop := a ≠ .round .failed

instance (a : Action) : Decidable a.Reliable := inferInstanceAs (Decidable (_ ≠ _))

/-- The program of the instance ends. -/
def Action.ends : Action → Bool
  | .crash => true
  | .round outcome => !outcome.returns
  | _ => false

/-- How often an instance has gone down. -/
def outages (actions : List (UInt32 × Action)) (i : UInt32) : ℕ :=
  actions.countP fun a => a.1 = i && a.2.ends

/-- The events that `kafka_polling` of instance `i` sends in the course of some actions. -/
def handed (actions : List (UInt32 × Action)) (i : UInt32) : List ReplicatedEvent :=
  actions.filterMap fun a =>
    match a.2 with
    | .kafkaPoll polled => if a.1 = i then kafkaPolling polled else none
    | _ => none

/-! ### With positions -/

section Counted

variable {m : Mutils} {c : Config} {p : Program} {actions : List (UInt32 × Action)}

theorem Action.Reliable.counted {a : Action} (h : a.Reliable) : a.counted.Reliable := by
  cases a with
  | round outcome =>
    rintro heq
    exact h (congrArg Action.round (Clusters.Action.round.inj heq))
  | _ => nofun

theorem count_crash_counted (actions : List (UInt32 × Action)) (i : UInt32) :
    (Clusters.inGroup (counted actions)).count (i, .crash) = outages actions i := by
  rw [Clusters.inGroup, counted, List.map_map, List.count, List.countP_map, outages]
  refine List.countP_congr fun a _ => ?_
  obtain ⟨j, a⟩ := a
  cases a with
  | round outcome => cases hreturns : outcome.returns <;>
      simp [Action.counted, Clusters.Action.inGroup, Action.ends, hreturns]
  | _ => simp [Action.counted, Clusters.Action.inGroup, Action.ends]

theorem handed_counted (actions : List (UInt32 × Action)) (i : UInt32) :
    Kdsync.handed (Clusters.inGroup (counted actions)) i = handed actions i := by
  rw [Clusters.inGroup, counted, List.map_map, Kdsync.handed, List.filterMap_map, handed]
  refine List.filterMap_congr fun a _ => ?_
  obtain ⟨j, a⟩ := a
  cases a with
  | round outcome => cases hreturns : outcome.returns <;>
      simp [Action.counted, Clusters.Action.inGroup, hreturns]
  | _ => rfl

/-- The run that counts positions. -/
theorem exists_reliable (h : Machine.Run (step m c) (fun _ a => a.2.Reliable) (.init c) actions p)
    (hlog : Distinct p.log) :
    ∃ s : Clusters, s.erase c = p ∧ Distinct s.system.log ∧
      Machine.Run (Clusters.step c) (fun _ a => a.2.Reliable) .init (counted actions) s := by
  obtain ⟨s, hrun, rfl⟩ := exists_clusters (fun _ a => a.2.Reliable)
    (fun _ _ hreliable => hreliable.counted) h
  exact ⟨s, rfl, log_erase s ▸ hlog, hrun⟩

end Counted

/-! ### Main results -/

section Runs

variable {m : Mutils} {c : Config} {p : Program} {actions : List (UInt32 × Action)}

/-- **No event is lost.** In every such run: an event that a replica has received is on its list
until all clusters have the record of it. -/
theorem held_or_replicated
    (h : Machine.Run (step m c) (fun _ a => a.2.Reliable) (.init c) actions p)
    (hlog : Distinct p.log) {r : UInt32} {event : ReplicatedEvent} (hevent : event ∈ p.localLog r) :
    (∃ e ∈ (p.lists r).events, e.operatorEq event = true) ∨
      ∀ i ∈ c.ids, Kdsync.replicateEvent event ∈ p.accepted i := by
  obtain ⟨s, rfl, hlog, hrun⟩ := exists_reliable h hlog
  obtain ⟨⟨hw, hexact, -⟩, -⟩ := Clusters.exists_relay_of_clusters hrun hlog
  rw [localLog_erase] at hevent
  obtain ⟨k, hk⟩ := List.mem_iff_getElem?.mp hevent
  rcases Nat.lt_or_ge k (s.system.erased c r) with hlt | hge
  · -- all instances are through with an event that is erased
    refine .inr fun i hi => ?_
    obtain ⟨e, he, hmem⟩ := Clusters.record_mem_accepted hrun hlog
      (hlt.trans_le (hexact.erased_le_done hw hi r))
    rw [getElem?_mono (localLog_prefix_log s.system r) hk] at he
    exact Option.some.inj he ▸ hmem
  · obtain ⟨j, rfl⟩ := Nat.exists_eq_add_of_le hge
    have hlist := hw.getElem?_list r j
    rw [hk, Option.map_some] at hlist
    obtain ⟨e, he, hcontent⟩ := Option.map_eq_some_iff.mp hlist
    exact .inl ⟨e, List.mem_of_getElem? he, ReplicatedEvent.operatorEq_iff.mpr hcontent⟩

end Runs

theorem exists_run_timedOutOnce :
    ∃ p, Machine.Run (step .plain twoTopics) (fun _ a => a.2.Reliable) (.init twoTopics)
      timedOutOnce p ∧ (p.lists 0).events = [] ∧ (p.accepted 0).length = 2 ∧
        (p.accepted 1).length = 1 ∧ (p.localLog 0).length = 1 ∧ Distinct p.log := by
  obtain ⟨p, hrun, hcheck⟩ := Machine.Run.exists_of_exec (step .plain twoTopics)
    (fun _ a => a.2.Reliable) (.init twoTopics) timedOutOnce
    (fun p => (p.lists 0).events = [] ∧ (p.accepted 0).length = 2 ∧ (p.accepted 1).length = 1 ∧
      (p.localLog 0).length = 1 ∧ Distinct p.log) (by decide +kernel)
  exact ⟨p, hrun, of_decide_eq_true hcheck⟩

theorem held_or_replicated_timedOutOnce :
    ∃ p : Program, (p.lists 0).events = [] ∧ ∃ event ∈ p.localLog 0,
      (∃ e ∈ (p.lists 0).events, e.operatorEq event = true) ∨
        ∀ i ∈ twoTopics.ids, Kdsync.replicateEvent event ∈ p.accepted i := by
  obtain ⟨p, hrun, hempty, -, -, hlength, hlog⟩ := exists_run_timedOutOnce
  obtain ⟨event, hevent⟩ := List.exists_mem_of_length_pos (hlength ▸ Nat.one_pos)
  exact ⟨p, hempty, event, hevent, held_or_replicated hrun hlog hevent⟩

/-- The record of instance 0 fails after it was queued. -/
def failedRecord : List (UInt32 × Action) :=
  [(0, .kafkaPoll (some (record [97] 0 0 [1]))), (0, .sequence)] ++ both .deliver ++
    both .query ++ [(0, .round .failed), (1, .round .accepted)] ++
    [.mark, .sequence, .deliver, .deliver].flatMap both

/-- If a record may fail after it was queued, its event can be erased from all lists without being
in the cluster. -/
theorem not_held_or_replicated_of_failed :
    ¬ ∀ (m : Mutils) (c : Config) (actions : List (UInt32 × Action)) (p : Program),
      Machine.Run (step m c) (fun _ _ => True) (.init c) actions p → Distinct p.log →
      ∀ r, ∀ event ∈ p.localLog r, (∃ e ∈ (p.lists r).events, e.operatorEq event = true) ∨
        ∀ i ∈ c.ids, Kdsync.replicateEvent event ∈ p.accepted i := by
  intro h
  obtain ⟨p, hrun, hcheck⟩ := Machine.Run.exists_of_exec (step .plain twoTopics)
    (fun _ _ => True) (.init twoTopics) failedRecord
    (fun p => (p.lists 0).events = [] ∧ p.accepted 0 = [] ∧ (p.localLog 0).length = 1 ∧
      Distinct p.log) (by decide +kernel)
  obtain ⟨hempty, haccepted, hlength, hlog⟩ := of_decide_eq_true hcheck
  obtain ⟨event, hevent⟩ := List.exists_mem_of_length_pos (hlength ▸ Nat.one_pos)
  obtain ⟨e, he, -⟩ | hall := h .plain twoTopics failedRecord p hrun hlog 0 event hevent
  · rw [hempty] at he
    exact absurd he List.not_mem_nil
  · have hmem := hall 0 (by decide)
    rw [haccepted] at hmem
    exact absurd hmem List.not_mem_nil

section Runs

variable {m : Mutils} {c : Config} {p : Program} {actions : List (UInt32 × Action)}

/-- Without an outage of its instance, a cluster has a beginning of the log. -/
theorem accepted_eq_take (h : Machine.Run (step m c) (fun _ a => a.2.Reliable) (.init c) actions p)
    (hlog : Distinct p.log) {i : UInt32} (hup : outages actions i = 0) :
    p.accepted i = (p.log.take (p.accepted i).length).map Kdsync.replicateEvent := by
  obtain ⟨s, rfl, hlog, hrun⟩ := exists_reliable h hlog
  rw [← count_crash_counted, List.count_eq_zero] at hup
  rw [log_erase]
  exact Clusters.accepted_eq_take hrun hlog hup

/-- **The "-global" topics are copies of one log.** In every such run each cluster has a beginning
of the log, with the records in the order of the log up to repetitions, and none of them more than
one time plus one for each time its instance has gone down. If it has not, the "-global" topic is a
beginning of the log, whatever happens to the other instances. -/
theorem copyOf_log (h : Machine.Run (step m c) (fun _ a => a.2.Reliable) (.init c) actions p)
    (hlog : Distinct p.log) (i : UInt32) :
    (∃ positions, Clusters.CopyOf p.log (outages actions i + 1) positions (p.accepted i)) ∧
    (outages actions i = 0 →
      p.accepted i = (p.log.take (p.accepted i).length).map Kdsync.replicateEvent) := by
  refine ⟨?_, accepted_eq_take h hlog⟩
  obtain ⟨s, rfl, hlog, hrun⟩ := exists_reliable h hlog
  rw [log_erase, ← count_crash_counted]
  exact ⟨s.positions i, Clusters.copyOf_accepted hrun hlog i⟩

end Runs

theorem copyOf_log_timedOutOnce :
    ∃ p : Program, (p.accepted 0).length = 2 ∧
      (∃ positions, Clusters.CopyOf p.log 2 positions (p.accepted 0)) ∧
      p.accepted 1 = (p.log.take (p.accepted 1).length).map Kdsync.replicateEvent := by
  obtain ⟨p, hrun, -, hlength, -, -, hlog⟩ := exists_run_timedOutOnce
  exact ⟨p, hlength, (copyOf_log hrun hlog 0).1, (copyOf_log hrun hlog 1).2 (by decide)⟩

section Runs

variable {m : Mutils} {c : Config} {p : Program} {actions : List (UInt32 × Action)}

/-- Consumers that hand out every record once give a log with unique triples. -/
theorem distinct_log_of_ownTopics
    (h : Machine.Run (step m c) (fun _ a => a.2.Reliable) (.init c) actions p)
    (htopic : ∀ i ∈ c.ids, ∀ j ∈ c.ids, c.topic i = c.topic j → i = j)
    (honce : ∀ i ∈ c.ids, Distinct (handed actions i)) : Distinct p.log := by
  obtain ⟨s, hrun, rfl⟩ := exists_clusters (fun _ a => a.2.Reliable)
    (fun _ _ hreliable => hreliable.counted) h
  rw [log_erase]
  refine distinct_log_of_run (Clusters.run_inGroup hrun) htopic fun i hi => ?_
  rw [handed_counted]
  exact honce i hi

/-- The records of the log are from the topics of the instances, those of one topic in the order in
which they are handed out. -/
theorem filter_log_of_ownTopics
    (h : Machine.Run (step m c) (fun _ a => a.2.Reliable) (.init c) actions p)
    (htopic : ∀ i ∈ c.ids, ∀ j ∈ c.ids, c.topic i = c.topic j → i = j) :
    (∀ event ∈ p.log, ∃ j ∈ c.ids, event.topic = c.topic j) ∧
    ∀ j ∈ c.ids,
      (p.log.filter fun event => event.topic = c.topic j).Sublist (handed actions j) ∧
      (outages actions j = 0 →
        (p.log.filter fun event => event.topic = c.topic j) <+: handed actions j) := by
  obtain ⟨s, hrun, rfl⟩ := exists_clusters (fun _ a => a.2.Reliable)
    (fun _ _ hreliable => hreliable.counted) h
  have hgroup := Clusters.run_inGroup hrun
  simp only [log_erase, ← handed_counted, ← count_crash_counted, List.count_eq_zero]
  exact ⟨fun _ hevent => exists_topic_of_run hgroup hevent, fun j hj =>
    ⟨filter_log_sublist hgroup htopic hj, filter_log_isPrefix hgroup htopic hj⟩⟩

/-- **A "-global" topic is a copy of the topics it is made of.** With a topic for each instance and
consumers that hand out every record once: all records of a cluster whose instance was never down
are from the topic of an instance; those of one topic are the first records that its consumer has
handed out, each once and in that order, or some of them if that instance was down. -/
theorem globalTopic_of_ownTopics
    (h : Machine.Run (step m c) (fun _ a => a.2.Reliable) (.init c) actions p)
    (htopic : ∀ i ∈ c.ids, ∀ j ∈ c.ids, c.topic i = c.topic j → i = j)
    (honce : ∀ i ∈ c.ids, Distinct (handed actions i)) {i : UInt32}
    (hup : outages actions i = 0) :
    (∀ record ∈ p.accepted i, ∃ j ∈ c.ids, record.topic = c.topic j ++ kafkaKdsyncTopicSuffix) ∧
    ∀ j ∈ c.ids,
      ((p.accepted i).filter fun record =>
        record.topic = c.topic j ++ kafkaKdsyncTopicSuffix).Sublist
          ((handed actions j).map Kdsync.replicateEvent) ∧
      (outages actions j = 0 →
        ((p.accepted i).filter fun record =>
          record.topic = c.topic j ++ kafkaKdsyncTopicSuffix) <+:
            (handed actions j).map Kdsync.replicateEvent) := by
  have htake := accepted_eq_take h (distinct_log_of_ownTopics h htopic honce) hup
  obtain ⟨htopics, hparts⟩ := filter_log_of_ownTopics h htopic
  have htake_le : ∀ j, ((p.log.take (p.accepted i).length).filter fun event =>
      event.topic = c.topic j) <+: p.log.filter fun event => event.topic = c.topic j :=
    fun j => (List.take_prefix _ _).filter _
  refine ⟨fun record hrecord => ?_, fun j hj => ?_⟩
  · rw [htake] at hrecord
    obtain ⟨event, hevent, rfl⟩ := List.mem_map.mp hrecord
    obtain ⟨j, hj, htopic⟩ := htopics event (List.mem_of_mem_take hevent)
    exact ⟨j, hj, (Clusters.topic_replicateEvent_iff event _).mpr htopic⟩
  · rw [htake, Clusters.filter_map_replicateEvent]
    exact ⟨((htake_le j).sublist.trans (hparts j hj).1).map _,
      fun hup' => ((htake_le j).trans ((hparts j hj).2 hup')).map _⟩

end Runs

end Program

end Kdsync
