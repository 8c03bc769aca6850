import Kdsync.Forwarding
import Kdsync.Program.Interleaving

/-!
# Ordered synchronization

What the README promises of the "-global" topics, for the set-up with a topic for each cluster
(`Processes.synchronized`): at every moment between two statements, the clusters whose processes
have never ended hold the same records in the same order, as far as they have come, and in the
"-global" topic of a topic the records that its consumer has handed out, with the same bytes, each
once and in their order.
-/

namespace Kdsync

namespace Processes

/-- The events added so far, in the total order. -/
def log (s : Processes) : List ReplicatedEvent := added (s.net.order.map Prod.snd)

/-- The records of a topic with the suffix in the cluster of a process. -/
def globalTopic (k : CppKafka) (s : Processes) (i : UInt32) (topic : Bytes) : List Record :=
  ((s.clusters i).map k.produce).filter fun r => r.topic = topic ++ kafkaKdsyncTopicSuffix

section Runs

variable {m : Mutils} {c : Config} {s : Processes} {p : Program} {i j : UInt32}
  {statements : List (UInt32 × Statement)}

/-- The program can take over the record that a cluster has accepted. -/
theorem exists_accepted (h : s.Views c p) (hi : i ∈ c.ids) :
    ∃ more p', Machine.exec (Program.step m c) p more = some p' ∧
      p'.accepted i = s.clusters i ∧ p'.net = p.net ∧ ∀ a ∈ more, a = (i, .round .accepted) := by
  cases hp : s.processes i with
  | none => exact ⟨[], p, rfl, (h.threads_eq_none hp).2.symm, rfl, nofun⟩
  | some process =>
    obtain ⟨kafka, derecho⟩ := process
    obtain ⟨thread, ht, -, hderecho, hcluster⟩ := h.exists_thread hp
    have hrest (hpending : derecho.pending = []) : ∃ more p',
        Machine.exec (Program.step m c) p more = some p' ∧ p'.accepted i = s.clusters i ∧
          p'.net = p.net ∧ ∀ a ∈ more, a = (i, .round .accepted) :=
      ⟨[], p, rfl, by rw [hcluster, hpending, List.append_nil], rfl, nofun⟩
    match derecho with
    | .flushing lastEvent event rest back .accepted =>
      cases hderecho
      refine ⟨[(i, .round .accepted)], (p.replicateEvent i event .accepted).setThread i
        (some ⟨lastEvent, some (rest, back)⟩), ?_, ?_, rfl, fun a ha => List.mem_singleton.mp ha⟩
      · rw [Machine.exec_cons, Program.step, if_pos hi, Program.act_round ht]
        rfl
      · rw [hcluster]
        exact Function.update_self ..
    | .flushing _ _ _ _ .waiting | .flushing _ _ _ _ .failed | .querying _ | .replicating ..
    | .marking _ => exact hrest rfl

/-- Every run of the statements has a run of the program with the same log in which cluster `i` has
the same records, also one accepted while `flush` waits. -/
theorem exists_program_with
    (h : Machine.Run (step m c) (fun _ a => a.2.Reliable) (init c) statements s) (hi : i ∈ c.ids) :
    ∃ actions p, Machine.Run (Program.step m c) (fun _ a => a.2.Reliable) (.init c) actions p ∧
      p.accepted i = s.clusters i ∧ p.log = s.log ∧
      (∀ j, Program.outages actions j = outages statements j) ∧
      (∀ j, (Program.handed actions j).Sublist (read statements j)) ∧
      ∀ j, outages statements j = 0 → Program.handed actions j <+: read statements j := by
  obtain ⟨actions, p, hexec, hexplains⟩ := exists_explains h
  obtain ⟨more, p', hmore, haccepted, hnet, hround⟩ := exists_accepted (m := m) hexplains.views hi
  have hhanded : ∀ j, Program.handed (actions ++ more) j = Program.handed actions j := by
    intro j
    rw [Program.handed, List.filterMap_append]
    refine List.append_right_eq_self.mpr (List.filterMap_eq_nil_iff.mpr fun a ha => ?_)
    rw [hround a ha]
  have houtages : ∀ j, Program.outages (actions ++ more) j = Program.outages actions j := by
    intro j
    rw [Program.outages, List.countP_append]
    refine Nat.add_eq_left.mpr (List.countP_eq_zero.mpr fun a ha => ?_)
    rw [hround a ha]
    simp [Program.Action.ends, Outcome.returns]
  refine ⟨actions ++ more, p', Machine.run_of_exec ?_ (Machine.exec_append hexec hmore), haccepted,
    by rw [Program.log, hnet, ← hexplains.views.net, log],
    fun j => (houtages j).trans (hexplains.outages j), fun j => hhanded j ▸ ?_,
    fun j hzero => hhanded j ▸ ⟨_, hexplains.read_eq hzero⟩⟩
  · intro a ha _
    rcases List.mem_append.mp ha with ha | ha
    · exact (hexplains.reliable h.forall_mem).1 a ha
    · have hreliable : (Program.Action.round .accepted).Reliable := by decide
      exact hround a ha ▸ hreliable
  · exact (List.sublist_append_left _ _).trans (hexplains.read j)

/-- The cluster of a process that has never ended has a beginning of the log. -/
theorem clusters_eq_take
    (h : Machine.Run (step m c) (fun _ a => a.2.Reliable) (init c) statements s)
    (hlog : Distinct s.log) (hi : i ∈ c.ids) (hup : outages statements i = 0) :
    s.clusters i = (s.log.take (s.clusters i).length).map replicateEvent := by
  obtain ⟨actions, p, hrun, haccepted, hplog, houtages, -⟩ := exists_program_with h hi
  rw [← haccepted, ← hplog]
  exact Program.accepted_eq_take hrun (hplog ▸ hlog) ((houtages i).trans hup)

/-- Of the clusters of two processes that have never ended, one holds a beginning of what the other
holds. -/
theorem clusters_prefix_or_prefix
    (h : Machine.Run (step m c) (fun _ a => a.2.Reliable) (init c) statements s)
    (hlog : Distinct s.log) (hi : i ∈ c.ids) (hup : outages statements i = 0) (hj : j ∈ c.ids)
    (hup' : outages statements j = 0) :
    s.clusters i <+: s.clusters j ∨ s.clusters j <+: s.clusters i := by
  rw [clusters_eq_take h hlog hi hup, clusters_eq_take h hlog hj hup']
  exact List.prefix_or_prefix_of_prefix ((List.take_prefix _ _).map _)
    ((List.take_prefix _ _).map _)

/-- What is produced for an event has the bytes of the record it was made of. -/
theorem sameBytes_produce (k : CppKafka) (x : Record × Int64) :
    (k.produce (replicateEvent (x.1.message x.2).toEvent)).SameBytes x.1.global := by
  obtain ⟨forwarded, hforward, hsame⟩ := exists_forward_sameBytes k x.1 x.2
  obtain rfl := Option.some.inj hforward
  exact hsame

/-- The records of a "-global" topic, from what was made of the records of its topic. -/
theorem forall₂_sameBytes {k : CppKafka} {topic : Bytes} {sent : List (Record × Int64)}
    (h : ((s.clusters i).filter fun record => record.topic = topic ++ kafkaKdsyncTopicSuffix) =
      (sent.map fun x => (x.1.message x.2).toEvent).map replicateEvent) :
    List.Forall₂ Record.SameBytes (s.globalTopic k i topic) (sent.map fun x => x.1.global) := by
  have htopic : s.globalTopic k i topic = ((s.clusters i).filter fun record =>
      record.topic = topic ++ kafkaKdsyncTopicSuffix).map k.produce := List.filter_map
  rw [htopic, h, List.map_map, List.map_map, List.forall₂_map_left_iff, List.forall₂_map_right_iff,
    List.forall₂_same]
  exact fun x _ => sameBytes_produce k x

end Runs

/-! ### Main result -/

section Runs

variable {m : Mutils} {c : Config} {s : Processes} {i : UInt32}
  {statements : List (UInt32 × Statement)}

/-- **Ordered synchronization.** Let the processes have a topic each, let their consumers hand out
the records `source`, each once, and let no record fail after it was queued. The cluster of a
process that has never ended holds the same records as every other such cluster, in the same order,
as far as both have come. All of them are from the topic of some process. Those of one topic are the
first records that its consumer has handed out, with the same bytes, each once and in that order, or
some of them in that order if that process has ended. -/
theorem synchronized (h : Machine.Run (step m c) (fun _ a => a.2.Reliable) (init c) statements s)
    (htopic : ∀ i ∈ c.ids, ∀ j ∈ c.ids, c.topic i = c.topic j → i = j)
    (source : UInt32 → List (Record × Int64))
    (hsource : ∀ j ∈ c.ids,
      read statements j = (source j).map fun x => (x.1.message x.2).toEvent)
    (honce : ∀ j ∈ c.ids, Distinct (read statements j)) (k : CppKafka) (hi : i ∈ c.ids)
    (hup : outages statements i = 0) :
    (∀ j ∈ c.ids, outages statements j = 0 →
      s.clusters i <+: s.clusters j ∨ s.clusters j <+: s.clusters i) ∧
    (∀ record ∈ s.clusters i, ∃ j ∈ c.ids, record.topic = c.topic j ++ kafkaKdsyncTopicSuffix) ∧
    ∀ j ∈ c.ids, ∃ sent, sent.Sublist (source j) ∧
      (outages statements j = 0 → sent <+: source j) ∧
      List.Forall₂ Record.SameBytes (s.globalTopic k i (c.topic j))
        (sent.map fun x => x.1.global) := by
  obtain ⟨actions, p, hrun, haccepted, hplog, houtages, hsublist, hread_le⟩ :=
    exists_program_with h hi
  have hdistinct : ∀ i ∈ c.ids, Distinct (Program.handed actions i) := fun i hi =>
    (honce i hi).of_sublist (hsublist i)
  have hlog : Distinct s.log := hplog ▸ Program.distinct_log_of_ownTopics hrun htopic hdistinct
  obtain ⟨htopics, hparts⟩ :=
    Program.globalTopic_of_ownTopics hrun htopic hdistinct ((houtages i).trans hup)
  rw [haccepted] at htopics hparts
  refine ⟨fun j hj hup' => clusters_prefix_or_prefix h hlog hi hup hj hup', htopics,
    fun j hj => ?_⟩
  obtain ⟨hsub, hfirst⟩ := hparts j hj
  by_cases hzero : outages statements j = 0
  · have hle := (hfirst ((houtages j).trans hzero)).trans ((hread_le j hzero).map _)
    rw [hsource j hj, List.map_map] at hle
    obtain ⟨sent, hsent, heq⟩ := List.prefix_map_iff.mp hle
    exact ⟨sent, hsent.sublist, fun _ => hsent, forall₂_sameBytes (by rw [heq, List.map_map])⟩
  · have hle := hsub.trans ((hsublist j).map _)
    rw [hsource j hj, List.map_map] at hle
    obtain ⟨sent, hsent, heq⟩ := List.sublist_map_iff.mp hle
    exact ⟨sent, hsent, fun hzero' => absurd hzero' hzero,
      forall₂_sameBytes (by rw [heq, List.map_map])⟩

end Runs

/-- The records that the consumers of `turns` hand out. -/
def turnsSource (i : UInt32) : List (Record × Int64) :=
  if i = 0 then [(⟨[97], 0, none, some [1], []⟩, 0)] else []

theorem synchronized_turns :
    ∃ s : Processes, (s.clusters 1).length = 1 ∧ ∃ sent : List (Record × Int64),
      sent.Sublist (turnsSource 0) ∧ List.Forall₂ Record.SameBytes
        (s.globalTopic .dropping 1 (twoTopics.topic 0)) (sent.map fun x => x.1.global) := by
  obtain ⟨s, hrun, -, hlength⟩ := exists_run_turns
  obtain ⟨-, -, hparts⟩ := synchronized hrun
    (forall_mem_twoInstances (forall_mem_twoInstances (by decide) (by decide))
      (forall_mem_twoInstances (by decide) (by decide))) turnsSource
    (forall_mem_twoInstances (by decide) (by decide))
    (forall_mem_twoInstances (by decide) (by decide)) .dropping (i := 1) (by decide) (by decide)
  obtain ⟨sent, hsent, -, hsame⟩ := hparts 0 (by decide)
  exact ⟨s, hlength, sent, hsent, hsame⟩

end Processes

end Kdsync
