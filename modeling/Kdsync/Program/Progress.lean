import Kdsync.Program.GlobalTopic
import Kdsync.System.Progress

/-!
# Every record gets through

From some time on no instance ends, the clusters accept the records, and the two threads of each
instance and Derecho are fair (`Program.Settled`). Then every record that a consumer hands out, now
or later, is in all clusters at last, and its event is erased from all lists
(`Program.eventually_replicated`), whatever has happened before and however many records follow.

The execution is followed by one of the group model, which has the same fairness
(`Settled.exists_counted`), and what it reaches is read off the run that counts positions.
-/

namespace Kdsync

open Machine (Execution)

namespace Program

/-- The actions of `derecho_polling`, with a cluster that accepts, and of Derecho. -/
def Action.internal : List Action := [.query, .round .accepted, .mark, .sequence, .deliver]

/-- The instance neither ends nor restarts. -/
def Action.Steady (a : Action) : Prop := a.counted.inGroup.Steady

instance (a : Action) : Decidable a.Steady := inferInstanceAs (Decidable a.counted.inGroup.Steady)

/-- From step `n₀` on all instances are up and no program ends, and the execution is fair to what
they do, apart from `kafka_polling`. No triple is added twice, and the lists stay in range. -/
structure Settled (m : Mutils) (c : Config) (x : Execution (step m c)) (n₀ : ℕ) : Prop where
  start : x.state 0 = .init c
  distinct : ∀ n, Distinct (x.state n).log
  inRange : ∀ n ≥ n₀, ∀ i ∈ c.ids, ((x.state n).lists i).events.length ≤ intMax
  up : ∀ i ∈ c.ids, ((x.state n₀).threads i).isSome
  steady : ∀ n ≥ n₀, (x.action n).2.Steady
  fair : ∀ i ∈ c.ids, ∀ a ∈ Action.internal, x.Fair (i, a)

/-! ### With positions -/

section Counted

variable {m : Mutils} {c : Config} {s : Clusters} {i : UInt32} {system : System}

theorem isSome_act_query (h : Kdsync.act c s.system i .query = some system) :
    (act m c (s.erase c) i .query).isSome := by
  simp only [Kdsync.act, Option.bind_eq_bind, Option.bind_eq_some_iff] at h
  obtain ⟨⟨lastEvent, batch⟩, hp, h⟩ := h
  cases batch with
  | some b => cases h
  | none =>
    obtain ⟨events, hevents, -⟩ := Option.bind_eq_some_iff.mp h
    have ht : (s.erase c).threads i = some ⟨lastEvent.map Served.event, none⟩ := by
      simp [Clusters.erase, hp, Polling.erase]
    simp only [act, ht, Option.bind_eq_bind, Option.bind_some, Clusters.query_erase, hevents]
    split <;> rfl

theorem isSome_act_round (h : Kdsync.act c s.system i .replicate = some system) :
    (act m c (s.erase c) i (.round .accepted)).isSome := by
  simp only [Kdsync.act, Option.bind_eq_bind, Option.bind_eq_some_iff] at h
  obtain ⟨⟨lastEvent, batch⟩, hp, h⟩ := h
  obtain _ | ⟨_ | ⟨event, rest⟩, next, back⟩ := batch
  · cases h
  · cases h
  · have ht : (s.erase c).threads i =
        some ⟨lastEvent.map Served.event, some (event :: rest, back)⟩ := by
      simp [Clusters.erase, hp, Polling.erase]
    simp only [act, ht, Option.bind_eq_bind, Option.bind_some, Outcome.returns, if_true,
      Option.isSome_some]

theorem isSome_act_mark (h : Kdsync.act c s.system i .mark = some system) :
    (act m c (s.erase c) i .mark).isSome := by
  simp only [Kdsync.act, Option.bind_eq_bind, Option.bind_eq_some_iff] at h
  obtain ⟨⟨lastEvent, batch⟩, hp, h⟩ := h
  obtain _ | ⟨_ | ⟨event, rest⟩, next, back⟩ := batch
  · cases h
  · have ht : (s.erase c).threads i = some ⟨lastEvent.map Served.event, some ([], back)⟩ := by
      simp [Clusters.erase, hp, Polling.erase]
    simp only [act, ht, Option.bind_eq_bind, Option.bind_some, Option.isSome_some]
  · cases h

theorem isSome_act_sequence (h : Kdsync.act c s.system i .sequence = some system) :
    (act m c (s.erase c) i .sequence).isSome := by
  obtain ⟨net, hnet, -⟩ := Option.map_eq_some_iff.mp h
  simp [act, Clusters.erase, Broadcast.map_sequence, hnet]

theorem isSome_act_deliver (h : Kdsync.act c s.system i .deliver = some system) :
    (act m c (s.erase c) i .deliver).isSome := by
  simp only [Kdsync.act, Option.bind_eq_bind, Option.bind_eq_some_iff] at h
  obtain ⟨p, hp, h⟩ := h
  obtain ⟨net, hnet, -⟩ := Option.map_eq_some_iff.mp h
  obtain ⟨x, hx, -⟩ := Broadcast.deliver_cases hnet
  have ht : (s.erase c).threads i = some p.erase := by simp [Clusters.erase, hp]
  have hcall : (s.erase c).net.order[(s.erase c).net.applied i]? = some (x.1, x.2.call x.1) := by
    simp [Clusters.erase, Broadcast.map, hx]
  have hdeliver : (s.erase c).net.deliver i = some (net.map Rpc.call) := by
    rw [Clusters.erase, Broadcast.map_deliver, hnet, Option.map_some]
  simp only [act, ht, Option.bind_eq_bind, Option.bind_some, hcall, hdeliver, Option.isSome_some]

/-- What the group can do, the program can do. -/
theorem step_eq_none {a : Action} (ha : a ∈ Action.internal)
    (h : step m c (s.erase c) (i, a) = none) :
    Kdsync.step c s.system (i, a.counted.inGroup) = none := by
  by_contra hne
  obtain ⟨system, hsystem⟩ := Option.ne_none_iff_exists'.mp hne
  rw [Kdsync.step] at hsystem
  split_ifs at hsystem with hi
  rw [step, if_pos hi] at h
  suffices hsome : (act m c (s.erase c) i a).isSome by
    rw [h] at hsome
    cases hsome
  simp only [Action.internal, List.mem_cons, List.not_mem_nil, or_false] at ha
  obtain rfl | rfl | rfl | rfl | rfl := ha
  · exact isSome_act_query hsystem
  · exact isSome_act_round hsystem
  · exact isSome_act_mark hsystem
  · exact isSome_act_sequence hsystem
  · exact isSome_act_deliver hsystem

end Counted

/-- The execution `y` counts positions, and `z` is what the group does in it. -/
structure Counted {m : Mutils} {c : Config} (x : Execution (step m c))
    (y : Execution (Clusters.step c)) (z : Execution (Kdsync.step c)) : Prop where
  start : y.state 0 = .init
  erase : ∀ n, (y.state n).erase c = x.state n
  action : ∀ n, y.action n = ((x.action n).1, (x.action n).2.counted)
  system : ∀ n, z.state n = (y.state n).system
  inGroup : ∀ n, z.action n = ((x.action n).1, (x.action n).2.counted.inGroup)

section Executions

variable {m : Mutils} {c : Config} {x : Execution (step m c)} {y : Execution (Clusters.step c)}
  {z : Execution (Kdsync.step c)} {n₀ n k : ℕ} {i : UInt32}

/-- What the group does in an execution of the group with its clusters. -/
def groupOf (y : Execution (Clusters.step c)) : Execution (Kdsync.step c) where
  state n := (y.state n).system
  action n := ((y.action n).1, (y.action n).2.inGroup)
  next n := (Clusters.Effect.of_step (y.next n)).1

@[simp] theorem state_groupOf (y : Execution (Clusters.step c)) (n : ℕ) :
    (groupOf y).state n = (y.state n).system := rfl

@[simp] theorem action_groupOf (y : Execution (Clusters.step c)) (n : ℕ) :
    (groupOf y).action n = ((y.action n).1, (y.action n).2.inGroup) := rfl

/-- Every execution of the program is followed by one that counts positions. -/
theorem exists_counted (hstart : x.state 0 = .init c) : ∃ y z, Counted x y z := by
  obtain ⟨y, hy, haction, herase⟩ := x.exists_lift (Clusters.step c) (fun p s => s.erase c = p)
    (fun a => (a.1, a.2.counted)) (t := .init) (hstart ▸ Clusters.erase_init c)
    fun p a p' s hs hstep => by
      subst hs
      exact Clusters.exists_step hstep
  exact ⟨y, groupOf y, hy, herase, haction, state_groupOf y, fun n => by
    rw [action_groupOf, haction]⟩

namespace Counted

variable (h : Counted x y z)

include h

theorem log_eq (n : ℕ) : (x.state n).log = (z.state n).log := by
  rw [← h.erase, log_erase, h.system]

theorem localLog_eq (n : ℕ) (i : UInt32) :
    (x.state n).localLog i = (z.state n).localLog i := by
  rw [← h.erase, localLog_erase, h.system]

theorem lists_eq (n : ℕ) : (x.state n).lists = (z.state n).list c := by
  rw [← h.erase, h.system]
  rfl

theorem isSome_threads (n : ℕ) (i : UInt32) :
    ((x.state n).threads i).isSome = ((z.state n).polling i).isSome := by
  rw [← h.erase, h.system]
  exact Option.isSome_map

theorem start_group : z.state 0 = .init := (h.system 0).trans (congrArg Clusters.system h.start)

theorem log_prefix (hle : n ≤ k) : (x.state n).log <+: (x.state k).log := by
  rw [h.log_eq, h.log_eq]
  exact added_calls_prefix (Kdsync.Settled.order_prefix z hle)

/-- A list is not longer than the log. -/
theorem length_list_le (n : ℕ) (i : UInt32) :
    ((x.state n).lists i).events.length ≤ (x.state n).log.length := by
  have hrun := z.run n
  rw [h.start_group] at hrun
  have hlength := (quiet_of_run hrun).1.erased_add_length i
  have hlocal := (localLog_prefix_log (z.state n) i).length_le
  rw [h.lists_eq, h.log_eq]
  omega

/-- The group is fair to an internal action if the program is fair to it. -/
theorem fair {a : Action} (ha : a ∈ Action.internal) (hfair : x.Fair (i, a)) :
    z.Fair (i, a.counted.inGroup) := by
  refine hfair.lift (fun p s => ∃ s', s'.erase c = p ∧ s'.system = s)
    (fun a => (a.1, a.2.counted.inGroup)) h.inGroup
    (fun n => ⟨y.state n, h.erase n, (h.system n).symm⟩) ?_
  rintro _ _ ⟨s, rfl, rfl⟩ hnone
  exact step_eq_none ha hnone

end Counted

/-- **The group is settled** when the program is. -/
theorem Settled.group (h : Settled m c x n₀) (hcounted : Counted x y z) :
    Kdsync.Settled c z n₀ where
  start := hcounted.start_group
  distinct n := hcounted.log_eq n ▸ h.distinct n
  inRange n hn i hi := by
    rw [← hcounted.lists_eq]
    exact h.inRange n hn i hi
  up i hi := hcounted.isSome_threads n₀ i ▸ h.up i hi
  steady n hn := by
    rw [hcounted.inGroup]
    exact h.steady n hn
  fair i hi a ha := by
    -- an action of the group is one of the program
    have hinternal : Kdsync.Action.internal = Action.internal.map fun a => a.counted.inGroup := rfl
    rw [hinternal] at ha
    obtain ⟨b, hb, rfl⟩ := List.mem_map.mp ha
    exact hcounted.fair hb (h.fair i hi b hb)

/-- The record of an event that an instance is through with is in its cluster. -/
theorem Counted.mem_accepted (hcounted : Counted x y z) (h : Settled m c x n₀)
    (hreliable : ∀ n, (x.action n).2.Reliable) {q : ℕ} {event : ReplicatedEvent}
    (hq : (z.state k).log[q]? = some event) (hdone : q < (z.state k).done i) :
    Kdsync.replicateEvent event ∈ (x.state k).accepted i := by
  have hreliable : ∀ n, (y.action n).2.Reliable := by
    intro n
    rw [hcounted.action]
    exact (hreliable n).counted
  have hrun : Machine.Run (Clusters.step c) (fun _ a => a.2.Reliable) (y.state 0) _ (y.state k) :=
    y.run_of hreliable k
  have hdistinct := (h.group hcounted).distinct k
  rw [hcounted.start] at hrun
  rw [hcounted.system] at hdistinct hdone hq
  obtain ⟨e, he, hmem⟩ := Clusters.record_mem_accepted hrun hdistinct hdone
  obtain rfl := Option.some.inj (hq.symm.trans he)
  rw [← hcounted.erase]
  exact hmem

end Executions

/-- An event that is erased is not on the list. -/
theorem operatorEq_of_lt_erased {c : Config} {system : System} (hw : WellFormed c system)
    (hlog : Distinct system.log) {r : UInt32} {k : ℕ} {event : ReplicatedEvent}
    (hk : system.log[k]? = some event) (hlt : k < system.erased c r) :
    ∀ e ∈ (system.list c r).events, e.operatorEq event = false := by
  intro e he
  obtain ⟨j, hj⟩ := List.mem_iff_getElem?.mp he
  have hlist := hw.getElem?_list r j
  rw [hj, Option.map_some] at hlist
  obtain ⟨e', he', hcontent⟩ := Option.map_eq_some_iff.mp hlist.symm
  by_contra hne
  have hsame := ReplicatedEvent.operatorEq_iff.mp (Bool.eq_true_of_not_eq_false hne)
  -- both positions would carry one triple
  have htriple : e'.triple = event.triple := by
    rw [← ReplicatedEvent.triple_content, hcontent, hsame, ReplicatedEvent.triple_content]
  have hposition := hlog.position_eq (getElem?_mono (localLog_prefix_log system r) he') hk htriple
  omega

/-! ### Main result -/

/-- **Every record gets through.** In every settled execution, also if records are handed out all
the time: the event of a record that is handed out from step `n₀` on becomes part of the log, and at
last all replicas have received an event of the log and have erased it for good. If no record fails
after it was queued, its record is in all clusters then. -/
theorem eventually_replicated {m : Mutils} {c : Config} {x : Execution (step m c)} {n₀ : ℕ}
    (h : Settled m c x n₀) :
    (∀ n ≥ n₀, ∀ i polled event, x.action n = (i, .kafkaPoll polled) →
      kafkaPolling polled = some event → ∃ k ≥ n, event ∈ (x.state k).log) ∧
    ∀ n, ∀ event ∈ (x.state n).log, ∃ m ≥ n, ∀ k ≥ m, ∀ i ∈ c.ids,
      event ∈ (x.state k).localLog i ∧
        (∀ e ∈ ((x.state k).lists i).events, e.operatorEq event = false) ∧
          ((∀ n, (x.action n).2.Reliable) →
            Kdsync.replicateEvent event ∈ (x.state k).accepted i) := by
  obtain ⟨y, z, hcounted⟩ := exists_counted h.start
  have hgroup := h.group hcounted
  refine ⟨fun n hn i polled event haction hpolled => ?_, fun n event hevent => ?_⟩
  · -- what is handed out is sent
    obtain ⟨hi, he⟩ := Kdsync.Settled.effect z n
    have hza : z.action n = (i, .kafkaPoll polled) := by
      rw [hcounted.inGroup, haction]
      rfl
    rw [hza] at hi he
    have hsent : event ∈ (z.state (n + 1)).sentEvents i := by
      rw [he.sentEvents_eq nofun]
      simp [Kdsync.handed, hpolled]
    obtain ⟨k, hk, hlog⟩ := hgroup.eventually_mem_log (hn.trans n.le_succ) hi hsent
    exact ⟨k, n.le_succ.trans hk, hcounted.log_eq k ▸ hlog⟩
  · rw [hcounted.log_eq] at hevent
    obtain ⟨q, hq⟩ := List.mem_iff_getElem?.mp hevent
    have hlog : ∀ k ≥ n, (z.state k).log[q]? = some event := fun k hk =>
      getElem?_mono (Kdsync.added_calls_prefix (Kdsync.Settled.order_prefix z hk)) hq
    obtain ⟨m, hm, hall⟩ := hgroup.eventually_erased (le_max_right n n₀)
      (List.getElem?_eq_some_iff.mp (hlog _ (le_max_left n n₀))).1
    have hmn : n ≤ m := (le_max_left n n₀).trans hm
    refine ⟨m, hmn, fun k hk i hi => ?_⟩
    obtain ⟨hw, hexact⟩ := hgroup.exact k
    have herased : q < (z.state k).erased c i :=
      (hall i hi).1.trans_le (hgroup.erased_mono hk i)
    refine ⟨?_, ?_, fun hreliable => hcounted.mem_accepted h hreliable (hlog k (hmn.trans hk))
      (herased.trans_le (hexact.erased_le_done hw hi i))⟩
    · -- a replica has received what it has erased
      rw [hcounted.localLog_eq]
      have hlt : q < ((z.state k).localLog i).length :=
        herased.trans_le ((Nat.le_add_right _ _).trans_eq (hw.erased_add_length i))
      have hlocal := getElem?_mono (localLog_prefix_log _ i) (List.getElem?_eq_getElem hlt)
      rw [hlog k (hmn.trans hk)] at hlocal
      exact Option.some.inj hlocal ▸ List.getElem_mem hlt
    · rw [hcounted.lists_eq]
      exact operatorEq_of_lt_erased hw (hgroup.distinct k) (hlog k (hmn.trans hk)) herased

/-! ### Executions that come to rest -/

section Rest

variable {m : Mutils} {c : Config} {p : Program} {i : UInt32} {actions : List (UInt32 × Action)}
  {hp : Machine.exec (step m c) (.init c) actions = some p} {idle : ℕ → UInt32 × Action}
  {hidle : ∀ n, step m c p (idle n) = some p}

/-- The query of the instance finds nothing, and nothing else is left to do. -/
def resting (m : Mutils) (c : Config) (p : Program) (i : UInt32) : Bool :=
  (p.threads i).any (fun t => t.batch = none ∧ p.query i t.lastEvent = some []) &&
    [Action.round .accepted, .mark, .sequence, .deliver].all fun a => (step m c p (i, a)).isNone

/-- A query that finds nothing changes nothing. -/
theorem step_query_of_resting (h : p.resting m c i = true) (hi : i ∈ c.ids) :
    step m c p (i, .query) = some p := by
  obtain ⟨⟨lastEvent, batch⟩, ht, hquery⟩ :=
    (Option.any_eq_true _ _).mp (Bool.and_eq_true_iff.mp h).1
  obtain ⟨hbatch, hq⟩ := of_decide_eq_true hquery
  obtain rfl : batch = none := hbatch
  simp only [step, hi, if_true, act, ht, Option.bind_eq_bind, Option.bind_some, hq,
    List.getLast?_nil]

/-- Some actions, and then queries that find nothing, are a settled execution if no instance ends or
restarts, the log is short and has unique triples, and every instance queries again and again. -/
theorem Settled.of_rest (hsteady : ∀ a ∈ actions, a.2.Steady) (hlog : Distinct p.log)
    (hlen : p.log.length ≤ intMax) (hrest : ∀ i ∈ c.ids, p.resting m c i = true)
    (hqueries : ∀ n, (idle n).2 = .query)
    (hall : ∀ i ∈ c.ids, ∀ n, ∃ k ≥ n, idle k = (i, .query)) :
    Settled m c (.rest actions hp idle hidle) 0 := by
  obtain ⟨y, z, hcounted⟩ := exists_counted (x := .rest actions hp idle hidle)
    Execution.state_rest_zero
  have hend : ∀ n, ((Execution.rest actions hp idle hidle).state n).log <+: p.log := by
    intro n
    have hle := hcounted.log_prefix (le_max_left n actions.length)
    rwa [Execution.state_rest (le_max_right _ _)] at hle
  refine ⟨Execution.state_rest_zero, fun n => hlog.of_prefix (hend n), fun n _ i _ => ?_,
    fun i _ => ?_, fun n _ => ?_, fun i hi a ha => ?_⟩
  · exact (hcounted.length_list_le n i).trans ((hend n).length_le.trans hlen)
  · rw [Execution.state_rest_zero]
    rfl
  · refine Execution.forall_action_rest (P := fun a : UInt32 × Action => a.2.Steady) hsteady
      (fun n => ?_) n
    rw [hqueries]
    trivial
  · rcases List.mem_cons.mp ha with rfl | ha
    · exact Execution.fair_rest_of_idle (hall i hi)
    · have hdisabled := List.all_eq_true.mp (Bool.and_eq_true_iff.mp (hrest i hi)).2 a ha
      exact Execution.fair_rest_of_disabled (Option.isNone_iff_eq_none.mp hdisabled)

end Rest

/-- Both instances replicate and mark an event. -/
def oneEvent : List (UInt32 × Action) :=
  [(0, .kafkaPoll (some (record [97] 0 0 [1]))), (0, .sequence)] ++ both .deliver ++ replicateOne

/-- The queries that follow. -/
def idleQuery (n : ℕ) : UInt32 × Action := (if n % 2 = 0 then 0 else 1, .query)

/-- The queries make the replication of an event a settled execution. -/
theorem exists_settled_oneEvent : ∃ x : Execution (step .plain twoTopics),
    Settled .plain twoTopics x 0 ∧ (∀ n, (x.action n).2.Reliable) ∧
      (x.state oneEvent.length).log.length = 1 := by
  obtain ⟨p, hp, hcheck⟩ := (Option.any_eq_true _ _).mp
    (show (Machine.exec (step .plain twoTopics) (.init twoTopics) oneEvent).any (fun p =>
      p.log.length = 1 ∧ Distinct p.log ∧ p.resting .plain twoTopics 0 = true ∧
        p.resting .plain twoTopics 1 = true) = true by decide +kernel)
  obtain ⟨hlength, hlog, hrest₀, hrest₁⟩ := of_decide_eq_true hcheck
  have hidle : ∀ n, step .plain twoTopics p (idleQuery n) = some p := by
    intro n
    rw [idleQuery]
    split_ifs
    · exact step_query_of_resting hrest₀ (by decide)
    · exact step_query_of_resting hrest₁ (by decide)
  refine ⟨.rest oneEvent hp idleQuery hidle,
    .of_rest (by decide) hlog (by rw [hlength, intMax]; omega)
      (forall_mem_twoInstances hrest₀ hrest₁) (fun _ => rfl) ?_,
    Execution.forall_action_rest (P := fun a : UInt32 × Action => a.2.Reliable) (by decide)
      fun _ => (by decide : Action.query.Reliable), ?_⟩
  · exact forall_mem_twoInstances (fun n => ⟨2 * n, by omega, by simp [idleQuery]⟩)
      fun n => ⟨2 * n + 1, by omega, by simp [idleQuery, Nat.add_mod]⟩
  · rw [Execution.state_rest le_rfl, hlength]

theorem eventually_replicated_oneEvent : ∃ x : Execution (step .plain twoTopics),
    ∃ event ∈ (x.state oneEvent.length).log, ∃ k ≥ oneEvent.length, ∀ i ∈ twoTopics.ids,
      event ∈ (x.state k).localLog i ∧
        (∀ e ∈ ((x.state k).lists i).events, e.operatorEq event = false) ∧
          Kdsync.replicateEvent event ∈ (x.state k).accepted i := by
  obtain ⟨x, hsettled, hreliable, hlength⟩ := exists_settled_oneEvent
  obtain ⟨event, hmem⟩ := List.exists_mem_of_length_pos (hlength ▸ Nat.one_pos)
  obtain ⟨k, hk, hall⟩ := (eventually_replicated hsettled).2 oneEvent.length event hmem
  refine ⟨x, event, hmem, k, hk, fun i hi => ?_⟩
  obtain ⟨hreceived, herased, haccepted⟩ := hall k le_rfl i hi
  exact ⟨hreceived, herased, haccepted hreliable⟩

end Program

end Kdsync
