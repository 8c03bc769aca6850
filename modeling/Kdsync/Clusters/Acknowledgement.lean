import Kdsync.Clusters
import Kdsync.System.Marks

/-!
# What a mark acknowledges

"Called by an instance that has successfully produced all events until the specified message id"
is how `mark_produced` is documented. `derecho_polling` sends the mark when its `for` loop is
through, and an exception of `produce` or `flush` leaves the loop, so that the batch is not marked.
But the loop also gets to its end when a record fails after it was queued.

A `Recorded` group keeps in mind which batches the queries have returned, be they marked, left by an
exception or still under way, and whether a record of the batch under way has failed. This is not
part of the program.

* `acknowledged_of_delivered`: in every run whose batches are delivered or left by an exception, and
  whose searches find their targets, a cluster has accepted the records of all events up to the
  target of a mark, and what it has not accepted stays on the lists and is served again.
* `acknowledged_of_distinct`: with unique triples, the searches find their targets by themselves.
* `not_acknowledged_of_failed`: one record that fails, and an event is acknowledged and erased that
  the cluster never accepts.
-/

namespace Kdsync

/-! ### What the queries have returned -/

/-- The events of a batch that are not replicated yet, with their positions. -/
def Batch.served (b : Batch) : List Served := b.rest.mapIdx fun k event => ⟨event, b.next + k⟩

/-- The batch in the `for` loop of an instance. -/
def System.underWay (s : System) (i : UInt32) : Option Batch := (s.polling i).bind Polling.batch

/-- The group with its clusters, and a record of its queries. -/
structure Recorded where
  clusters : Clusters
  /-- The batches that the queries of an instance have returned. -/
  batches : UInt32 → List (List Served)
  /-- A record of the batch under way has failed after it was queued. -/
  failing : UInt32 → Bool

namespace Recorded

/-- All instances have started, and no query has returned anything. -/
def init : Recorded where
  clusters := .init
  batches _ := []
  failing _ := false

/-- The group of a record. -/
def system (s : Recorded) : System := s.clusters.system

/-- The batches after an action of instance `i`, given the group after it. -/
def batchesAfter (s : Recorded) (i : UInt32) (system : System) :
    Clusters.Action → UInt32 → List (List Served)
  | .group .query => Function.update s.batches i
      (s.batches i ++ ((system.underWay i).map Batch.served).toList)
  | _ => s.batches

/-- Whether a record of the batch under way has failed, after an action of instance `i`. A query
starts a new batch. -/
def failingAfter (s : Recorded) (i : UInt32) : Clusters.Action → UInt32 → Bool
  | .group .query => Function.update s.failing i false
  | .round .failed => Function.update s.failing i true
  | _ => s.failing

/-- The record of an action of instance `i`, given the clusters after it. -/
def after (s : Recorded) (i : UInt32) (a : Clusters.Action) (clusters : Clusters) : Recorded where
  clusters
  batches := s.batchesAfter i clusters.system a
  failing := s.failingAfter i a

/-- One step of the group and its clusters. -/
def step (c : Config) (s : Recorded) (a : UInt32 × Clusters.Action) : Option Recorded :=
  (Clusters.step c s.clusters a).map (s.after a.1 a.2)

/-- A batch is only marked if none of its records has failed after it was queued. -/
def Delivered (s : Recorded) (a : UInt32 × Clusters.Action) : Prop :=
  a.2 = .group .mark → s.failing a.1 = false

instance (s : Recorded) (a : UInt32 × Clusters.Action) : Decidable (s.Delivered a) :=
  inferInstanceAs (Decidable (_ → _))

end Recorded

/-! ### What is accepted, and what is due -/

namespace Clusters

/-- The cluster of an instance has accepted a record for each of the first `k` events of the log, in
the order of the log. -/
structure AcceptedUpto (s : Clusters) (i : UInt32) (k : ℕ) : Prop where
  le_length : k ≤ s.system.log.length
  records : ((s.system.log.take k).map replicateEvent).Sublist (s.accepted i)

section AcceptedUpto

variable {s s' : Clusters} {i : UInt32} {k k' : ℕ} {x : Served}

theorem AcceptedUpto.anti (h : s.AcceptedUpto i k) (hle : k' ≤ k) : s.AcceptedUpto i k' where
  le_length := hle.trans h.le_length
  records := ((List.take_prefix_take_left hle).sublist.map _).trans h.records

/-- What is accepted stays accepted. -/
theorem AcceptedUpto.grow (h : s.AcceptedUpto i k) (hlog : s.system.log <+: s'.system.log)
    (haccepted : s.accepted i <+: s'.accepted i) : s'.AcceptedUpto i k where
  le_length := h.le_length.trans hlog.length_le
  records := by
    obtain ⟨entries, hentries⟩ := hlog
    rw [← hentries, List.take_append_of_le_length h.le_length]
    exact h.records.trans haccepted.sublist

/-- A cluster that has the records of the events before `x`, and accepts that of `x`, has the
records up to `x`. -/
theorem AcceptedUpto.concat (h : s.AcceptedUpto i x.position) (hx : x.In s.system.log) :
    ((s.system.log.take (x.position + 1)).map replicateEvent).Sublist
      (s.accepted i ++ [replicateEvent x.event]) := by
  rw [List.take_add_one, List.map_append, ← Option.toList_map, hx.record_eq]
  exact h.records.append (.refl _)

end AcceptedUpto

/-- What a cluster has accepted before an action is a beginning of what it has accepted after it. -/
theorem Effect.accepted_le {s s' : Clusters} {i : UInt32} {a : Action} (h : Effect s i a s')
    (j : UInt32) : s.accepted j <+: s'.accepted j := by
  cases h with
  | group => exact List.prefix_rfl
  | @round outcome x system hx =>
    rcases eq_or_ne j i with rfl | hj
    · rw [accepted_produce_self, Outcome.produce_eq]
      split_ifs
      · exact List.prefix_append _ _
      · exact List.prefix_rfl
    · rw [accepted_produce_of_ne hj]

end Clusters

/-- What the queries of an instance return from here on, chunk by chunk. -/
def System.pending (c : Config) (s : System) (i : UInt32) (lastEvent : Option Served) :
    List ReplicatedEvent :=
  (s.list c i).events.drop (s.first c i lastEvent)

/-- The event is on the list of every replica that has received it, without a mark of instance `i`,
and among those that the queries of the instance return from here on. -/
structure System.Due (c : Config) (s : System) (i : UInt32) (x : Served) : Prop where
  listed : ∀ r, x.position < (s.localLog r).length → ∃ k e, s.erased c r + k = x.position ∧
    (s.list c r).events[k]? = some e ∧ e.operatorEq x.event = true ∧ i ∉ e.replicas
  pending : ∀ lastEvent, s.polling i = some ⟨lastEvent, none⟩ → SearchesHeld c s (i, .query) →
    ∃ k e, s.erased c i + s.first c i lastEvent + k = x.position ∧
      (s.pending c i lastEvent)[k]? = some e ∧ e.operatorEq x.event = true

section System

variable {c : Config} {s s' : System} {i j : UInt32} {a : Action} {x : Served}
  {lastEvent : Option Served}

/-- A query returns the first events that are pending. -/
theorem System.query_eq_take_pending (hlen : (s.list c i).events.length ≤ intMax) :
    s.query c i lastEvent = some ((s.pending c i lastEvent).take c.eventChunk.toNat) := by
  rw [query_eq]
  exact EventList.chunkFrom_eq_take (EventList.eventChunk_replay _ _) c.chunk_le hlen _

/-- An event that the replica of the instance has received, from its front on, is due. -/
theorem Behind.due {front : UInt32 → ℕ} (h : Behind c s front) (hw : WellFormed c s)
    (hi : i ∈ c.ids) (hx : x.In (s.localLog i)) (hle : front i ≤ x.position) : s.Due c i x where
  listed r hr := by
    -- what both replicas have received is one event of the log
    refine h.exists_getElem?_list hw hi ?_ hle
    rw [Served.In, ← hx.mono (localLog_prefix_log s i),
      getElem?_mono (localLog_prefix_log s r) (List.getElem?_eq_getElem hr),
      List.getElem?_eq_getElem hr]
  pending lastEvent hp hheld := by
    obtain ⟨k, e, hk, he, hsame, -⟩ := h.exists_getElem?_list hw hi hx hle
    obtain ⟨n, hn⟩ := Nat.exists_eq_add_of_le ((h.start_le hw hi hheld hp).trans hle)
    refine ⟨n, e, hn.symm, ?_, hsame⟩
    rw [System.pending, List.getElem?_drop, ← he]
    congr 1
    omega

theorem Batch.mem_served {b : Batch} : x ∈ b.served ↔
    ∃ k event, b.rest[k]? = some event ∧ x = ⟨event, b.next + k⟩ := by
  rw [Batch.served, List.mem_iff_getElem?]
  simp only [List.getElem?_mapIdx, Option.map_eq_some_iff]
  exact exists_congr fun k => exists_congr fun event => and_congr_right fun _ => eq_comm

/-- The events that a query has just returned end with the last event of the batch. -/
theorem Batch.getLast?_served {b : Batch} (h : b.rest.getLast? = some b.back) :
    b.served.getLast? = some b.last := by
  rw [Batch.served, List.getLast?_mapIdx, h, Option.map_some, Batch.last]
  have hpos : 0 < b.rest.length := List.length_pos_of_mem (List.mem_of_getLast? h)
  rw [Nat.add_sub_assoc hpos]

/-- A batch that is under way after an action is what is left of the one before, with the same end,
or a query has just returned it. -/
theorem Effect.underWay_cases (he : Effect c s i a s') {b : Batch}
    (hb : s'.underWay j = some b) : (∃ b', s.underWay j = some b' ∧ b'.last = b.last) ∨
      a = .query ∧ j = i ∧ b.rest.getLast? = some b.back := by
  rcases eq_or_ne j i with rfl | hj
  · cases he with
    | served _ _ hback =>
      rw [System.underWay, System.polling_setPolling_self, Option.bind_some] at hb
      obtain rfl := Option.some.inj hb
      exact .inr ⟨rfl, rfl, hback⟩
    | replicated hp =>
      rw [System.underWay, System.polling_replicateEvent, System.polling_setPolling_self,
        Option.bind_some] at hb
      obtain rfl := Option.some.inj hb
      refine .inl ⟨_, by rw [System.underWay, hp, Option.bind_some], ?_⟩
      simp only [Batch.last, List.length_cons, Served.mk.injEq, true_and]
      omega
    | marked => simp [System.underWay] at hb
    | crashed => simp [System.underWay, System.setPolling] at hb
    | rejoined => simp [System.underWay, System.setPolling] at hb
    | _ => exact .inl ⟨b, hb, rfl⟩
  · rw [System.underWay, he.polling_of_ne hj] at hb
    exact .inl ⟨b, hb, rfl⟩

end System

namespace Recorded

section Step

variable {c : Config} {s s' : Recorded} {i j : UInt32} {a : Clusters.Action}
  {front : UInt32 → ℕ}

/-- A step is one of the group and of its clusters, and leaves the record of that step. -/
theorem step_cases (h : s.step c (i, a) = some s') :
    i ∈ c.ids ∧ Effect c s.system i a.inGroup s'.system ∧
      Clusters.Effect s.clusters i a s'.clusters ∧ s' = s.after i a s'.clusters := by
  obtain ⟨clusters, hclusters, rfl⟩ := Option.map_eq_some_iff.mp h
  obtain ⟨hgroup, heffect⟩ := Clusters.Effect.of_step hclusters
  obtain ⟨hi, he⟩ := Effect.of_step hgroup
  exact ⟨hi, he, heffect, rfl⟩

/-- A batch of the record after an action is one of the record before, or the one under way. -/
theorem mem_batchesAfter {system : System} {batch : List Served}
    (h : batch ∈ s.batchesAfter i system a j) : batch ∈ s.batches j ∨
      ∃ b, system.underWay j = some b ∧ batch = b.served := by
  unfold batchesAfter at h
  split at h
  · rcases eq_or_ne j i with rfl | hj
    · rw [Function.update_self, List.mem_append, Option.mem_toList] at h
      obtain h | h := h
      · exact .inl h
      · obtain ⟨b, hb, rfl⟩ := Option.map_eq_some_iff.mp h
        exact .inr ⟨b, hb, rfl⟩
    · rw [Function.update_of_ne hj] at h
      exact .inl h
  · exact .inl h

/-- The record after an action has all batches of the record before. -/
theorem batches_subset (s : Recorded) (i : UInt32) (a : Clusters.Action) (system : System)
    (j : UInt32) : s.batches j ⊆ s.batchesAfter i system a j := by
  unfold batchesAfter
  split
  · rcases eq_or_ne j i with rfl | hj
    · rw [Function.update_self]
      exact List.subset_append_left _ _
    · rw [Function.update_of_ne hj]
      exact List.Subset.refl _
  · exact List.Subset.refl _

/-- The recorded batches stand in the log, and the ends of the batch under way and the targets of
the marks are ends of recorded batches. -/
structure Listed (s : Recorded) : Prop where
  batches : ∀ j, ∀ batch ∈ s.batches j, ∀ x ∈ batch, x.In (s.system.localLog j)
  underWay : ∀ j b, s.system.underWay j = some b →
    ∃ batch ∈ s.batches j, batch.getLast? = some b.last
  marks : ∀ j x, .markProduced x ∈ s.system.net.sentBy j →
    ∃ batch ∈ s.batches j, batch.getLast? = some x

theorem listed_init : Listed init where
  batches j batch hbatch := by cases hbatch
  underWay j b hb := by cases hb
  marks j x hx := by simp [system, init, Clusters.init] at hx

/-- One step keeps the record right, whatever happens. -/
theorem Listed.step (h : s.Listed) (hw : WellFormed c s.system)
    (hstep : s.step c (i, a) = some s') : s'.Listed := by
  obtain ⟨hi, he, -, hrecord⟩ := step_cases hstep
  have hw' := hw.effect hi he
  have hsubset : ∀ j, s.batches j ⊆ s'.batches j :=
    fun j => hrecord ▸ batches_subset s i a s'.system j
  refine ⟨fun j batch hbatch x hx => ?_, fun j b hb => ?_, fun j x hx => ?_⟩
  · rw [hrecord] at hbatch
    obtain hold | ⟨b, hb, rfl⟩ := mem_batchesAfter hbatch
    · exact (h.batches j batch hold x hx).mono (he.localLog_prefix j)
    · obtain ⟨p, hp, hbatch⟩ := Option.bind_eq_some_iff.mp hb
      obtain ⟨k, event, hk, rfl⟩ := Batch.mem_served.mp hx
      exact ((hw'.polling _ _ hp).batch _ hbatch).rest k event hk
  · obtain ⟨b', hb', hlast⟩ | ⟨ha, rfl, hback⟩ := he.underWay_cases hb
    · obtain ⟨batch, hbatch, hend⟩ := h.underWay j b' hb'
      exact ⟨batch, hsubset j hbatch, hlast ▸ hend⟩
    · obtain rfl := Clusters.Action.eq_group_of_inGroup ha (by decide) (by decide)
      refine ⟨b.served, ?_, Batch.getLast?_served hback⟩
      rw [hrecord]
      change b.served ∈ s.batchesAfter j s'.system (.group .query) j
      rw [batchesAfter, Function.update_self]
      exact List.mem_append_right _
        (Option.mem_toList.mpr (Option.map_eq_some_iff.mpr ⟨b, hb, rfl⟩))
  · obtain hx | ⟨event, heq, -⟩ | ⟨-, rfl, lastEvent, next, back, hp, heq⟩ := he.mem_sentBy hx
    · obtain ⟨batch, hbatch, hend⟩ := h.marks j x hx
      exact ⟨batch, hsubset j hbatch, hend⟩
    · cases heq
    · obtain rfl := Rpc.markProduced.inj heq
      obtain ⟨batch, hbatch, hend⟩ := h.underWay j ⟨[], next, back⟩ (by simp [System.underWay, hp])
      exact ⟨batch, hsubset j hbatch, hend⟩

/-- The fronts that the clusters account for. Unless a record of the batch under way has failed, the
cluster has accepted this batch as far as it has got. -/
structure Accounted (c : Config) (s : Recorded) (front : UInt32 → ℕ) : Prop where
  behind : Behind c s.system front
  accepted : ∀ j, s.clusters.AcceptedUpto j (front j)
  underWay : ∀ j b, s.system.underWay j = some b → s.failing j = false →
    s.clusters.AcceptedUpto j b.next

theorem Accounted.init (c : Config) : Accounted c init fun _ => 0 where
  behind := .init c
  accepted j := ⟨Nat.zero_le _, List.nil_sublist _⟩
  underWay j b hb := by cases hb

/-- A batch that may be marked is accounted for. -/
theorem Accounted.exists_raised (h : Accounted c s front) (hdelivered : s.Delivered (i, a)) :
    ∃ front', Accounted c s front' ∧ (a = .group .mark → ∀ lastEvent next back,
      s.system.polling i = some ⟨lastEvent, some ⟨[], next, back⟩⟩ → next ≤ front' i) := by
  by_cases hmark : a = .group .mark ∧ ∃ b, s.system.underWay i = some b
  · obtain ⟨rfl, b, hb⟩ := hmark
    have hbatch := h.underWay i b hb (hdelivered rfl)
    refine ⟨Function.update front i (max (front i) b.next), ⟨h.behind.mono fun j => ?_, fun j => ?_,
      h.underWay⟩, fun _ lastEvent next back hp => ?_⟩
    · rcases eq_or_ne j i with rfl | hj
      · rw [Function.update_self]
        exact le_max_left _ _
      · rw [Function.update_of_ne hj]
    · rcases eq_or_ne j i with rfl | hj
      · rw [Function.update_self]
        rcases max_choice (front j) b.next with hmax | hmax
        · rw [hmax]
          exact h.accepted j
        · rw [hmax]
          exact hbatch
      · rw [Function.update_of_ne hj]
        exact h.accepted j
    · rw [System.underWay, hp, Option.bind_some] at hb
      obtain rfl := Option.some.inj hb
      rw [Function.update_self]
      exact le_max_right _ _
  · refine ⟨front, h, fun ha lastEvent next back hp => ?_⟩
    exact absurd ⟨ha, _, by rw [System.underWay, hp]; rfl⟩ hmark

/-- If no record of the batch under way has failed after a round, then that of the round has not,
and none had before. -/
theorem failing_of_round {outcome : Outcome} (h : s.failingAfter i (.round outcome) i = false) :
    outcome ≠ .failed ∧ s.failing i = false := by
  cases outcome with
  | failed => simp [failingAfter] at h
  | _ => exact ⟨by simp, h⟩

theorem failingAfter_of_ne (s : Recorded) (a : Clusters.Action) (hj : j ≠ i) :
    s.failingAfter i a j = s.failing j := by
  unfold failingAfter
  split
  · exact Function.update_of_ne hj _ _
  · exact Function.update_of_ne hj _ _
  · rfl

/-- After an action of the group, the cluster has accepted the batch under way as far as it has got.
-/
private theorem underWay_group (h : Accounted c s front) (hw : WellFormed c s.system)
    (hi : i ∈ c.ids) {action : Action} (hne : action ≠ .replicate)
    (hheld : SearchesHeld c s.system (i, action)) {system : System}
    (he : Effect c s.system i action system) {b : Batch} (hb : system.underWay i = some b)
    (hfailing : s.failingAfter i (.group action) i = false) : s.clusters.AcceptedUpto i b.next := by
  cases he with
  | idle hp =>
    rw [System.underWay, hp] at hb
    cases hb
  | served hp =>
    rw [System.underWay, System.polling_setPolling_self, Option.bind_some] at hb
    obtain rfl := Option.some.inj hb
    exact (h.accepted i).anti (h.behind.start_le hw hi hheld hp)
  | replicated => exact absurd rfl hne
  | marked => simp [System.underWay] at hb
  | crashed => simp [System.underWay, System.setPolling] at hb
  | rejoined => simp [System.underWay, System.setPolling] at hb
  | _ => exact h.underWay i b hb hfailing

/-- After a round of the loop, the cluster has accepted the batch under way as far as it has got. -/
private theorem underWay_round (h : Accounted c s front) (hw : WellFormed c s.system)
    {outcome : Outcome} {clusters : Clusters}
    (he : Effect c s.system i (Clusters.Action.round outcome).inGroup clusters.system)
    (heffect : Clusters.Effect s.clusters i (.round outcome) clusters) {b : Batch}
    (hb : clusters.system.underWay i = some b)
    (hfailing : s.failingAfter i (.round outcome) i = false) : clusters.AcceptedUpto i b.next := by
  obtain ⟨hfailed, hbefore⟩ := failing_of_round hfailing
  cases heffect with
  | @round _ x system hx =>
    change Effect c s.system i _ system at he
    change system.underWay i = some b at hb
    cases outcome with
    | failed => exact absurd rfl hfailed
    | refused =>
      cases he
      simp [System.underWay, System.setPolling] at hb
    | timedOut =>
      cases he
      simp [System.underWay, System.setPolling] at hb
    | accepted =>
      have hin := hw.in_of_nextRound hx
      cases he with
      | @replicated lastEvent event back rest next hp =>
        rw [System.underWay, System.polling_replicateEvent, System.polling_setPolling_self,
          Option.bind_some] at hb
        obtain rfl := Option.some.inj hb
        obtain rfl : ⟨event, next⟩ = x := by
          change s.system.nextRound i = some x at hx
          simpa only [System.nextRound, hp, Option.some.injEq] using hx
        have hnext := h.underWay i _ (by rw [System.underWay, hp]; rfl) hbefore
        refine ⟨hin.lt_length, ?_⟩
        change List.Sublist _ ((s.clusters.produce i ⟨event, next⟩ .accepted).accepted i)
        rw [Clusters.accepted_produce_self]
        exact hnext.concat hin

/-- **One step.** If the searches find their targets and a batch is only marked when it is
delivered, the clusters account for the fronts after the step as well. -/
theorem Accounted.step (h : Accounted c s front) (hw : WellFormed c s.system)
    (hdelivered : s.Delivered (i, a)) (hheld : SearchesHeld c s.system (i, a.inGroup))
    (hstep : s.step c (i, a) = some s') : ∃ front', Accounted c s' front' := by
  obtain ⟨front', h, hmark⟩ := h.exists_raised hdelivered
  obtain ⟨hi, he, heffect, hrecord⟩ := step_cases hstep
  have hgrow : ∀ j k, s.clusters.AcceptedUpto j k → s'.clusters.AcceptedUpto j k :=
    fun j k hk => hk.grow he.log_prefix (heffect.accepted_le j)
  have hbehind := h.behind.effect hw hheld he fun ha =>
    hmark (Clusters.Action.eq_group_of_inGroup ha (by decide) (by decide))
  refine ⟨front', hbehind, fun j => hgrow j _ (h.accepted j), fun j b hb hfailing => ?_⟩
  rw [hrecord] at hfailing
  change s.failingAfter i a j = false at hfailing
  rcases eq_or_ne j i with rfl | hj
  · cases a with
    | group action =>
      have hne : action ≠ .replicate := by
        rintro rfl
        cases hstep
      exact hgrow j _ (underWay_group h hw hi hne hheld he hb hfailing)
    | round outcome => exact underWay_round h hw he heffect hb hfailing
  · rw [failingAfter_of_ne s a hj] at hfailing
    rw [System.underWay, he.polling_of_ne hj] at hb
    exact hgrow j _ (h.underWay j b hb hfailing)

end Step

/-! ### Main results -/

/-- What is true of an instance that only acknowledges what it has produced. -/
structure Acknowledged (c : Config) (s : Recorded) (i : UInt32) : Prop where
  /-- A mark is for the last event of a batch. -/
  target : ∀ x, .markProduced x ∈ s.system.net.sentBy i →
    ∃ batch ∈ s.batches i, batch.getLast? = some x
  /-- The cluster has accepted the events up to it. -/
  accepted : ∀ x, .markProduced x ∈ s.system.net.sentBy i →
    s.clusters.AcceptedUpto i (x.position + 1)
  /-- The events of all batches are events of the log. -/
  batches : ∀ batch ∈ s.batches i, ∀ x ∈ batch, x.In s.system.log
  /-- What is not accepted is served again. -/
  due : ∀ batch ∈ s.batches i, ∀ x ∈ batch,
    s.clusters.AcceptedUpto i (x.position + 1) ∨ s.system.Due c i x

/-- The lists, the total order and the marks are as they were, and a program that has not ended has
its `last_event`. -/
structure Unacknowledged (c : Config) (s s' : System) (i : UInt32) : Prop where
  lists : ∀ r, s'.list c r = s.list c r
  order : s'.net.order = s.net.order
  marks : ∀ j x, .markProduced x ∈ s'.net.sentBy j → .markProduced x ∈ s.net.sentBy j
  lastEvent : ∀ p', s'.polling i = some p' →
    ∃ p, s.polling i = some p ∧ p'.lastEvent = p.lastEvent

section Runs

variable {c : Config} {s s' : Recorded} {i : UInt32} {a : Clusters.Action}

/-- Without its mark, an iteration of `derecho_polling` acknowledges nothing. -/
theorem unacknowledged_of_effect {s s' : System} {a : Action} (he : Effect c s i a s')
    (ha : a = .query ∨ a = .queryFails ∨ a = .replicate ∨ a = .crash) :
    Unacknowledged c s s' i where
  lists r := by
    cases he with
    | sequenced => simp at ha
    | delivered => simp at ha
    | rejoined => simp at ha
    | _ => rfl
  order := by
    cases he with
    | sequenced => simp at ha
    | delivered => simp at ha
    | _ => rfl
  marks j x hx := by
    obtain hx | ⟨event, heq, -⟩ | ⟨rfl, -⟩ := he.mem_sentBy hx
    · exact hx
    · cases heq
    · simp at ha
  lastEvent p' hp' := by
    cases he with
    | idle => exact ⟨p', hp', rfl⟩
    | failed => exact ⟨p', hp', rfl⟩
    | served hp =>
      rw [System.polling_setPolling_self] at hp'
      exact ⟨_, hp, Option.some.inj hp' ▸ rfl⟩
    | replicated hp =>
      rw [System.polling_replicateEvent, System.polling_setPolling_self] at hp'
      exact ⟨_, hp, Option.some.inj hp' ▸ rfl⟩
    | crashed => simp at hp'
    | _ => simp at ha

/-- **Unique triples suffice for all searches** of a run, with crashes and exceptions at any moment
and restarts while an instance is up that has applied all calls. -/
theorem run_searchesHeld {actions : List (UInt32 × Clusters.Action)}
    (h : Machine.Run (step c)
      (fun s a => s.Delivered a ∧ (a.2.inGroup = .rejoin → s.system.Restores c)) init actions s)
    (hlog : Distinct s.system.log) : Machine.Run (step c)
      (fun s a => s.Delivered a ∧ SearchesHeld c s.system (a.1, a.2.inGroup)) init actions s := by
  have hgroup : ∀ s a s', step c s a = some s' →
      Kdsync.step c s.system (a.1, a.2.inGroup) = some s'.system := by
    rintro s a s' hstep
    obtain ⟨clusters, hclusters, rfl⟩ := Option.map_eq_some_iff.mp hstep
    exact (Clusters.Effect.of_step hclusters).1
  have hunique := h.backward (P := fun s => Distinct s.system.log) (fun s a s' hstep hlog' =>
    hlog'.of_prefix (Effect.log_prefix (Effect.of_step (hgroup s a s' hstep)).2)) hlog
  exact hunique.imp (fun s => Found c s.system) (found_init c)
    (fun s a s' hfound ha hstep => hfound.step ha.2 (hgroup s a s' hstep))
    fun s a hfound ha => ⟨ha.1.1, hfound.searchesHeld ha.2 ha.1.2⟩

/-- What the clusters account for, in every run whose searches find their targets and whose batches
are only marked when they are delivered. -/
theorem exists_accounted {actions : List (UInt32 × Clusters.Action)}
    (h : Machine.Run (step c)
      (fun s a => s.Delivered a ∧ SearchesHeld c s.system (a.1, a.2.inGroup)) init actions s) :
    WellFormed c s.system ∧ s.Listed ∧ ∃ front, Accounted c s front := by
  refine h.invariant (fun s => WellFormed c s.system ∧ s.Listed ∧ ∃ front, Accounted c s front)
    ⟨.init c, listed_init, _, .init c⟩ ?_
  rintro s ⟨i, a⟩ s' ⟨hw, hlisted, front, haccounted⟩ ⟨hdelivered, hheld⟩ hstep
  obtain ⟨hi, he, -, -⟩ := step_cases hstep
  exact ⟨hw.effect hi he, hlisted.step hw hstep, haccounted.step hw hdelivered hheld hstep⟩

/-- An instance whose cluster accounts for its front only acknowledges what it has produced. -/
theorem Accounted.acknowledged {front : UInt32 → ℕ} (h : Accounted c s front)
    (hw : WellFormed c s.system) (hlisted : s.Listed) (hi : i ∈ c.ids) : s.Acknowledged c i where
  target := hlisted.marks i
  accepted x hx := (h.accepted i).anti (h.behind.marks i x hx)
  batches batch hbatch x hx :=
    (hlisted.batches i batch hbatch x hx).mono (localLog_prefix_log s.system i)
  due batch hbatch x hx := by
    rcases Nat.lt_or_ge x.position (front i) with hlt | hge
    · exact .inl ((h.accepted i).anti hlt)
    · exact .inr (h.behind.due hw hi (hlisted.batches i batch hbatch x hx) hge)

/-- With unique triples, and restarts while an instance is up that has applied all calls, nothing
but a failed delivery makes an instance acknowledge what it has not produced. -/
theorem acknowledged_of_distinct {actions : List (UInt32 × Clusters.Action)}
    (h : Machine.Run (step c)
      (fun s a => s.Delivered a ∧ (a.2.inGroup = .rejoin → s.system.Restores c)) init actions s)
    (hlog : Distinct s.system.log) (hi : i ∈ c.ids) : s.Acknowledged c i := by
  obtain ⟨hw, hlisted, front, haccounted⟩ := exists_accounted (run_searchesHeld h hlog)
  exact haccounted.acknowledged hw hlisted hi

/-- **What a mark acknowledges.** In every run whose batches are only marked when none of their
records has failed, and whose searches find their targets, through exceptions, crashes and restarts:
a mark is for the end of a batch, and the cluster has accepted a record for each event up to it;
every event of every batch, marked or not, is accepted with all before it or still due, on every
list and among those that the next queries return. Whatever happens, an iteration that sends no mark
leaves the lists and `last_event` as they were. -/
theorem acknowledged_of_delivered {actions : List (UInt32 × Clusters.Action)}
    (h : Machine.Run (step c)
      (fun s a => s.Delivered a ∧ SearchesHeld c s.system (a.1, a.2.inGroup)) init actions s)
    (hi : i ∈ c.ids) :
    s.Acknowledged c i ∧
    (∀ lastEvent, s.system.polling i = some ⟨lastEvent, none⟩ →
      (s.system.list c i).events.length ≤ intMax → s.system.query c i lastEvent =
        some ((s.system.pending c i lastEvent).take c.eventChunk.toNat)) ∧
    ∀ a s', (a = .group .query ∨ a = .group .queryFails ∨ ∃ outcome, a = .round outcome) →
      s.step c (i, a) = some s' → Unacknowledged c s.system s'.system i := by
  obtain ⟨hw, hlisted, front, haccounted⟩ := exists_accounted h
  refine ⟨haccounted.acknowledged hw hlisted hi,
    fun lastEvent _ hlen => System.query_eq_take_pending hlen, fun a s' ha hstep => ?_⟩
  obtain ⟨-, he, -, -⟩ := step_cases hstep
  refine unacknowledged_of_effect he ?_
  obtain rfl | rfl | ⟨outcome, rfl⟩ := ha
  · exact .inl rfl
  · exact .inr (.inl rfl)
  · exact .inr (.inr (Clusters.Action.inGroup_round outcome))

end Runs

/-- Instance 0 hands out two records, and both replicas have their events. -/
def twoRecords : List (UInt32 × Clusters.Action) :=
  (adds 0 (record kafkaTopic 0 0 [1]) ++ adds 0 (record kafkaTopic 0 1 [2]) ++ both .deliver ++
    both .deliver).map fun a => (a.1, .group a.2)

/-- Both records fail in some way at instance 0: the second is refused, then the first is accepted
although `flush` throws, then the first fails after it was queued and the second is refused. At the
fourth attempt both are accepted. -/
def refusedOnce : List (UInt32 × Clusters.Action) :=
  twoRecords ++ ([.group .query, .round .accepted, .round .refused, .group .rejoin, .group .query,
    .round (.timedOut true), .group .rejoin, .group .query, .round .failed, .round .refused,
    .group .rejoin, .group .query, .round .accepted, .round .accepted, .group .mark].map
      fun a => ((0 : UInt32), a))

theorem acknowledged_of_delivered_refusedOnce :
    ∃ s : Recorded, (s.batches 0).length = 4 ∧ (s.clusters.accepted 0).length = 4 ∧
      s.Acknowledged oneTopic 0 := by
  obtain ⟨s, hrun, hcheck⟩ := Machine.Run.exists_of_exec (step oneTopic)
    (fun s a => s.Delivered a ∧ SearchesHeld oneTopic s.system (a.1, a.2.inGroup)) init refusedOnce
    (fun s => (s.batches 0).length = 4 ∧ (s.clusters.accepted 0).length = 4) (by decide +kernel)
  obtain ⟨hbatches, haccepted⟩ := of_decide_eq_true hcheck
  exact ⟨s, hbatches, haccepted, (acknowledged_of_delivered hrun (by decide)).1⟩

/-- The delivery of the second record fails at instance 0. Both instances mark the batch, and apply
both marks. -/
def failedOnce : List (UInt32 × Clusters.Action) :=
  twoRecords ++ [(0, .group .query), (0, .round .accepted), (0, .round .failed),
    (0, .group .mark), (1, .group .query), (1, .round .accepted), (1, .round .accepted),
    (1, .group .mark), (0, .group .sequence), (1, .group .sequence)] ++
    (both .deliver ++ both .deliver).map fun a => (a.1, .group a.2)

/-- **A failed delivery is acknowledged**: both events are erased from both lists, although all
searches find their targets, and cluster 0 has accepted one record. -/
theorem not_acknowledged_of_failed :
    ¬ ∀ (c : Config) (actions : List (UInt32 × Clusters.Action)) (s : Recorded),
      Machine.Run (step c) (fun s a => SearchesHeld c s.system (a.1, a.2.inGroup)) init actions s →
      ∀ i ∈ c.ids, s.Acknowledged c i := by
  intro h
  obtain ⟨s, hrun, hcheck⟩ := Machine.Run.exists_of_exec (step oneTopic)
    (fun s a => SearchesHeld oneTopic s.system (a.1, a.2.inGroup)) init failedOnce
    (fun s => (s.system.list oneTopic 0).events = [] ∧ (s.system.localLog 0).length = 2 ∧
      (s.clusters.accepted 0).length = 1 ∧ ∃ batch ∈ s.batches 0, ∃ x ∈ batch, x.position = 1)
    (by decide +kernel)
  obtain ⟨hempty, hlength, haccepted, batch, hbatch, x, hx, hposition⟩ := of_decide_eq_true hcheck
  obtain hupto | hdue := (h oneTopic failedOnce s hrun 0 (by decide)).due batch hbatch x hx
  · -- two records would be accepted
    have hle := hupto.records.length_le
    have htwo := hupto.le_length
    rw [hposition] at hle htwo
    rw [List.length_map, List.length_take_of_le htwo, haccepted] at hle
    omega
  · -- the event would be on the list
    obtain ⟨k, e, -, he, -⟩ := hdue.listed 0 (by rw [hposition, hlength]; decide)
    rw [hempty] at he
    cases he

end Recorded

end Kdsync
