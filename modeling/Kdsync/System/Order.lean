import Kdsync.System.Search
import Kdsync.Library.FirstOccurrence
import Kdsync.Library.Machine

/-!
# Agreement on the order of events

The instances poll at different moments and may replicate an event twice, but as long as their
queries resume where they should, the first time that each replicates an event follows the total
order, so they agree on the order of any two events that both have replicated
(`orderAgreement_of_queryHeld`).

The invariant of one instance is `Ascending`: it has replicated all events of an interval and
nothing above, and its batch stands in this interval or right above it. A query that finds nothing
starts at the beginning of the list, which may be far behind or far ahead; the interval then
starts anew.

Without the condition two instances disagree in the set-up of the README
(`not_orderAgreement_of_sharedTopic`).
-/

namespace Kdsync

/-- Any two instances agree on which of two events they have both replicated came first. -/
def OrderAgreement (c : Config) (s : System) : Prop :=
  ∀ i ∈ c.ids, ∀ j ∈ c.ids, ∀ p q, p ∈ s.trace i → q ∈ s.trace i → p ∈ s.trace j →
    q ∈ s.trace j →
    ((s.trace i).idxOf p < (s.trace i).idxOf q ↔ (s.trace j).idxOf p < (s.trace j).idxOf q)

/-- Instance `i` has replicated the events from `low` to `high` and none above, its first
replications ascend, and it continues at most at `high`. -/
structure Ascending (c : Config) (s : System) (i : UInt32) (low high : ℕ) : Prop where
  low_le : low ≤ s.erased c i
  mem : ∀ p, low ≤ p → p < high → p ∈ s.trace i
  lt : ∀ p ∈ s.trace i, p < high
  firsts : (s.trace i).FirstsAscend
  polling : ∀ q, s.polling i = some q → q.Within low high
  unmarked : ∀ q, s.polling i = some q → q.lastEvent = none →
    ∀ x, .markProduced x ∉ s.net.sentBy i

namespace Ascending

variable {c : Config} {s s' : System} {i j : UInt32} {a : Action} {low high : ℕ}

theorem init (c : Config) (i : UInt32) : Ascending c .init i 0 0 where
  low_le := Nat.zero_le _
  mem p _ hp := absurd hp (Nat.not_lt_zero p)
  lt p hp := by cases hp
  firsts := List.firstsAscend_nil
  polling q hq := by
    obtain rfl := Option.some.inj hq
    exact .start 0 0
  unmarked q _ _ x hx := by simp at hx

/-- What neither replicates nor changes the local variables keeps the interval. -/
theorem frame (h : Ascending c s i low high) (herased : s.erased c i ≤ s'.erased c i)
    (hreplicated : s'.replicated i = s.replicated i) (hpolling : s'.polling i = s.polling i)
    (hmarks : ∀ x, .markProduced x ∈ s'.net.sentBy i → .markProduced x ∈ s.net.sentBy i) :
    Ascending c s' i low high where
  low_le := h.low_le.trans herased
  mem := by rw [System.trace, hreplicated]; exact h.mem
  lt := by rw [System.trace, hreplicated]; exact h.lt
  firsts := by rw [System.trace, hreplicated]; exact h.firsts
  polling := by rw [hpolling]; exact h.polling
  unmarked := by
    rw [hpolling]
    exact fun q hq hlast x hx => h.unmarked q hq hlast x (hmarks x hx)

/-- A query starts in the interval or right above it, after the interval has started anew if the
query finds nothing. -/
private theorem exists_query (h : Ascending c s i low high) (hw : WellFormed c s) (hi : i ∈ c.ids)
    (hheld : QueryHeld c s (i, .query)) {lastEvent : Option Served}
    (hp : s.polling i = some ⟨lastEvent, none⟩) :
    ∃ low' high', Ascending c s i low' high' ∧ low' ≤ s.erased c i ∧
      s.erased c i + s.first c i lastEvent ≤ high' := by
  cases lastEvent with
  | none =>
    -- the instance has not marked anything, so the query starts with the first event of the log
    refine ⟨low, high, h, h.low_le, ?_⟩
    rw [hw.start_none hi, cursor_eq_zero_of_unmarked (h.unmarked _ hp rfl)]
    exact Nat.zero_le _
  | some x =>
    have hx := (hw.polling _ _ hp).lastEvent x rfl
    have hwithin := h.polling _ hp
    obtain hheld | hmiss := hheld x (by simp [System.lookedFor, hp])
    · refine ⟨low, high, h, h.low_le, ?_⟩
      exact (hw.start_le_of_holds (hx.mono (localLog_prefix_log s i)) hheld).trans
        (hwithin.lastEvent x rfl)
    · -- the query starts with the list, below which nothing can be replicated any more
      refine ⟨s.erased c i, max high (s.erased c i), ?_, le_rfl, ?_⟩
      · have hlow := h.low_le
        refine ⟨le_rfl, fun p hlo hhi => h.mem p (hlow.trans hlo) (by omega),
          fun p hmem => lt_max_of_lt_left (h.lt p hmem), h.firsts, fun q hq => ?_, h.unmarked⟩
        -- there is no batch that could stand before the new interval
        obtain rfl := Option.some.inj (hp.symm.trans hq)
        exact ⟨(hwithin.mono (le_max_left _ _)).lastEvent, fun b hb => by cases hb⟩
      · rw [System.first_eq_zero_of_miss hmiss]
        exact le_max_right _ _

/-- Replicating an event inside the interval leaves the trace ascending, with the interval extended
behind it. -/
private theorem replicateEvent (h : Ascending c s i low high) {x : Served}
    (hlow : low ≤ x.position) (hhigh : x.position ≤ high) :
    Ascending c (s.replicateEvent i x) i low (max high (x.position + 1)) := by
  refine ⟨h.low_le, fun p hlo hhi => ?_, fun p hmem => ?_, ?_,
    fun q hq => (h.polling q hq).mono (le_max_left _ _), h.unmarked⟩
  · rw [System.trace_replicateEvent_self, List.mem_append, List.mem_singleton]
    rcases Nat.lt_or_ge p high with hlt | hge
    · exact .inl (h.mem p hlo hlt)
    · exact .inr (by omega)
  · rw [System.trace_replicateEvent_self, List.mem_append, List.mem_singleton] at hmem
    obtain hmem | rfl := hmem
    · exact lt_max_of_lt_left (h.lt p hmem)
    · omega
  · -- below `high` the event is a repetition, at `high` it is new and the largest
    rw [System.trace_replicateEvent_self]
    rcases hhigh.lt_or_eq with hlt | heq
    · exact h.firsts.append_of_mem (h.mem _ hlow hlt)
    · exact h.firsts.append_of_lt fun p hmem => heq ▸ h.lt p hmem

/-- New local variables that keep to the interval leave the trace ascending. -/
private theorem setPolling (h : Ascending c s i low high) {q : Polling} (hq : q.Within low high)
    (hunmarked : q.lastEvent = none → ∀ x, .markProduced x ∉ s.net.sentBy i) :
    Ascending c (s.setPolling i (some q)) i low high where
  low_le := h.low_le
  mem := h.mem
  lt := h.lt
  firsts := h.firsts
  polling q' hq' := by
    rw [System.polling_setPolling_self] at hq'
    exact Option.some.inj hq' ▸ hq
  unmarked q' hq' := by
    rw [System.polling_setPolling_self] at hq'
    exact Option.some.inj hq' ▸ hunmarked

/-- **One step** of the instance itself leaves its trace ascending. -/
private theorem effect_self (h : Ascending c s i low high) (hw : WellFormed c s)
    (hw' : WellFormed c s') (hi : i ∈ c.ids) (hheld : QueryHeld c s (i, a))
    (he : Effect c s i a s') : ∃ low' high', Ascending c s' i low' high' := by
  have herased := hw.erased_mono hw' he i
  cases he with
  | ignored => exact ⟨low, high, h⟩
  | idle => exact ⟨low, high, h⟩
  | failed => exact ⟨low, high, h⟩
  | added =>
    refine ⟨low, high, h.frame herased rfl rfl fun x hx => ?_⟩
    simpa using hx
  | sequenced hnet =>
    refine ⟨low, high, h.frame herased rfl rfl fun x hx => ?_⟩
    rwa [← Broadcast.sentBy_sequence hnet i]
  | delivered _ hnet =>
    refine ⟨low, high, h.frame herased rfl rfl fun x hx => ?_⟩
    rwa [← Broadcast.sentBy_deliver hnet i]
  | served hp hq hback =>
    obtain ⟨low', high', h, hlow, hhigh⟩ := h.exists_query hw hi hheld hp
    exact ⟨low', high', h.setPolling
      ((h.polling _ hp).served (hlow.trans (Nat.le_add_right _ _)) hhigh)
      fun hnone => h.unmarked _ hp hnone⟩
  | @replicated lastEvent event back rest next hp =>
    have hwithin := h.polling _ hp
    obtain ⟨hlow, hhigh⟩ := hwithin.batch _ rfl
    have h' := h.replicateEvent (x := ⟨event, next⟩) hlow hhigh
    exact ⟨_, _, h'.setPolling hwithin.replicated fun hnone => h'.unmarked _ hp hnone⟩
  | marked hp =>
    have h' := h.setPolling ((h.polling _ hp).marked (hw.next_pos hp)) fun hnone => by cases hnone
    refine ⟨low, high, h'.low_le, h'.mem, h'.lt, h'.firsts, h'.polling, fun q hq hnone => ?_⟩
    rw [System.polling_orderedSend, System.polling_setPolling_self] at hq
    obtain rfl := Option.some.inj hq
    cases hnone
  | crashed => exact hheld.elim
  | rejoined => exact hheld.elim

/-- **One step** of any instance leaves the trace of instance `j` ascending. -/
theorem effect (h : Ascending c s j low high) (hw : WellFormed c s) (hw' : WellFormed c s')
    (hi : i ∈ c.ids) (hheld : QueryHeld c s (i, a)) (he : Effect c s i a s') :
    ∃ low' high', Ascending c s' j low' high' := by
  rcases eq_or_ne j i with rfl | hj
  · exact h.effect_self hw hw' hi hheld he
  · refine ⟨low, high, h.frame (hw.erased_mono hw' he j) (he.replicated_of_ne hj)
      (he.polling_of_ne hj) fun x hx => ?_⟩
    obtain hx | ⟨event, heq, -⟩ | ⟨-, heq, -⟩ := he.mem_sentBy hx
    · exact hx
    · cases heq
    · exact absurd heq hj

end Ascending

/-! ### Runs -/

/-- **Agreement on the order.** In every run whose queries resume at `last_event`, or find nothing
they could confuse with it, any two instances agree on the order in which they replicate two
events for the first time. -/
theorem orderAgreement_of_queryHeld {c : Config} {s : System} {actions : List (UInt32 × Action)}
    (h : Machine.Run (step c) (QueryHeld c) .init actions s) : OrderAgreement c s := by
  obtain ⟨-, hascending⟩ : WellFormed c s ∧ ∀ j, ∃ low high, Ascending c s j low high := by
    refine h.invariant (fun s => WellFormed c s ∧ ∀ j, ∃ low high, Ascending c s j low high)
      ⟨.init c, fun j => ⟨0, 0, .init c j⟩⟩ ?_
    rintro s a s' ⟨hw, hall⟩ hheld hstep
    obtain ⟨hi, he⟩ := Effect.of_step hstep
    have hw' := hw.effect hi he
    refine ⟨hw', fun j => ?_⟩
    obtain ⟨low, high, hj⟩ := hall j
    exact hj.effect hw hw' hi hheld he
  intro i _ j _ p q hpi hqi hpj hqj
  obtain ⟨_, _, hi⟩ := hascending i
  obtain ⟨_, _, hj⟩ := hascending j
  exact hi.firsts.agree hj.firsts hpi hqi hpj hqj

/-- One instance replicates two events in one batch, the other in two. -/
theorem orderAgreement_of_queryHeld_oneTopic :
    ∃ s, (s.trace 0 = [0, 1] ∧ s.trace 1 = [0, 1]) ∧ OrderAgreement oneTopic s := by
  obtain ⟨s, hrun, hcheck⟩ := Machine.Run.exists_of_exec (step oneTopic) (QueryHeld oneTopic)
    .init (adds 0 (record kafkaTopic 0 0 [1]) ++ adds 1 (record kafkaTopic 0 1 [2]) ++
      acts 0 [.deliver, .deliver, .query, .replicate, .replicate] ++
      acts 1 [.deliver, .query, .replicate, .mark, .deliver, .query, .replicate])
    (fun s => s.trace 0 = [0, 1] ∧ s.trace 1 = [0, 1]) (by decide +kernel)
  exact ⟨s, of_decide_eq_true hcheck, orderAgreement_of_queryHeld hrun⟩

/-- Four events stand in both lists; the fourth carries the triple of the first, and the third the
one of an erased event. Instance 0 finds all four, resumes behind the third and replicates the
fourth; then it resumes behind the first. Instance 1 receives one event at a time. -/
def resumesFurtherAhead : List (UInt32 × Action) :=
  adds 0 (record kafkaTopic 0 0 [1]) ++ both .deliver ++ replicateOne ++
    adds 0 (record kafkaTopic 1 0 [2]) ++ adds 0 (record kafkaTopic 0 1 [3]) ++
    adds 1 (record kafkaTopic 0 0 [4]) ++ adds 1 (record kafkaTopic 1 0 [5]) ++
    acts 0 [.deliver, .deliver, .deliver, .deliver, .query, .replicate, .mark, .query, .replicate,
      .replicate, .replicate] ++
    acts 1 [.deliver, .query, .replicate, .mark, .deliver, .query, .replicate, .mark, .deliver,
      .deliver, .query, .replicate, .replicate]

/-- Without the condition, instances with a shared topic disagree: instance 0 replicates the event
at position 4 before the one at position 2, instance 1 after it. -/
theorem not_orderAgreement_of_sharedTopic :
    ¬ ∀ (c : Config) (actions : List (UInt32 × Action)) (s : System), SharedTopic c actions →
      Machine.Run (step c) (fun _ a => a.2.Steady) .init actions s → OrderAgreement c s := by
  intro h
  obtain ⟨s, hrun, hcheck⟩ := Machine.Run.exists_of_exec (step oneTopic) (fun _ a => a.2.Steady)
    .init resumesFurtherAhead
    (fun s => s.trace 0 = [0, 4, 2, 3, 4] ∧ s.trace 1 = [0, 1, 2, 3, 4]) (by decide +kernel)
  obtain ⟨htrace₀, htrace₁⟩ := of_decide_eq_true hcheck
  have hsetup : SharedTopic oneTopic resumesFurtherAhead :=
    ⟨fun _ _ _ _ => rfl, forall_mem_twoInstances (by decide +kernel) (by decide +kernel)⟩
  have hagree := h oneTopic resumesFurtherAhead s hsetup hrun 0 (by decide) 1 (by decide) 4 2
  rw [htrace₀, htrace₁] at hagree
  have hcontra := hagree (by decide) (by decide) (by decide) (by decide)
  exact absurd hcontra (by decide)

end Kdsync
