import Kdsync.System.Coverage
import Kdsync.Library.Machine

/-!
# At least once

"As messages are marked after they are sent by each instance, it is guaranteed that every message
will be sent at least once." The runs in which this is so:

* `atLeastOnce_of_targetsHeld`: runs whose searches find their targets, or nothing they could
  confuse with them. Without the condition an event is lost in the set-up of the README, where the
  clusters share a topic (`not_atLeastOnce_of_sharedTopic`).
* `atLeastOnce_of_passes_copies`: runs whose searches pass over copies of earlier events only, as
  the redelivery of a record makes them. Without the condition a redelivery makes the instances
  skip an event of another cluster (`not_atLeastOnce_of_ownTopics`).
-/

namespace Kdsync

/-! ### Runs -/

/-- Every event erased from a replica has been replicated by all instances. -/
def AtLeastOnce (rel : Served → Served → Prop) (c : Config) (s : System) : Prop :=
  ∀ r ∈ c.ids, ∀ p < s.erased c r, ∀ i ∈ c.ids, Covers rel s i p

section Runs

variable {rel : Served → Served → Prop} {c : Config} {s : System}
  {ok : System → UInt32 × Action → Prop} {actions : List (UInt32 × Action)}

/-- A run in which no search passes over an event that is not replicated keeps the fronts. -/
theorem exists_covered_of_run (hrel : StandsFor rel)
    (hok : ∀ s a, WellFormed c s → ok s a → Passes rel c s a)
    (h : Machine.Run (step c) ok .init actions s) :
    WellFormed c s ∧ ∃ front, Covered rel c s front := by
  refine h.invariant (fun s => WellFormed c s ∧ ∃ front, Covered rel c s front)
    ⟨.init c, _, .init rel c⟩ ?_
  rintro s a s' ⟨hw, front, hcovered⟩ ha hstep
  obtain ⟨hi, he⟩ := Effect.of_step hstep
  exact ⟨hw.effect hi he, hcovered.effect hrel hw hi (hok s a hw ha) he⟩

/-- In a run whose queries and marks pass over nothing that is not replicated, every erased event
was replicated by every instance: it lies below all fronts. -/
theorem atLeastOnce_of_run (hrel : StandsFor rel)
    (hok : ∀ s a, WellFormed c s → ok s a → Passes rel c s a)
    (h : Machine.Run (step c) ok .init actions s) : AtLeastOnce rel c s := by
  obtain ⟨hw, front, hcovered⟩ := exists_covered_of_run hrel hok h
  intro r _ p hp i hi
  refine hcovered.covers i p (hp.trans_le ?_)
  rw [hw.erased_eq]
  exact (CursorLog.low_le_cursor hi).trans (hcovered.cursors r i)

end Runs

/-! ### The very event -/

/-- The same event of the log. -/
def SameEvent (x y : Served) : Prop := x.position = y.position ∧ x.event.operatorEq y.event = true

instance : DecidableRel SameEvent := fun _ _ => inferInstanceAs (Decidable (_ ∧ _))

theorem standsFor_sameEvent : StandsFor SameEvent where
  located hposition hcontent := ⟨hposition, ReplicatedEvent.operatorEq_iff.mpr hcontent⟩
  trans h h' := by
    simp only [SameEvent, ReplicatedEvent.operatorEq_iff] at *
    exact ⟨h.1.trans h'.1, h.2.trans h'.2⟩

/-- When a query looks for `last_event`, the own replica holds that event or no event of its
triple. When a replica applies a mark, it holds the event of the mark or no event at all. Nobody
crashes. -/
def TargetsHeld (c : Config) (s : System) (a : UInt32 × Action) : Prop :=
  QueryHeld c s a ∧ (a.2 = .deliver →
    ∀ x ∈ s.nextMark a.1, s.Holds c a.1 x ∨ (s.list c a.1).events = [])

instance (c : Config) (s : System) (a : UInt32 × Action) : Decidable (TargetsHeld c s a) :=
  inferInstanceAs (Decidable (_ ∧ _))

section SameEvent

variable {c : Config} {s : System} {r : UInt32} {x : Served}

/-- Passing over earlier events of the log is harmless. -/
theorem onlyPasses_of_le {rel : Served → Served → Prop} (hrel : StandsFor rel) {lo hi : ℕ}
    (h : hi ≤ max lo (x.position + 1)) : OnlyPasses rel s x lo hi :=
  fun p hp hlo e he => ⟨p, by omega, e, he, hrel.located rfl rfl⟩

/-- With its targets held, an instance passes over events it has replicated itself. -/
theorem TargetsHeld.passes {a : UInt32 × Action} (hw : WellFormed c s) (h : TargetsHeld c s a) :
    Passes SameEvent c s a := by
  obtain ⟨i, a⟩ := a
  cases a with
  | query =>
    intro x hlooked
    obtain ⟨p, hp, hlast⟩ := System.exists_of_lookedFor hlooked
    refine onlyPasses_of_le standsFor_sameEvent ?_
    obtain hheld | hmiss := h.1 x hlooked
    · -- what stands up to `last_event` was added no later
      have hx := ((hw.polling _ _ hp).lastEvent x hlast).mono (localLog_prefix_log s i)
      exact (hw.start_le_of_holds hx hheld).trans (le_max_right _ _)
    · rw [System.first_eq_zero_of_miss hmiss]
      exact le_max_left _ _
  | deliver =>
    intro x hmark
    obtain ⟨j, hm⟩ := System.exists_of_nextMark hmark
    refine onlyPasses_of_le standsFor_sameEvent ?_
    have hx := hw.marks j x (Broadcast.mem_sentBy_of_mem_order (List.mem_of_getElem? hm))
    rw [EventList.reach]
    obtain hheld | hempty := h.2 rfl x hmark
    · have htarget := hw.target_le hx hheld
      omega
    · rw [hempty]
      exact le_max_left _ _
  | crash => exact h.1
  | rejoin => exact h.1
  | _ => trivial

/-- **At least once.** In every run whose searches find their targets, or nothing they could
confuse with them, every event erased from a replica has been replicated by all instances. -/
theorem atLeastOnce_of_targetsHeld {actions : List (UInt32 × Action)}
    (h : Machine.Run (step c) (TargetsHeld c) .init actions s) : AtLeastOnce SameEvent c s :=
  atLeastOnce_of_run standsFor_sameEvent (fun _ _ hw ha => ha.passes hw) h

end SameEvent

/-- Two clusters with one topic, and an event of each. -/
theorem atLeastOnce_of_targetsHeld_oneTopic :
    ∃ s, s.erased oneTopic 0 = 2 ∧ AtLeastOnce SameEvent oneTopic s := by
  obtain ⟨s, hrun, hcheck⟩ := Machine.Run.exists_of_exec (step oneTopic) (TargetsHeld oneTopic)
    .init (adds 0 (record kafkaTopic 0 0 [1]) ++ both .deliver ++ replicateOne ++
      adds 1 (record kafkaTopic 0 1 [2]) ++ both .deliver ++ replicateOne)
    (fun s => s.erased oneTopic 0 = 2) (by decide +kernel)
  exact ⟨s, of_decide_eq_true hcheck, atLeastOnce_of_targetsHeld hrun⟩

/-- Both instances have replicated and erased the event at offset 0 of the first cluster. Then the
event at offset 0 of the second cluster comes between two events of the first one: both queries
resume behind it. -/
def resumesAtWrongEvent : List (UInt32 × Action) :=
  adds 0 (record kafkaTopic 0 0 [1]) ++ both .deliver ++ replicateOne ++
    adds 0 (record kafkaTopic 0 1 [2]) ++ adds 1 (record kafkaTopic 0 0 [3]) ++
    adds 0 (record kafkaTopic 0 2 [4]) ++ both .deliver ++ both .deliver ++ both .deliver ++
    replicateOne

/-- Without the condition an event is lost in the set-up of the README: the one at position 1 is
erased and neither instance has replicated it. -/
theorem not_atLeastOnce_of_sharedTopic :
    ¬ ∀ (c : Config) (actions : List (UInt32 × Action)) (s : System), SharedTopic c actions →
      Machine.Run (step c) (fun _ a => a.2.Steady) .init actions s → AtLeastOnce SameEvent c s := by
  intro h
  obtain ⟨s, hrun, hcheck⟩ := Machine.Run.exists_of_exec (step oneTopic) (fun _ a => a.2.Steady)
    .init resumesAtWrongEvent
    (fun s => 1 < s.erased oneTopic 0 ∧ ∀ x ∈ s.replicated 0, x.position ≠ 1) (by decide +kernel)
  obtain ⟨herased, hlost⟩ := of_decide_eq_true hcheck
  have hsetup : SharedTopic oneTopic resumesAtWrongEvent :=
    ⟨fun _ _ _ _ => rfl, forall_mem_twoInstances (by decide +kernel) (by decide +kernel)⟩
  obtain ⟨e, -, x, hx, hposition, -⟩ := h oneTopic resumesAtWrongEvent s hsetup hrun 0 (by decide) 1
    herased 0 (by decide)
  exact hlost x hx hposition

/-! ### An event with the same contents -/

/-- Equal up to the sets of replicas, as a redelivered record is. -/
def SameContents (x y : Served) : Prop := x.event.operatorEq y.event = true

instance : DecidableRel SameContents := fun _ _ => inferInstanceAs (Decidable (_ = true))

theorem standsFor_sameContents : StandsFor SameContents where
  located _ hcontent := ReplicatedEvent.operatorEq_iff.mpr hcontent
  trans h h' := by
    simp only [SameContents, ReplicatedEvent.operatorEq_iff] at *
    exact h.trans h'

/-- **Redelivery.** In every run whose searches pass over copies of events only, namely of events
added no later than the one that is looked for, every event erased from a replica has been
replicated by all instances, itself or in a copy. -/
theorem atLeastOnce_of_passes_copies {c : Config} {s : System} {actions : List (UInt32 × Action)}
    (h : Machine.Run (step c) (Passes SameContents c) .init actions s) :
    AtLeastOnce SameContents c s :=
  atLeastOnce_of_run standsFor_sameContents (fun _ _ _ ha => ha) h

/-- A record is redelivered after its event was erased. -/
theorem atLeastOnce_of_passes_copies_twoTopics :
    ∃ s, s.erased twoTopics 0 = 3 ∧ AtLeastOnce SameContents twoTopics s := by
  obtain ⟨s, hrun, hcheck⟩ := Machine.Run.exists_of_exec (step twoTopics)
    (Passes SameContents twoTopics) .init
    (adds 0 (record [97] 0 0 [1]) ++ both .deliver ++ replicateOne ++
      adds 0 (record [97] 0 0 [1]) ++ adds 1 (record [98] 0 0 [2]) ++ both .deliver ++
      both .deliver ++ replicateOne)
    (fun s => s.erased twoTopics 0 = 3) (by decide +kernel)
  exact ⟨s, of_decide_eq_true hcheck, atLeastOnce_of_passes_copies hrun⟩

/-- A record is redelivered after its event was erased, behind an event of the other cluster: both
queries resume behind the copy. -/
def resumesAtCopy : List (UInt32 × Action) :=
  adds 0 (record [97] 0 0 [1]) ++ both .deliver ++ replicateOne ++
    adds 1 (record [98] 0 0 [2]) ++ adds 0 (record [97] 0 0 [1]) ++
    adds 0 (record [97] 0 1 [3]) ++ both .deliver ++ both .deliver ++ both .deliver ++
    replicateOne

/-- Without the condition a redelivery loses the event of the other cluster. -/
theorem not_atLeastOnce_of_ownTopics :
    ¬ ∀ (c : Config) (actions : List (UInt32 × Action)) (s : System), OwnTopics c actions →
      Machine.Run (step c) (fun _ a => a.2.Steady) .init actions s →
      AtLeastOnce SameContents c s := by
  intro h
  obtain ⟨s, hrun, hcheck⟩ := Machine.Run.exists_of_exec (step twoTopics) (fun _ a => a.2.Steady)
    .init resumesAtCopy
    (fun s => 1 < s.erased twoTopics 0 ∧ ∀ e ∈ s.log[1]?, ∀ x ∈ s.replicated 0,
      x.event.operatorEq e = false) (by decide +kernel)
  obtain ⟨herased, hlost⟩ := of_decide_eq_true hcheck
  have hsetup : OwnTopics twoTopics resumesAtCopy :=
    ⟨forall_mem_twoInstances (forall_mem_twoInstances (by decide) (by decide))
      (forall_mem_twoInstances (by decide) (by decide)),
      forall_mem_twoInstances (by decide +kernel) (by decide +kernel)⟩
  obtain ⟨e, he, x, hx, hsame⟩ := h twoTopics resumesAtCopy s hsetup hrun 0 (by decide) 1 herased 0
    (by decide)
  exact Bool.eq_false_iff.mp (hlost e he x hx) hsame

end Kdsync
