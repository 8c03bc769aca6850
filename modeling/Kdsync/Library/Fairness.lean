import Kdsync.Library.Machine
import Mathlib.Data.Finset.Basic
import Mathlib.Order.WellFounded

/-!
# Fair executions

An infinite execution of a machine is *fair* to an action if the action is taken again and again
unless it is disabled again and again: an action that stays enabled is taken at last.

`Execution.eventually` is the rule for what a fair execution must reach. Until it is reached, some
action is helpful in each state: it is enabled, the execution is fair to it, and it brings down a
rank. The other steps leave the rank and the helpful action as they are.

`Execution.exists_lift` follows an execution in a second machine, which keeps it fair
(`Fair.lift`). `Execution.rest` is the execution that goes on with steps that change nothing.
-/

namespace Machine

variable {σ α : Type*} {step : σ → α → Option σ}

/-- An infinite execution. -/
structure Execution (step : σ → α → Option σ) where
  state : ℕ → σ
  action : ℕ → α
  next : ∀ n, step (state n) (action n) = some (state (n + 1))

namespace Execution

/-- An action that stays enabled is taken at last. -/
def Fair (x : Execution step) (a : α) : Prop :=
  ∀ n, ∃ m ≥ n, x.action m = a ∨ step (x.state m) a = none

/-- The states of an execution are reached by runs. -/
theorem run_of {ok : σ → α → Prop} (x : Execution step) (hok : ∀ n, ok (x.state n) (x.action n))
    (n : ℕ) : Run step ok (x.state 0) ((List.range n).map x.action) (x.state n) := by
  induction n with
  | zero => exact .nil
  | succ n ih =>
    rw [List.range_succ, List.map_append]
    exact ih.snoc (hok n) (x.next n)

theorem run (x : Execution step) (n : ℕ) :
    Run step (fun _ _ => True) (x.state 0) ((List.range n).map x.action) (x.state n) :=
  x.run_of (fun _ => trivial) n

/-- The states that a choice of successors leads through from `t`. -/
def statesFrom {τ : Type*} (t : τ) (follow : ℕ → τ → τ) : ℕ → τ
  | 0 => t
  | n + 1 => follow n (statesFrom t follow n)

/-- **Step by step.** If every step can be followed by a step of a second machine, along a relation,
then so can an execution. -/
theorem exists_lift {τ β : Type*} (x : Execution step) (step' : τ → β → Option τ)
    (rel : σ → τ → Prop) (label : α → β) {t : τ} (hinit : rel (x.state 0) t)
    (hstep : ∀ s a s' t, rel s t → step s a = some s' →
      ∃ t', step' t (label a) = some t' ∧ rel s' t') :
    ∃ y : Execution step', y.state 0 = t ∧ (∀ n, y.action n = label (x.action n)) ∧
      ∀ n, rel (x.state n) (y.state n) := by
  have hnonempty : Nonempty τ := ⟨t⟩
  choose! follow hfollow using fun n t (h : rel (x.state n) t) => hstep _ _ _ t h (x.next n)
  have hrel : ∀ n, rel (x.state n) (statesFrom t follow n) := by
    intro n
    induction n with
    | zero => exact hinit
    | succ n ih => exact (hfollow n _ ih).2
  exact ⟨⟨statesFrom t follow, fun n => label (x.action n), fun n => (hfollow n _ (hrel n)).1⟩, rfl,
    fun _ => rfl, hrel⟩

/-- If a second execution takes the same actions and is disabled wherever the first is, it is fair
to an action that the first is fair to. -/
theorem Fair.lift {τ β : Type*} {step' : τ → β → Option τ} {x : Execution step}
    {y : Execution step'} {a : α} (h : x.Fair a) (rel : σ → τ → Prop) (label : α → β)
    (haction : ∀ n, y.action n = label (x.action n)) (hrel : ∀ n, rel (x.state n) (y.state n))
    (hdisabled : ∀ s t, rel s t → step s a = none → step' t (label a) = none) :
    y.Fair (label a) := by
  intro n
  obtain ⟨m, hm, htaken | hnone⟩ := h n
  · exact ⟨m, hm, .inl (by rw [haction, htaken])⟩
  · exact ⟨m, hm, .inr (hdisabled _ _ (hrel m) hnone)⟩

/-- What every step from `n₀` on keeps holds at all times after one at which it holds. -/
theorem stable (x : Execution step) {P : σ → Prop} {n₀ : ℕ}
    (hstep : ∀ n ≥ n₀, P (x.state n) → P (x.state (n + 1))) {n m : ℕ} (hn : n₀ ≤ n) (hle : n ≤ m)
    (h : P (x.state n)) : P (x.state m) := by
  induction hle with
  | refl => exact h
  | step hle ih => exact hstep _ (hn.trans hle) ih

/-- **The rule of progress.** A fair execution reaches its goal if, until then, the helpful action
is enabled and brings down a rank or reaches the goal, and any other step that does not reach it
leaves the rank and the helpful action as they are. -/
theorem eventually {ω : Type*} [Preorder ω] [WellFoundedLT ω] (x : Execution step)
    (goal : σ → Prop) (rank : σ → ω) (helpful : σ → α) {n₀ : ℕ}
    (hfair : ∀ n ≥ n₀, ¬ goal (x.state n) → x.Fair (helpful (x.state n)))
    (hhelpful : ∀ n ≥ n₀, ¬ goal (x.state n) →
      ∃ s', step (x.state n) (helpful (x.state n)) = some s' ∧
        (goal s' ∨ rank s' < rank (x.state n)))
    (hother : ∀ n ≥ n₀, ¬ goal (x.state n) → x.action n ≠ helpful (x.state n) →
      goal (x.state (n + 1)) ∨ rank (x.state (n + 1)) = rank (x.state n) ∧
        helpful (x.state (n + 1)) = helpful (x.state n)) :
    ∃ m ≥ n₀, goal (x.state m) := by
  by_contra hnever
  have hgoal : ∀ n ≥ n₀, ¬ goal (x.state n) := fun n hn h => hnever ⟨n, hn, h⟩
  -- a helpful action brings down the rank
  have htaken : ∀ n ≥ n₀, x.action n = helpful (x.state n) →
      rank (x.state (n + 1)) < rank (x.state n) := by
    intro n hn heq
    obtain ⟨s', hs', hdown⟩ := hhelpful n hn (hgoal n hn)
    rw [← heq, x.next n] at hs'
    obtain rfl := Option.some.inj hs'
    exact hdown.resolve_left (hgoal _ (hn.trans n.le_succ))
  -- and there is one after any time
  have hdescent : ∀ n ≥ n₀, ∃ m ≥ n, rank (x.state m) < rank (x.state n) := by
    intro n hn
    by_contra hstays
    have hsame : ∀ m ≥ n, rank (x.state m) = rank (x.state n) ∧
        helpful (x.state m) = helpful (x.state n) := by
      intro m hm
      induction m, hm using Nat.le_induction with
      | base => exact ⟨rfl, rfl⟩
      | succ m hm ih =>
        have hm₀ := hn.trans hm
        by_cases heq : x.action m = helpful (x.state m)
        · exact absurd ⟨m + 1, hm.trans m.le_succ, (htaken m hm₀ heq).trans_eq ih.1⟩ hstays
        · obtain ⟨hrank, hhelpful⟩ := (hother m hm₀ (hgoal m hm₀) heq).resolve_left
            (hgoal _ (hm₀.trans m.le_succ))
          exact ⟨hrank.trans ih.1, hhelpful.trans ih.2⟩
    obtain ⟨m, hm, heq | hdisabled⟩ := hfair n hn (hgoal n hn) n
    · have hlt := htaken m (hn.trans hm) (heq.trans (hsame m hm).2.symm)
      exact hstays ⟨m + 1, hm.trans m.le_succ, hlt.trans_eq (hsame m hm).1⟩
    · obtain ⟨s', hs', -⟩ := hhelpful m (hn.trans hm) (hgoal m (hn.trans hm))
      rw [(hsame m hm).2, hdisabled] at hs'
      cases hs'
  obtain ⟨-, ⟨n, hn, rfl⟩, hmin⟩ := (wellFounded_lt (α := ω)).has_min
    {r | ∃ n ≥ n₀, rank (x.state n) = r} ⟨_, n₀, le_rfl, rfl⟩
  obtain ⟨m, hm, hlt⟩ := hdescent n hn
  exact hmin _ ⟨m, hn.trans hm, rfl⟩ hlt

/-- Goals of a finite family that are each reached, and kept from then on, hold all together at some
time. -/
theorem eventually_forall {ι : Type*} (x : Execution step) (s : Finset ι) (goal : ι → σ → Prop)
    {n₀ : ℕ} (hkeep : ∀ i ∈ s, ∀ n ≥ n₀, goal i (x.state n) → goal i (x.state (n + 1)))
    (hreach : ∀ i ∈ s, ∃ m ≥ n₀, goal i (x.state m)) :
    ∃ m ≥ n₀, ∀ i ∈ s, goal i (x.state m) := by
  classical
  induction s using Finset.induction_on with
  | empty => exact ⟨n₀, le_rfl, fun i hi => absurd hi (Finset.notMem_empty i)⟩
  | insert a s _ ih =>
    obtain ⟨m, hm, hall⟩ := ih (fun i hi => hkeep i (Finset.mem_insert_of_mem hi))
      fun i hi => hreach i (Finset.mem_insert_of_mem hi)
    obtain ⟨m', hm', ha⟩ := hreach a (Finset.mem_insert_self a s)
    refine ⟨max m m', hm.trans (le_max_left _ _), fun i hi => ?_⟩
    obtain rfl | hi' := Finset.mem_insert.mp hi
    · exact x.stable (hkeep i hi) hm' (le_max_right _ _) ha
    · exact x.stable (hkeep i hi) hm (le_max_left _ _) (hall i hi')

/-! ### Executions that come to rest -/

/-- Some actions, and then steps that change nothing. -/
def rest {init s : σ} (actions : List α) (h : exec step init actions = some s) (idle : ℕ → α)
    (hidle : ∀ n, step s (idle n) = some s) : Execution step where
  state n := (exec step init (actions.take n)).getD init
  action n := actions[n]?.getD (idle n)
  next n := by
    rcases Nat.lt_or_ge n actions.length with hlt | hge
    · -- an execution of all actions starts with one of the first actions
      have hsplit := h
      rw [← List.take_append_drop (n + 1) actions, exec, List.foldlM_append] at hsplit
      obtain ⟨s₁, hs₁, -⟩ := Option.bind_eq_some_iff.mp hsplit
      have htake : actions.take (n + 1) = actions.take n ++ [actions[n]] :=
        List.take_succ_eq_append_getElem hlt
      rw [htake, List.foldlM_append] at hs₁
      obtain ⟨s₀, hs₀, hstep⟩ := Option.bind_eq_some_iff.mp hs₁
      have hstep : step s₀ actions[n] = some s₁ := by simpa using hstep
      have hbefore : exec step init (actions.take n) = some s₀ := hs₀
      rw [htake, exec_concat hbefore, hbefore, List.getElem?_eq_getElem hlt, Option.getD_some,
        Option.getD_some, hstep, Option.getD_some]
    · rw [List.take_of_length_le hge, List.take_of_length_le (hge.trans n.le_succ), h,
        List.getElem?_eq_none hge]
      exact hidle n

section Rest

variable {init s : σ} {actions : List α} {h : exec step init actions = some s} {idle : ℕ → α}
  {hidle : ∀ n, step s (idle n) = some s}

@[simp] theorem state_rest_zero : (rest actions h idle hidle).state 0 = init := by
  simp [rest, exec]

theorem state_rest {n : ℕ} (hn : actions.length ≤ n) :
    (rest actions h idle hidle).state n = s := by
  simp [rest, List.take_of_length_le hn, h]

theorem action_rest_of_lt {n : ℕ} (hn : n < actions.length) :
    (rest actions h idle hidle).action n = actions[n] := by
  simp [rest, List.getElem?_eq_getElem hn]

theorem action_rest {n : ℕ} (hn : actions.length ≤ n) :
    (rest actions h idle hidle).action n = idle n := by
  simp [rest, List.getElem?_eq_none hn]

/-- What holds of all the actions. -/
theorem forall_action_rest {P : α → Prop} (hactions : ∀ a ∈ actions, P a)
    (hidles : ∀ n, P (idle n)) (n : ℕ) : P ((rest actions h idle hidle).action n) := by
  rcases Nat.lt_or_ge n actions.length with hlt | hge
  · rw [action_rest_of_lt hlt]
    exact hactions _ (List.getElem_mem hlt)
  · rw [action_rest hge]
    exact hidles n

/-- An execution that comes to rest is fair to an action that is disabled where it rests. -/
theorem fair_rest_of_disabled {a : α} (ha : step s a = none) :
    (rest actions h idle hidle).Fair a := fun n =>
  ⟨max n actions.length, le_max_left _ _, .inr (by rwa [state_rest (le_max_right _ _)])⟩

/-- An execution that comes to rest is fair to an action that is one of its idle steps again and
again. -/
theorem fair_rest_of_idle {a : α} (ha : ∀ n, ∃ m ≥ n, idle m = a) :
    (rest actions h idle hidle).Fair a := by
  intro n
  obtain ⟨m, hm, hidle⟩ := ha (max n actions.length)
  refine ⟨m, (le_max_left _ _).trans hm, .inl ?_⟩
  rw [action_rest ((le_max_right _ _).trans hm), hidle]

end Rest

end Execution

end Machine
