import Mathlib.Data.List.Basic
import Mathlib.Data.List.Forall2
import Mathlib.Data.List.Induction

/-!
# Runs of a machine with labelled partial steps

A machine is a step function `σ → α → Option σ`. `Machine.Run step ok init actions s` says that
`actions` leads from `init` to `s` and that every step meets the condition `ok`, which may look at
the state before the step. `Run.invariant` is the induction over a run, `Run.of_exec` produces a
run by evaluation. `Run.lift` follows a run step by step in a second machine, and `Run.simulation`
by any number of moves.
-/

namespace Machine

variable {σ α : Type*}

/-- The actions lead from `init` to the given state, each step meeting `ok`. -/
inductive Run (step : σ → α → Option σ) (ok : σ → α → Prop) (init : σ) : List α → σ → Prop
  | nil : Run step ok init [] init
  | snoc {actions : List α} {s s' : σ} {a : α} :
      Run step ok init actions s → ok s a → step s a = some s' →
        Run step ok init (actions ++ [a]) s'

/-- Executes a list of actions. -/
def exec (step : σ → α → Option σ) (init : σ) (actions : List α) : Option σ :=
  actions.foldlM step init

variable {step : σ → α → Option σ} {ok : σ → α → Prop} {init s : σ} {actions : List α}

theorem exec_cons (step : σ → α → Option σ) (init : σ) (a : α) (actions : List α) :
    exec step init (a :: actions) = (step init a).bind fun s => exec step s actions :=
  List.foldlM_cons ..

/-- One more action. -/
theorem exec_concat (h : exec step init actions = some s) (a : α) :
    exec step init (actions ++ [a]) = step s a := by
  rw [exec] at h
  rw [exec, List.foldlM_append, h]
  simp

/-- **Invariants.** What holds initially and is preserved by every step that meets the condition
holds in every state a run reaches. -/
theorem Run.invariant (inv : σ → Prop) (hinit : inv init)
    (hstep : ∀ s a s', inv s → ok s a → step s a = some s' → inv s')
    (h : Run step ok init actions s) : inv s := by
  induction h with
  | nil => exact hinit
  | snoc _ hok hs ih => exact hstep _ _ _ ih hok hs

/-- In the presence of an invariant, the steps of a run meet what follows from it. -/
theorem Run.imp {ok' : σ → α → Prop} (inv : σ → Prop) (hinit : inv init)
    (hstep : ∀ s a s', inv s → ok s a → step s a = some s' → inv s')
    (hok : ∀ s a, inv s → ok s a → ok' s a) (h : Run step ok init actions s) :
    Run step ok' init actions s := by
  induction h with
  | nil => exact .nil
  | snoc hrun ha hs ih => exact ih.snoc (hok _ _ (hrun.invariant inv hinit hstep) ha) hs

/-- If the steps of a run meet a condition on the action alone, all its actions do. -/
theorem Run.forall_mem {P : α → Prop} (h : Run step (fun _ a => P a) init actions s) :
    ∀ a ∈ actions, P a := by
  induction h with
  | nil => nofun
  | snoc _ hok _ ih => exact List.forall_mem_append.mpr ⟨ih, List.forall_mem_singleton.mpr hok⟩

/-- The steps that meet a condition. -/
def guarded (step : σ → α → Option σ) (ok : σ → α → Prop) [∀ s a, Decidable (ok s a)] (s : σ)
    (a : α) : Option σ :=
  if ok s a then step s a else none

/-- An execution of the steps that meet a condition is a run. -/
theorem Run.of_exec [∀ s a, Decidable (ok s a)] (h : exec (guarded step ok) init actions = some s) :
    Run step ok init actions s := by
  induction actions using List.reverseRecOn generalizing s with
  | nil => exact Option.some.inj h ▸ .nil
  | append_singleton actions a ih =>
    rw [exec, List.foldlM_append] at h
    obtain ⟨s₀, hs₀, hlast⟩ := Option.bind_eq_some_iff.mp h
    have hstep : guarded step ok s₀ a = some s := by simpa using hlast
    rw [guarded] at hstep
    split_ifs at hstep with hok
    exact (ih hs₀).snoc hok hstep

/-- A property that evaluates to true at the end of an execution holds at the end of a run. -/
theorem Run.exists_of_exec (step : σ → α → Option σ) (ok : σ → α → Prop)
    [∀ s a, Decidable (ok s a)] (init : σ) (actions : List α) (check : σ → Bool)
    (h : (exec (guarded step ok) init actions).any check = true) :
    ∃ s, Run step ok init actions s ∧ check s = true := by
  obtain ⟨s, hs, hcheck⟩ := (Option.any_eq_true _ _).mp h
  exact ⟨s, .of_exec hs, hcheck⟩

/-! ### Runs and executions -/

/-- An execution of actions that meet a condition is a run. -/
theorem run_of_exec (hall : ∀ a ∈ actions, ∀ s, ok s a) (h : exec step init actions = some s) :
    Run step ok init actions s := by
  induction actions using List.reverseRecOn generalizing s with
  | nil => exact Option.some.inj h ▸ .nil
  | append_singleton actions a ih =>
    rw [exec, List.foldlM_append] at h
    obtain ⟨s₀, hs₀, hlast⟩ := Option.bind_eq_some_iff.mp h
    exact (ih (fun b hb => hall b (List.mem_append_left _ hb)) hs₀).snoc
      (hall a List.mem_concat_self s₀) (by simpa using hlast)

/-- Two executions, the second from where the first has ended, make up one. -/
theorem exec_append {s' : σ} {actions' : List α} (h : exec step init actions = some s)
    (h' : exec step s actions' = some s') : exec step init (actions ++ actions') = some s' := by
  rw [exec] at h
  rw [exec, List.foldlM_append, h]
  exact h'

/-- **Backward properties.** What holds at the end of a run, and held before each step after which
it holds, holds all along the run. -/
theorem Run.backward {P : σ → Prop} (hback : ∀ s a s', step s a = some s' → P s' → P s)
    (h : Run step ok init actions s) (hend : P s) :
    Run step (fun s a => ok s a ∧ P s) init actions s := by
  induction h with
  | nil => exact .nil
  | snoc _ hok hs ih =>
    have hbefore := hback _ _ _ hs hend
    exact (ih hbefore).snoc ⟨hok, hbefore⟩ hs

/-- **Step by step.** If every step of a run is followed by a step of a second machine, along a
relation, then so is the run. -/
theorem Run.lift {τ β : Type*} {step' : τ → β → Option τ} {init' : τ} (ok' : τ → β → Prop)
    (rel : σ → τ → Prop) (label : α → β) (hinit : rel init init')
    (hstep : ∀ s a s' t, rel s t → ok s a → step s a = some s' →
      ok' t (label a) ∧ ∃ t', step' t (label a) = some t' ∧ rel s' t')
    (h : Run step ok init actions s) :
    ∃ t, Run step' ok' init' (actions.map label) t ∧ rel s t := by
  induction h with
  | nil => exact ⟨init', .nil, hinit⟩
  | snoc _ hok hs ih =>
    obtain ⟨t, hrun, hrel⟩ := ih
    obtain ⟨hok', t', hs', hrel'⟩ := hstep _ _ _ _ hrel hok hs
    rw [List.map_append]
    exact ⟨t', hrun.snoc hok' hs', hrel'⟩

/-- **Any number of moves.** If every step of a run is followed by moves of a second machine, along
a relation of both that may look at what they did so far, then so is the run. -/
theorem Run.follow {τ β : Type*} {step' : τ → β → Option τ} {init' : τ}
    (rel : List α → σ → List β → τ → Prop) (hinit : rel [] init [] init')
    (hstep : ∀ actions s a s' moves t, rel actions s moves t → ok s a → step s a = some s' →
      ∃ more t', exec step' t more = some t' ∧ rel (actions ++ [a]) s' (moves ++ more) t')
    (h : Run step ok init actions s) :
    ∃ moves t, exec step' init' moves = some t ∧ rel actions s moves t := by
  induction h with
  | nil => exact ⟨[], init', rfl, hinit⟩
  | snoc _ hok hs ih =>
    obtain ⟨moves, t, hexec, hrel⟩ := ih
    obtain ⟨more, t', hmore, hrel'⟩ := hstep _ _ _ _ _ _ hrel hok hs
    exact ⟨moves ++ more, t', exec_append hexec hmore, hrel'⟩

/-- **Simulation.** If every step of a run is followed by matching moves of a second machine, along
an invariant, then so is the run. -/
theorem Run.simulation {τ β : Type*} {step' : τ → β → Option τ} (abs : σ → τ) (inv : σ → Prop)
    (matching : α → List β → Prop) (hinit : inv init)
    (hstep : ∀ s a s', inv s → ok s a → step s a = some s' →
      inv s' ∧ ∃ moves, matching a moves ∧ exec step' (abs s) moves = some (abs s'))
    (h : Run step ok init actions s) :
    inv s ∧ ∃ moves : List (List β), List.Forall₂ matching actions moves ∧
      exec step' (abs init) moves.flatten = some (abs s) := by
  induction h with
  | nil => exact ⟨hinit, [], .nil, rfl⟩
  | snoc _ hok hs ih =>
    obtain ⟨hinv, before, hbefore, hexec⟩ := ih
    obtain ⟨hinv', moves, hmoves, hexec'⟩ := hstep _ _ _ hinv hok hs
    refine ⟨hinv', before ++ [moves], List.rel_append hbefore (.cons hmoves .nil), ?_⟩
    rw [List.flatten_concat]
    exact exec_append hexec hexec'

end Machine
