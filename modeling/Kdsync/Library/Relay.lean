import Kdsync.Library.FirstOccurrence
import Kdsync.Library.Machine
import Mathlib.Data.List.Range
import Mathlib.Logic.Function.Basic

/-!
# A log that readers pass on

Readers put out the entries of one growing log, each from an entry of its own on, and may fall back
to an earlier entry at any time. `Relay` is the machine, with the positions of what each reader has
put out.

However often a reader falls back, it puts out a beginning of the log, each entry for the first
time in the order of the log (`Passed.firsts`), and no entry more often than one time plus one for
each time it has fallen back (`Passed.count_le`). A reader that never falls back puts out each entry
once (`Passed.output_eq_range`).
-/

/-- A log and its readers. -/
structure Relay (ι α : Type*) where
  log : List α
  /-- The position of the entry that a reader puts out next. -/
  next : ι → ℕ
  /-- The positions of the entries that a reader has put out. -/
  output : ι → List ℕ

namespace Relay

variable {ι α : Type*}

/-- The empty log. -/
def init : Relay ι α where
  log := []
  next _ := 0
  output _ := []

/-- A move of the log or of a reader. -/
inductive Move (ι α : Type*)
  | extend (entries : List α)
  /-- The reader puts out the next entry. -/
  | emit (i : ι)
  /-- The reader falls back to position `p`. -/
  | fallBack (i : ι) (p : ℕ)

/-- The move takes reader `i` back. -/
def Move.takesBack [DecidableEq ι] (i : ι) : Move ι α → Bool
  | .fallBack j _ => decide (j = i)
  | .extend _ | .emit _ => false

variable [DecidableEq ι]

/-- One move. A reader puts out what is there, and falls back to what it has put out. -/
def step (s : Relay ι α) : Move ι α → Option (Relay ι α)
  | .extend entries => some { s with log := s.log ++ entries }
  | .emit i =>
    if s.next i < s.log.length then
      some
        { log := s.log
          next := Function.update s.next i (s.next i + 1)
          output := Function.update s.output i (s.output i ++ [s.next i]) }
    else none
  | .fallBack i p =>
    if p ≤ s.next i then some { s with next := Function.update s.next i p } else none

section Exec

variable {s t : Relay ι α} {moves : List (Move ι α)} {i : ι} {p : ℕ}

theorem exec_extend (entries : List α) : Machine.exec step s [.extend entries] =
    some { s with log := s.log ++ entries } := rfl

theorem exec_emit (h : Machine.exec step s moves = some t) (hi : t.next i < t.log.length) :
    Machine.exec step s (moves ++ [.emit i]) = some
      { log := t.log
        next := Function.update t.next i (t.next i + 1)
        output := Function.update t.output i (t.output i ++ [t.next i]) } :=
  (Machine.exec_concat h _).trans (if_pos hi)

theorem exec_fallBack (h : Machine.exec step s moves = some t) (hp : p ≤ t.next i) :
    Machine.exec step s (moves ++ [.fallBack i p]) =
      some { t with next := Function.update t.next i p } :=
  (Machine.exec_concat h _).trans (if_pos hp)

end Exec

/-! ### One reader -/

/-- The output of a reader that goes on at `next` after it has fallen back some times. -/
structure Passed (next : ℕ) (output : List ℕ) (fallBacks : ℕ) : Prop where
  /-- The reader has put out the entries up to some position, and goes on there or before. -/
  upto : ∃ high, next ≤ high ∧ ∀ p, p ∈ output ↔ p < high
  /-- Each entry is put out for the first time in the order of the log. -/
  firsts : output.FirstsAscend
  count_le : ∀ p, output.count p ≤ fallBacks + if p < next then 1 else 0
  output_eq_range : fallBacks = 0 → output = List.range next

namespace Passed

variable {next fallBacks p : ℕ} {output : List ℕ}

theorem init : Passed 0 [] 0 where
  upto := ⟨0, Nat.le_refl 0, by simp⟩
  firsts := List.firstsAscend_nil
  count_le p := by simp
  output_eq_range _ := rfl

/-- What the reader has passed is put out. -/
theorem mem_output (h : Passed next output fallBacks) (hp : p < next) : p ∈ output := by
  obtain ⟨high, hle, hmem⟩ := h.upto
  exact (hmem p).mpr (hp.trans_le hle)

/-- A reader that puts out its next entry is one position further. -/
theorem emit (h : Passed next output fallBacks) :
    Passed (next + 1) (output ++ [next]) fallBacks where
  upto := by
    obtain ⟨high, hle, hmem⟩ := h.upto
    refine ⟨max high (next + 1), le_max_right _ _, fun p => ?_⟩
    rw [List.mem_append, List.mem_singleton, hmem]
    omega
  firsts := by
    obtain ⟨high, hle, hmem⟩ := h.upto
    -- below `high` the entry is a repetition, at `high` it is new and the last one
    rcases hle.lt_or_eq with hlt | rfl
    · exact h.firsts.append_of_mem ((hmem next).mpr hlt)
    · exact h.firsts.append_of_lt fun p hp => (hmem p).mp hp
  count_le p := by
    have hcount := h.count_le p
    rw [List.count_append, List.count_singleton]
    rcases eq_or_ne next p with rfl | hne
    · simp only [lt_irrefl, if_false, beq_self_eq_true, if_true, Nat.lt_succ_self] at hcount ⊢
      omega
    · have hlt : p < next + 1 ↔ p < next := by omega
      simp only [beq_iff_eq, hne, if_false, hlt]
      omega
  output_eq_range hzero := by rw [h.output_eq_range hzero, List.range_succ]

/-- A reader that falls back to position `p` has fallen back once more. -/
theorem fallBack (h : Passed next output fallBacks) (hp : p ≤ next) :
    Passed p output (fallBacks + 1) where
  upto := by
    obtain ⟨high, hle, hmem⟩ := h.upto
    exact ⟨high, hp.trans hle, hmem⟩
  firsts := h.firsts
  count_le q := by
    have hcount := h.count_le q
    split_ifs at hcount ⊢ <;> omega
  output_eq_range hzero := absurd hzero (Nat.succ_ne_zero _)

end Passed

/-! ### Runs -/

/-- A move of any reader keeps what reader `i` has put out, with one more fall-back if the move
takes it back. -/
theorem Passed.step {s s' : Relay ι α} {move : Move ι α} (hstep : s.step move = some s') {i : ι}
    {fallBacks : ℕ} (h : Passed (s.next i) (s.output i) fallBacks) :
    Passed (s'.next i) (s'.output i) (fallBacks + [move].countP (Move.takesBack i)) := by
  cases move with
  | extend entries =>
    obtain rfl := Option.some.inj hstep
    simpa [Move.takesBack] using h
  | emit j =>
    simp only [Relay.step] at hstep
    split_ifs at hstep
    obtain rfl := Option.some.inj hstep
    rcases eq_or_ne i j with rfl | hne
    · simpa [Move.takesBack] using h.emit
    · simpa [Move.takesBack, hne] using h
  | fallBack j p =>
    simp only [Relay.step] at hstep
    split_ifs at hstep with hp
    obtain rfl := Option.some.inj hstep
    rcases eq_or_ne i j with rfl | hne
    · simpa [Move.takesBack] using h.fallBack hp
    · simpa [Move.takesBack, hne, hne.symm] using h

/-- **What a reader has put out**, after any moves from the empty log. -/
theorem passed_of_exec {s : Relay ι α} {moves : List (Move ι α)}
    (h : Machine.exec step init moves = some s) (i : ι) :
    Passed (s.next i) (s.output i) (moves.countP (Move.takesBack i)) := by
  have hrun : Machine.Run step (fun _ _ => True) init moves s :=
    Machine.run_of_exec (fun _ _ _ => trivial) h
  clear h
  induction hrun with
  | nil => exact .init
  | snoc _ _ hstep ih =>
    rw [List.countP_append]
    exact ih.step hstep

end Relay
