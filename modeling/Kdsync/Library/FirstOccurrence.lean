import Mathlib.Data.List.Basic
import Mathlib.Order.Lattice

/-!
# First occurrences in ascending order

A list with repetitions whose first occurrences ascend (`List.FirstsAscend`): whoever skips the
elements it has seen before reads them in order. Two such lists agree on which of two common
elements comes first, without having the same elements.
-/

namespace List

variable {α : Type*} [LinearOrder α] {l l' : List α} {x p q : α}

/-- Of two elements of the list, the smaller one occurs first. -/
def FirstsAscend (l : List α) : Prop := ∀ p ∈ l, ∀ q ∈ l, p < q → l.idxOf p < l.idxOf q

theorem firstsAscend_nil : FirstsAscend ([] : List α) := fun _ hp => absurd hp not_mem_nil

/-- A repetition changes no first occurrence. -/
theorem FirstsAscend.append_of_mem (h : l.FirstsAscend) (hx : x ∈ l) :
    (l ++ [x]).FirstsAscend := by
  have hmem : ∀ p ∈ l ++ [x], p ∈ l := by
    intro p hp
    rcases mem_append.mp hp with hp | hp
    · exact hp
    · exact mem_singleton.mp hp ▸ hx
  intro p hp q hq hlt
  rw [idxOf_append_of_mem (hmem p hp), idxOf_append_of_mem (hmem q hq)]
  exact h p (hmem p hp) q (hmem q hq) hlt

/-- A new largest element comes last. -/
theorem FirstsAscend.append_of_lt (h : l.FirstsAscend) (hx : ∀ p ∈ l, p < x) :
    (l ++ [x]).FirstsAscend := by
  have hnew : x ∉ l := fun hmem => lt_irrefl x (hx x hmem)
  intro p hp q hq hlt
  rcases mem_append.mp hp with hpl | hpx
  · rw [idxOf_append_of_mem hpl]
    rcases mem_append.mp hq with hql | hqx
    · rw [idxOf_append_of_mem hql]
      exact h p hpl q hql hlt
    · rw [mem_singleton.mp hqx, idxOf_append_of_notMem hnew]
      have hlength : l.idxOf p < l.length := idxOf_lt_length_of_mem hpl
      omega
  · -- nothing in the list is larger than the new element
    rw [mem_singleton.mp hpx] at hlt
    rcases mem_append.mp hq with hql | hqx
    · exact absurd (hx q hql) (not_lt_of_gt hlt)
    · exact absurd hlt (mem_singleton.mp hqx ▸ lt_irrefl _)

/-- In such a list, first occurrences are ordered as the elements are. -/
theorem FirstsAscend.idxOf_lt_iff (h : l.FirstsAscend) (hp : p ∈ l) (hq : q ∈ l) :
    l.idxOf p < l.idxOf q ↔ p < q := by
  refine ⟨fun hlt => ?_, h p hp q hq⟩
  rcases lt_trichotomy p q with hpq | rfl | hqp
  · exact hpq
  · exact absurd hlt (Nat.lt_irrefl _)
  · exact absurd (h q hq p hp hqp) (Nat.not_lt_of_gt hlt)

/-- **Agreement.** Two such lists agree on the order of common elements. -/
theorem FirstsAscend.agree (h : l.FirstsAscend) (h' : l'.FirstsAscend) (hp : p ∈ l) (hq : q ∈ l)
    (hp' : p ∈ l') (hq' : q ∈ l') : l.idxOf p < l.idxOf q ↔ l'.idxOf p < l'.idxOf q := by
  rw [h.idxOf_lt_iff hp hq, h'.idxOf_lt_iff hp' hq']

end List
