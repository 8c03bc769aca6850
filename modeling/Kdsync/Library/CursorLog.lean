import Kdsync.Library.MarkedList
import Mathlib.Data.Finset.Lattice.Fold
import Mathlib.Data.List.Basic
import Mathlib.Order.Lattice.Nat

/-!
# A log read through cursors

A finite nonempty set of readers reads one append-only log, each at its own pace: reader `i` has
read the first `cursor i` entries. Entries that all readers have read may be collected, so the
*live* part of the log starts at the smallest cursor (`CursorLog.low`). The bound of the cursors
by the length of the log is a field of the structure.

`CursorLog.live` pairs each live entry with the readers that have passed it. The two operations
are then operations on that annotated list:

* `live_append`: an append adds an entry nobody has passed;
* `live_advance`: moving a cursor marks a prefix with the reader and then filters out the entries
  that all readers have passed.

`findIdx_live` is the converse reading: the first live entry a reader has not passed stands at
its cursor.
-/

/-- A log of `α` and the positions of its readers. -/
structure CursorLog {ι : Type*} (readers : Finset ι) (α : Type*) where
  log : List α
  cursor : ι → ℕ
  cursor_le : ∀ i, cursor i ≤ log.length
  nonempty : readers.Nonempty

namespace CursorLog

variable {ι α : Type*} {readers : Finset ι}

/-- The empty log. -/
def init (h : readers.Nonempty) : CursorLog readers α where
  log := []
  cursor _ := 0
  cursor_le _ := Nat.le_refl _
  nonempty := h

/-- The number of entries all readers have read. -/
def low (s : CursorLog readers α) : ℕ := readers.inf' s.nonempty s.cursor

/-- The readers that have passed position `p`. -/
def passed (s : CursorLog readers α) (p : ℕ) : Finset ι := readers.filter fun i => p < s.cursor i

/-- The log with the readers that have passed each entry. -/
def entries (s : CursorLog readers α) : List (α × Finset ι) :=
  s.log.mapIdx fun p x => (x, s.passed p)

/-- The entries that some reader has not read yet. -/
def live (s : CursorLog readers α) : List (α × Finset ι) := s.entries.drop s.low

/-- A new entry at the end. -/
def append (s : CursorLog readers α) (x : α) : CursorLog readers α where
  log := s.log ++ [x]
  cursor := s.cursor
  cursor_le i := (s.cursor_le i).trans (by simp)
  nonempty := s.nonempty

@[simp] theorem log_append (s : CursorLog readers α) (x : α) : (s.append x).log = s.log ++ [x] :=
  rfl

@[simp] theorem cursor_append (s : CursorLog readers α) (x : α) : (s.append x).cursor = s.cursor :=
  rfl

@[simp] theorem low_append (s : CursorLog readers α) (x : α) : (s.append x).low = s.low := rfl

section Cursors

variable {s : CursorLog readers α} {i : ι} {p q : ℕ}

theorem low_le_cursor (hi : i ∈ readers) : s.low ≤ s.cursor i := Finset.inf'_le _ hi

theorem le_low_iff : p ≤ s.low ↔ ∀ i ∈ readers, p ≤ s.cursor i := Finset.le_inf'_iff _ _

theorem low_le_length : s.low ≤ s.log.length := by
  obtain ⟨i, hi⟩ := s.nonempty
  exact (low_le_cursor hi).trans (s.cursor_le i)

@[simp] theorem mem_passed : i ∈ s.passed p ↔ i ∈ readers ∧ p < s.cursor i := by simp [passed]

theorem passed_subset : s.passed p ⊆ readers := Finset.filter_subset _ _

/-- An earlier position has been passed by more readers. -/
theorem passed_anti (h : p ≤ q) : s.passed q ⊆ s.passed p := by
  intro i hi
  rw [mem_passed] at hi ⊢
  exact ⟨hi.1, h.trans_lt hi.2⟩

/-- A position is passed by everyone exactly below the smallest cursor. -/
theorem card_passed_eq_iff : (s.passed p).card = readers.card ↔ p < s.low := by
  rw [← Nat.succ_le_iff, le_low_iff]
  constructor
  · intro hcard i hi
    have heq : s.passed p = readers := Finset.eq_of_subset_of_card_le passed_subset hcard.ge
    rw [← heq, mem_passed] at hi
    exact hi.2
  · intro hall
    have heq : s.passed p = readers :=
      Finset.filter_true_of_mem fun i hi => hall i hi
    rw [heq]

theorem passed_eq_empty (h : s.log.length ≤ p) : s.passed p = ∅ := by
  refine Finset.filter_false_of_mem fun i _ => ?_
  have := s.cursor_le i
  omega

end Cursors

section Entries

variable {s : CursorLog readers α} {i : ι} {p : ℕ}

@[simp] theorem length_entries : s.entries.length = s.log.length := by simp [entries]

@[simp] theorem length_live : s.live.length = s.log.length - s.low := by simp [live]

theorem getElem?_entries (p : ℕ) : s.entries[p]? = s.log[p]?.map fun x => (x, s.passed p) := by
  simp [entries]

theorem getElem?_live (j : ℕ) :
    s.live[j]? = s.log[s.low + j]?.map fun x => (x, s.passed (s.low + j)) := by
  rw [live, List.getElem?_drop, getElem?_entries]

/-- Without their readers, the live entries are the log from the smallest cursor on. -/
theorem map_fst_live : s.live.map Prod.fst = s.log.drop s.low := by
  refine List.ext_getElem? fun j => ?_
  rw [List.getElem?_map, getElem?_live, List.getElem?_drop, Option.map_map]
  simp [Function.comp_def]

/-- The readers of an entry from position `k` on are those of its position. -/
theorem exists_of_mem_drop_entries {k : ℕ} {a : α × Finset ι} (h : a ∈ s.entries.drop k) :
    ∃ p, k ≤ p ∧ p < s.log.length ∧ a.2 = s.passed p := by
  obtain ⟨j, hj⟩ := List.mem_iff_getElem?.mp h
  rw [List.getElem?_drop, getElem?_entries] at hj
  obtain ⟨x, hx, rfl⟩ := Option.map_eq_some_iff.mp hj
  exact ⟨k + j, by omega, (List.getElem?_eq_some_iff.mp hx).1, rfl⟩

/-- The live entries are determined by the log and the cursors of the readers. -/
theorem live_congr {s' : CursorLog readers α} (hlog : s.log = s'.log)
    (hcursor : ∀ i ∈ readers, s.cursor i = s'.cursor i) : s.live = s'.live := by
  have hlow : s.low = s'.low := Finset.inf'_congr s.nonempty rfl hcursor
  have hpassed : s.passed = s'.passed := by
    funext p
    exact Finset.filter_congr fun i hi => by rw [hcursor i hi]
  rw [live, live, entries, entries, hlow, hlog, hpassed]

/-- The live entries carry nested sets of readers. -/
theorem nested_live : MarkedList.Nested Prod.snd s.live := by
  refine List.pairwise_iff_getElem.mpr fun j k hj hk hjk => ?_
  have hget : ∀ {m : ℕ} (hm : m < s.live.length), s.live[m].2 = s.passed (s.low + m) := by
    intro m hm
    have h := getElem?_live (s := s) m
    rw [List.getElem?_eq_getElem hm] at h
    obtain ⟨x, -, hx⟩ := Option.map_eq_some_iff.mp h.symm
    rw [← hx]
  rw [hget hj, hget hk]
  exact passed_anti (by omega)

/-- No live entry has been passed by everyone. -/
theorem card_lt_of_mem_live {a : α × Finset ι} (h : a ∈ s.live) : a.2.card < readers.card := by
  obtain ⟨p, hp, -, ha⟩ := exists_of_mem_drop_entries h
  rw [ha]
  refine lt_of_le_of_ne (Finset.card_le_card passed_subset) fun heq => ?_
  have := card_passed_eq_iff.mp heq
  omega

/-- **A reader resumes at its cursor**: the first live entry it has not passed stands there. -/
theorem findIdx_live [DecidableEq ι] (hi : i ∈ readers) :
    s.live.findIdx (fun a => !decide (i ∈ a.2)) = s.cursor i - s.low := by
  have hlow := low_le_cursor (s := s) hi
  have hle := s.cursor_le i
  refine MarkedList.findIdx_eq_of_forall (by rw [length_live]; omega) (fun j hj b hb => ?_)
    fun b hb => ?_
  all_goals
    rw [getElem?_live] at hb
    obtain ⟨x, -, rfl⟩ := Option.map_eq_some_iff.mp hb
  · simp [hi]
    omega
  · simp [hi]
    omega

/-- An append adds an entry that nobody has passed. -/
theorem live_append (s : CursorLog readers α) (x : α) :
    (s.append x).live = s.live ++ [(x, ∅)] := by
  have hentries : (s.append x).entries = s.entries ++ [(x, ∅)] := by
    rw [entries, log_append, List.mapIdx_concat]
    exact congrArg₂ _ rfl (by rw [← passed_eq_empty (le_refl s.log.length)]; rfl)
  rw [live, hentries, low_append, List.drop_append_of_le_length (by simpa using low_le_length)]
  rfl

end Entries

/-! ### Moving a cursor -/

variable [DecidableEq ι]

/-- Reader `i` has read the first `p` entries, or more if it had before. -/
def advance (s : CursorLog readers α) (i : ι) (p : ℕ) : CursorLog readers α where
  log := s.log
  cursor := Function.update s.cursor i (max (s.cursor i) (min p s.log.length))
  cursor_le j := by
    rcases eq_or_ne j i with rfl | hj
    · simpa using s.cursor_le j
    · simpa [hj] using s.cursor_le j
  nonempty := s.nonempty

/-- Reader `i` has read exactly the first `p` entries. -/
def moveTo (s : CursorLog readers α) (i : ι) (p : ℕ) (hp : p ≤ s.log.length) :
    CursorLog readers α where
  log := s.log
  cursor := Function.update s.cursor i p
  cursor_le j := by
    rcases eq_or_ne j i with rfl | hj
    · simpa using hp
    · simpa [hj] using s.cursor_le j
  nonempty := s.nonempty

section Advance

variable {s : CursorLog readers α} {i j : ι} {p q : ℕ}

/-- A reader that does not go back is advanced by moving it. -/
theorem advance_eq_moveTo (hp : p ≤ s.log.length) (h : s.cursor i ≤ p) :
    s.advance i p = s.moveTo i p hp := by
  simp only [advance, moveTo, min_eq_left hp, max_eq_right h]

@[simp] theorem log_advance : (s.advance i p).log = s.log := rfl

@[simp] theorem cursor_advance_self :
    (s.advance i p).cursor i = max (s.cursor i) (min p s.log.length) := by simp [advance]

@[simp] theorem cursor_advance_of_ne (h : j ≠ i) : (s.advance i p).cursor j = s.cursor j := by
  simp [advance, h]

theorem cursor_le_cursor_advance : s.cursor j ≤ (s.advance i p).cursor j := by
  rcases eq_or_ne j i with rfl | hj
  · simp
  · simp [hj]

theorem low_le_low_advance : s.low ≤ (s.advance i p).low :=
  le_low_iff.mpr fun _ hj => (low_le_cursor hj).trans cursor_le_cursor_advance

theorem passed_advance (hi : i ∈ readers) (hq : q < s.log.length) :
    (s.advance i p).passed q = if q < p then insert i (s.passed q) else s.passed q := by
  ext j
  rcases eq_or_ne j i with rfl | hj
  · split_ifs with hqp <;> simp [hi] <;> omega
  · split_ifs <;> simp [hj]

/-- Moving a cursor marks a prefix of the live entries. -/
theorem mapFirst_live (hi : i ∈ readers) :
    MarkedList.mapFirst (fun a => (a.1, insert i a.2)) (p - s.low) s.live =
      (s.advance i p).entries.drop s.low := by
  refine List.ext_getElem? fun k => ?_
  rw [MarkedList.getElem?_mapFirst, getElem?_live, List.getElem?_drop, getElem?_entries,
    log_advance]
  cases hx : s.log[s.low + k]? with
  | none => simp
  | some x =>
    have hlt := (List.getElem?_eq_some_iff.mp hx).1
    rw [passed_advance hi hlt]
    by_cases hk : k < p - s.low
    · rw [if_pos hk, if_pos (by omega)]
      rfl
    · rw [if_neg hk, if_neg (by omega)]

/-- **Moving a cursor**: mark a prefix with the reader, then drop the entries all have passed. -/
theorem live_advance (hi : i ∈ readers) :
    (s.advance i p).live =
      (MarkedList.mapFirst (fun a => (a.1, insert i a.2)) (p - s.low) s.live).filter
        fun a => !decide (a.2.card = readers.card) := by
  rw [mapFirst_live hi]
  set s' := s.advance i p with hs'
  -- the old live part is what the new one leaves out, which everyone has passed, and the new one
  have hle : s.low ≤ s'.low := low_le_low_advance
  have hsplit : s'.entries.drop s.low =
      (s'.entries.drop s.low).take (s'.low - s.low) ++ s'.live := by
    conv_lhs => rw [← List.take_append_drop (s'.low - s.low) (s'.entries.drop s.low)]
    rw [List.drop_drop, Nat.add_sub_cancel' hle]
    rfl
  have hdone : ((s'.entries.drop s.low).take (s'.low - s.low)).filter
      (fun a => !decide (a.2.card = readers.card)) = [] := by
    refine List.filter_eq_nil_iff.mpr fun a ha => ?_
    obtain ⟨k, hk⟩ := List.mem_iff_getElem?.mp ha
    rw [List.getElem?_take] at hk
    split_ifs at hk with hlt
    rw [List.getElem?_drop, getElem?_entries] at hk
    obtain ⟨x, -, rfl⟩ := Option.map_eq_some_iff.mp hk
    simpa using card_passed_eq_iff.mpr (by omega)
  have hkeep : s'.live.filter (fun a => !decide (a.2.card = readers.card)) = s'.live := by
    refine List.filter_eq_self.mpr fun a ha => ?_
    simpa using (card_lt_of_mem_live ha).ne
  rw [hsplit, List.filter_append, hdone, hkeep, List.nil_append]

end Advance

end CursorLog
