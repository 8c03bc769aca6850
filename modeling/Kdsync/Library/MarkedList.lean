import Mathlib.Data.Finset.Insert
import Mathlib.Data.Finset.Card
import Mathlib.Data.List.Pairwise

/-!
# Lists whose entries carry nested sets of marks

Two facts about a list `l : List α` with a set of marks `m a : Finset ι` on each entry.

* Where a Boolean test can only go from true to false along the list, filtering the false entries
  is dropping a prefix (`filter_not_eq_drop`), so a search for the first false entry finds all of
  them.
* Marking the first `k` entries (`mapFirst`) keeps the marks nested
  (`Nested.mapFirst`): the set of an earlier entry contains the set of a later one.
-/

namespace MarkedList

variable {α ι : Type*}

/-! ### Tests that only go from true to false -/

/-- Along `l`, the test `p` holds of an earlier entry when it holds of a later one. -/
def Antitone (p : α → Bool) (l : List α) : Prop :=
  l.Pairwise fun a b => p b = true → p a = true

theorem Antitone.tail {p : α → Bool} {a : α} {l : List α} (h : Antitone p (a :: l)) :
    Antitone p l := (List.pairwise_cons.mp h).2

/-- After a false entry everything is false. -/
theorem Antitone.eq_false_of_head {p : α → Bool} {a : α} {l : List α} (h : Antitone p (a :: l))
    (ha : p a = false) : ∀ b ∈ l, p b = false := by
  intro b hb
  have := (List.pairwise_cons.mp h).1 b hb
  cases hpb : p b with
  | false => rfl
  | true => rw [this hpb] at ha; cases ha

/-- The first false entry of a list of false entries is its head. -/
theorem findIdx_not_eq_zero {p : α → Bool} {l : List α} (h : ∀ b ∈ l, p b = false) :
    l.findIdx (fun a => !p a) = 0 := by
  cases l with
  | nil => rfl
  | cons b l => simp [List.findIdx_cons, h b (by simp)]

/-- **The false entries are a suffix**, and the search for the first one finds its start. -/
theorem filter_not_eq_drop {p : α → Bool} {l : List α} (h : Antitone p l) :
    l.filter (fun a => !p a) = l.drop (l.findIdx fun a => !p a) := by
  induction l with
  | nil => rfl
  | cons a l ih =>
    cases ha : p a with
    | true => simp [List.findIdx_cons, ha, ih h.tail]
    | false =>
      have hall := h.eq_false_of_head ha
      have hl : l.filter (fun b => !p b) = l :=
        List.filter_eq_self.mpr fun b hb => by simp [hall b hb]
      simp [List.findIdx_cons, ha, hl]

/-- Dropping entries moves the first false entry forward. -/
theorem Antitone.findIdx_drop {p : α → Bool} {l : List α} (h : Antitone p l) (d : ℕ) :
    (l.drop d).findIdx (fun a => !p a) = l.findIdx (fun a => !p a) - d := by
  induction l generalizing d with
  | nil => simp
  | cons a l ih =>
    cases d with
    | zero => simp
    | succ d =>
      cases ha : p a with
      | true => simp [List.findIdx_cons, ha, ih h.tail]
      | false =>
        have hfalse : ∀ b ∈ l.drop d, p b = false :=
          fun b hb => h.eq_false_of_head ha b (List.mem_of_mem_drop hb)
        simp [List.findIdx_cons, ha, findIdx_not_eq_zero hfalse]

/-- A search that ends behind the dropped entries ends at the same entry. -/
theorem findIdx_drop_of_le {p : α → Bool} {l : List α} {d : ℕ} (h : d ≤ l.findIdx p) :
    (l.drop d).findIdx p = l.findIdx p - d := by
  induction l generalizing d with
  | nil => simp
  | cons a l ih =>
    cases d with
    | zero => simp
    | succ d =>
      cases ha : p a with
      | true => simp [List.findIdx_cons, ha] at h
      | false =>
        simp only [List.findIdx_cons, ha, cond_false, Nat.succ_le_succ_iff] at h
        simp [List.findIdx_cons, ha, ih h]

/-- The first entry that passes a test is where all earlier ones fail and it does not. -/
theorem findIdx_eq_of_forall {p : α → Bool} {l : List α} {k : ℕ} (hk : k ≤ l.length)
    (hbefore : ∀ j < k, ∀ b, l[j]? = some b → p b = false)
    (hat : ∀ b, l[k]? = some b → p b = true) : l.findIdx p = k := by
  rcases hk.lt_or_eq with hlt | rfl
  · refine (List.findIdx_eq hlt).mpr ⟨hat _ (List.getElem?_eq_getElem hlt), fun j hj => ?_⟩
    exact hbefore j hj _ (List.getElem?_eq_getElem (hj.trans hlt))
  · refine List.findIdx_eq_length.mpr fun b hb => ?_
    obtain ⟨j, hj⟩ := List.mem_iff_getElem?.mp hb
    exact hbefore j (List.getElem?_eq_some_iff.mp hj).1 b hj

/-! ### Marking a prefix -/

/-- `f` applied to the first `k` entries. -/
def mapFirst (f : α → α) (k : ℕ) (l : List α) : List α := (l.take k).map f ++ l.drop k

@[simp] theorem mapFirst_nil (f : α → α) (k : ℕ) : mapFirst f k [] = [] := by simp [mapFirst]

@[simp] theorem mapFirst_zero (f : α → α) (l : List α) : mapFirst f 0 l = l := by simp [mapFirst]

@[simp] theorem mapFirst_cons_succ (f : α → α) (k : ℕ) (a : α) (l : List α) :
    mapFirst f (k + 1) (a :: l) = f a :: mapFirst f k l := by simp [mapFirst]

@[simp] theorem length_mapFirst (f : α → α) (k : ℕ) (l : List α) :
    (mapFirst f k l).length = l.length := by
  simp [mapFirst]
  omega

theorem getElem?_mapFirst (f : α → α) (k j : ℕ) (l : List α) :
    (mapFirst f k l)[j]? = if j < k then l[j]?.map f else l[j]? := by
  induction l generalizing k j with
  | nil => simp
  | cons a l ih =>
    cases k with
    | zero => simp
    | succ k => cases j with
      | zero => simp
      | succ j => simp [ih]

/-- Marking beyond the end marks everything. -/
theorem mapFirst_of_length_le {f : α → α} {k : ℕ} {l : List α} (h : l.length ≤ k) :
    mapFirst f k l = l.map f := by
  simp [mapFirst, List.take_of_length_le h, List.drop_eq_nil_of_le h]

theorem mem_mapFirst {f : α → α} {k : ℕ} {l : List α} {a : α} (h : a ∈ mapFirst f k l) :
    a ∈ l ∨ ∃ b ∈ l, f b = a := by
  rcases List.mem_append.mp h with h | h
  · obtain ⟨b, hb, rfl⟩ := List.mem_map.mp h
    exact .inr ⟨b, List.mem_of_mem_take hb, rfl⟩
  · exact .inl (List.mem_of_mem_drop h)

/-- Marking does not move what a search looks for, if the search does not look at the marks. -/
theorem findIdx_mapFirst {f : α → α} {p : α → Bool} (h : ∀ a, p (f a) = p a) (k : ℕ) (l : List α) :
    (mapFirst f k l).findIdx p = l.findIdx p := by
  induction l generalizing k with
  | nil => simp
  | cons a l ih =>
    cases k with
    | zero => simp
    | succ k => simp [List.findIdx_cons, h, ih]

variable {m : α → Finset ι}

/-- The marks are nested: an earlier entry carries all the marks of a later one. -/
def Nested (m : α → Finset ι) (l : List α) : Prop := l.Pairwise fun a b => m b ⊆ m a

/-- Appending an entry without marks keeps the marks nested. -/
theorem Nested.append {l : List α} (h : Nested m l) {a : α} (ha : m a = ∅) :
    Nested m (l ++ [a]) := by
  refine List.pairwise_append.mpr ⟨h, by simp, fun b _ c hc => ?_⟩
  obtain rfl := List.mem_singleton.mp hc
  simp [ha]

/-- If the marks are nested and no entry has more than `n` of them, the entries with all `n`
come first. -/
theorem Nested.antitone_card {l : List α} (h : Nested m l) {n : ℕ} (hn : ∀ a ∈ l, (m a).card ≤ n) :
    Antitone (fun a => decide ((m a).card = n)) l := by
  refine List.Pairwise.imp_of_mem (fun {a b} ha _ hsub hb => ?_) h
  have hcard : (m b).card = n := by simpa using hb
  have hle := Finset.card_le_card hsub
  have := hn a ha
  simp only [decide_eq_true_eq]
  omega

variable [DecidableEq ι]

/-- If the marks are nested, the entries a reader has marked come first. -/
theorem Nested.antitone_mem {l : List α} (h : Nested m l) (i : ι) :
    Antitone (fun a => decide (i ∈ m a)) l :=
  h.imp fun hsub hi => by simpa using hsub (by simpa using hi)

/-- Marking a prefix keeps the marks nested. -/
theorem Nested.mapFirst {l : List α} (h : Nested m l) {f : α → α} {i : ι}
    (hf : ∀ a, m (f a) = insert i (m a)) (k : ℕ) : Nested m (mapFirst f k l) := by
  induction l generalizing k with
  | nil => simpa using h
  | cons a l ih =>
    obtain ⟨hhead, htail⟩ := List.pairwise_cons.mp h
    cases k with
    | zero => simpa using h
    | succ k =>
      rw [mapFirst_cons_succ]
      refine List.pairwise_cons.mpr ⟨fun b hb => ?_, ih htail k⟩
      rw [hf]
      rcases mem_mapFirst hb with hb | ⟨c, hc, rfl⟩
      · exact (hhead b hb).trans (Finset.subset_insert _ _)
      · rw [hf]
        exact Finset.insert_subset_insert _ (hhead c hc)

end MarkedList
