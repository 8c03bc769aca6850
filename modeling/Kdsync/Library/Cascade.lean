import Mathlib.Data.Fintype.Card
import Mathlib.Data.Fintype.Prod
import Mathlib.Data.Set.Finite.List

/-!
# Cascades

Some agents take items, and an item that is taken may make others. The rank of an item grows along
the way, and each agent takes items of a single rank only. So an agent takes at most one item of a
chain (`Cascade.length_le_card`), and if no agent takes an item twice, what a single item sets off
is bounded by a number that depends on the agents alone (`Cascade.exists_length_taken_le`).
-/

/-- Agents `ι` that take items `α`, and the items made of those that are taken. -/
structure Cascade (ι α : Type*) where
  takes : ι → α → Prop
  makes : α → α → Prop
  rank : α → ℕ
  /-- The rank of the items an agent takes. -/
  level : ι → ℕ
  rank_eq {i : ι} {a : α} : takes i a → rank a = level i
  rank_lt {a b : α} : makes a b → rank a < rank b

namespace Cascade

variable {ι α : Type*} {c : Cascade ι α}

/-! ### Chains -/

/-- **Chains are short**: each agent takes at most one item of a chain. -/
theorem length_le_card [Fintype ι] {chain : List α} (hchain : chain.IsChain c.makes)
    (htaken : ∀ a ∈ chain, ∃ i, c.takes i a) : chain.length ≤ Fintype.card ι := by
  have hlt : (chain.map c.rank).IsChain (· < ·) :=
    List.isChain_map_of_isChain c.rank (fun _ _ => c.rank_lt) hchain
  have hnodup : (chain.map c.rank).Nodup := (List.isChain_iff_pairwise.mp hlt).imp Nat.ne_of_lt
  have hsubset : (chain.map c.rank).toFinset ⊆ Finset.univ.image c.level := by
    intro r hr
    obtain ⟨a, ha, rfl⟩ := List.mem_map.mp (List.mem_toFinset.mp hr)
    obtain ⟨i, hi⟩ := htaken a ha
    exact Finset.mem_image.mpr ⟨i, Finset.mem_univ i, (c.rank_eq hi).symm⟩
  calc chain.length = (chain.map c.rank).toFinset.card := by
        rw [List.toFinset_card_of_nodup hnodup, List.length_map]
    _ ≤ (Finset.univ.image c.level).card := Finset.card_le_card hsubset
    _ ≤ Fintype.card ι := Finset.card_image_le

/-! ### What a single item sets off -/

/-- How an item came about: the agent that took the item before it and the agent that made it of
that one, and so on back to the first item. -/
abbrev Path (ι : Type*) := List (ι × ι)

/-- The items there are and what is taken, from a single item on. An item is known by its path:
no agent takes an item twice, or makes two items of one that an agent has taken. -/
inductive Reachable (c : Cascade ι α) (origin : α) : List (Path ι × α) → List (Path ι × ι) → Prop
  | start : Reachable c origin [([], origin)] []
  | take {items : List (Path ι × α)} {taken : List (Path ι × ι)} {path : Path ι} {a : α} {i : ι} :
      Reachable c origin items taken → (path, a) ∈ items → c.takes i a → (path, i) ∉ taken →
        Reachable c origin items ((path, i) :: taken)
  | make {items : List (Path ι × α)} {taken : List (Path ι × ι)} {path : Path ι} {a b : α}
      {i j : ι} :
      Reachable c origin items taken → (path, i) ∈ taken → (path, a) ∈ items → c.makes a b →
        (i, j) :: path ∉ items.map Prod.fst →
        Reachable c origin (((i, j) :: path, b) :: items) taken

/-- The item ends a chain of taken items as long as its path, latest first. -/
def Traced (c : Cascade ι α) (path : Path ι) (a : α) : Prop :=
  ∃ older : List α, older.length = path.length ∧ (a :: older).IsChain (fun x y => c.makes y x) ∧
    ∀ x ∈ older, ∃ i, c.takes i x

section Traced

variable {path : Path ι} {a b : α} {i : ι}

theorem traced_nil (a : α) : c.Traced [] a :=
  ⟨[], rfl, .singleton a, fun _ hx => absurd hx List.not_mem_nil⟩

theorem Traced.make (h : c.Traced path a) (htakes : c.takes i a) (hmakes : c.makes a b) (j : ι) :
    c.Traced ((i, j) :: path) b := by
  obtain ⟨older, hlength, hchain, htaken⟩ := h
  refine ⟨a :: older, by simp [hlength], hchain.cons_cons hmakes, ?_⟩
  exact List.forall_mem_cons.mpr ⟨⟨i, htakes⟩, htaken⟩

/-- An item that is taken has a short path. -/
theorem Traced.length_lt [Fintype ι] (h : c.Traced path a) (htakes : c.takes i a) :
    path.length < Fintype.card ι := by
  obtain ⟨older, hlength, hchain, htaken⟩ := h
  have hall : ∀ x ∈ a :: older, ∃ i, c.takes i x :=
    List.forall_mem_cons.mpr ⟨⟨i, htakes⟩, htaken⟩
  have hle := length_le_card (List.isChain_reverse.mpr hchain) fun x hx =>
    hall x (List.mem_reverse.mp hx)
  rw [List.length_reverse, List.length_cons, hlength] at hle
  exact hle

end Traced

/-- What holds of the items there are and of what is taken. -/
structure Inv (c : Cascade ι α) (items : List (Path ι × α)) (taken : List (Path ι × ι)) :
    Prop where
  traced : ∀ item ∈ items, c.Traced item.1 item.2
  paths : (items.map Prod.fst).Nodup
  takes : ∀ x ∈ taken, ∃ a, (x.1, a) ∈ items ∧ c.takes x.2 a
  once : taken.Nodup

theorem Reachable.inv {origin : α} {items : List (Path ι × α)} {taken : List (Path ι × ι)}
    (h : c.Reachable origin items taken) : c.Inv items taken := by
  induction h with
  | start =>
    exact ⟨List.forall_mem_singleton.mpr (traced_nil origin), List.nodup_singleton _,
      fun _ hx => absurd hx List.not_mem_nil, List.nodup_nil⟩
  | take _ hitem htakes hnew ih =>
    exact ⟨ih.traced, ih.paths, List.forall_mem_cons.mpr ⟨⟨_, hitem, htakes⟩, ih.takes⟩,
      List.nodup_cons.mpr ⟨hnew, ih.once⟩⟩
  | @make items taken path a b i j _ htaken hitem hmakes hnew ih =>
    obtain ⟨a', ha', htakes⟩ := ih.takes _ htaken
    -- the item that was taken is the one with this path
    obtain rfl : a' = a := congrArg Prod.snd (List.inj_on_of_nodup_map ih.paths ha' hitem rfl)
    refine ⟨List.forall_mem_cons.mpr ⟨(ih.traced _ hitem).make htakes hmakes j, ih.traced⟩,
      List.nodup_cons.mpr ⟨hnew, ih.paths⟩, fun x hx => ?_, ih.once⟩
    obtain ⟨a, ha, htakes⟩ := ih.takes x hx
    exact ⟨a, List.mem_cons_of_mem _ ha, htakes⟩

/-- **A single item sets off boundedly many takings**, whichever it is. -/
theorem exists_length_taken_le [Fintype ι] (c : Cascade ι α) :
    ∃ bound, ∀ origin items taken, c.Reachable origin items taken → taken.length ≤ bound := by
  classical
  have hfinite : {x : Path ι × ι | x.1.length < Fintype.card ι}.Finite :=
    ((List.finite_length_lt _ _).prod Set.finite_univ).subset fun x hx => ⟨hx, trivial⟩
  refine ⟨hfinite.toFinset.card, fun origin items taken h => ?_⟩
  rw [← List.toFinset_card_of_nodup h.inv.once]
  refine Finset.card_le_card fun x hx => ?_
  obtain ⟨a, ha, htakes⟩ := h.inv.takes x (List.mem_toFinset.mp hx)
  exact hfinite.mem_toFinset.mpr ((h.inv.traced _ ha).length_lt htakes)

end Cascade
