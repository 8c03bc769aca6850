import Mathlib.Data.List.Basic
import Mathlib.Data.List.Infix
import Mathlib.Logic.Function.Basic

/-!
# Totally ordered multicast

Nodes send messages to all nodes. A sent message waits in the outbox of its sender, becomes part
of one total order in the order of sending, and every node applies a growing prefix of that order.
The bound of each prefix by the order is a field of the structure.

When a node crashes, its messages that are not yet ordered are lost; a node that joins receives
the state of the whole order.

`Broadcast.sentBy` collects the messages of one sender, ordered or not, in the order of sending:
ordering a message does not change it. `Broadcast.delivered` is the prefix a node has applied.
-/

/-- The messages of type `μ` under way between nodes `ι`. -/
structure Broadcast (ι μ : Type*) where
  order : List (ι × μ)
  outbox : ι → List μ
  applied : ι → ℕ
  applied_le : ∀ i, applied i ≤ order.length

namespace Broadcast

variable {ι μ : Type*}

/-- Nothing has been sent. -/
def init : Broadcast ι μ where
  order := []
  outbox _ := []
  applied _ := 0
  applied_le _ := Nat.zero_le _

/-- What node `i` has applied. -/
def delivered (b : Broadcast ι μ) (i : ι) : List (ι × μ) := b.order.take (b.applied i)

theorem delivered_prefix (b : Broadcast ι μ) (i : ι) : b.delivered i <+: b.order :=
  List.take_prefix _ _

/-- What node `i` has applied and the message that it applies next. -/
theorem delivered_concat (b : Broadcast ι μ) {i : ι} {x : ι × μ}
    (h : b.order[b.applied i]? = some x) :
    b.delivered i ++ [x] = b.order.take (b.applied i + 1) := by
  obtain ⟨hlt, rfl⟩ := List.getElem?_eq_some_iff.mp h
  exact (List.take_succ_eq_append_getElem hlt).symm

@[simp] theorem length_delivered (b : Broadcast ι μ) (i : ι) :
    (b.delivered i).length = b.applied i := by simp [delivered, b.applied_le i]

/-- The messages of each sender, translated. -/
def map {ν : Type*} (f : ι → μ → ν) (b : Broadcast ι μ) : Broadcast ι ν where
  order := b.order.map fun x => (x.1, f x.1 x.2)
  outbox i := (b.outbox i).map (f i)
  applied := b.applied
  applied_le i := by simpa using b.applied_le i

theorem delivered_map {ν : Type*} (f : ι → μ → ν) (b : Broadcast ι μ) (i : ι) :
    (b.map f).delivered i = (b.delivered i).map fun x => (x.1, f x.1 x.2) :=
  List.map_take.symm

variable [DecidableEq ι]

/-- The messages of `i` in a part of the order. -/
def from_ (i : ι) (order : List (ι × μ)) : List μ := (order.filter (·.1 = i)).map Prod.snd

/-- All messages of `i`, in the order of sending. -/
def sentBy (b : Broadcast ι μ) (i : ι) : List μ := from_ i b.order ++ b.outbox i

/-- `i` sends a message. -/
def send (b : Broadcast ι μ) (i : ι) (m : μ) : Broadcast ι μ :=
  { b with outbox := Function.update b.outbox i (b.outbox i ++ [m]) }

/-- The oldest waiting message of `i` becomes part of the order. -/
def sequence (b : Broadcast ι μ) (i : ι) : Option (Broadcast ι μ) :=
  match b.outbox i with
  | [] => none
  | m :: waiting => some
      { order := b.order ++ [(i, m)]
        outbox := Function.update b.outbox i waiting
        applied := b.applied
        applied_le := fun j => (b.applied_le j).trans (by simp) }

/-- `i` applies the next message of the order. -/
def deliver (b : Broadcast ι μ) (i : ι) : Option (Broadcast ι μ) :=
  if h : b.applied i < b.order.length then some
    { b with
      applied := Function.update b.applied i (b.applied i + 1)
      applied_le := fun j => by
        rcases eq_or_ne j i with rfl | hj
        · simpa using Nat.succ_le_of_lt h
        · simpa [hj] using b.applied_le j }
  else none

/-- `i` fails: its waiting messages are lost. -/
def crash (b : Broadcast ι μ) (i : ι) : Broadcast ι μ :=
  { b with outbox := Function.update b.outbox i [] }

/-- `i` joins with the state of the whole order. -/
def join (b : Broadcast ι μ) (i : ι) : Broadcast ι μ :=
  { b with
    applied := Function.update b.applied i b.order.length
    applied_le := fun j => by
      rcases eq_or_ne j i with rfl | hj
      · simp
      · simpa [hj] using b.applied_le j }

variable {b b' : Broadcast ι μ} {i j : ι} {m : μ}

@[simp] theorem from_append (order order' : List (ι × μ)) :
    from_ i (order ++ order') = from_ i order ++ from_ i order' := by simp [from_]

theorem from_singleton : from_ j [(i, m)] = if i = j then [m] else [] := by
  by_cases h : i = j <;> simp [from_, h]

@[simp] theorem sentBy_init : (init : Broadcast ι μ).sentBy i = [] := rfl

theorem from_mono {order order' : List (ι × μ)} (h : order <+: order') :
    from_ i order <+: from_ i order' :=
  (h.filter _).map _

/-- What a node has applied from a sender is the first part of what the sender sent. -/
theorem from_delivered_prefix (b : Broadcast ι μ) (i j : ι) :
    from_ i (b.delivered j) <+: b.sentBy i :=
  (from_mono (b.delivered_prefix j)).trans (List.prefix_append _ _)

/-- An ordered message is one of its sender's. -/
theorem mem_sentBy_of_mem_order (h : (i, m) ∈ b.order) : m ∈ b.sentBy i :=
  List.mem_append_left _ (List.mem_map.mpr ⟨(i, m), by simpa using h, rfl⟩)

/-! ### What each operation changes -/

@[simp] theorem order_send : (b.send i m).order = b.order := rfl

@[simp] theorem delivered_send : (b.send i m).delivered j = b.delivered j := rfl

@[simp] theorem outbox_send_self : (b.send i m).outbox i = b.outbox i ++ [m] := by simp [send]

@[simp] theorem outbox_send_of_ne (h : j ≠ i) : (b.send i m).outbox j = b.outbox j := by
  simp [send, h]

@[simp] theorem sentBy_send_self : (b.send i m).sentBy i = b.sentBy i ++ [m] := by
  simp [sentBy, List.append_assoc]

@[simp] theorem sentBy_send_of_ne (h : j ≠ i) : (b.send i m).sentBy j = b.sentBy j := by
  simp [sentBy, h]

/-- Ordering a message appends it to the order and to nothing else. -/
theorem sequence_cases (h : b.sequence i = some b') :
    ∃ m waiting, b.outbox i = m :: waiting ∧ b'.order = b.order ++ [(i, m)] ∧
      b'.outbox = Function.update b.outbox i waiting ∧ b'.delivered = b.delivered := by
  rw [sequence] at h
  split at h
  · cases h
  · rename_i m waiting hout
    obtain rfl := Option.some.inj h
    exact ⟨m, waiting, hout, rfl, rfl,
      funext fun j => List.take_append_of_le_length (b.applied_le j)⟩

/-- **FIFO.** Ordering a message leaves the messages of every sender in the order of sending. -/
theorem sentBy_sequence (h : b.sequence i = some b') (j : ι) : b'.sentBy j = b.sentBy j := by
  obtain ⟨m, waiting, hout, horder, houtbox, -⟩ := sequence_cases h
  rw [sentBy, sentBy, horder, houtbox, from_append, from_singleton]
  rcases eq_or_ne j i with rfl | hj
  · simp [hout]
  · simp [hj, Ne.symm hj]

/-- Applying a message extends one prefix by the next message of the order. -/
theorem deliver_cases (h : b.deliver i = some b') :
    ∃ x, b.order[b.applied i]? = some x ∧ b'.order = b.order ∧ b'.outbox = b.outbox ∧
      b'.delivered = Function.update b.delivered i (b.delivered i ++ [x]) := by
  rw [deliver] at h
  split at h
  · rename_i hlt
    obtain rfl := Option.some.inj h
    have hx := List.getElem?_eq_getElem hlt
    refine ⟨_, hx, rfl, rfl, funext fun j => ?_⟩
    rw [b.delivered_concat hx]
    rcases eq_or_ne j i with rfl | hj
    · simp [delivered]
    · simp [delivered, hj]
  · cases h

theorem sentBy_deliver (h : b.deliver i = some b') (j : ι) : b'.sentBy j = b.sentBy j := by
  obtain ⟨x, -, horder, houtbox, -⟩ := deliver_cases h
  rw [sentBy, sentBy, horder, houtbox]

/-- A message that waits can be ordered. -/
theorem exists_sequence (h : b.outbox i ≠ []) : ∃ b', b.sequence i = some b' := by
  obtain ⟨m, waiting, hout⟩ := List.exists_cons_of_ne_nil h
  exact ⟨_, by rw [sequence, hout]⟩

/-- A node that is behind can apply the next message. -/
theorem exists_deliver (h : b.applied i < b.order.length) : ∃ b', b.deliver i = some b' :=
  ⟨_, dif_pos h⟩

@[simp] theorem order_crash : (b.crash i).order = b.order := rfl

@[simp] theorem delivered_crash : (b.crash i).delivered j = b.delivered j := rfl

@[simp] theorem outbox_crash_self : (b.crash i).outbox i = [] := by simp [crash]

@[simp] theorem outbox_crash_of_ne (h : j ≠ i) : (b.crash i).outbox j = b.outbox j := by
  simp [crash, h]

@[simp] theorem sentBy_crash_self : (b.crash i).sentBy i = from_ i b.order := by simp [sentBy]

@[simp] theorem sentBy_crash_of_ne (h : j ≠ i) : (b.crash i).sentBy j = b.sentBy j := by
  simp [sentBy, h]

@[simp] theorem order_join : (b.join i).order = b.order := rfl

@[simp] theorem outbox_join : (b.join i).outbox = b.outbox := rfl

@[simp] theorem sentBy_join : (b.join i).sentBy j = b.sentBy j := rfl

@[simp] theorem delivered_join_self : (b.join i).delivered i = b.order := by
  simp [delivered, join]

@[simp] theorem delivered_join_of_ne (h : j ≠ i) : (b.join i).delivered j = b.delivered j := by
  simp [delivered, join, h]

/-! ### Translated messages -/

section Map

variable {ν : Type*} {f : ι → μ → ν}

theorem map_send : (b.send i m).map f = (b.map f).send i (f i m) := by
  simp only [map, send, mk.injEq, true_and, and_true]
  funext j
  rcases eq_or_ne j i with rfl | hj
  · simp
  · simp [hj]

theorem map_sequence : (b.map f).sequence i = (b.sequence i).map (map f) := by
  rw [sequence, sequence]
  cases hout : b.outbox i with
  | nil => simp [map, hout]
  | cons m waiting =>
    simp only [map, hout, List.map_cons, Option.map_some, Option.some.injEq, mk.injEq,
      List.map_append, List.map_nil, true_and, and_true]
    funext j
    rcases eq_or_ne j i with rfl | hj
    · simp
    · simp [hj]

theorem map_deliver : (b.map f).deliver i = (b.deliver i).map (map f) := by
  by_cases h : b.applied i < b.order.length
  · have h' : (b.map f).applied i < (b.map f).order.length := by simpa [map] using h
    rw [deliver, deliver, dif_pos h, dif_pos h']
    rfl
  · have h' : ¬ (b.map f).applied i < (b.map f).order.length := by simpa [map] using h
    rw [deliver, deliver, dif_neg h, dif_neg h', Option.map_none]

theorem map_crash : (b.crash i).map f = (b.map f).crash i := by
  simp only [map, crash, mk.injEq, true_and, and_true]
  funext j
  rcases eq_or_ne j i with rfl | hj
  · simp
  · simp [hj]

theorem map_join : (b.join i).map f = (b.map f).join i := by
  simp [map, join]

end Map

end Broadcast
