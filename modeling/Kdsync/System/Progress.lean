import Kdsync.Library.Fairness
import Kdsync.System.Origin
import Kdsync.System.Outage
import Kdsync.System.Relay
import Mathlib.Data.ENat.Lattice
import Mathlib.Data.Prod.Lex

/-!
# The group makes progress

From some time on nobody crashes, and the two threads of each instance and Derecho are fair: a
query that is possible does not fail forever, a batch is replicated and marked, and messages are
ordered and applied (`Settled`). Then every event that an instance sends becomes part of the log
(`Settled.eventually_mem_log`), and every event of the log is replicated by all instances and erased
from all lists (`Settled.eventually_erased`), however many events are added meanwhile.

An event passes four stages, and each is reached by the rule of progress: the replica of an instance
applies it (`Settled.eventually_delivered`), the instance marks it or a later one
(`Settled.eventually_marked`), the mark becomes part of the total order
(`Settled.eventually_sequenced`), and the replicas apply the mark.
-/

namespace Kdsync

open Broadcast (from_)
open Machine (Execution)

/-! ### Steps on the way -/

section Steps

variable {c : Config} {s s' : System} {i j : UInt32} {a : Action}

/-- A replica that is behind applies the next message. -/
theorem exists_step_deliver (hi : i ∈ c.ids) (hup : (s.polling i).isSome)
    (hbehind : s.net.applied i < s.net.order.length) :
    ∃ s', step c s (i, .deliver) = some s' ∧ s'.net.applied i = s.net.applied i + 1 := by
  obtain ⟨p, hp⟩ := Option.isSome_iff_exists.mp hup
  obtain ⟨net, hnet⟩ := Broadcast.exists_deliver hbehind
  refine ⟨{ s with net }, ?_, ?_⟩
  · simp only [step, hi, if_true, act, hp, Option.bind_eq_bind, Option.bind_some, hnet,
      Option.map_some]
  · obtain ⟨m, -, -, -, hdelivered⟩ := Broadcast.deliver_cases hnet
    rw [← Broadcast.length_delivered, ← Broadcast.length_delivered, hdelivered,
      Function.update_self, List.length_append, List.length_singleton]

/-- Without restarts, only a replica itself applies messages. -/
theorem Effect.applied_eq (he : Effect c s j a s') (hsteady : a.Steady)
    (hother : (j, a) ≠ (i, .deliver)) : s'.net.applied i = s.net.applied i := by
  rw [← Broadcast.length_delivered, ← Broadcast.length_delivered]
  cases he with
  | sequenced hnet =>
    obtain ⟨m, waiting, -, -, -, hdelivered⟩ := Broadcast.sequence_cases hnet
    rw [hdelivered]
  | delivered _ hnet =>
    obtain ⟨m, -, -, -, hdelivered⟩ := Broadcast.deliver_cases hnet
    have hij : i ≠ j := fun heq => hother (by rw [heq])
    simp only [hdelivered, Function.update_of_ne hij]
  | crashed => exact hsteady.elim
  | rejoined => exact hsteady.elim
  | _ => rfl

/-- The oldest message of an instance can be ordered. -/
theorem exists_step_sequence (hi : i ∈ c.ids) (hout : s.net.outbox i ≠ []) :
    ∃ s', step c s (i, .sequence) = some s' ∧
      (from_ i s'.net.order).length = (from_ i s.net.order).length + 1 := by
  obtain ⟨net, hnet⟩ := Broadcast.exists_sequence hout
  refine ⟨{ s with net }, by simp only [step, hi, if_true, act, hnet, Option.map_some], ?_⟩
  obtain ⟨m, waiting, -, horder, -⟩ := Broadcast.sequence_cases hnet
  rw [horder, Broadcast.from_append, Broadcast.from_singleton, if_pos rfl, List.length_append,
    List.length_singleton]

/-- An action other than its own `sequence` leaves the ordered messages of an instance as they are.
-/
theorem Effect.from_order_eq (he : Effect c s j a s') (hother : (j, a) ≠ (i, .sequence)) :
    from_ i s'.net.order = from_ i s.net.order := by
  cases he with
  | sequenced hnet =>
    obtain ⟨m, waiting, -, horder, -⟩ := Broadcast.sequence_cases hnet
    have hji : j ≠ i := fun heq => hother (by rw [heq])
    rw [horder, Broadcast.from_append, Broadcast.from_singleton, if_neg hji, List.append_nil]
  | delivered _ hnet =>
    obtain ⟨m, -, horder, -⟩ := Broadcast.deliver_cases hnet
    rw [horder]
  | _ => rfl

/-- An action other than a crash loses no message of any instance. -/
theorem Effect.sentBy_prefix (he : Effect c s j a s') (hsteady : a.Steady) (i : UInt32) :
    s.net.sentBy i <+: s'.net.sentBy i := by
  cases he with
  | added =>
    rcases eq_or_ne i j with rfl | hij
    · simp
    · simp [hij]
  | marked =>
    rcases eq_or_ne i j with rfl | hij
    · simp
    · simp [hij]
  | sequenced hnet => rw [Broadcast.sentBy_sequence hnet]
  | delivered _ hnet => rw [Broadcast.sentBy_deliver hnet]
  | crashed => exact hsteady.elim
  | _ => exact List.prefix_rfl

/-! ### From a query to a mark -/

/-- What `derecho_polling` does next. -/
def System.nextAction (s : System) (i : UInt32) : Action :=
  match s.polling i with
  | some ⟨_, some ⟨_ :: _, _, _⟩⟩ => .replicate
  | some ⟨_, some ⟨[], _, _⟩⟩ => .mark
  | _ => .query

/-- What is left until the event at position `p` is marked: the events up to it that are not marked,
and the events of the batch. -/
def System.leftUntil (s : System) (i : UInt32) (p : ℕ) : ℕ ×ₗ ℕ∞ :=
  toLex (p + 1 - marksUpto (s.net.sentBy i),
    match s.polling i with
    | some ⟨_, some b⟩ => (b.rest.length : ℕ∞)
    | _ => ⊤)

/-- A query returns events as long as the instance is not through with its replica. -/
theorem exists_step_query (h : Exact c s) (hw : WellFormed c s) (hlog : Distinct s.log)
    (hi : i ∈ c.ids) (hlen : (s.list c i).events.length ≤ intMax) {lastEvent : Option Served}
    (hp : s.polling i = some ⟨lastEvent, none⟩) (hdone : s.done i < (s.localLog i).length) :
    ∃ b, step c s (i, .query) = some (s.setPolling i (some ⟨lastEvent, some b⟩)) := by
  obtain ⟨events, hq, hcontents⟩ := h.query_eq_take hw hlog hi hp hlen
  obtain ⟨back, hback⟩ : ∃ back, events.getLast? = some back := by
    refine Option.isSome_iff_exists.mp (List.getLast?_isSome.mpr ?_)
    rintro rfl
    have hlength := congrArg List.length hcontents
    have hchunk := c.chunk_pos
    simp only [List.map_nil, List.length_nil, List.length_take, List.length_drop,
      List.length_map] at hlength
    omega
  refine ⟨⟨events, s.erased c i + s.first c i lastEvent, back⟩, ?_⟩
  simp only [step, hi, if_true, act, hp, Option.bind_eq_bind, Option.bind_some, hq, hback]

/-- **The next action of `derecho_polling`** is possible and brings the mark closer. -/
theorem exists_step_next (h : Exact c s) (hw : WellFormed c s) (hlog : Distinct s.log)
    (hi : i ∈ c.ids) (hup : (s.polling i).isSome) (hlen : (s.list c i).events.length ≤ intMax)
    {p : ℕ} (hp : p < (s.localLog i).length) (hunmarked : marksUpto (s.net.sentBy i) ≤ p) :
    ∃ s', step c s (i, s.nextAction i) = some s' ∧
      (p < marksUpto (s'.net.sentBy i) ∨ s'.leftUntil i p < s.leftUntil i p) := by
  obtain ⟨⟨lastEvent, batch⟩, hpolling⟩ := Option.isSome_iff_exists.mp hup
  cases batch with
  | none =>
    have hdone : s.done i = marksUpto (s.net.sentBy i) := by simp [System.done, hpolling]
    obtain ⟨b, hstep⟩ := exists_step_query h hw hlog hi hlen hpolling (by omega)
    refine ⟨_, by rwa [System.nextAction, hpolling], .inr ?_⟩
    rw [System.leftUntil, System.leftUntil, hpolling, System.polling_setPolling_self,
      Prod.Lex.toLex_lt_toLex]
    exact .inr ⟨rfl, ENat.natCast_lt_top _⟩
  | some b =>
    obtain ⟨rest, next, back⟩ := b
    cases rest with
    | cons event rest =>
      refine ⟨(s.setPolling i (some ⟨lastEvent, some ⟨rest, next + 1, back⟩⟩)).replicateEvent i
        ⟨event, next⟩, ?_, .inr ?_⟩
      · simp only [System.nextAction, hpolling, step, hi, if_true, act, Option.bind_eq_bind,
          Option.bind_some]
      · rw [System.leftUntil, System.leftUntil, hpolling, System.polling_replicateEvent,
          System.polling_setPolling_self, Prod.Lex.toLex_lt_toLex]
        refine .inr ⟨rfl, ?_⟩
        simp only [List.length_cons]
        exact_mod_cast Nat.lt_succ_self _
    | nil =>
      refine ⟨(s.setPolling i (some ⟨some ⟨back, next - 1⟩, none⟩)).orderedSend i
        (.markProduced ⟨back, next - 1⟩), ?_, ?_⟩
      · simp only [System.nextAction, hpolling, step, hi, if_true, act, Option.bind_eq_bind,
          Option.bind_some]
      · -- the new mark is further on than the marks before
        have hle := (((h.instances i).polling _ hpolling).marked).1
        rw [System.net_orderedSend, System.net_setPolling, Broadcast.sentBy_send_self,
          marksUpto_markProduced]
        refine or_iff_not_imp_left.mpr fun hp => ?_
        rw [System.leftUntil, System.leftUntil, Prod.Lex.toLex_lt_toLex, System.net_orderedSend,
          System.net_setPolling, Broadcast.sentBy_send_self, marksUpto_markProduced]
        exact .inl (by dsimp only at hp ⊢; omega)

/-- An action other than the next one of an instance leaves its distance and its next action as they
are. -/
theorem leftUntil_step (hstep : step c s (j, a) = some s') (hsteady : a.Steady)
    (hother : (j, a) ≠ (i, s.nextAction i)) (p : ℕ) :
    s'.leftUntil i p = s.leftUntil i p ∧ s'.nextAction i = s.nextAction i := by
  obtain ⟨-, he⟩ := Effect.of_step hstep
  suffices hsame : s'.polling i = s.polling i ∧
      marksUpto (s'.net.sentBy i) = marksUpto (s.net.sentBy i) by
    simp only [System.leftUntil, System.nextAction, hsame, and_self]
  rcases eq_or_ne i j with rfl | hij
  · have hne : a ≠ s.nextAction i := fun heq => hother (by rw [heq])
    cases he with
    | added => simp
    | sequenced hnet => exact ⟨rfl, by rw [Broadcast.sentBy_sequence hnet]⟩
    | delivered _ hnet => exact ⟨rfl, by rw [Broadcast.sentBy_deliver hnet]⟩
    | served hp => exact absurd (by simp only [System.nextAction, hp]) hne
    | replicated hp => exact absurd (by simp only [System.nextAction, hp]) hne
    | marked hp => exact absurd (by simp only [System.nextAction, hp]) hne
    | crashed => exact hsteady.elim
    | rejoined => exact hsteady.elim
    | _ => exact ⟨rfl, rfl⟩
  · exact ⟨he.polling_of_ne hij, by rw [he.sentBy_of_ne hij]⟩

end Steps

/-! ### Settled executions -/

/-- The actions of `derecho_polling` and of Derecho. -/
def Action.internal : List Action := [.query, .replicate, .mark, .sequence, .deliver]

/-- From step `n₀` on all instances are up and nobody crashes, and the execution is fair to what
they do, apart from `kafka_polling`. No triple is added twice, and the lists stay in range. -/
structure Settled (c : Config) (x : Execution (step c)) (n₀ : ℕ) : Prop where
  start : x.state 0 = .init
  distinct : ∀ n, Distinct (x.state n).log
  inRange : ∀ n ≥ n₀, ∀ i ∈ c.ids, ((x.state n).list c i).events.length ≤ intMax
  up : ∀ i ∈ c.ids, ((x.state n₀).polling i).isSome
  steady : ∀ n ≥ n₀, (x.action n).2.Steady
  fair : ∀ i ∈ c.ids, ∀ a ∈ Action.internal, x.Fair (i, a)

namespace Settled

variable {c : Config} {x : Execution (step c)} {n₀ n m : ℕ} {i : UInt32}

theorem effect (x : Execution (step c)) (n : ℕ) :
    (x.action n).1 ∈ c.ids ∧ Effect c (x.state n) (x.action n).1 (x.action n).2 (x.state (n + 1)) :=
  Effect.of_step (x.next n)

/-- The total order only grows. -/
theorem order_prefix (x : Execution (step c)) (hle : n ≤ m) :
    (x.state n).net.order <+: (x.state m).net.order :=
  x.stable (P := fun s => (x.state n).net.order <+: s.net.order)
    (fun k _ h => h.trans (Effect.order_prefix (effect x k).2)) (Nat.zero_le n) hle
    List.prefix_rfl

theorem delivered_prefix (x : Execution (step c)) (hle : n ≤ m) (i : UInt32) :
    (x.state n).net.delivered i <+: (x.state m).net.delivered i :=
  x.stable (P := fun s => (x.state n).net.delivered i <+: s.net.delivered i)
    (fun k _ h => h.trans (Effect.delivered_prefix (effect x k).2 i)) (Nat.zero_le n) hle
    List.prefix_rfl

variable (h : Settled c x n₀)

include h

theorem sentBy_prefix (hn : n₀ ≤ n) (hle : n ≤ m) (i : UInt32) :
    (x.state n).net.sentBy i <+: (x.state m).net.sentBy i :=
  x.stable (P := fun s => (x.state n).net.sentBy i <+: s.net.sentBy i)
    (fun k hk h' => h'.trans (Effect.sentBy_prefix (effect x k).2 (h.steady k hk) i)) hn hle
    List.prefix_rfl

theorem isUp (hn : n₀ ≤ n) (hi : i ∈ c.ids) : ((x.state n).polling i).isSome := by
  refine x.stable (P := fun s => (s.polling i).isSome) (fun k hk hup => ?_) le_rfl hn (h.up i hi)
  refine (effect x k).2.isSome_polling (fun hcrash => ?_) hup
  have hsteady := h.steady k hk
  rwa [hcrash] at hsteady

theorem exact (n : ℕ) : WellFormed c (x.state n) ∧ Exact c (x.state n) := by
  have hrun := x.run n
  rw [h.start] at hrun
  obtain ⟨hw, hexact, -⟩ := exists_relay_of_run hrun (h.distinct n)
  exact ⟨hw, hexact⟩

/-- A replica never gets back an event that it has erased. -/
theorem erased_mono (hle : n ≤ m) (i : UInt32) :
    (x.state n).erased c i ≤ (x.state m).erased c i :=
  x.stable (P := fun s => (x.state n).erased c i ≤ s.erased c i)
    (fun k _ h' => h'.trans
      ((h.exact k).1.erased_mono (h.exact (k + 1)).1 (effect x k).2 i)) (Nat.zero_le n) hle le_rfl

/-- What is ordered is applied by every replica. -/
theorem eventually_delivered (hn : n₀ ≤ n) (hi : i ∈ c.ids) :
    ∃ m ≥ n, (x.state n).net.order <+: (x.state m).net.delivered i := by
  set count := (x.state n).net.order.length
  have hreach : ∃ m ≥ n, count ≤ (x.state m).net.applied i := by
    refine x.eventually (fun s => count ≤ s.net.applied i) (fun s => count - s.net.applied i)
      (fun _ => (i, .deliver)) (fun _ _ _ => h.fair i hi _ (by decide)) (fun k hk hbehind => ?_)
      fun k hk _ hother => .inr ?_
    · have hlength : count ≤ (x.state k).net.order.length := (Settled.order_prefix x hk).length_le
      obtain ⟨s', hstep, happlied⟩ :=
        exists_step_deliver hi (h.isUp (hn.trans hk) hi) (by omega)
      exact ⟨s', hstep, .inr (by omega)⟩
    · rw [(effect x k).2.applied_eq (h.steady k (hn.trans hk)) hother]
      exact ⟨rfl, rfl⟩
  obtain ⟨m, hm, hgoal⟩ := hreach
  refine ⟨m, hm, List.prefix_of_prefix_length_le (Settled.order_prefix x hm)
    (Broadcast.delivered_prefix (x.state m).net i) ?_⟩
  rwa [Broadcast.length_delivered]

/-- What is sent is ordered. -/
theorem eventually_sequenced (hn : n₀ ≤ n) (hi : i ∈ c.ids) :
    ∃ m ≥ n, (x.state n).net.sentBy i <+: from_ i (x.state m).net.order := by
  set count := ((x.state n).net.sentBy i).length
  have hreach : ∃ m ≥ n, count ≤ (from_ i (x.state m).net.order).length := by
    refine x.eventually (fun s => count ≤ (from_ i s.net.order).length)
      (fun s => count - (from_ i s.net.order).length) (fun _ => (i, .sequence))
      (fun _ _ _ => h.fair i hi _ (by decide)) (fun k hk hwaiting => ?_)
      fun k hk _ hother => .inr ?_
    · -- the messages that are not ordered wait
      have hout : (x.state k).net.outbox i ≠ [] := by
        intro hnil
        have hlength : count ≤ ((x.state k).net.sentBy i).length :=
          (h.sentBy_prefix hn hk i).length_le
        rw [Broadcast.sentBy, hnil, List.append_nil] at hlength
        exact hwaiting hlength
      obtain ⟨s', hstep, hlength⟩ := exists_step_sequence hi hout
      exact ⟨s', hstep, .inr (by omega)⟩
    · rw [(effect x k).2.from_order_eq hother]
      exact ⟨rfl, rfl⟩
  obtain ⟨m, hm, hgoal⟩ := hreach
  exact ⟨m, hm, List.prefix_of_prefix_length_le (h.sentBy_prefix hn hm i)
    (List.prefix_append _ _) hgoal⟩

/-- Every event that the replica of an instance has received is marked by the instance at some time.
-/
theorem eventually_marked (hn : n₀ ≤ n) (hi : i ∈ c.ids) {p : ℕ}
    (hp : p < ((x.state n).localLog i).length) :
    ∃ m ≥ n, p < marksUpto ((x.state m).net.sentBy i) := by
  refine x.eventually (fun s => p < marksUpto (s.net.sentBy i)) (fun s => s.leftUntil i p)
    (fun s => (i, s.nextAction i)) (fun k _ _ => h.fair i hi _ ?_) (fun k hk hunmarked => ?_)
    fun k hk _ hother => .inr ?_
  · rw [System.nextAction]
    split <;> decide
  · obtain ⟨hw, hexact⟩ := h.exact k
    have hlocal := (Kdsync.added_calls_prefix (Settled.delivered_prefix x hk i)).length_le
    exact exists_step_next hexact hw (h.distinct k) hi (h.isUp (hn.trans hk) hi)
      (h.inRange k (hn.trans hk) i hi) (hp.trans_le hlocal) (Nat.le_of_not_lt hunmarked)
  · obtain ⟨hleft, hnext⟩ := leftUntil_step (x.next k) (h.steady k (hn.trans hk)) hother p
    exact ⟨hleft, by rw [hnext]⟩

/-- The ordered marks of an instance reach every event of the log. -/
theorem eventually_ordered_mark (hn : n₀ ≤ n) (hi : i ∈ c.ids) {p : ℕ}
    (hp : p < (x.state n).log.length) :
    ∃ m ≥ n, p < marksUpto (from_ i (x.state m).net.order) := by
  obtain ⟨m₁, hm₁, hdelivered⟩ := h.eventually_delivered hn hi
  have hlocal := (Kdsync.added_calls_prefix hdelivered).length_le
  obtain ⟨m₂, hm₂, hmarked⟩ :=
    h.eventually_marked (hn.trans hm₁) hi (p := p) (hp.trans_le hlocal)
  obtain ⟨m₃, hm₃, hordered⟩ := h.eventually_sequenced (hn.trans (hm₁.trans hm₂)) hi
  refine ⟨m₃, hm₁.trans (hm₂.trans hm₃), hmarked.trans_le ?_⟩
  have hadvancing := ((h.exact m₃).2.instances i).advancing
  exact (hadvancing.of_prefix (List.prefix_append _ _)).marksUpto_le hordered

/-- An event of the log is erased from all lists, after all instances have replicated it. -/
theorem eventually_erased (hn : n₀ ≤ n) {p : ℕ} (hp : p < (x.state n).log.length) :
    ∃ m ≥ n, ∀ i ∈ c.ids, p < (x.state m).erased c i ∧ Covers SameEvent (x.state m) i p := by
  have hkeep : ∀ i ∈ c.ids, ∀ k ≥ n, p < marksUpto (from_ i (x.state k).net.order) →
      p < marksUpto (from_ i (x.state (k + 1)).net.order) := by
    intro i _ k _ hlt
    have hadvancing := ((h.exact (k + 1)).2.instances i).advancing
    exact hlt.trans_le ((hadvancing.of_prefix (List.prefix_append _ _)).marksUpto_le
      (Broadcast.from_mono (Effect.order_prefix (effect x k).2)))
  -- the ordered marks of all instances reach the event
  obtain ⟨m₁, hm₁, hmarked⟩ := x.eventually_forall c.ids
    (fun i s => p < marksUpto (from_ i s.net.order)) hkeep
    fun i hi => h.eventually_ordered_mark hn hi hp
  -- and all replicas apply them
  obtain ⟨m₂, hm₂, hdelivered⟩ := x.eventually_forall c.ids
    (fun r s => (x.state m₁).net.order <+: s.net.delivered r)
    (fun r _ k _ hle => hle.trans (Effect.delivered_prefix (effect x k).2 r))
    fun r hr => h.eventually_delivered (hn.trans hm₁) hr
  refine ⟨m₂, hm₁.trans hm₂, fun r hr => ?_⟩
  obtain ⟨hw, hexact⟩ := h.exact m₂
  have herased : p < (x.state m₂).erased c r := by
    rw [hw.erased_eq, ← Nat.succ_le_iff, CursorLog.le_low_iff]
    intro i hi
    rw [hexact.cursor_eq]
    have hadvancing := (hexact.instances i).advancing.of_prefix
      (Broadcast.from_delivered_prefix (x.state m₂).net i r)
    exact (hmarked i hi).trans_le (hadvancing.marksUpto_le (Broadcast.from_mono (hdelivered r hr)))
  have hrun := x.run m₂
  rw [h.start] at hrun
  obtain ⟨_, -, hpassed⟩ := passed_of_run hrun (h.distinct m₂) r
  exact ⟨herased, covers_of_mem_trace hw
    (hpassed.mem_output (herased.trans_le (hexact.erased_le_done hw hr r)))⟩

/-- What an instance sends becomes part of the log. -/
theorem eventually_mem_log (hn : n₀ ≤ n) (hi : i ∈ c.ids) {event : ReplicatedEvent}
    (hevent : event ∈ (x.state n).sentEvents i) : ∃ m ≥ n, event ∈ (x.state m).log := by
  obtain ⟨m, hm, hordered⟩ := h.eventually_sequenced hn hi
  refine ⟨m, hm, ?_⟩
  obtain ⟨call, hcall, hadded⟩ := List.mem_filterMap.mp hevent
  obtain ⟨rpc, hrpc, rfl⟩ := List.mem_map.mp hcall
  obtain ⟨message, hmessage, rfl⟩ := List.mem_map.mp (hordered.subset hrpc)
  obtain ⟨hmem, hsender⟩ := List.mem_filter.mp hmessage
  obtain rfl : message.1 = i := by simpa using hsender
  exact List.mem_filterMap.mpr ⟨_, List.mem_map_of_mem hmem, hadded⟩

end Settled

end Kdsync
