import Kdsync.System.Search

/-!
# Events covered by replicated ones

Every event is sent at least once if no instance marks an event it has not replicated. An
instance never does so on purpose, but both searches of the program compare triples only: the
query may start behind a colliding event, and a mark may reach past its target when the target is
gone. Every event it passes over then counts as replicated.

`Covered` is the invariant: there is a front for each instance such that it has replicated all
events below it, and its marks, its `last_event`, its batch and its cursors on all replicas stay
at or below it. `OnlyPasses` is the condition under which a search passes over events that the
instance has replicated already, and `Covered.effect` the step lemma under this condition. Both
take a relation that says when one event stands for another.
-/

namespace Kdsync

/-- The first event stands for the second: a transitive relation that holds at equal positions. -/
structure StandsFor (rel : Served → Served → Prop) : Prop where
  located : ∀ {x y}, x.position = y.position → x.event.content = y.event.content → rel x y
  trans : ∀ {x y z}, rel x y → rel y z → rel x z

/-- Instance `i` has replicated an event that stands for the one at position `p`. -/
def Covers (rel : Served → Served → Prop) (s : System) (i : UInt32) (p : ℕ) : Prop :=
  ∃ e, s.log[p]? = some e ∧ ∃ x ∈ s.replicated i, rel x ⟨e, p⟩

/-- Each event from position `lo` to `hi` is one for which an event not later than `x` stands. -/
def OnlyPasses (rel : Served → Served → Prop) (s : System) (x : Served) (lo hi : ℕ) : Prop :=
  ∀ p < hi, lo ≤ p → ∀ e ∈ s.log[p]?, ∃ q ≤ x.position, ∃ e' ∈ s.log[q]?, rel ⟨e', q⟩ ⟨e, p⟩

instance (rel : Served → Served → Prop) [DecidableRel rel] (s : System) (x : Served) (lo hi : ℕ) :
    Decidable (OnlyPasses rel s x lo hi) :=
  inferInstanceAs (Decidable (∀ p < hi, _))

/-- What the search of an action passes over is already replicated, and nobody crashes. -/
def Passes (rel : Served → Served → Prop) (c : Config) (s : System) (a : UInt32 × Action) : Prop :=
  match a.2 with
  | .query => ∀ x ∈ s.lookedFor a.1,
    OnlyPasses rel s x (s.erased c a.1) (s.erased c a.1 + s.first c a.1 (some x))
  | .deliver => ∀ x ∈ s.nextMark a.1,
    OnlyPasses rel s x (s.erased c a.1) (s.erased c a.1 + (s.list c a.1).reach x.event)
  | .crash | .rejoin => False
  | _ => True

instance (rel : Served → Served → Prop) [DecidableRel rel] (c : Config) (s : System)
    (a : UInt32 × Action) : Decidable (Passes rel c s a) :=
  match a with
  | (_, .query) => inferInstanceAs (Decidable (∀ x ∈ _, OnlyPasses rel s x _ _))
  | (_, .deliver) => inferInstanceAs (Decidable (∀ x ∈ _, OnlyPasses rel s x _ _))
  | (_, .crash) | (_, .rejoin) => isFalse id
  | (_, .kafkaPoll _) | (_, .queryFails) | (_, .replicate) | (_, .mark) | (_, .sequence) =>
    isTrue trivial

/-! ### The invariant -/

/-- Each instance has replicated the events below its front, and nothing it says is further on. -/
structure Covered (rel : Served → Served → Prop) (c : Config) (s : System) (front : UInt32 → ℕ) :
    Prop where
  covers : ∀ j, ∀ p < front j, Covers rel s j p
  marks : ∀ j x, .markProduced x ∈ s.net.sentBy j → x.position < front j
  polling : ∀ j p, s.polling j = some p → p.Within 0 (front j)
  cursors : ∀ r j, (s.cursors c r).cursor j ≤ front j

namespace Covered

variable {rel : Served → Served → Prop} {c : Config} {s s' : System} {front : UInt32 → ℕ}
  {i : UInt32} {a : Action}

theorem init (rel : Served → Served → Prop) (c : Config) : Covered rel c .init fun _ => 0 where
  covers j p hp := absurd hp (Nat.not_lt_zero p)
  marks j x hx := by simp at hx
  polling j p hp := by
    obtain rfl := Option.some.inj hp
    exact .start 0 0
  cursors r j := (cursor_eq_zero_of_unmarked (by simp) r).le

/-- The front of an instance may move over events it has replicated. -/
theorem raise (h : Covered rel c s front) (i : UInt32) (k : ℕ)
    (hcovers : ∀ p, front i ≤ p → p < k → Covers rel s i p) :
    Covered rel c s (Function.update front i (max (front i) k)) := by
  have hle : ∀ j, front j ≤ Function.update front i (max (front i) k) j := by
    intro j
    rcases eq_or_ne j i with rfl | hj
    · simp
    · simp [hj]
  refine ⟨fun j p hp => ?_, fun j x hx => (h.marks j x hx).trans_le (hle j),
    fun j p hp => (h.polling j p hp).mono (hle j), fun r j => (h.cursors r j).trans (hle j)⟩
  -- below the old front nothing has changed
  rcases Nat.lt_or_ge p (front j) with hlt | hge
  · exact h.covers j p hlt
  · rcases eq_or_ne j i with rfl | hj
    · refine hcovers p hge ?_
      rw [Function.update_self] at hp
      omega
    · rw [Function.update_of_ne hj] at hp
      omega

/-- What a search passes over is covered, if an event up to `x` stands for each of it. -/
theorem covers_of_onlyPasses (h : Covered rel c s front) (hrel : StandsFor rel) {x : Served}
    {lo hi p : ℕ} (hx : x.position < front i) (hpasses : OnlyPasses rel s x lo hi)
    (hhi : hi ≤ s.log.length) (hlo : lo ≤ p) (hp : p < hi) : Covers rel s i p := by
  have he := List.getElem?_eq_getElem (hp.trans_le hhi)
  obtain ⟨q, hq, e', he', hsame⟩ := hpasses p hp hlo _ he
  obtain ⟨e'', he'', y, hy, hrel'⟩ := h.covers i q (hq.trans_lt hx)
  obtain rfl := Option.some.inj (he'.symm.trans he'')
  exact ⟨_, he, y, hy, hrel.trans hrel' hsame⟩

private theorem marks_effect (h : Covered rel c s front) (hw : WellFormed c s)
    (he : Effect c s i a s') (j : UInt32) (x : Served)
    (hx : .markProduced x ∈ s'.net.sentBy j) : x.position < front j := by
  obtain hx | ⟨event, heq, -⟩ | ⟨-, rfl, lastEvent, next, back, hp, heq⟩ :=
    he.mem_sentBy hx
  · exact h.marks j x hx
  · cases heq
  · obtain rfl := Rpc.markProduced.inj heq
    exact ((h.polling _ _ hp).marked (hw.next_pos hp)).lastEvent _ rfl

/-- An event that an instance has replicated before a step is one that it has replicated after it.
-/
private theorem covers_effect (he : Effect c s i a s') {j : UInt32} {p : ℕ}
    (h : Covers rel s j p) : Covers rel s' j p := by
  obtain ⟨e, hlog, x, hx, hrel⟩ := h
  exact ⟨e, getElem?_mono he.log_prefix hlog, x, he.replicated_subset j hx, hrel⟩

/-- A query starts at or below the front, after the front has moved over what it passes. -/
private theorem exists_front_query (h : Covered rel c s front) (hrel : StandsFor rel)
    (hw : WellFormed c s) (hi : i ∈ c.ids) (hpasses : Passes rel c s (i, .query))
    {lastEvent : Option Served} (hp : s.polling i = some ⟨lastEvent, none⟩) :
    ∃ front', Covered rel c s front' ∧ s.erased c i + s.first c i lastEvent ≤ front' i := by
  have hcursor : s.erased c i ≤ (s.cursors c i).cursor i :=
    (hw.erased_eq i).trans_le (CursorLog.low_le_cursor hi)
  cases lastEvent with
  | none =>
    -- `get_events` goes by the marks on the own replica, which are not past the front
    refine ⟨front, h, ?_⟩
    rw [hw.start_none hi]
    exact h.cursors i i
  | some x =>
    set start := s.erased c i + s.first c i (some x) with hstart
    have hle : start ≤ s.log.length := by
      have hfirst := EventList.firstNotReplicatedFrom_le (s.list c i) x.event.topic
        x.event.partition x.event.offset
      have hlength := hw.erased_add_length i
      have hlog := (localLog_prefix_log s i).length_le
      simp only [hstart, System.first]
      omega
    -- `get_events_from` may start past the front, over events that are covered all the same
    refine ⟨_, h.raise i start fun p hge hlt => ?_, by simp⟩
    have hlow := h.cursors i i
    have hlooked : x ∈ s.lookedFor i := by simp [System.lookedFor, hp]
    exact h.covers_of_onlyPasses hrel ((h.polling _ _ hp).lastEvent x rfl) (hpasses x hlooked) hle
      ((hcursor.trans hlow).trans hge) hlt

/-- New local variables that keep to the front leave the fronts covered. -/
private theorem setPolling (h : Covered rel c s front) {p : Polling} (hp : p.Within 0 (front i)) :
    Covered rel c (s.setPolling i (some p)) front where
  covers := h.covers
  marks := h.marks
  polling j q hq := by
    obtain ⟨rfl, hnew⟩ | ⟨-, hold⟩ := System.polling_setPolling hq
    · exact Option.some.inj hnew ▸ hp
    · exact h.polling _ _ hold
  cursors := h.cursors

/-- Replicating the next event of a batch moves the front behind it. -/
private theorem replicateEvent (h : Covered rel c s front) (hrel : StandsFor rel) {x : Served}
    (hx : x.In s.log) (hnext : x.position ≤ front i) :
    Covered rel c (s.replicateEvent i x)
      (Function.update front i (max (front i) (x.position + 1))) := by
  have hsubset : ∀ j, s.replicated j ⊆ (s.replicateEvent i x).replicated j := by
    intro j
    rcases eq_or_ne j i with rfl | hj
    · simp [System.replicateEvent]
    · simp [System.replicateEvent, hj]
  have hcovered : Covered rel c (s.replicateEvent i x) front := by
    refine ⟨fun j p hp => ?_, h.marks, h.polling, h.cursors⟩
    obtain ⟨e, he, y, hy, hsame⟩ := h.covers j p hp
    exact ⟨e, he, y, hsubset j hy, hsame⟩
  refine hcovered.raise i _ fun p hge hlt => ?_
  obtain rfl : p = x.position := by omega
  obtain ⟨e, he, hcontent⟩ := Option.map_eq_some_iff.mp hx
  exact ⟨e, he, x, by simp [System.replicateEvent], hrel.located rfl hcontent.symm⟩

/-- The call a replica applies moves no cursor past the front, after the front has moved over what
a mark passes. -/
private theorem exists_front_deliver (h : Covered rel c s front) (hrel : StandsFor rel)
    (hw : WellFormed c s) (hpasses : Passes rel c s (i, .deliver)) {m : UInt32 × Rpc}
    (hm : s.net.order[s.net.applied i]? = some m) :
    ∃ front', Covered rel c s front' ∧
      ∀ j, ((s.cursors c i).apply (m.2.call m.1)).cursor j ≤ front' j := by
  obtain ⟨j, rpc⟩ := m
  cases rpc with
  | addEvent e => exact ⟨front, h, h.cursors i⟩
  | markProduced x =>
    have hsent := Broadcast.mem_sentBy_of_mem_order (List.mem_of_getElem? hm)
    have hmem : j ∈ c.ids := hw.calls_by j _ hsent
    have hcursor : s.erased c i ≤ front j :=
      (hw.erased_eq i).trans_le ((CursorLog.low_le_cursor hmem).trans (h.cursors i j))
    have hle : s.erased c i + (s.list c i).reach x.event ≤ s.log.length := by
      have hlength := hw.erased_add_length i
      have hlog := (localLog_prefix_log s i).length_le
      rw [EventList.reach]
      omega
    have hmark : x ∈ s.nextMark i := by simp [System.nextMark, hm]
    -- a mark counts for its sender, so it is the front of the sender that moves
    refine ⟨_, h.raise j (s.erased c i + (s.list c i).reach x.event) fun p hge hlt => ?_,
      fun k => ?_⟩
    · exact h.covers_of_onlyPasses hrel (h.marks j x hsent) (hpasses x hmark) hle
        (hcursor.trans hge) hlt
    · rcases eq_or_ne k j with rfl | hk
      · rw [Function.update_self]
        exact (hw.cursor_mark i k x.event).trans_le (max_le_max (h.cursors i k) le_rfl)
      · rw [Function.update_of_ne hk]
        exact (CursorLog.cursor_advance_of_ne hk).trans_le (h.cursors i k)

/-- **One step.** If no search passes over an event that is not replicated, the fronts exist after
the step as well. -/
theorem effect (h : Covered rel c s front) (hrel : StandsFor rel) (hw : WellFormed c s)
    (hi : i ∈ c.ids) (hpasses : Passes rel c s (i, a)) (he : Effect c s i a s') :
    ∃ front', Covered rel c s' front' := by
  have hmarks := fun {front} (h : Covered rel c s front) => h.marks_effect hw he
  have hcovers : ∀ j p, Covers rel s j p → Covers rel s' j p := fun _ _ => covers_effect he
  cases he with
  | served hp hq hback =>
    obtain ⟨front', h, hstart⟩ := h.exists_front_query hrel hw hi hpasses hp
    exact ⟨front', h.setPolling ((h.polling _ _ hp).served (Nat.zero_le _) hstart)⟩
  | replicated hp =>
    have hx := ((hw.polling _ _ hp).batch _ rfl).rest 0 _ rfl
    have hwithin := h.polling _ _ hp
    have hcovered := h.replicateEvent hrel (hx.mono (localLog_prefix_log s i))
      (hwithin.batch _ rfl).2
    exact ⟨_, hcovered.setPolling (by simpa using hwithin.replicated)⟩
  | marked hp =>
    have hcovered := h.setPolling ((h.polling _ _ hp).marked (hw.next_pos hp))
    exact ⟨front, h.covers, hmarks h, hcovered.polling, h.cursors⟩
  | sequenced hnet =>
    exact ⟨front, fun j p hp => hcovers j p (h.covers j p hp), hmarks h, h.polling,
      fun r j => (cursors_sequence hnet) ▸ h.cursors r j⟩
  | delivered _ hnet =>
    obtain ⟨m, hm, hself, hother⟩ := cursors_deliver (c := c) hnet
    obtain ⟨front', h, hcursors⟩ := h.exists_front_deliver hrel hw hpasses hm
    refine ⟨front', fun j p hp => hcovers j p (h.covers j p hp), hmarks h, h.polling,
      fun r j => ?_⟩
    rcases eq_or_ne r i with rfl | hr
    · rw [hself]
      exact hcursors j
    · rw [hother r hr]
      exact h.cursors r j
  | crashed => exact hpasses.elim
  | rejoined => exact hpasses.elim
  | _ => exact ⟨front, h.covers, hmarks h, h.polling, h.cursors⟩

end Covered

end Kdsync
