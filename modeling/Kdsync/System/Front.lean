import Kdsync.System.AtLeastOnce

/-!
# What an instance has behind it

A bound for each instance that its marks, its `last_event` and its cursors on all replicas stay
below (`Behind`). Only a mark of the instance itself may raise it, if every search finds its target
and an instance that restarts is sent the list of one that has applied all calls (`SearchesHeld`).
This holds through crashes and restarts. A query never starts behind the bound (`Behind.start_le`),
and an event from the bound on stands on every list that has received it, without a mark of the
instance (`Behind.exists_getElem?_list`).
-/

namespace Kdsync

/-- An instance is up and has applied all calls, so that its list can be sent to one that restarts.
-/
def System.Restores (c : Config) (s : System) : Prop :=
  ∃ donor ∈ c.ids, (s.polling donor).isSome ∧ s.net.applied donor = s.net.order.length

instance (c : Config) (s : System) : Decidable (s.Restores c) :=
  inferInstanceAs (Decidable (∃ donor ∈ c.ids, _))

/-- The searches find their targets, or nothing they could confuse with them, and an instance only
restarts while it can be sent the list of another one. -/
def SearchesHeld (c : Config) (s : System) (a : UInt32 × Action) : Prop :=
  match a.2 with
  | .crash => True
  | .rejoin => s.Restores c
  | _ => TargetsHeld c s a

instance (c : Config) (s : System) (a : UInt32 × Action) : Decidable (SearchesHeld c s a) :=
  match a with
  | (_, .crash) => isTrue trivial
  | (_, .rejoin) => inferInstanceAs (Decidable (s.Restores c))
  | (_, .kafkaPoll _) | (_, .query) | (_, .queryFails) | (_, .replicate) | (_, .mark)
  | (_, .sequence) | (_, .deliver) => inferInstanceAs (Decidable (TargetsHeld c s _))

/-- The marks of each instance, its `last_event` and its cursors stay below its front. -/
structure Behind (c : Config) (s : System) (front : UInt32 → ℕ) : Prop where
  marks : ∀ j x, .markProduced x ∈ s.net.sentBy j → x.position < front j
  lastEvent : ∀ j p, s.polling j = some p → ∀ x, p.lastEvent = some x → x.position < front j
  cursors : ∀ r j, (s.cursors c r).cursor j ≤ front j

namespace Behind

variable {c : Config} {s s' : System} {front front' : UInt32 → ℕ} {i r : UInt32} {a : Action}

theorem init (c : Config) : Behind c .init fun _ => 0 where
  marks j x hx := by simp at hx
  lastEvent j p hp x hx := by
    obtain rfl := Option.some.inj hp
    cases hx
  cursors r j := (cursor_eq_zero_of_unmarked (by simp) r).le

theorem mono (h : Behind c s front) (hle : ∀ j, front j ≤ front' j) : Behind c s front' where
  marks j x hx := (h.marks j x hx).trans_le (hle j)
  lastEvent j p hp x hx := (h.lastEvent j p hp x hx).trans_le (hle j)
  cursors r j := (h.cursors r j).trans (hle j)

/-- No replica has erased an event from the front of an instance on. -/
theorem erased_le (h : Behind c s front) (hw : WellFormed c s) (hi : i ∈ c.ids) (r : UInt32) :
    s.erased c r ≤ front i :=
  (hw.erased_eq r).trans_le ((CursorLog.low_le_cursor hi).trans (h.cursors r i))

/-- A query that finds its target starts at the front or before it. -/
theorem start_le (h : Behind c s front) (hw : WellFormed c s) (hi : i ∈ c.ids)
    (hheld : SearchesHeld c s (i, .query)) {lastEvent : Option Served}
    (hp : s.polling i = some ⟨lastEvent, none⟩) :
    s.erased c i + s.first c i lastEvent ≤ front i := by
  cases lastEvent with
  | none => exact (hw.start_none hi).trans_le (h.cursors i i)
  | some x =>
    obtain hholds | hmiss := hheld.1 x (by simp [System.lookedFor, hp])
    · have hx := ((hw.polling _ _ hp).lastEvent x rfl).mono (localLog_prefix_log s i)
      exact (hw.start_le_of_holds hx hholds).trans (h.lastEvent _ _ hp x rfl)
    · rw [System.first_eq_zero_of_miss hmiss]
      exact h.erased_le hw hi i

/-- An event from the front of an instance on stands on every list that has received it, and the
instance has not marked it there. -/
theorem exists_getElem?_list (h : Behind c s front) (hw : WellFormed c s) (hi : i ∈ c.ids)
    {x : Served} (hx : x.In (s.localLog r)) (hle : front i ≤ x.position) :
    ∃ k e, s.erased c r + k = x.position ∧ (s.list c r).events[k]? = some e ∧
      e.operatorEq x.event = true ∧ i ∉ e.replicas := by
  obtain ⟨k, hk⟩ := Nat.exists_eq_add_of_le ((h.erased_le hw hi r).trans hle)
  have hlist := hw.getElem?_list r k
  rw [← hk, hx] at hlist
  obtain ⟨e, he, hcontent⟩ := Option.map_eq_some_iff.mp hlist
  refine ⟨k, e, hk.symm, he, ReplicatedEvent.operatorEq_iff.mpr hcontent, fun hmarked => ?_⟩
  have hlt := hw.lt_cursor_of_mem_replicas he hmarked
  have hcursor := h.cursors r i
  omega

/-- A mark that finds its target moves the cursor of its sender at most to its front. -/
private theorem cursors_deliver_le (h : Behind c s front) (hw : WellFormed c s)
    (hheld : SearchesHeld c s (i, .deliver)) {m : UInt32 × Rpc}
    (hm : s.net.order[s.net.applied i]? = some m) (j : UInt32) :
    ((s.cursors c i).apply (m.2.call m.1)).cursor j ≤ front j := by
  obtain ⟨k, rpc⟩ := m
  cases rpc with
  | addEvent e => exact h.cursors i j
  | markProduced x =>
    have hsent := Broadcast.mem_sentBy_of_mem_order (List.mem_of_getElem? hm)
    rcases eq_or_ne j k with rfl | hj
    · refine (hw.cursor_mark i j x.event).trans_le (max_le (h.cursors i j) ?_)
      rw [EventList.reach]
      obtain hholds | hempty := hheld.2 rfl x (by simp [System.nextMark, hm])
      · have htarget := hw.target_le (hw.marks j x hsent) hholds
        have hmark := h.marks j x hsent
        dsimp only at htarget
        omega
      · rw [hempty, List.length_nil, Nat.min_zero]
        exact h.erased_le hw (hw.calls_by j _ hsent) i
    · exact (CursorLog.cursor_advance_of_ne hj).trans_le (h.cursors i j)

private theorem marks_effect (h : Behind c s front) (hw : WellFormed c s) (he : Effect c s i a s')
    (hmark : a = .mark → ∀ lastEvent next back,
      s.polling i = some ⟨lastEvent, some ⟨[], next, back⟩⟩ → next ≤ front i)
    (j : UInt32) (x : Served) (hx : .markProduced x ∈ s'.net.sentBy j) : x.position < front j := by
  obtain hx | ⟨event, heq, -⟩ | ⟨ha, rfl, lastEvent, next, back, hp, heq⟩ := he.mem_sentBy hx
  · exact h.marks j x hx
  · cases heq
  · obtain rfl := Rpc.markProduced.inj heq
    exact (Nat.sub_one_lt_of_lt (hw.next_pos hp)).trans_le (hmark ha _ _ _ hp)

private theorem lastEvent_effect (h : Behind c s front) (hw : WellFormed c s)
    (he : Effect c s i a s')
    (hmark : a = .mark → ∀ lastEvent next back,
      s.polling i = some ⟨lastEvent, some ⟨[], next, back⟩⟩ → next ≤ front i)
    (j : UInt32) (p : Polling) (hp : s'.polling j = some p) (x : Served)
    (hx : p.lastEvent = some x) : x.position < front j := by
  rcases eq_or_ne j i with rfl | hj
  · cases he with
    | served hold =>
      rw [System.polling_setPolling_self] at hp
      obtain rfl := Option.some.inj hp
      exact h.lastEvent _ _ hold x hx
    | replicated hold =>
      rw [System.polling_replicateEvent, System.polling_setPolling_self] at hp
      obtain rfl := Option.some.inj hp
      exact h.lastEvent _ _ hold x hx
    | marked hold =>
      rw [System.polling_orderedSend, System.polling_setPolling_self] at hp
      obtain rfl := Option.some.inj hp
      obtain rfl := Option.some.inj hx
      exact (Nat.sub_one_lt_of_lt (hw.next_pos hold)).trans_le (hmark rfl _ _ _ hold)
    | crashed => simp at hp
    | rejoined =>
      obtain rfl : {} = p := by simpa using hp
      cases hx
    | _ => exact h.lastEvent _ _ hp x hx
  · exact h.lastEvent j p (he.polling_of_ne hj ▸ hp) x hx

/-- A step keeps the fronts. A mark must be for a batch that ends at the front or before it. -/
theorem effect (h : Behind c s front) (hw : WellFormed c s) (hheld : SearchesHeld c s (i, a))
    (he : Effect c s i a s')
    (hmark : a = .mark → ∀ lastEvent next back,
      s.polling i = some ⟨lastEvent, some ⟨[], next, back⟩⟩ → next ≤ front i) :
    Behind c s' front where
  marks := h.marks_effect hw he hmark
  lastEvent := h.lastEvent_effect hw he hmark
  cursors r j := by
    cases he with
    | sequenced hnet => exact cursors_sequence (c := c) hnet ▸ h.cursors r j
    | delivered _ hnet =>
      obtain ⟨m, hm, hself, hother⟩ := cursors_deliver (c := c) hnet
      rcases eq_or_ne r i with rfl | hr
      · exact hself ▸ h.cursors_deliver_le hw hheld hm j
      · exact hother r hr ▸ h.cursors r j
    | rejoined =>
      rcases eq_or_ne r i with rfl | hr
      · -- the new list is that of an instance that has applied all calls
        obtain ⟨donor, -, -, happlied⟩ := hheld
        have hdonor := h.cursors donor j
        rw [System.cursors, Broadcast.delivered, happlied, List.take_length] at hdonor
        rwa [System.cursors, Broadcast.delivered_join_self]
      · have hcursors := h.cursors r j
        rwa [System.cursors, Broadcast.delivered_join_of_ne hr]
    | _ => exact h.cursors r j

end Behind

end Kdsync
