import Kdsync.EventList.Nested

/-!
# When marks are sound

A mark of an instance should speak for the events up to its target. The doc comment of
`mark_produced` says so, and its inner comment expects the target to be in the list. The loop marks
while it searches, so a mark whose target is missing has marked the whole list by the time the
search fails, newer events included.

`Sound` is the intended property of one call in a history: whatever is marked right after the
loop, in the list or about to be erased, is covered by a mark of the same instance for that event
or a newer one, and a mark that comes after the erasure of its target changes nothing.
`sound_iff_onTime` says for which histories it holds: every mark must be on time (`OnTime`), that
is, find its target, or find nothing left to mark. `late_mark_unsound` is the history that breaks
it.
-/

namespace Kdsync

namespace EventList

variable {l : EventList} {calls : List Call} {call : Call} {e : ReplicatedEvent} {i : UInt32}
  {t : Bytes} {p : Int32} {o : Int64}

/-- The events after the marking of a call and before its erasure. -/
def touched (l : EventList) : Call → List ReplicatedEvent
  | .addEvent event => l.events ++ [event]
  | .markProduced derechoId t p o => marked l.events derechoId t p o

/-- The history marks the event, or one added after it, for the instance. -/
def Vouched (calls : List Call) (derechoId : UInt32) (event : ReplicatedEvent) : Prop :=
  ∃ before after, added calls = before ++ event.content :: after ∧
    ∃ f ∈ event.content :: after, Call.markProduced derechoId f.topic f.partition f.offset ∈ calls

/-- One more call after a history is sound. -/
structure Sound (l : EventList) (calls : List Call) (call : Call) : Prop where
  /-- Every mark is vouched for. -/
  vouched : ∀ event ∈ (l.replay calls).touched call, ∀ i ∈ event.replicas,
    Vouched (calls ++ [call]) i event
  /-- A mark whose target was added but is no longer in the list changes nothing. -/
  late : ∀ i t p o, call = .markProduced i t p o → (∃ f ∈ added calls, f.triple = (t, p, o)) →
    (∀ f ∈ (l.replay calls).events, f.triple ≠ (t, p, o)) →
    (l.replay (calls ++ [call])).events = (l.replay calls).events

/-- A mark is on time: its target is in the list, or the caller has marked the whole list already,
or the target was never added and an earlier mark of the caller names the last event. -/
def OnTime (l : EventList) (calls : List Call) : Call → Prop
  | .addEvent _ => True
  | .markProduced i t p o =>
    (∃ f ∈ (l.replay calls).events, f.triple = (t, p, o)) ∨
    (∀ f ∈ (l.replay calls).events, i ∈ f.replicas) ∨
    (∀ f ∈ added calls, f.triple ≠ (t, p, o)) ∧
      ∃ f ∈ (l.replay calls).events.getLast?,
        Call.markProduced i f.topic f.partition f.offset ∈ calls

/-! ### What a single call changes -/

theorem contents_marked (events : List ReplicatedEvent) :
    (marked events i t p o).map ReplicatedEvent.content = events.map ReplicatedEvent.content := by
  simp only [marked, MarkedList.mapFirst, List.map_append, List.map_map, List.map_take,
    List.map_drop]
  exact List.take_append_drop _ _

/-- A call erases a prefix of what it touches. -/
theorem events_apply_suffix (l : EventList) (call : Call) :
    (l.apply call).events <:+ l.touched call := by
  cases call with
  | addEvent => exact List.suffix_rfl
  | markProduced i t p o =>
    simp only [apply, markProduced, touched, markLoop_fst]
    exact List.drop_suffix _ _

/-- Marking a list for an instance that has marked it all changes nothing. -/
theorem marked_eq_self {events : List ReplicatedEvent} (h : ∀ f ∈ events, i ∈ f.replicas) :
    marked events i t p o = events := by
  refine List.ext_getElem? fun j => ?_
  rw [marked, MarkedList.getElem?_mapFirst]
  split_ifs
  · cases hj : events[j]? with
    | none => rfl
    | some f =>
      have hi := h f (List.mem_of_getElem? hj)
      simp [ReplicatedEvent.insertReplica, Finset.insert_eq_of_mem hi]
  · rfl

theorem markProduced_eq_self (h : l.Nested) (hall : ∀ f ∈ l.events, i ∈ f.replicas) :
    (l.markProduced i t p o).events = l.events := by
  rw [h.markProduced_eq_reference, reference, marked_eq_self hall]
  exact List.filter_eq_self.mpr fun f hf => by simp [h.completed_eq_false f hf]

/-- When the search fails, the mark reaches every event. -/
theorem marked_eq_map {events : List ReplicatedEvent} (h : ∀ f ∈ events, f.triple ≠ (t, p, o)) :
    marked events i t p o = events.map (·.insertReplica i) := by
  refine MarkedList.mapFirst_of_length_le ?_
  have hnone := target_eq_length h
  omega

/-- A call that changes nothing has marked nothing new. -/
theorem mem_replicas_of_unchanged (hmissing : ∀ f ∈ l.events, f.triple ≠ (t, p, o))
    (hsame : (l.markProduced i t p o).events = l.events) : ∀ f ∈ l.events, i ∈ f.replicas := by
  have hsuffix := events_apply_suffix l (.markProduced i t p o)
  rw [apply, hsame, touched, marked_eq_map hmissing] at hsuffix
  have heq := hsuffix.eq_of_length (by simp)
  intro f hf
  rw [heq] at hf
  obtain ⟨f₀, -, rfl⟩ := List.mem_map.mp hf
  exact Finset.mem_insert_self _ _

/-! ### What is vouched for -/

/-- What an event is vouched for does not depend on its marks. -/
theorem vouched_insertReplica {j : UInt32} :
    Vouched calls j (e.insertReplica i) ↔ Vouched calls j e := Iff.rfl

/-- An event that an instance is vouched for stays so after one more call. -/
theorem Vouched.mono (h : Vouched calls i e) (call : Call) : Vouched (calls ++ [call]) i e := by
  obtain ⟨before, after, hadded, f, hf, hmark⟩ := h
  refine ⟨before, after ++ added [call], by simp [hadded], f, ?_, by simp [hmark]⟩
  rcases List.mem_cons.mp hf with hf | hf
  · simp [hf]
  · simp [hf]

/-- Every event of the list is vouched for at each instance that has marked it. -/
def AllVouched (l : EventList) (calls : List Call) : Prop :=
  ∀ event ∈ (l.replay calls).events, ∀ i ∈ event.replicas, Vouched calls i event

/-- Nothing follows the last occurrence of an entry that occurs once. -/
private theorem eq_nil_of_nodup {α : Type*} {xs ys zs : List α} {a : α}
    (hnodup : (xs ++ a :: ys).Nodup) (heq : xs ++ a :: ys = zs ++ [a]) : ys = [] := by
  by_contra hne
  have hlast : (xs ++ a :: ys).getLast? = some a := by rw [heq]; simp
  rw [List.getLast?_append_of_ne_nil _ (by simp), List.getLast?_cons,
    List.getLast?_eq_some_getLast hne] at hlast
  have hmem : a ∈ ys := by
    have := List.getLast_mem hne
    simp_all
  exact (List.nodup_cons.mp (List.nodup_append.mp hnodup).2.1).1 hmem

/-! ### A history that starts with an empty list -/

section History

variable (h : l.Nested) (hn : 1 ≤ l.nReplicas) (hl : l.events = [])
  (hc : ∀ call ∈ calls, call.Fresh)

include hl hc

/-- The events of the list are the last added ones, in their order. -/
theorem contents_suffix_added :
    (l.replay calls).events.map ReplicatedEvent.content <:+ added calls := by
  induction calls using List.reverseRecOn with
  | nil => simp [hl]
  | append_singleton calls call ih =>
    have hc' : ∀ c ∈ calls, c.Fresh := fun c hmem => hc c (by simp [hmem])
    rw [replay_append, replay_singleton, added_append]
    refine ((events_apply_suffix (l.replay calls) call).map _).trans ?_
    cases call with
    | addEvent e =>
      have he : e.content = e := ReplicatedEvent.content_eq_self (hc (.addEvent e) (by simp))
      obtain ⟨before, hbefore⟩ := ih hc'
      exact ⟨before, by simp [touched, he, ← hbefore]⟩
    | markProduced i t p o => simpa [touched, contents_marked] using ih hc'

/-- An event of the list splits the added events at its own position. -/
theorem exists_split_added {j : ℕ} (he : (l.replay calls).events[j]? = some e) :
    ∃ before, added calls = before ++ e.content ::
      ((l.replay calls).events.drop (j + 1)).map ReplicatedEvent.content := by
  obtain ⟨before, hbefore⟩ := contents_suffix_added hl hc
  obtain ⟨hlt, hget⟩ := List.getElem?_eq_some_iff.mp he
  refine ⟨before ++ ((l.replay calls).events.take j).map ReplicatedEvent.content, ?_⟩
  rw [← hbefore, List.append_assoc, ← List.map_cons, ← List.map_append, ← hget,
    ← List.drop_eq_getElem_cons hlt, List.take_append_drop]

/-- A mark of the event at position `j` or a later one vouches for the events up to `j`. -/
theorem vouched_of_mark {j k : ℕ} (hjk : j ≤ k) {f : ReplicatedEvent}
    (he : (l.replay calls).events[j]? = some e) (hf : (l.replay calls).events[k]? = some f)
    (hmark : call = .markProduced i f.topic f.partition f.offset ∨
      Call.markProduced i f.topic f.partition f.offset ∈ calls) :
    Vouched (calls ++ [call]) i e := by
  obtain ⟨before, hadded⟩ := exists_split_added hl hc he
  refine ⟨before, _, by rw [added_append, hadded, List.append_assoc, List.cons_append],
    f.content, ?_, ?_⟩
  · rcases hjk.eq_or_lt with rfl | hlt
    · rw [he] at hf
      simp [Option.some.inj hf]
    · refine List.mem_cons_of_mem _ (List.mem_append_left _ (List.mem_map_of_mem ?_))
      refine List.mem_iff_getElem?.mpr ⟨k - (j + 1), ?_⟩
      rw [List.getElem?_drop, Nat.add_sub_cancel' hlt, hf]
  · rcases hmark with rfl | hmark
    · exact List.mem_append_right _ (List.mem_singleton.mpr rfl)
    · exact List.mem_append_left _ hmark

/-- A mark on time vouches for the events it reaches. -/
theorem vouched_of_onTime (hall : AllVouched l calls)
    (honTime : OnTime l calls (.markProduced i t p o)) {k : ℕ}
    (he : (l.replay calls).events[k]? = some e)
    (hreach : k ≤ target (l.replay calls).events t p o) :
    Vouched (calls ++ [.markProduced i t p o]) i e := by
  rcases honTime with ⟨g, hg, htriple⟩ | hmarked | ⟨-, g, hg, hmark⟩
  · -- the loop stops at the target, so the event is the target or stands before it
    have hex : ∃ x ∈ (l.replay calls).events, x.isAt t p o = true :=
      ⟨g, hg, ReplicatedEvent.isAt_iff.mpr htriple⟩
    have hfound := List.findIdx_getElem?_eq_getElem_of_exists hex
    have hat := List.findIdx_of_getElem?_eq_some hfound
    rw [ReplicatedEvent.isAt_iff] at hat
    refine vouched_of_mark hl hc hreach he hfound (.inl ?_)
    simp only [ReplicatedEvent.triple, Prod.mk.injEq] at hat
    rw [hat.1, hat.2.1, hat.2.2]
  · have hmem := List.mem_of_getElem? he
    exact (hall e hmem i (hmarked e hmem)).mono _
  · -- an earlier mark of the same instance names the last event
    rw [Option.mem_def, List.getLast?_eq_getElem?] at hg
    have hlast : k ≤ (l.replay calls).events.length - 1 :=
      Nat.le_sub_one_of_lt (List.getElem?_eq_some_iff.mp he).1
    exact vouched_of_mark hl hc hlast he hg (.inr hmark)

/-- **A call on time leaves only marks that are vouched for.** -/
theorem vouched_touched (hfresh : call.Fresh) (hall : AllVouched l calls)
    (honTime : OnTime l calls call) :
    ∀ event ∈ (l.replay calls).touched call, ∀ j ∈ event.replicas,
      Vouched (calls ++ [call]) j event := by
  cases call with
  | addEvent e =>
    intro f hf j hj
    rcases List.mem_append.mp hf with hf | hf
    · exact (hall f hf j hj).mono _
    · obtain rfl := List.mem_singleton.mp hf
      rw [show f.replicas = ∅ from hfresh] at hj
      simp at hj
  | markProduced i t p o =>
    intro f hf j hj
    obtain ⟨k, hk⟩ := List.mem_iff_getElem?.mp hf
    rw [touched, marked, MarkedList.getElem?_mapFirst] at hk
    split_ifs at hk with hlt
    · obtain ⟨f₀, hf₀, rfl⟩ := Option.map_eq_some_iff.mp hk
      rw [vouched_insertReplica]
      -- the mark is the one of this call, or was there before
      rcases Finset.mem_insert.mp hj with rfl | hj
      · exact vouched_of_onTime hl hc hall honTime hf₀ (Nat.lt_succ_iff.mp hlt)
      · exact (hall f₀ (List.mem_of_getElem? hf₀) j hj).mono _
    · exact (hall f (List.mem_of_getElem? hk) j hj).mono _

/-- The last event of the list is vouched for by a mark that names it, as no event was added after
it. -/
theorem mem_of_vouched_getLast (hdistinct : Distinct (added calls)) {j : UInt32}
    (hlast : (l.replay calls).events.getLast? = some e)
    (hvouched : Vouched (calls ++ [.markProduced i t p o]) j e) :
    Call.markProduced j e.topic e.partition e.offset ∈ calls ++ [.markProduced i t p o] := by
  rw [List.getLast?_eq_getElem?] at hlast
  obtain ⟨before, after, hadded, f, hf, hmark⟩ := hvouched
  obtain ⟨before', hadded'⟩ := exists_split_added hl hc hlast
  rw [List.drop_eq_nil_of_le (by omega), List.map_nil] at hadded'
  rw [added_append, added_markProduced, List.append_nil] at hadded
  have hafter : after = [] :=
    eq_nil_of_nodup (hadded ▸ hdistinct.of_map) (hadded.symm.trans hadded')
  rw [hafter, List.mem_singleton] at hf
  rw [hf] at hmark
  exact hmark

/-- With unique triples, a call that is sound is on time. -/
theorem onTime_of_sound (hdistinct : Distinct (added calls)) (hsound : Sound l calls call) :
    OnTime l calls call := by
  cases call with
  | addEvent => trivial
  | markProduced i t p o =>
    by_cases hfound : ∃ f ∈ (l.replay calls).events, f.triple = (t, p, o)
    · exact .inl hfound
    by_cases hmarked : ∀ f ∈ (l.replay calls).events, i ∈ f.replicas
    · exact .inr (.inl hmarked)
    push Not at hfound
    obtain ⟨f, hlast⟩ : ∃ f, (l.replay calls).events.getLast? = some f := by
      refine Option.isSome_iff_exists.mp (List.getLast?_isSome.mpr ?_)
      rintro hnil
      simp [hnil] at hmarked
    have hmem : f ∈ (l.replay calls).events := List.mem_of_getLast? hlast
    -- the search has failed, so the last event is marked as well
    have htouched : f.insertReplica i ∈ (l.replay calls).touched (.markProduced i t p o) := by
      rw [touched, marked_eq_map hfound]
      exact List.mem_map_of_mem hmem
    have hmark := mem_of_vouched_getLast hl hc hdistinct hlast
      (hsound.vouched _ htouched i (by simp))
    refine .inr (.inr ⟨?_, f, hlast, ?_⟩)
    · intro g hg htriple
      have hsame := hsound.late i t p o rfl ⟨g, hg, htriple⟩ hfound
      rw [replay_append, replay_singleton] at hsame
      exact hmarked (mem_replicas_of_unchanged hfound hsame)
    · rcases List.mem_append.mp hmark with hmark | hmark
      · exact hmark
      · simp only [List.mem_singleton, Call.markProduced.injEq] at hmark
        refine absurd ?_ (hfound f hmem)
        simp only [ReplicatedEvent.triple, Prod.mk.injEq]
        exact hmark.2

include h hn

/-- One call on time is sound and leaves only marks that are vouched for. -/
theorem sound_of_onTime (hfresh : call.Fresh) (hall : AllVouched l calls)
    (honTime : OnTime l calls call) :
    Sound l calls call ∧ AllVouched l (calls ++ [call]) := by
  have htouched := vouched_touched hl hc hfresh hall honTime
  refine ⟨⟨htouched, ?_⟩, fun f hf => htouched f ?_⟩
  · rintro i t p o rfl ⟨g, hg, htriple⟩ hgone
    rw [replay_append, replay_singleton]
    rcases honTime with ⟨g', hg', htriple'⟩ | hmarked | ⟨hnever, -⟩
    · exact absurd htriple' (hgone g' hg')
    · exact markProduced_eq_self (h.replay hn hc) hmarked
    · exact absurd htriple (hnever g hg)
  · rw [replay_append, replay_singleton] at hf
    exact (events_apply_suffix (l.replay calls) call).subset hf

end History

/-! ### Main results -/

/-- **When marks are sound.** Over a history that adds distinct events to an empty list, every call
is sound exactly when every mark is on time. -/
theorem sound_iff_onTime (n chunk : UInt32) (hn : 1 ≤ n) (calls : List Call)
    (hc : ∀ call ∈ calls, call.Fresh) (hdistinct : Distinct (added calls)) :
    (∀ before call, before ++ [call] <+: calls → Sound (new n chunk) before call) ↔
      ∀ before call, before ++ [call] <+: calls → OnTime (new n chunk) before call := by
  have hnested := nested_new n chunk
  have hfresh : ∀ before, before <+: calls → ∀ call ∈ before, call.Fresh :=
    fun before hb call hcall => hc call (hb.subset hcall)
  constructor
  · intro hsound before call hb
    have hb' : before <+: calls := (List.prefix_append _ _).trans hb
    exact onTime_of_sound rfl (hfresh before hb')
      (hdistinct.of_prefix (hb'.filterMap _)) (hsound before call hb)
  · intro honTime
    -- along the history, every mark in the list stays vouched for
    have hall : ∀ before, before <+: calls → AllVouched (new n chunk) before := by
      intro before
      induction before using List.reverseRecOn with
      | nil => exact fun _ f hf => by simp [new] at hf
      | append_singleton before call ih =>
        intro hb
        have hb' : before <+: calls := (List.prefix_append _ _).trans hb
        exact (sound_of_onTime hnested hn rfl (hfresh before hb') (hfresh _ hb call (by simp))
          (ih hb') (honTime before call hb)).2
    intro before call hb
    have hb' : before <+: calls := (List.prefix_append _ _).trans hb
    exact (sound_of_onTime hnested hn rfl (hfresh before hb') (hfresh _ hb call (by simp))
      (hall before hb') (honTime before call hb)).1

/-- Both instances have marked and erased the first event before the second one comes. Then
instance 0 marks the first event again. -/
def lateMark : List Call :=
  [.addEvent (.ofOffset [] 0), .markProduced 0 [] 0 0, .markProduced 1 [] 0 0,
    .addEvent (.ofOffset [] 1), .markProduced 0 [] 0 0]

theorem sound_iff_onTime_lateMark :
    (∀ before call, before ++ [call] <+: lateMark → Sound (new 2 10) before call) ↔
      ∀ before call, before ++ [call] <+: lateMark → OnTime (new 2 10) before call :=
  sound_iff_onTime 2 10 (by decide) lateMark (by decide) (by decide)

/-- **A late mark is unsound**: it marks the event that was added after its target. -/
theorem late_mark_unsound :
    ¬ ∀ (n chunk : UInt32) (calls : List Call), 1 ≤ n → (∀ call ∈ calls, call.Fresh) →
      Distinct (added calls) →
      ∀ before call, before ++ [call] <+: calls → Sound (new n chunk) before call := by
  intro h
  have hsound := h 2 10 lateMark (by decide) (by decide) (by decide) (lateMark.take 4)
    (.markProduced 0 [] 0 0) (by decide)
  -- the target of the last mark is erased, and still the mark changes the list
  have hsame := hsound.late 0 [] 0 0 rfl ⟨.ofOffset [] 0, by decide, by decide⟩ (by decide +kernel)
  exact absurd hsame (by decide +kernel)

end EventList

end Kdsync
