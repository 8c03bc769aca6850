import Kdsync.EventList.Unique

/-!
# The order of the marks

Derecho gives all replicas one order of the calls. As far as marks are concerned it need not: as
long as every mark finds its target in the list, two histories that add the same events in the same
order and contain the same marks end with the same list, in whatever order the marks come, among
themselves and between the additions, and however often (`EventList.replay_eq_of_sameMarks`).

The position of an instance is then the furthest target among its marks (`lt_cursor_iff`).
-/

namespace Kdsync

namespace EventList

/-- A call of one of the instances `ids`, and the target of a mark is in the list. -/
def Held (ids : Finset UInt32) (l : EventList) : Call → Prop
  | .addEvent event => event.replicas = ∅
  | .markProduced derechoId t p o => derechoId ∈ ids ∧ ∃ f ∈ l.events, f.triple = (t, p, o)

instance (ids : Finset UInt32) (l : EventList) (call : Call) : Decidable (Held ids l call) :=
  match call with
  | .addEvent event => inferInstanceAs (Decidable (event.replicas = ∅))
  | .markProduced .. => inferInstanceAs (Decidable (_ ∧ _))

/-- Every call of a history is so where it is applied. -/
def AllHeld (ids : Finset UInt32) (l : EventList) : List Call → Prop
  | [] => True
  | call :: calls => Held ids l call ∧ AllHeld ids (l.apply call) calls

instance decidableAllHeld (ids : Finset UInt32) :
    ∀ (l : EventList) (calls : List Call), Decidable (AllHeld ids l calls)
  | _, [] => isTrue trivial
  | l, call :: calls =>
    have := decidableAllHeld ids (l.apply call) calls
    inferInstanceAs (Decidable (_ ∧ _))

section Held

variable {ids : Finset UInt32} {l : EventList} {calls calls' : List Call} {call : Call}

theorem Held.by (h : Held ids l call) : call.By ids := by
  cases call with
  | addEvent event => exact h
  | markProduced => exact h.1

theorem allHeld_append :
    AllHeld ids l (calls ++ calls') ↔
      AllHeld ids l calls ∧ AllHeld ids (l.replay calls) calls' := by
  induction calls generalizing l with
  | nil => simp [AllHeld]
  | cons call calls ih =>
    rw [List.cons_append, AllHeld, AllHeld, ih, and_assoc]
    rfl

theorem AllHeld.forall_by (h : AllHeld ids l calls) : ∀ call ∈ calls, call.By ids := by
  induction calls generalizing l with
  | nil => nofun
  | cons call calls ih => exact List.forall_mem_cons.mpr ⟨h.1.by, ih h.2⟩

end Held

section Cursor

variable {ids : Finset UInt32} {n chunk : UInt32} {calls calls' : List Call} {i : UInt32}
  {t : Bytes} {p : Int32} {o : Int64}

/-- A target in the list is found, and nowhere else in the log. -/
theorem found_of_mem {s : Cursors ids} {l : EventList} (h : Refines s l) (hlog : Distinct s.log)
    {f : ReplicatedEvent} (hf : f ∈ l.events) (htriple : f.triple = (t, p, o)) :
    target s.log t p o < s.log.length ∧ s.found t p o = target s.log t p o + 1 := by
  rw [h.events] at hf
  obtain ⟨a, ha, rfl⟩ := List.mem_map.mp hf
  obtain ⟨j, hj⟩ := List.mem_iff_getElem?.mp ha
  rw [CursorLog.getElem?_live] at hj
  obtain ⟨e, he, rfl⟩ := Option.map_eq_some_iff.mp hj
  have hat : e.triple = (t, p, o) := htriple
  have hlt : target s.log t p o < s.log.length :=
    List.findIdx_lt_length_of_exists
      ⟨e, List.mem_of_getElem? he, ReplicatedEvent.isAt_iff.mpr hat⟩
  obtain ⟨e', he'⟩ : ∃ e', s.log[target s.log t p o]? = some e' :=
    ⟨_, List.getElem?_eq_getElem hlt⟩
  have hat' : e'.triple = (t, p, o) :=
    ReplicatedEvent.isAt_iff.mp (List.findIdx_of_getElem?_eq_some he')
  have hq : s.low + j = target s.log t p o := hlog.position_eq he he' (hat.trans hat'.symm)
  obtain ⟨rfl, rfl, rfl⟩ : e.topic = t ∧ e.partition = p ∧ e.offset = o := by
    simpa [ReplicatedEvent.triple] using hat
  exact ⟨hlt, (Cursors.found_of_getElem? hlog he (Nat.le_add_right _ _)).trans (by rw [hq])⟩

variable (hne : ids.Nonempty) (hcard : ids.card = n.toNat)

include hcard

/-- Along a history whose marks find their targets, the list refines the log with its cursors. -/
theorem AllHeld.refines (h : AllHeld ids (new n chunk) calls) :
    Refines (Cursors.replay (CursorLog.init hne) calls) ((new n chunk).replay calls) :=
  (Refines.init hne n chunk hcard).replay h.forall_by

/-- The target of a mark has been added, and where it is in the log does not change. -/
theorem AllHeld.target_lt (h : AllHeld ids (new n chunk) calls) (hlog : Distinct (added calls))
    (hmark : .markProduced i t p o ∈ calls) :
    target (added calls) t p o < (added calls).length := by
  obtain ⟨before, after, rfl⟩ := List.append_of_mem hmark
  obtain ⟨hbefore, ⟨hi, f, hf, htriple⟩, -⟩ := allHeld_append.mp h
  rw [added_append] at hlog ⊢
  have hlog' : Distinct (added before) := hlog.of_prefix (List.prefix_append _ _)
  have hne : ids.Nonempty := ⟨i, hi⟩
  have hlt := (found_of_mem (hbefore.refines hne hcard) (by rwa [Cursors.log_replay]) hf htriple).1
  rw [Cursors.log_replay] at hlt
  rw [target_append_of_lt hlt, List.length_append]
  exact Nat.lt_add_right _ hlt

/-- **The position of an instance** is behind the furthest target among its marks. -/
theorem AllHeld.lt_cursor_iff (h : AllHeld ids (new n chunk) calls)
    (hlog : Distinct (added calls)) (q : ℕ) :
    q < (Cursors.replay (CursorLog.init hne) calls).cursor i ↔
      ∃ t p o, Call.markProduced i t p o ∈ calls ∧ q ≤ target (added calls) t p o := by
  induction calls using List.reverseRecOn with
  | nil => simp [CursorLog.init]
  | append_singleton calls call ih =>
    obtain ⟨hcalls, hcall, -⟩ := allHeld_append.mp h
    rw [added_append] at hlog
    have hlog' : Distinct (added calls) := hlog.of_prefix (List.prefix_append _ _)
    rw [Cursors.replay_append, Cursors.replay_singleton]
    cases call with
    | addEvent e =>
      rw [Cursors.apply, CursorLog.cursor_append, ih hcalls hlog']
      refine exists₃_congr fun t p o => ?_
      have hmem : Call.markProduced i t p o ∈ calls ++ [.addEvent e] ↔
          .markProduced i t p o ∈ calls := by simp
      rw [hmem]
      refine and_congr_right fun hmark => ?_
      rw [added_append, target_append_of_lt (hcalls.target_lt hcard hlog' hmark)]
    | markProduced j t p o =>
      obtain ⟨hj, f, hf, htriple⟩ := hcall
      obtain ⟨hlt, hfound⟩ :=
        found_of_mem (hcalls.refines hne hcard) (by rwa [Cursors.log_replay]) hf htriple
      rw [Cursors.log_replay] at hlt hfound
      rw [added_append, added_markProduced, List.append_nil, Cursors.apply]
      rcases eq_or_ne i j with rfl | hij
      · rw [CursorLog.cursor_advance_self, hfound, Cursors.log_replay, min_eq_left hlt, lt_max_iff,
          ih hcalls hlog', Nat.lt_succ_iff]
        constructor
        · rintro (⟨t', p', o', hmark, hle⟩ | hle)
          · exact ⟨t', p', o', List.mem_append_left _ hmark, hle⟩
          · exact ⟨t, p, o, List.mem_concat_self, hle⟩
        · rintro ⟨t', p', o', hmark, hle⟩
          rcases List.mem_append.mp hmark with hmark | hmark
          · exact .inl ⟨t', p', o', hmark, hle⟩
          · obtain ⟨-, rfl, rfl, rfl⟩ := Call.markProduced.inj (List.mem_singleton.mp hmark)
            exact .inr hle
      · rw [CursorLog.cursor_advance_of_ne hij, ih hcalls hlog']
        refine exists₃_congr fun t' p' o' => and_congr_left fun _ => ?_
        simp [hij]

end Cursor

/-- **The order of the marks does not matter.** Take two histories that add the same events in the
same order, no triple twice, and contain the same marks, each of an instance and with its target in
the list where it is applied. However the marks are ordered and repeated, both histories end with
the same list. -/
theorem replay_eq_of_sameMarks {ids : Finset UInt32} (hne : ids.Nonempty) (n chunk : UInt32)
    (hcard : ids.card = n.toNat) {calls calls' : List Call}
    (h : AllHeld ids (new n chunk) calls) (h' : AllHeld ids (new n chunk) calls')
    (hlog : Distinct (added calls)) (hadded : added calls = added calls')
    (hmarks : ∀ i t p o, Call.markProduced i t p o ∈ calls ↔ Call.markProduced i t p o ∈ calls') :
    (new n chunk).replay calls = (new n chunk).replay calls' := by
  have hcursor : ∀ i ∈ ids, (Cursors.replay (CursorLog.init hne) calls).cursor i =
      (Cursors.replay (CursorLog.init hne) calls').cursor i := by
    intro i _
    refine eq_of_forall_lt_iff fun q => ?_
    rw [h.lt_cursor_iff hne hcard hlog, h'.lt_cursor_iff hne hcard (hadded ▸ hlog), ← hadded]
    exact exists₃_congr fun t p o => and_congr_left fun _ => hmarks i t p o
  have hlive := CursorLog.live_congr (by rw [Cursors.log_replay, Cursors.log_replay, hadded])
    hcursor
  have hevents : ((new n chunk).replay calls).events = ((new n chunk).replay calls').events := by
    rw [(h.refines hne hcard).events, (h'.refines hne hcard).events, hlive]
  have hparts : ∀ l l' : EventList, l.nReplicas = l'.nReplicas → l.eventChunk = l'.eventChunk →
      l.events = l'.events → l = l' := by
    rintro ⟨⟩ ⟨⟩ rfl rfl rfl
    rfl
  exact hparts _ _ (by rw [nReplicas_replay, nReplicas_replay])
    (by rw [eventChunk_replay, eventChunk_replay]) hevents

/-- Instance 1 marks the second event, and only then the first one, which it has marked with it. -/
def marksBack : List Call :=
  [.addEvent (.ofOffset [] 0), .addEvent (.ofOffset [] 1), .markProduced 1 [] 0 1,
    .markProduced 1 [] 0 0, .markProduced 0 [] 0 0]

/-- The marks of `marksBack` as they come when each instance marks in order. -/
def marksForth : List Call :=
  [.addEvent (.ofOffset [] 0), .markProduced 1 [] 0 0, .addEvent (.ofOffset [] 1),
    .markProduced 1 [] 0 1, .markProduced 0 [] 0 0]

theorem replay_eq_of_sameMarks_marksBack :
    ((new 2 10).replay marksBack).events.length = 1 ∧
      (new 2 10).replay marksBack = (new 2 10).replay marksForth := by
  have hback : AllHeld {0, 1} (new 2 10) marksBack := by decide +kernel
  have hforth : AllHeld {0, 1} (new 2 10) marksForth := by decide +kernel
  refine ⟨by decide +kernel, replay_eq_of_sameMarks ⟨0, by decide⟩ 2 10 (by decide) hback hforth
    (by decide) (by decide) fun i t p o => ?_⟩
  simp only [marksBack, marksForth, List.mem_cons, List.not_mem_nil, reduceCtorEq, false_or,
    or_false]
  tauto

end EventList

end Kdsync
