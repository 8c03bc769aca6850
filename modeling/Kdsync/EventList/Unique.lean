import Kdsync.EventList.Cursors

/-!
# Unique triples

When no two added events carry the same triple, a search of the list can only find the very event
it looks for (`Refines.firstNotReplicatedFrom_of_getElem?`), and `mark_produced` moves the cursor
of its caller to the position behind the target (`Cursors.found_of_getElem?`).

`Cursors.spec` is the abstract machine this gives: the log of added events and one cursor for each
instance, with the conditions under which kdsync means to use the list as guards of its steps.
`eventList_refines_cursors` is the refinement.
-/

namespace Kdsync

/-- Under unique triples an event determines its position. -/
theorem Distinct.position_eq {log : List ReplicatedEvent} (h : Distinct log) {q q' : ℕ}
    {e e' : ReplicatedEvent} (he : log[q]? = some e) (he' : log[q']? = some e')
    (htriple : e.triple = e'.triple) : q = q' := by
  obtain ⟨hlt, -⟩ := List.getElem?_eq_some_iff.mp he
  refine (List.getElem?_inj (by simpa using hlt) h).mp ?_
  simp [he, he', htriple]

variable {ids : Finset UInt32} {s : Cursors ids}

section Search

variable {q : ℕ} {e : ReplicatedEvent}

/-- The search for a live event finds it. -/
theorem target_drop_of_le (hlog : Distinct s.log) (he : s.log[q]? = some e) (hle : s.low ≤ q) :
    EventList.target (s.log.drop s.low) e.topic e.partition e.offset = q - s.low := by
  have hlt := (List.getElem?_eq_some_iff.mp he).1
  refine MarkedList.findIdx_eq_of_forall (by simp; omega) (fun j hj b hb => ?_) fun b hb => ?_
  all_goals rw [List.getElem?_drop] at hb
  · rw [Bool.eq_false_iff]
    intro hat
    have := hlog.position_eq hb he (ReplicatedEvent.isAt_iff.mp hat)
    omega
  · rw [Nat.add_sub_cancel' hle, he] at hb
    obtain rfl := Option.some.inj hb
    simp [ReplicatedEvent.triple]

/-- The search for an event that was erased finds nothing. -/
theorem target_drop_of_lt (hlog : Distinct s.log) (he : s.log[q]? = some e) (hlt : q < s.low) :
    EventList.target (s.log.drop s.low) e.topic e.partition e.offset =
      s.log.length - s.low := by
  rw [EventList.target, ← List.length_drop]
  refine List.findIdx_eq_length.mpr fun b hb => ?_
  obtain ⟨j, hj⟩ := List.mem_iff_getElem?.mp hb
  rw [List.getElem?_drop] at hj
  rw [Bool.eq_false_iff]
  intro hat
  have := hlog.position_eq hj he (ReplicatedEvent.isAt_iff.mp hat)
  omega

/-- A mark for a live event reaches exactly that event. -/
theorem Cursors.found_of_getElem? (hlog : Distinct s.log) (he : s.log[q]? = some e)
    (hle : s.low ≤ q) : s.found e.topic e.partition e.offset = q + 1 := by
  rw [Cursors.found, target_drop_of_le hlog he hle]
  omega

/-- **`get_events_from` resumes behind its argument**, or at the start of the list if the argument
was erased. -/
theorem Refines.firstNotReplicatedFrom_of_getElem? {l : EventList} (h : Refines s l)
    (hlog : Distinct s.log) (he : s.log[q]? = some e) :
    s.low + l.firstNotReplicatedFrom e.topic e.partition e.offset = max (q + 1) s.low := by
  have hlt := (List.getElem?_eq_some_iff.mp he).1
  rw [h.firstNotReplicatedFrom_eq]
  rcases Nat.lt_or_ge q s.low with hq | hq
  · rw [target_drop_of_lt hlog he hq, if_pos rfl]
    omega
  · rw [target_drop_of_le hlog he hq, if_neg (by omega)]
    omega

/-- For an event that was never added, `get_events_from` starts at the start of the list. -/
theorem Refines.firstNotReplicatedFrom_of_absent {l : EventList} (h : Refines s l) {t : Bytes}
    {p : Int32} {o : Int64} (habsent : ∀ e ∈ s.log, e.triple ≠ (t, p, o)) :
    l.firstNotReplicatedFrom t p o = 0 := by
  rw [h.firstNotReplicatedFrom_eq, if_pos]
  rw [← List.length_drop]
  exact EventList.target_eq_length fun e he => habsent e (List.mem_of_mem_drop he)

end Search

/-! ### The abstract machine -/

namespace Cursors

/-- A step of the abstract machine. An event is added once; a mark comes from one of the instances,
for an event that has been added, and further on than the last one of the same instance. -/
def specStep (s : Cursors ids) : Call → Option (Cursors ids)
  | .addEvent event =>
    if event.replicas = ∅ ∧ event.triple ∉ s.log.map ReplicatedEvent.triple then
      some (s.append event)
    else none
  | .markProduced derechoId t p o =>
    if h : derechoId ∈ ids ∧ EventList.target s.log t p o < s.log.length ∧
        s.cursor derechoId ≤ EventList.target s.log t p o then
      some (s.moveTo derechoId (EventList.target s.log t p o + 1) h.2.1)
    else none

/-- A history of the abstract machine, from the empty log with all cursors at zero. -/
def spec (h : ids.Nonempty) (calls : List Call) : Option (Cursors ids) :=
  calls.foldlM specStep (CursorLog.init h)

/-- The whole log, each event with the instances whose cursor is past its position. -/
def annotated (s : Cursors ids) : List ReplicatedEvent :=
  s.log.mapIdx fun q event => event.withReplicas (ids.filter fun i => q < s.cursor i)

theorem map_stamp_entries (s : Cursors ids) : s.entries.map stamp = s.annotated := by
  refine List.ext_getElem? fun q => ?_
  rw [List.getElem?_map, CursorLog.getElem?_entries, annotated, List.getElem?_mapIdx,
    Option.map_map]
  rfl

/-- A step of the abstract machine is the effect of the call. -/
theorem apply_of_specStep {s' : Cursors ids} {call : Call} (hlog : Distinct s.log)
    (h : s.specStep call = some s') : call.By ids ∧ s.apply call = s' ∧ Distinct s'.log := by
  cases call with
  | addEvent e =>
    simp only [specStep] at h
    split_ifs at h with hguard
    obtain rfl := Option.some.inj h
    refine ⟨hguard.1, rfl, ?_⟩
    rw [Distinct, CursorLog.log_append, List.map_append]
    exact List.nodup_append.mpr ⟨hlog, by simp, fun a ha b hb hab =>
      hguard.2 (by simp_all)⟩
  | markProduced i t p o =>
    simp only [specStep] at h
    split_ifs at h with hguard
    obtain rfl := Option.some.inj h
    obtain ⟨hi, hlt, hle⟩ := hguard
    refine ⟨hi, ?_, hlog⟩
    -- the target is live, since no cursor is below the smallest one
    obtain ⟨e, he⟩ : ∃ e, s.log[EventList.target s.log t p o]? = some e :=
      ⟨_, List.getElem?_eq_getElem hlt⟩
    have hat : e.triple = (t, p, o) :=
      ReplicatedEvent.isAt_iff.mp (List.findIdx_of_getElem?_eq_some he)
    obtain ⟨rfl, rfl, rfl⟩ : e.topic = t ∧ e.partition = p ∧ e.offset = o := by
      simpa [ReplicatedEvent.triple] using hat
    have hlow := (CursorLog.low_le_cursor hi).trans hle
    rw [apply, found_of_getElem? hlog he hlow,
      CursorLog.advance_eq_moveTo hlt (by omega)]

/-- Along a history that the abstract machine accepts, the list refines the log with its cursors,
and the log is what was added, with unique triples. -/
theorem refines_of_spec {hne : ids.Nonempty} {n : UInt32} (chunk : UInt32)
    (hcard : ids.card = n.toNat) {calls : List Call} {s : Cursors ids}
    (h : spec hne calls = some s) :
    Refines s ((EventList.new n chunk).replay calls) ∧ Distinct s.log ∧ s.log = added calls := by
  induction calls using List.reverseRecOn generalizing s with
  | nil =>
    obtain rfl := Option.some.inj h
    exact ⟨Refines.init hne n chunk hcard, List.nodup_nil, rfl⟩
  | append_singleton calls call ih =>
    rw [spec, List.foldlM_append] at h
    obtain ⟨s₀, hs₀, hstep⟩ := Option.bind_eq_some_iff.mp h
    obtain ⟨hrefines, hlog, hadded⟩ := ih hs₀
    obtain ⟨hby, happly, hlog'⟩ := apply_of_specStep hlog (by simpa using hstep)
    subst happly
    rw [EventList.replay_append, EventList.replay_singleton]
    refine ⟨hrefines.apply hby, hlog', ?_⟩
    rw [added_append, ← hadded]
    cases call <;> simp [apply]

end Cursors

/-- **The event list refines a log with one cursor per instance.** Along every history of the
abstract machine, the list is the log without the events below the smallest cursor `m`, the set of
replicas of the event at position `q` is the set of instances whose cursor is past `q`,
`get_events` starts at the cursor of its caller, and `get_events_from` starts behind its argument
(or at `m`, when that is further on or the argument was never added); for the last event an
instance has marked, this is its cursor. -/
theorem eventList_refines_cursors (hne : ids.Nonempty) (n chunk : UInt32)
    (hcard : ids.card = n.toNat) (calls : List Call) (s : Cursors ids)
    (hspec : Cursors.spec hne calls = some s) :
    s.log = added calls ∧
    ((EventList.new n chunk).replay calls).events = s.annotated.drop (ids.inf' hne s.cursor) ∧
    (chunk.toNat ≤ intMax → ((EventList.new n chunk).replay calls).events.length ≤ intMax →
      (∀ i ∈ ids, ((EventList.new n chunk).replay calls).getEvents i =
        some ((s.annotated.drop (s.cursor i)).take chunk.toNat)) ∧
      (∀ q e, s.log[q]? = some e →
        ((EventList.new n chunk).replay calls).getEventsFrom e.topic e.partition e.offset =
          some ((s.annotated.drop (max (q + 1) (ids.inf' hne s.cursor))).take chunk.toNat)) ∧
      (∀ t p o, (∀ e ∈ s.log, e.triple ≠ (t, p, o)) →
        ((EventList.new n chunk).replay calls).getEventsFrom t p o =
          some ((s.annotated.drop (ids.inf' hne s.cursor)).take chunk.toNat)) ∧
      (∀ i ∈ ids, ∀ q e, s.log[q]? = some e → s.cursor i = q + 1 →
        ((EventList.new n chunk).replay calls).getEventsFrom e.topic e.partition e.offset =
          some ((s.annotated.drop (s.cursor i)).take chunk.toNat))) := by
  obtain ⟨hrefines, hlog, hadded⟩ := Cursors.refines_of_spec chunk hcard hspec
  set l := (EventList.new n chunk).replay calls
  have hevents : l.events = s.annotated.drop s.low := by
    rw [hrefines.events_eq_drop, Cursors.map_stamp_entries]
  refine ⟨hadded, hevents, fun hchunk hlen => ?_⟩
  have hfrom : ∀ first, l.chunkFrom first =
      some ((s.annotated.drop (s.low + first)).take chunk.toNat) := by
    intro first
    have hmember : l.eventChunk = chunk.toInt32 := EventList.eventChunk_replay _ _
    rw [EventList.chunkFrom_eq_take hmember hchunk hlen, hevents, List.drop_drop]
  have hbehind : ∀ q e, s.log[q]? = some e → l.getEventsFrom e.topic e.partition e.offset =
      some ((s.annotated.drop (max (q + 1) s.low)).take chunk.toNat) := by
    intro q e he
    rw [EventList.getEventsFrom, hfrom, hrefines.firstNotReplicatedFrom_of_getElem? hlog he]
  refine ⟨fun i hi => ?_, hbehind, fun t p o habsent => ?_, fun i hi q e he hcursor => ?_⟩
  · rw [EventList.getEvents, hfrom, hrefines.firstNotReplicated_eq hi,
      Nat.add_sub_cancel' (CursorLog.low_le_cursor hi)]
  · rw [EventList.getEventsFrom, hfrom, hrefines.firstNotReplicatedFrom_of_absent habsent]
    rfl
  · -- `e` is right below the cursor of `i`, which is not below the smallest one
    have hlow := CursorLog.low_le_cursor (s := s) hi
    rw [hbehind q e he, ← hcursor, max_eq_left hlow]

/-- Two instances and three events, of which instance 0 has marked all and instance 1 the first. -/
def twoBehind : List Call :=
  [.addEvent (.ofOffset [] 0), .addEvent (.ofOffset [] 1), .markProduced 0 [] 0 1,
    .markProduced 1 [] 0 0, .addEvent (.ofOffset [] 2), .markProduced 0 [] 0 2]

theorem eventList_refines_cursors_twoBehind :
    ∃ s : Cursors {0, 1}, (s.cursor 0 = 3 ∧ s.cursor 1 = 1) ∧
      ((EventList.new 2 10).replay twoBehind).events =
        s.annotated.drop (({0, 1} : Finset UInt32).inf' ⟨0, by decide⟩ s.cursor) := by
  have hspec : (@Cursors.spec {0, 1} ⟨0, by decide⟩ twoBehind).any
      (fun s => s.cursor 0 = 3 ∧ s.cursor 1 = 1) = true := by
    decide +kernel
  obtain ⟨s, hs, hcursor⟩ := (Option.any_eq_true _ _).mp hspec
  exact ⟨s, of_decide_eq_true hcursor,
    (eventList_refines_cursors _ 2 10 (by decide) twoBehind s hs).2.1⟩

end Kdsync
