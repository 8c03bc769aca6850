import Kdsync.EventList.Nested

/-!
# The two queries agree

After its first batch `derecho_polling` no longer asks for what it has not marked, but for what
follows `last_event`. The two queries start at the same event as long as the search for
`last_event` finds what its mark has found.

`Anchored` is the invariant behind it: what an instance has marked of the list ends with the first
event of the triple, or is erased altogether. A mark of the instance establishes it, and no later
call of the others breaks it (`Anchored.replay`). The search of `get_events_from` then goes wrong
in one case only, when the event is erased and another one carries its triple (`queries_agree_iff`).
-/

namespace Kdsync

/-- A call that is not a mark of the given instance. -/
def Call.OfOthers (derechoId : UInt32) : Call → Prop
  | .addEvent event => event.replicas = ∅
  | .markProduced other _ _ _ => other ≠ derechoId

instance (derechoId : UInt32) (call : Call) : Decidable (call.OfOthers derechoId) :=
  match call with
  | .addEvent event => inferInstanceAs (Decidable (event.replicas = ∅))
  | .markProduced other _ _ _ => inferInstanceAs (Decidable (other ≠ derechoId))

theorem Call.OfOthers.fresh {derechoId : UInt32} {call : Call} (h : call.OfOthers derechoId) :
    call.Fresh := by
  cases call with
  | addEvent event => exact h
  | markProduced => trivial

namespace EventList

/-- What `i` has marked of the list is nothing, or ends with the first event of the triple. -/
def Anchored (l : EventList) (i : UInt32) (t : Bytes) (p : Int32) (o : Int64) : Prop :=
  l.firstNotReplicated i = 0 ∨ l.firstNotReplicated i = target l.events t p o + 1

section Anchored

variable {l : EventList} {i j : UInt32} {t t' : Bytes} {p p' : Int32} {o o' : Int64}

/-- Erasing events from the front keeps the list anchored. -/
theorem Anchored.erase {events : List ReplicatedEvent} (h : Anchored { l with events } i t p o)
    (hnested : MarkedList.Nested ReplicatedEvent.replicas events) (d : ℕ) :
    Anchored { l with events := events.drop d } i t p o := by
  have hfirst : firstNotReplicated { l with events := events.drop d } i =
      firstNotReplicated { l with events } i - d := (hnested.antitone_mem i).findIdx_drop d
  rw [Anchored, hfirst]
  rcases Nat.lt_or_ge (target events t p o) d with hlt | hge
  · -- the event itself is erased
    refine .inl (Nat.sub_eq_zero_of_le ?_)
    rcases h with h | h
    · exact h.trans_le (Nat.zero_le d)
    · exact h.trans_le hlt
  · have htarget : target (events.drop d) t p o = target events t p o - d :=
      MarkedList.findIdx_drop_of_le hge
    rcases h with h | h
    · exact .inl (by rw [h, Nat.zero_sub])
    · exact .inr (by rw [h, htarget, Nat.succ_sub hge])

/-- `mark_produced` erases a number of events from the marked list. -/
theorem Nested.exists_events_markProduced (h : l.Nested) (j : UInt32) (t : Bytes) (p : Int32)
    (o : Int64) : ∃ d, l.markProduced j t p o =
      { l with events := (EventList.marked l.events j t p o).drop d } := by
  refine ⟨completedFirst l.nReplicas (EventList.marked l.events j t p o), ?_⟩
  rw [h.markProduced_eq_reference, reference, MarkedList.filter_not_eq_drop h.antitone_completed]
  rfl

/-- Marks do not move what the searches look for. -/
theorem target_marked (events : List ReplicatedEvent) :
    target (marked events j t' p' o') t p o = target events t p o := by
  have hat : ∀ e : ReplicatedEvent, (e.insertReplica j).isAt t p o = e.isAt t p o := fun _ => rfl
  exact MarkedList.findIdx_mapFirst hat _ _

/-- The marks of another instance keep the list anchored. -/
theorem Anchored.markProduced (h : l.Anchored i t p o) (hnested : l.Nested) (hij : j ≠ i) :
    (l.markProduced j t' p' o').Anchored i t p o := by
  obtain ⟨d, hd⟩ := hnested.exists_events_markProduced j t' p' o'
  rw [hd]
  refine Anchored.erase ?_ hnested.marked d
  have hfirst : firstNotReplicated { l with events := marked l.events j t' p' o' } i =
      l.firstNotReplicated i :=
    MarkedList.findIdx_mapFirst (fun e => by simp [hij.symm]) _ _
  rw [Anchored, hfirst, target_marked]
  exact h

/-- A new event comes behind everything that is marked, and the list stays anchored. -/
theorem Anchored.addEvent (h : l.Anchored i t p o) {e : ReplicatedEvent} (he : e.replicas = ∅) :
    (l.addEvent e).Anchored i t p o := by
  have hle := l.firstNotReplicated_le i
  have hfirst : (l.addEvent e).firstNotReplicated i = l.firstNotReplicated i := by
    rw [firstNotReplicated, EventList.addEvent, List.findIdx_append]
    split_ifs with hlt
    · rfl
    · -- everything was marked, and the new event is not
      have hall : l.firstNotReplicated i = l.events.length := hle.antisymm (Nat.not_lt.mp hlt)
      simp [List.findIdx_cons, he, hall]
  rw [Anchored, hfirst]
  refine h.imp_right fun h => ?_
  have hlt : target l.events t p o < l.events.length := by omega
  rw [h, EventList.addEvent, target_append_of_lt hlt]

/-- A call of another instance keeps the list anchored. -/
theorem Anchored.apply (h : l.Anchored i t p o) (hnested : l.Nested) {call : Call}
    (hcall : call.OfOthers i) : (l.apply call).Anchored i t p o := by
  cases call with
  | addEvent e => exact h.addEvent hcall
  | markProduced j t' p' o' => exact h.markProduced hnested hcall

/-- Any calls of other instances keep the list anchored. -/
theorem Anchored.replay (h : l.Anchored i t p o) (hnested : l.Nested) (hn : 1 ≤ l.nReplicas)
    {calls : List Call} (hcalls : ∀ call ∈ calls, call.OfOthers i) :
    (l.replay calls).Anchored i t p o := by
  induction calls using List.reverseRecOn with
  | nil => exact h
  | append_singleton calls call ih =>
    have hbefore : ∀ c ∈ calls, c.OfOthers i := fun c hmem => hcalls c (by simp [hmem])
    rw [replay_append, replay_singleton]
    exact (ih hbefore).apply (hnested.replay hn fun c hmem => (hbefore c hmem).fresh)
      (hcalls call (by simp))

/-- A mark whose first match the instance has not marked before anchors the list. -/
theorem anchored_of_unmarked (hnested : l.Nested) {e : ReplicatedEvent}
    (hfirst : l.events.find? (·.isAt t p o) = some e) (hnew : i ∉ e.replicas) :
    (l.markProduced i t p o).Anchored i t p o := by
  obtain ⟨d, hd⟩ := hnested.exists_events_markProduced i t p o
  rw [hd]
  refine Anchored.erase (.inr ?_) hnested.marked d
  rw [find?_isAt] at hfirst
  obtain ⟨hlt, hget⟩ := List.getElem?_eq_some_iff.mp hfirst
  rw [target_marked, firstNotReplicated]
  have hlength : (marked l.events i t p o).length = l.events.length :=
    MarkedList.length_mapFirst _ _ _
  refine MarkedList.findIdx_eq_of_forall (by rw [hlength]; exact hlt) (fun k hk f hf => ?_)
    fun f hf => ?_
  all_goals rw [marked, MarkedList.getElem?_mapFirst] at hf
  · -- up to the match, every event is marked by this call
    rw [if_pos hk] at hf
    obtain ⟨f₀, -, rfl⟩ := Option.map_eq_some_iff.mp hf
    simp
  · -- behind the match, every set of replicas is a subset of the one of the match
    rw [if_neg (Nat.lt_irrefl _)] at hf
    obtain ⟨hlt', hget'⟩ := List.getElem?_eq_some_iff.mp hf
    have hsubset := List.pairwise_iff_getElem.mp hnested.nested _ _ hlt hlt' (Nat.lt_succ_self _)
    rw [hget, hget'] at hsubset
    simpa using fun hi => hnew (hsubset hi)

end Anchored

/-! ### Where the two queries start -/

section Starts

variable {l : EventList} {i : UInt32} {t : Bytes} {p : Int32} {o : Int64} {f : ReplicatedEvent}

/-- `get_events` starts behind every event that is marked. -/
theorem Nested.lt_firstNotReplicated (h : l.Nested) {k : ℕ} (hf : l.events[k]? = some f)
    (hi : i ∈ f.replicas) : k < l.firstNotReplicated i := by
  obtain ⟨hk, hget⟩ := List.getElem?_eq_some_iff.mp hf
  by_contra hle
  have hlt : l.firstNotReplicated i < l.events.length := (Nat.not_lt.mp hle).trans_lt hk
  have hunmarked : i ∉ (l.events[l.firstNotReplicated i]).replicas := by
    have hfail : (!decide (i ∈ (l.events[l.firstNotReplicated i]).replicas)) = true :=
      List.findIdx_getElem (w := hlt)
    simpa using hfail
  rcases (Nat.not_lt.mp hle).lt_or_eq with hbefore | heq
  · have hsubset := List.pairwise_iff_getElem.mp h.nested _ _ hlt hk hbefore
    rw [hget] at hsubset
    exact hunmarked (hsubset hi)
  · simp only [heq, hget] at hunmarked
    exact hunmarked hi

/-- If the first event of the triple is marked, or there is none, the queries start alike. -/
theorem Anchored.firstNotReplicatedFrom_eq (h : l.Anchored i t p o) (hnested : l.Nested)
    (hmarked : ∀ f ∈ l.events.find? (·.isAt t p o), i ∈ f.replicas) :
    l.firstNotReplicatedFrom t p o = l.firstNotReplicated i := by
  have hle := l.firstNotReplicated_le i
  rw [firstNotReplicatedFrom_eq_target]
  split_ifs with hmiss
  · -- nothing that is marked is left, or the search would have found it
    rcases h with h | h
    · exact h.symm
    · omega
  · have hlt : target l.events t p o < l.events.length :=
      lt_of_le_of_ne target_le hmiss
    rw [find?_isAt, List.getElem?_eq_getElem hlt] at hmarked
    have hbehind := hnested.lt_firstNotReplicated (List.getElem?_eq_getElem hlt) (hmarked _ rfl)
    rcases h with h | h
    · omega
    · exact h.symm

/-- If the first event of the triple is not marked, `get_events` starts with the list and
`get_events_from` behind that event. -/
theorem Anchored.starts_of_unmarked (h : l.Anchored i t p o)
    (hf : l.events.find? (·.isAt t p o) = some f) (hi : i ∉ f.replicas) :
    l.firstNotReplicated i = 0 ∧ l.firstNotReplicatedFrom t p o = target l.events t p o + 1 ∧
      target l.events t p o < l.events.length := by
  rw [find?_isAt] at hf
  obtain ⟨hlt, hget⟩ := List.getElem?_eq_some_iff.mp hf
  refine ⟨?_, ?_, hlt⟩
  · rcases h with h | h
    · exact h
    · have hbefore : target l.events t p o < l.firstNotReplicated i := by omega
      have hmarked := List.not_of_lt_findIdx hbefore
      simp only [hget, Bool.not_eq_false', decide_eq_true_eq] at hmarked
      exact absurd hmarked hi
  · rw [firstNotReplicatedFrom_eq_target, if_neg hlt.ne]

end Starts

/-- The first `n` entries stand again at a later position exactly if they are a prefix there. -/
private theorem take_drop_eq_take_iff {α : Type*} {xs : List α} {n k : ℕ} (hpos : 0 < k)
    (hk : k ≤ xs.length) : (xs.drop k).take n = xs.take n ↔ xs.take n <+: xs.drop k := by
  constructor
  · intro heq
    rw [← heq]
    exact List.take_prefix _ _
  · intro hprefix
    -- the rest is shorter than the list, so it cannot hold all of it
    have hlength : (xs.take n).length = n := by
      have hle := hprefix.length_le
      rw [List.length_take, List.length_drop] at hle
      rw [List.length_take]
      omega
    have heq := List.prefix_iff_eq_take.mp hprefix
    rw [hlength] at heq
    exact heq.symm

/-! ### Main results -/

/-- **When the two queries agree.** After a history, a mark of instance `i` for an event that it
has not marked before, and further calls of the others, `get_events_from` with the triple of the
mark returns what `get_events` returns, exactly if the first event of that triple in the list, if
there is one, is marked by `i`. The only other case is a coincidence: the first `event_chunk` events
of the list stand a second time, equal in all fields, right behind that event. -/
theorem queries_agree_iff (n chunk : UInt32) (hn : 1 ≤ n) (hmax : chunk.toNat ≤ intMax)
    (before : List Call) (hbefore : ∀ call ∈ before, call.Fresh) (i : UInt32) (t : Bytes)
    (p : Int32) (o : Int64) (e : ReplicatedEvent)
    (hfirst : ((new n chunk).replay before).events.find? (·.isAt t p o) = some e)
    (hnew : i ∉ e.replicas) (after : List Call) (hafter : ∀ call ∈ after, call.OfOthers i)
    (l : EventList) (hl : (new n chunk).replay (before ++ .markProduced i t p o :: after) = l)
    (hlen : l.events.length ≤ intMax) :
    l.getEventsFrom t p o = l.getEvents i ↔
      (∀ f ∈ l.events.find? (·.isAt t p o), i ∈ f.replicas) ∨
      l.events.take chunk.toNat <+: l.events.drop (target l.events t p o + 1) := by
  have hbeforeNested := (nested_new n chunk).replay hn hbefore
  have hmarkNested : (((new n chunk).replay before).markProduced i t p o).Nested :=
    hbeforeNested.markProduced
  have hreplicas : 1 ≤ (((new n chunk).replay before).markProduced i t p o).nReplicas := by
    change 1 ≤ ((new n chunk).replay before).nReplicas
    rwa [nReplicas_replay]
  have hreplay : l = (((new n chunk).replay before).markProduced i t p o).replay after := by
    rw [← hl, List.append_cons, replay_append, replay_append]
    rfl
  have hnested : l.Nested := by
    rw [hreplay]
    exact hmarkNested.replay hreplicas fun call hcall => (hafter call hcall).fresh
  have hanchored : l.Anchored i t p o := by
    rw [hreplay]
    exact (anchored_of_unmarked hbeforeNested hfirst hnew).replay hmarkNested hreplicas hafter
  have hmember : l.eventChunk = chunk.toInt32 := hl ▸ eventChunk_replay _ _
  by_cases hmarked : ∀ f ∈ l.events.find? (·.isAt t p o), i ∈ f.replicas
  · refine iff_of_true ?_ (.inl hmarked)
    rw [getEventsFrom, getEvents, hanchored.firstNotReplicatedFrom_eq hnested hmarked]
  · obtain ⟨f, hf, hi⟩ : ∃ f, l.events.find? (·.isAt t p o) = some f ∧ i ∉ f.replicas := by
      simpa using hmarked
    obtain ⟨hfirst₀, hfrom, hlt⟩ := hanchored.starts_of_unmarked hf hi
    rw [or_iff_right hmarked, getEventsFrom, getEvents, hfrom, hfirst₀,
      chunkFrom_eq_take hmember hmax hlen, chunkFrom_eq_take hmember hmax hlen, Option.some.injEq,
      List.drop_zero]
    exact take_drop_eq_take_iff (Nat.succ_pos _) hlt

/-- Instance 0 marks the first of three events, and instance 1 the first two. -/
theorem queries_agree_iff_threeEvents :
    let l := (new 2 10).replay ([.addEvent (.ofOffset [] 0), .addEvent (.ofOffset [] 1)] ++
      .markProduced 0 [] 0 0 :: [.addEvent (.ofOffset [] 2), .markProduced 1 [] 0 1])
    l.getEventsFrom [] 0 0 = l.getEvents 0 ↔
      (∀ f ∈ l.events.find? (·.isAt [] 0 0), 0 ∈ f.replicas) ∨
      l.events.take 10 <+: l.events.drop (target l.events [] 0 0 + 1) :=
  queries_agree_iff 2 10 (by decide) (by decide)
    [.addEvent (.ofOffset [] 0), .addEvent (.ofOffset [] 1)] (by decide) 0 [] 0 0 (.ofOffset [] 0)
    (by decide +kernel) (by decide) [.addEvent (.ofOffset [] 2), .markProduced 1 [] 0 1]
    (by decide) _ rfl (by decide +kernel)

/-- The calls are made on lists that hold the targets of the marks, and add events without marks. -/
def TargetsIn (l : EventList) : List Call → Prop
  | [] => True
  | .addEvent event :: calls => event.replicas = ∅ ∧ (l.addEvent event).TargetsIn calls
  | .markProduced i t p o :: calls =>
    (∃ e ∈ l.events, e.triple = (t, p, o)) ∧ (l.markProduced i t p o).TargetsIn calls

instance decidableTargetsIn : ∀ (l : EventList) (calls : List Call), Decidable (l.TargetsIn calls)
  | _, [] => isTrue trivial
  | l, .addEvent event :: calls =>
    haveI := decidableTargetsIn (l.addEvent event) calls
    inferInstanceAs (Decidable (event.replicas = ∅ ∧ (l.addEvent event).TargetsIn calls))
  | l, .markProduced i t p o :: calls =>
    haveI := decidableTargetsIn (l.markProduced i t p o) calls
    inferInstanceAs (Decidable ((∃ e ∈ l.events, e.triple = (t, p, o)) ∧
      (l.markProduced i t p o).TargetsIn calls))

/-- **The two queries disagree** after the marked event is erased, if another event carries its
triple: `get_events_from` passes over all events up to that one. -/
theorem queries_disagree_of_sharedTriple :
    ¬ ∀ (n chunk : UInt32) (before after : List Call) (i : UInt32) (t : Bytes) (p : Int32)
      (o : Int64) (e : ReplicatedEvent), 1 ≤ n → 1 ≤ chunk.toNat → chunk.toNat ≤ intMax →
      (new n chunk).TargetsIn (before ++ .markProduced i t p o :: after) →
      ((new n chunk).replay before).events.find? (·.isAt t p o) = some e → i ∉ e.replicas →
      (∀ call ∈ after, call.OfOthers i) →
      ∀ l, (new n chunk).replay (before ++ .markProduced i t p o :: after) = l →
        l.events.length ≤ intMax → l.getEventsFrom t p o = l.getEvents i := by
  intro h
  -- events of two clusters of one topic: the third event has the triple of the first
  have hagree := h 2 10 [.addEvent (.ofOffset [] 0), .addEvent (.ofOffset [] 1),
    .addEvent { ReplicatedEvent.ofOffset [] 0 with payload := [1] }, .markProduced 1 [] 0 0] []
    0 [] 0 0 { ReplicatedEvent.ofOffset [] 0 with replicas := {1} } (by decide) (by decide)
    (by decide) (by decide +kernel) (by decide +kernel) (by decide) (by decide) _ rfl
    (by decide +kernel)
  exact absurd hagree (by decide +kernel)

end EventList

end Kdsync
