import Kdsync.Producer

/-!
# What becomes of a record

`produce` throws if the record cannot be queued, and `flush` throws if it times out. Both leave the
`for` loop of `derecho_polling`, and the program ends. But a record can also fail after it was
queued. Only a delivery report tells, the producer is configured without a callback for it, and
`flush` returns.

The rest of a batch is replicated one record after the other (`replicateAll`). A loop that gets to
its end has produced all of them exactly if no delivery has failed (`replicateAll_snd`).
-/

namespace Kdsync

/-- What becomes of a record that is handed to the producer. -/
inductive Outcome
  /-- `produce` throws: the record cannot be queued. -/
  | refused
  /-- `flush` throws. The cluster may still accept the record. -/
  | timedOut (accepted : Bool)
  /-- The delivery of the queued record fails. -/
  | failed
  | accepted
  deriving DecidableEq

/-- `replicate_event` returns. -/
def Outcome.returns : Outcome → Bool
  | .refused | .timedOut _ => false
  | .failed | .accepted => true

/-- The records of the local cluster after `replicate_event`. -/
def Outcome.produce (outcome : Outcome) (event : ReplicatedEvent) (accepted : List MessageBuilder) :
    List MessageBuilder :=
  match outcome with
  | .refused | .timedOut false | .failed => accepted
  | .timedOut true | .accepted => accepted ++ [replicateEvent event]

/-- The `for` loop of `derecho_polling`, given what becomes of the records: whether the loop gets
to its end, and the records of the local cluster after it. -/
def replicateAll (outcome : ℕ → Outcome) (accepted : List MessageBuilder) :
    List ReplicatedEvent → Bool × List MessageBuilder
  | [] => (true, accepted)
  | event :: rest =>
    let accepted := (outcome 0).produce event accepted
    if (outcome 0).returns then replicateAll (fun j => outcome (j + 1)) accepted rest
    else (false, accepted)

section Loop

variable {outcome : ℕ → Outcome} {accepted : List MessageBuilder} {events : List ReplicatedEvent}

/-- The loop gets to its end if nothing throws. -/
theorem replicateAll_fst : (replicateAll outcome accepted events).1 = true ↔
    ∀ j < events.length, (outcome j).returns = true := by
  induction events generalizing outcome accepted with
  | nil => simp [replicateAll]
  | cons event rest ih =>
    rw [replicateAll, List.length_cons, Nat.forall_lt_succ_left]
    by_cases h : (outcome 0).returns = true
    · simp only [h, if_true, ih, true_and]
    · simp only [h, if_false, Bool.false_eq_true, false_and]

/-- The cluster gets the record or does not. -/
theorem Outcome.exists_sublist_produce (o : Outcome) (event : ReplicatedEvent)
    (accepted : List MessageBuilder) : ∃ produced : List ReplicatedEvent,
      produced.Sublist [event] ∧
      o.produce event accepted = accepted ++ produced.map replicateEvent := by
  cases o with
  | refused | failed => exact ⟨[], List.nil_sublist _, (List.append_nil _).symm⟩
  | accepted => exact ⟨[event], .refl _, rfl⟩
  | timedOut stored =>
    cases stored with
    | false => exact ⟨[], List.nil_sublist _, (List.append_nil _).symm⟩
    | true => exact ⟨[event], .refl _, rfl⟩

/-- The cluster gets the records of some of the events, each once and in their order. -/
theorem exists_sublist_replicateAll (outcome : ℕ → Outcome) (accepted : List MessageBuilder)
    (events : List ReplicatedEvent) :
    ∃ produced : List ReplicatedEvent, produced.Sublist events ∧
      (replicateAll outcome accepted events).2 = accepted ++ produced.map replicateEvent := by
  induction events generalizing outcome accepted with
  | nil => exact ⟨[], .slnil, (List.append_nil _).symm⟩
  | cons event rest ih =>
    obtain ⟨first, hfirst, hproduce⟩ := (outcome 0).exists_sublist_produce event accepted
    rw [replicateAll]
    split_ifs
    · -- the loop goes on with the rest
      obtain ⟨produced, hsub, hproduced⟩ :=
        ih (fun j => outcome (j + 1)) ((outcome 0).produce event accepted)
      refine ⟨first ++ produced, hfirst.append hsub, ?_⟩
      rw [hproduced, hproduce, List.map_append, List.append_assoc]
    · exact ⟨first, hfirst.trans (List.sublist_append_left [event] rest), hproduce⟩

/-- A loop that gets to its end has produced all events exactly if no delivery has failed. -/
theorem replicateAll_snd (accepted : List MessageBuilder)
    (hreturns : ∀ j < events.length, (outcome j).returns = true) :
    (replicateAll outcome accepted events).2 = accepted ++ events.map replicateEvent ↔
      ∀ j < events.length, outcome j ≠ .failed := by
  induction events generalizing outcome accepted with
  | nil => simp [replicateAll]
  | cons event rest ih =>
    rw [List.length_cons, Nat.forall_lt_succ_left] at hreturns ⊢
    rw [replicateAll, if_pos hreturns.1, List.map_cons]
    cases h : outcome 0 with
    | refused => simp [h, Outcome.returns] at hreturns
    | timedOut => simp [h, Outcome.returns] at hreturns
    | failed =>
      -- the record of this event is missing, whatever becomes of the others
      refine iff_of_false (fun heq => ?_) fun hall => hall.1 rfl
      obtain ⟨produced, hsub, hproduced⟩ :=
        exists_sublist_replicateAll (fun j => outcome (j + 1)) accepted rest
      have hlength := congrArg List.length (List.append_cancel_left (hproduced.symm.trans heq))
      rw [List.length_map, List.length_cons, List.length_map] at hlength
      have := hsub.length_le
      omega
    | accepted =>
      have htail := ih (accepted ++ [replicateEvent event]) hreturns.2
      simpa [Outcome.produce] using htail

end Loop

end Kdsync
