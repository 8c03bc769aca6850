import Kdsync.System.WellFormed
import Kdsync.Library.Machine

/-!
# Where the events of the log come from

What the consumers hand to `kafka_polling` is sent in the same order, and becomes part of the log in
the same order (`sentEvents_of_run`). Only a crash takes something away: what was sent and is not
ordered yet.

With a topic for each instance the log is therefore made of one part for each topic
(`log_of_ownTopics`), and as its parts it has no triple twice when the consumers hand out every
record once.
-/

namespace Kdsync

open Broadcast (from_)

/-- The events an instance has sent, in the order of sending. -/
def System.sentEvents (s : System) (j : UInt32) : List ReplicatedEvent :=
  added ((s.net.sentBy j).map (·.call j))

/-! ### From a consumer to the messages of its instance -/

section Sent

variable {c : Config} {s s' : System} {i j : UInt32} {a : Action}
  {actions actions' : List (UInt32 × Action)}

@[simp] theorem handed_append : handed (actions ++ actions') j =
    handed actions j ++ handed actions' j := List.filterMap_append

/-- A crash takes away what is not ordered yet. -/
theorem sentEvents_crash_sublist :
    (System.sentEvents { s.setPolling i none with net := s.net.crash i } j).Sublist
      (s.sentEvents j) := by
  refine ((List.Sublist.map _ ?_).filterMap _)
  rcases eq_or_ne j i with rfl | hj
  · rw [Broadcast.sentBy_crash_self]
    exact List.sublist_append_left _ _
  · rw [Broadcast.sentBy_crash_of_ne hj]

/-- **One step**: what the consumer hands out is sent, unless the instance crashes. -/
theorem Effect.sentEvents_eq (he : Effect c s i a s') (hcrash : (i, a) ≠ (j, .crash)) :
    s'.sentEvents j = s.sentEvents j ++ handed [(i, a)] j := by
  cases he with
  | ignored h => simp [handed, h]
  | added _ h =>
    rcases eq_or_ne j i with rfl | hj
    · simp [System.sentEvents, handed, h, Rpc.call]
    · simp [System.sentEvents, handed, hj, hj.symm]
  | marked =>
    rcases eq_or_ne j i with rfl | hj
    · simp [System.sentEvents, handed, Rpc.call]
    · simp [System.sentEvents, handed, hj]
  | sequenced hnet => simp [System.sentEvents, handed, Broadcast.sentBy_sequence hnet]
  | delivered _ hnet => simp [System.sentEvents, handed, Broadcast.sentBy_deliver hnet]
  | crashed =>
    have hj : j ≠ i := fun heq => hcrash (by rw [heq])
    simp [System.sentEvents, handed, hj]
  | replicated => simp [System.sentEvents, handed, System.replicateEvent]
  | _ => simp [System.sentEvents, handed]

/-- An event that is handed out in a step is from the topic of its instance. -/
theorem of_mem_handed (hstep : step c s (i, a) = some s') {event : ReplicatedEvent}
    (h : event ∈ handed [(i, a)] j) : j ∈ c.ids ∧ event.topic = c.topic j := by
  simp only [handed, List.filterMap_cons, List.filterMap_nil] at h
  cases a with
  | kafkaPoll polled =>
    obtain ⟨hi, -⟩ := Effect.of_step hstep
    simp only [step, hi, if_true, act, Option.bind_eq_bind, Option.bind_eq_some_iff] at hstep
    obtain ⟨p, -, u, hguard, -⟩ := hstep
    have htopic : ∀ msg ∈ polled, msg.topic = c.topic i := (Option.guard_eq_some' u).mp hguard
    by_cases hij : i = j
    · subst hij
      cases polled with
      | none => simp [kafkaPolling] at h
      | some msg =>
        simp only [if_true, kafkaPolling] at h
        split_ifs at h
        · obtain rfl : event = msg.toEvent := by simpa using h
          exact ⟨hi, htopic msg rfl⟩
        · simp at h
    · simp [hij] at h
  | _ => simp at h

/-- **From the consumer to the messages.** What an instance sends was handed out in this order, and
all of it is sent if the instance does not crash. -/
theorem sentEvents_of_run {ok : System → UInt32 × Action → Prop}
    (h : Machine.Run (step c) ok .init actions s) (j : UInt32) :
    (s.sentEvents j).Sublist (handed actions j) ∧
    ((j, .crash) ∉ actions → s.sentEvents j = handed actions j) ∧
    ∀ event ∈ handed actions j, j ∈ c.ids ∧ event.topic = c.topic j := by
  induction h with
  | nil => exact ⟨List.Sublist.refl _, fun _ => rfl, fun _ hevent => by cases hevent⟩
  | @snoc actions s s' a _ _ hstep ih =>
    obtain ⟨hsub, heq, hmem⟩ := ih
    obtain ⟨i, a⟩ := a
    obtain ⟨-, he⟩ := Effect.of_step hstep
    rw [handed_append]
    refine ⟨?_, fun hcrash => ?_, fun event hevent => ?_⟩
    · by_cases hcrash : (i, a) = (j, .crash)
      · obtain ⟨rfl, rfl⟩ := Prod.mk.inj hcrash
        cases he
        exact sentEvents_crash_sublist.trans (hsub.trans (List.sublist_append_left _ _))
      · rw [he.sentEvents_eq hcrash]
        exact hsub.append (List.Sublist.refl _)
    · rw [List.mem_append, not_or, List.mem_singleton] at hcrash
      rw [he.sentEvents_eq (Ne.symm hcrash.2), heq hcrash.1]
    · obtain hevent | hevent := List.mem_append.mp hevent
      · exact hmem event hevent
      · exact of_mem_handed hstep hevent

end Sent

/-! ### From the messages to the log -/

section Log

variable {topic : UInt32 → Bytes} {order : List (UInt32 × Rpc)} {j : UInt32}

/-- The events of one topic are those of one sender, if the senders have different topics. -/
theorem filter_added_calls
    (h : ∀ m ∈ order, ∀ event, m.2 = .addEvent event → (event.topic = topic j ↔ m.1 = j)) :
    (added (calls order)).filter (fun event => event.topic = topic j) =
      added ((from_ j order).map (·.call j)) := by
  induction order using List.reverseRecOn with
  | nil => rfl
  | append_singleton order m ih =>
    obtain ⟨i, rpc⟩ := m
    rw [calls_append, added_append, List.filter_append, Broadcast.from_append, List.map_append,
      added_append, ih fun m hm => h m (List.mem_append_left _ hm), Broadcast.from_singleton]
    congr 1
    cases rpc with
    | markProduced x => by_cases hij : i = j <;> simp [Rpc.call, hij]
    | addEvent event =>
      have hiff := h (i, .addEvent event) (by simp) event rfl
      by_cases hij : i = j
      · simp [Rpc.call, hij, hiff.mpr hij]
      · simp [Rpc.call, hij, hiff.not.mpr hij]

/-- The ordered events of a sender are the first ones it has sent. -/
theorem added_from_isPrefix (s : System) (j : UInt32) :
    added ((from_ j s.net.order).map (·.call j)) <+: s.sentEvents j :=
  ((List.prefix_append _ _).map _).filterMap _

/-- An event of the log was sent by some instance. -/
theorem System.exists_of_mem_log {s : System} {event : ReplicatedEvent} (h : event ∈ s.log) :
    ∃ i, event ∈ s.sentEvents i := by
  obtain ⟨call, hcall, hadded⟩ := List.mem_filterMap.mp h
  obtain ⟨⟨i, rpc⟩, hm, rfl⟩ := List.mem_map.mp hcall
  refine ⟨i, List.mem_filterMap.mpr ⟨_, List.mem_map.mpr
    ⟨rpc, Broadcast.mem_sentBy_of_mem_order hm, rfl⟩, hadded⟩⟩

theorem mem_sentEvents_of_mem_order {s : System} {i : UInt32} {event : ReplicatedEvent}
    (h : (i, .addEvent event) ∈ s.net.order) : event ∈ s.sentEvents i :=
  List.mem_filterMap.mpr ⟨.addEvent event,
    List.mem_map.mpr ⟨_, Broadcast.mem_sentBy_of_mem_order h, rfl⟩, rfl⟩

end Log

theorem Distinct.of_sublist {events events' : List ReplicatedEvent} (h : Distinct events')
    (hsub : events.Sublist events') : Distinct events :=
  h.sublist (hsub.map _)

/-- Triples are unique if those of each topic are. -/
theorem distinct_of_topics {events : List ReplicatedEvent}
    (h : ∀ t, Distinct (events.filter fun event => event.topic = t)) : Distinct events := by
  induction events with
  | nil => exact List.nodup_nil
  | cons e events ih =>
    have htail : Distinct events := ih fun t =>
      (h t).of_sublist ((List.sublist_cons_self e events).filter _)
    refine List.nodup_cons.mpr ⟨fun hmem => ?_, htail⟩
    obtain ⟨f, hf, htriple⟩ := List.mem_map.mp hmem
    have htopic : f.topic = e.topic := congrArg Prod.fst htriple
    -- both events are in the part of their topic
    have hpart := h e.topic
    rw [List.filter_cons_of_pos (by simp)] at hpart
    exact (List.nodup_cons.mp hpart).1 (List.mem_map.mpr ⟨f, by simp [hf, htopic], htriple⟩)

/-! ### Main result -/

section Runs

variable {c : Config} {s : System} {ok : System → UInt32 × Action → Prop}
  {actions : List (UInt32 × Action)}

/-- The events of a topic in the log are the ordered ones of the instance that consumes it. -/
theorem filter_log_of_run (h : Machine.Run (step c) ok .init actions s)
    (htopic : ∀ i ∈ c.ids, ∀ j ∈ c.ids, c.topic i = c.topic j → i = j) {j : UInt32}
    (hj : j ∈ c.ids) : (s.log.filter fun event => event.topic = c.topic j) =
      added ((from_ j s.net.order).map (·.call j)) := by
  refine filter_added_calls fun m hm event hevent => ?_
  obtain ⟨i, rpc⟩ := m
  subst hevent
  obtain ⟨hsub, -, hmem⟩ := sentEvents_of_run h i
  obtain ⟨hi, hi'⟩ := hmem event (hsub.subset (mem_sentEvents_of_mem_order hm))
  rw [hi']
  exact ⟨htopic i hi j hj, fun heq => congrArg _ heq⟩

/-- Every event is from the topic of an instance. -/
theorem exists_topic_of_run (h : Machine.Run (step c) ok .init actions s) {event : ReplicatedEvent}
    (hevent : event ∈ s.log) : ∃ i ∈ c.ids, event.topic = c.topic i := by
  obtain ⟨i, hi⟩ := System.exists_of_mem_log hevent
  obtain ⟨hsub, -, hmem⟩ := sentEvents_of_run h i
  exact ⟨i, hmem event (hsub.subset hi)⟩

/-- The events of a topic stand in the order in which the consumer has handed them out. -/
theorem filter_log_sublist (h : Machine.Run (step c) ok .init actions s)
    (htopic : ∀ i ∈ c.ids, ∀ j ∈ c.ids, c.topic i = c.topic j → i = j) {j : UInt32}
    (hj : j ∈ c.ids) :
    (s.log.filter fun event => event.topic = c.topic j).Sublist (handed actions j) := by
  rw [filter_log_of_run h htopic hj]
  exact (added_from_isPrefix s j).sublist.trans (sentEvents_of_run h j).1

/-- Without a crash of its instance, the events of a topic in the log are the first ones of those
its consumer has handed out. -/
theorem filter_log_isPrefix (h : Machine.Run (step c) ok .init actions s)
    (htopic : ∀ i ∈ c.ids, ∀ j ∈ c.ids, c.topic i = c.topic j → i = j) {j : UInt32}
    (hj : j ∈ c.ids) (hcrash : (j, .crash) ∉ actions) :
    (s.log.filter fun event => event.topic = c.topic j) <+: handed actions j := by
  rw [filter_log_of_run h htopic hj, ← (sentEvents_of_run h j).2.1 hcrash]
  exact added_from_isPrefix s j

/-- Records that are handed out once give events with pairwise different triples. -/
theorem distinct_log_of_run (h : Machine.Run (step c) ok .init actions s)
    (htopic : ∀ i ∈ c.ids, ∀ j ∈ c.ids, c.topic i = c.topic j → i = j)
    (honce : ∀ i ∈ c.ids, Distinct (handed actions i)) : Distinct s.log := by
  refine distinct_of_topics fun t => ?_
  -- a topic is that of one instance or of no event
  by_cases ht : ∃ j ∈ c.ids, c.topic j = t
  · obtain ⟨j, hj, rfl⟩ := ht
    exact (honce j hj).of_sublist (filter_log_sublist h htopic hj)
  · have hnil : (s.log.filter fun event => event.topic = t) = [] := by
      refine List.filter_eq_nil_iff.mpr fun event hevent heq => ht ?_
      obtain ⟨i, hi, htopic⟩ := exists_topic_of_run h hevent
      exact ⟨i, hi, htopic.symm.trans (by simpa using heq)⟩
    rw [hnil]
    exact List.nodup_nil

/-- **The log is made of what the consumers hand out.** In every run with a topic for each instance,
crashes and restarts included, whose consumers hand out every record once: no two events of the log
carry the same triple, each one is from the topic of an instance, and those of one topic stand in
the order in which the consumer has handed them out. If the instance does not crash, none of them
is missing in between. -/
theorem log_of_ownTopics (h : Machine.Run (step c) ok .init actions s)
    (htopic : ∀ i ∈ c.ids, ∀ j ∈ c.ids, c.topic i = c.topic j → i = j)
    (honce : ∀ i ∈ c.ids, Distinct (handed actions i)) :
    Distinct s.log ∧ (∀ event ∈ s.log, ∃ i ∈ c.ids, event.topic = c.topic i) ∧
    ∀ j ∈ c.ids,
      (s.log.filter fun event => event.topic = c.topic j).Sublist (handed actions j) ∧
      ((j, .crash) ∉ actions →
        (s.log.filter fun event => event.topic = c.topic j) <+: handed actions j) :=
  ⟨distinct_log_of_run h htopic honce, fun _ hevent => exists_topic_of_run h hevent,
    fun _ hj => ⟨filter_log_sublist h htopic hj, filter_log_isPrefix h htopic hj⟩⟩

end Runs

/-- The first record of cluster 0 is lost with a crash, and the second one is not. -/
def lostBefore : List (UInt32 × Action) :=
  acts 0 [.kafkaPoll (some (record [97] 0 0 [1])), .crash, .rejoin] ++
    adds 1 (record [98] 0 0 [2]) ++ adds 0 (record [97] 0 1 [3])

theorem log_of_ownTopics_lostBefore :
    ∃ s : System, s.log.length = 2 ∧ Distinct s.log ∧
      (s.log.filter fun event => event.topic = twoTopics.topic 1) <+: handed lostBefore 1 := by
  obtain ⟨s, hrun, hcheck⟩ := Machine.Run.exists_of_exec (step twoTopics) (fun _ _ => True) .init
    lostBefore (fun s => s.log.length = 2) (by decide +kernel)
  obtain ⟨hlog, -, hparts⟩ := log_of_ownTopics hrun
    (forall_mem_twoInstances (forall_mem_twoInstances (by decide) (by decide))
      (forall_mem_twoInstances (by decide) (by decide)))
    (forall_mem_twoInstances (by decide) (by decide))
  exact ⟨s, of_decide_eq_true hcheck, hlog, (hparts 1 (by decide)).2 (by decide)⟩

end Kdsync
