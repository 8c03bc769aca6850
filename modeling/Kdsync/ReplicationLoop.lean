import Kdsync.Library.Cascade
import Kdsync.Producer

/-!
# No replication loop

An instance may well be subscribed to the topic that another one produces to. The record it
consumes is then forwarded again, but with one more suffix: topic names grow along a chain of
records, and an instance is subscribed to a single name. The records and the instances are a
`Cascade` (`forwarding`), so no chain has more records than there are instances.

`no_replication_loop` holds for any names. With one common topic, no forwarded record is consumed
at all.
-/

namespace Kdsync

/-- The second record is what an instance produces for the event that is made of the first one,
whatever the marks of the event. -/
def Forwards (k : CppKafka) (r r' : Record) : Prop :=
  ∃ offset event replicas, kafkaPolling (some (r.message offset)) = some event ∧
    k.produce (replicateEvent (event.withReplicas replicas)) = r'

section Forwards

variable {k : CppKafka} {r r' : Record}

/-- The topic grows by the suffix. -/
theorem Forwards.topic_eq (h : Forwards k r r') : r'.topic = r.topic ++ kafkaKdsyncTopicSuffix := by
  obtain ⟨offset, event, replicas, hpolled, rfl⟩ := h
  obtain rfl := Option.some.inj hpolled
  rw [replicateEvent_withReplicas, replicateEvent_eq]
  rfl

theorem Forwards.length_topic_lt (h : Forwards k r r') : r.topic.length < r'.topic.length := by
  have hpos : 0 < kafkaKdsyncTopicSuffix.length := by decide
  rw [h.topic_eq, List.length_append]
  omega

/-- What an instance forwards is not in the topic it was consumed from. -/
theorem Forwards.topic_ne (h : Forwards k r r') : r'.topic ≠ r.topic := fun heq =>
  absurd (congrArg List.length heq) h.length_topic_lt.ne'

end Forwards

/-- Instances that are subscribed to a topic each, and the records they forward. -/
def forwarding (k : CppKafka) {n : ℕ} (topic : Fin n → Bytes) : Cascade (Fin n) Record where
  takes i r := r.topic = topic i
  makes := Forwards k
  rank r := r.topic.length
  level i := (topic i).length
  rank_eq h := congrArg List.length h
  rank_lt h := h.length_topic_lt

/-- **No replication loop.** For any topics of the instances, at most `n` records are consumed
along a chain of forwarded records. So one record causes boundedly many calls of `add_event`, if
each instance consumes and forwards a record at most once. With one common topic, no forwarded
record is consumed. -/
theorem no_replication_loop (k : CppKafka) (n : ℕ) (topic : Fin n → Bytes) :
    (∀ chain : List Record, chain.IsChain (Forwards k) →
      (∀ r ∈ chain, ∃ i, r.topic = topic i) → chain.length ≤ n) ∧
    (∃ bound, ∀ r records addEvents, (forwarding k topic).Reachable r records addEvents →
      addEvents.length ≤ bound) ∧
    ∀ commonTopic, (∀ i, topic i = commonTopic) → ∀ r r', (∃ i, r.topic = topic i) →
      Forwards k r r' → ¬ ∃ i, r'.topic = topic i := by
  refine ⟨fun chain hchain hconsumed => ?_, (forwarding k topic).exists_length_taken_le, ?_⟩
  · have hlength := (forwarding k topic).length_le_card hchain hconsumed
    rwa [Fintype.card_fin] at hlength
  · rintro commonTopic hcommon r r' ⟨i, hi⟩ hforwards ⟨j, hj⟩
    refine hforwards.topic_ne ?_
    rw [hi, hj, hcommon, hcommon]

/-- The second instance is subscribed to what the first one forwards. -/
def chainedTopics (i : Fin 2) : Bytes := if i = 0 then [97] else [97] ++ kafkaKdsyncTopicSuffix

/-- A record without key and headers in the topic of an instance. -/
def chainedRecord (i : Fin 2) : Record := ⟨chainedTopics i, 0, none, some [1], []⟩

/-- Both instances consume, and it ends there. -/
theorem no_replication_loop_chainedTopics :
    [chainedRecord 0, chainedRecord 1].IsChain (Forwards .dropping) ∧
    [chainedRecord 0, chainedRecord 1].length ≤ 2 := by
  have hforwards : Forwards .dropping (chainedRecord 0) (chainedRecord 1) :=
    ⟨0, _, ∅, rfl, by decide⟩
  have hchain := List.isChain_pair.mpr hforwards
  exact ⟨hchain, (no_replication_loop .dropping 2 chainedTopics).1 _ hchain (by decide)⟩

end Kdsync
