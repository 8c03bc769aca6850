import Kdsync.EventList.Soundness
import Kdsync.Producer

/-!
# A forwarded record

On its way from one cluster to another a record is a `Message`, a `ReplicatedEvent` and a
`MessageBuilder`. All three hold byte strings where the record holds optional values, so an absent
value and one of length zero become the same event.

`forwarded_records` says what arrives: the record itself, in the topic of the replicated records,
up to the choice between absent and zero-length values (`Record.SameBytes`). This choice is lost: a
record without payload, which is what compaction takes for a deletion, and one with an empty payload
are forwarded as the same record (`absent_forwarded_as_empty`).
-/

namespace Kdsync

namespace Record

/-- The record in the topic of the replicated records. -/
def global (r : Record) : Record := { r with topic := r.topic ++ kafkaKdsyncTopicSuffix }

/-- The records differ at most in which of their empty values are absent. -/
structure SameBytes (r r' : Record) : Prop where
  topic : r.topic = r'.topic
  partition : r.partition = r'.partition
  key : r.key.getD [] = r'.key.getD []
  payload : r.payload.getD [] = r'.payload.getD []
  /-- The same names and values, in the same order. -/
  headers : (r.headers.map fun header => (header.1, header.2.getD [])) =
    r'.headers.map fun header => (header.1, header.2.getD [])

end Record

section Forward

variable (k : CppKafka) (r r' : Record) (offset offset' : Int64)

/-- Every consumed record becomes an event. -/
theorem kafkaPolling_message :
    kafkaPolling (some (r.message offset)) = some (r.message offset).toEvent := rfl

/-- A consumed record is forwarded to the "-global" topic, in its partition, with what cppkafka
makes of the bytes of its key, payload and headers. -/
theorem forward_eq : forward k r offset = some
    { topic := r.topic ++ kafkaKdsyncTopicSuffix
      partition := r.partition
      key := k.key (r.key.getD [])
      payload := k.payload (r.payload.getD [])
      headers := r.headers.map fun header => (header.1, k.headerValue (header.2.getD [])) } := by
  rw [forward, kafkaPolling_message, Option.map_some, replicateEvent_eq, CppKafka.produce]
  simp only [Message.toEvent, Record.message, List.map_map, Function.comp_def]

/-- The headers of a forwarded record have the names and bytes of those consumed. -/
theorem CppKafka.getD_headers (headers : List (Bytes × Option Bytes)) :
    ((headers.map fun header => (header.1, k.headerValue (header.2.getD []))).map fun header =>
      (header.1, header.2.getD [])) = headers.map fun header => (header.1, header.2.getD []) := by
  rw [List.map_map]
  refine List.map_congr_left fun header _ => ?_
  exact congrArg _ (k.getD_headerValue _)

/-- Every consumed record is forwarded, as a record with the same bytes. -/
theorem exists_forward_sameBytes :
    ∃ forwarded, forward k r offset = some forwarded ∧ forwarded.SameBytes r.global :=
  ⟨_, forward_eq k r offset, rfl, rfl, k.getD_key _, k.getD_payload _, k.getD_headers _⟩

/-- Records are forwarded as the same record when they have the same bytes. -/
theorem forward_eq_iff : forward k r offset = forward k r' offset' ↔ r.SameBytes r' := by
  rw [forward_eq, forward_eq, Option.some.injEq, Record.mk.injEq, List.append_left_inj]
  constructor
  · rintro ⟨htopic, hpartition, hkey, hpayload, hheaders⟩
    refine ⟨htopic, hpartition, ?_, ?_, ?_⟩
    · rw [← k.getD_key (r.key.getD []), hkey, k.getD_key]
    · rw [← k.getD_payload (r.payload.getD []), hpayload, k.getD_payload]
    · rw [← k.getD_headers r.headers, hheaders, k.getD_headers]
  · rintro ⟨htopic, hpartition, hkey, hpayload, hheaders⟩
    refine ⟨htopic, hpartition, by rw [hkey], by rw [hpayload], ?_⟩
    -- the headers are produced from their names and bytes
    have hproduced := congrArg (List.map fun header => (header.1, k.headerValue header.2)) hheaders
    simpa only [List.map_map, Function.comp_def] using hproduced

end Forward

/-! ### Through the list -/

section Stored

variable {n chunk : UInt32} {calls : List Call} {consumed : List (Record × Int64)}
  (hconsumed : (added calls).map some =
    consumed.map fun x => kafkaPolling (some (x.1.message x.2)))

include hconsumed

/-- What is made of consumed records is added without marks. -/
theorem fresh_of_consumed : ∀ call ∈ calls, call.Fresh := by
  intro call hcall
  cases call with
  | markProduced => trivial
  | addEvent e =>
    have he : some e ∈ (added calls).map some :=
      List.mem_map_of_mem (List.mem_filterMap.mpr ⟨_, hcall, rfl⟩)
    rw [hconsumed] at he
    obtain ⟨x, -, hx⟩ := List.mem_map.mp he
    exact replicas_of_kafkaPolling hx

/-- Every event of the list comes from the record it was made of. -/
theorem exists_consumed {j : ℕ} {e : ReplicatedEvent}
    (he : ((EventList.new n chunk).replay calls).events[j]? = some e) :
    ∃ x ∈ consumed[consumed.length - ((EventList.new n chunk).replay calls).events.length + j]?,
      kafkaPolling (some (x.1.message x.2)) = some e.content := by
  obtain ⟨before, hbefore⟩ := EventList.contents_suffix_added (l := .new n chunk) rfl
    (fresh_of_consumed hconsumed)
  have hlength := congrArg List.length hconsumed
  rw [List.length_map, List.length_map, ← hbefore, List.length_append, List.length_map] at hlength
  -- the list holds the last of the added events
  have hat : ((added calls).map some)[before.length + j]? = some (some e.content) := by
    rw [← hbefore, List.getElem?_map, List.getElem?_append_right (by omega),
      Nat.add_sub_cancel_left, List.getElem?_map, he]
    rfl
  rw [hconsumed, List.getElem?_map] at hat
  obtain ⟨x, hx, hpolled⟩ := Option.map_eq_some_iff.mp hat
  refine ⟨x, ?_, hpolled⟩
  rw [← hlength, Nat.add_sub_cancel]
  exact hx

end Stored

/-- **A forwarded record is the consumed record, up to absent values.** An event of the list is
produced as the record that its own consumed record is forwarded as; a record is forwarded with the
same bytes in its topic with the suffix; and two records are forwarded as the same record exactly
if they differ at most in which of their empty values are absent. -/
theorem forwarded_records (k : CppKafka) (n chunk : UInt32) (calls : List Call)
    (consumed : List (Record × Int64))
    (hconsumed : (added calls).map some =
      consumed.map fun x => kafkaPolling (some (x.1.message x.2))) :
    let events := ((EventList.new n chunk).replay calls).events
    (∀ j e, events[j]? = some e → ∃ x ∈ consumed[consumed.length - events.length + j]?,
      forward k x.1 x.2 = some (k.produce (replicateEvent e))) ∧
    (∀ r offset, ∃ forwarded, forward k r offset = some forwarded ∧
      forwarded.SameBytes r.global) ∧
    ∀ r r' offset offset', forward k r offset = forward k r' offset' ↔ r.SameBytes r' := by
  refine ⟨fun j e he => ?_, exists_forward_sameBytes k, forward_eq_iff k⟩
  obtain ⟨x, hx, hpolled⟩ := exists_consumed hconsumed he
  exact ⟨x, hx, by rw [forward, hpolled, Option.map_some, replicateEvent_content]⟩

/-- A record of topic "test" with a key and the given payload and headers. -/
def keyed (payload : Option Bytes) (headers : List (Bytes × Option Bytes)) : Record where
  topic := [116, 101, 115, 116]
  partition := 0
  key := some [1]
  payload
  headers

/-- Two records; the event of the first one is erased before that of the second one comes. -/
theorem forwarded_records_keyed :
    let first := keyed none []
    let second := keyed (some [4]) [([2], none), ([2], some [3])]
    let events := ((EventList.new 1 10).replay [.addEvent (first.message 0).toEvent,
      .markProduced 0 [116, 101, 115, 116] 0 0, .addEvent (second.message 1).toEvent]).events
    ∃ x ∈ [(first, 0), (second, (1 : Int64))][2 - events.length + 0]?,
      forward .dropping x.1 x.2 =
        some (CppKafka.dropping.produce (replicateEvent (second.message 1).toEvent)) :=
  (forwarded_records .dropping 1 10 _
    [(keyed none [], 0), (keyed (some [4]) [([2], none), ([2], some [3])], 1)] rfl).1 0 _ rfl

/-- **An absent payload and an empty one are forwarded alike**, whatever cppkafka makes of an empty
vector: two different records arrive as the same one, so not every event of the list is produced as
the record it comes from. -/
theorem absent_forwarded_as_empty :
    keyed none [] ≠ keyed (some []) [] ∧
    (∀ k offset, forward k (keyed none []) offset = forward k (keyed (some []) []) offset) ∧
    ∀ k : CppKafka, ¬ ∀ (n chunk : UInt32) (calls : List Call) (consumed : List (Record × Int64)),
      (added calls).map some = consumed.map (fun x => kafkaPolling (some (x.1.message x.2))) →
      ∀ j e, ((EventList.new n chunk).replay calls).events[j]? = some e →
        ∃ x ∈ consumed[consumed.length - ((EventList.new n chunk).replay calls).events.length + j]?,
          k.produce (replicateEvent e) = x.1.global := by
  refine ⟨by decide, fun k offset => rfl, fun k h => ?_⟩
  -- both records are stored as the same event
  have hproduced : ∀ payload, (keyed payload []).message 0 = (keyed none []).message 0 →
      k.produce (replicateEvent ((keyed none []).message 0).toEvent) =
        (keyed payload []).global := by
    intro payload hsame
    obtain ⟨x, hx, hglobal⟩ := h 2 10 [.addEvent ((keyed none []).message 0).toEvent]
      [(keyed payload [], 0)] (by simp [kafkaPolling_message, hsame]) 0 _ rfl
    obtain rfl := Option.some.inj hx
    exact hglobal
  have hglobal := (hproduced none rfl).symm.trans (hproduced (some []) rfl)
  exact absurd hglobal (by decide)

end Kdsync
