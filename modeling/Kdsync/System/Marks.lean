import Kdsync.EventList.Confluence
import Kdsync.System.Front
import Kdsync.System.Relay

/-!
# Every mark finds its target

The inner comment of `mark_produced` says of a target that is not in the list: "this situation
shouldn't be possible". With unique triples it is not, in any run, whatever crashes and restarts
(`allHeld_of_run`): on no replica does a mark come to an event that is erased or not added yet. The
loop then never marks the whole list by a search that fails, and the order in which the marks of
different instances arrive does not matter (`EventList.replay_eq_of_sameMarks`). Queries find
`last_event` or nothing, so all searches are as `SearchesHeld` asks (`Found.searchesHeld`).
-/

namespace Kdsync

open Broadcast (from_)

section Marks

variable {c : Config} {s s' : System} {i : UInt32} {a : Action}

/-- The list that the calls of the whole order make refines the log with its cursors. -/
theorem WellFormed.refines_order (hw : WellFormed c s) : Refines (c.cursors s.net.order)
    ((EventList.new c.nReplicas c.eventChunk).replay (calls s.net.order)) := by
  refine (Refines.init c.nonempty c.nReplicas c.eventChunk c.card_ids).replay fun call hcall => ?_
  obtain ⟨m, hm, rfl⟩ := List.mem_map.mp hcall
  exact hw.calls_by m.1 m.2 (Broadcast.mem_sentBy_of_mem_order hm)

/-- A mark that becomes part of the order finds its target. -/
theorem Exact.held_sequence (h : Exact c s) (hw : WellFormed c s) {m : UInt32 × Rpc}
    {waiting : List Rpc} (hout : s.net.outbox m.1 = m.2 :: waiting) :
    EventList.Held c.ids ((EventList.new c.nReplicas c.eventChunk).replay (calls s.net.order))
      (m.2.call m.1) := by
  obtain ⟨j, rpc⟩ := m
  have hsent : from_ j s.net.order ++ [rpc] <+: s.net.sentBy j := by
    rw [Broadcast.sentBy, hout]
    exact ⟨waiting, by simp⟩
  have hmem : rpc ∈ s.net.sentBy j := hsent.subset (by simp)
  have hby := hw.calls_by j rpc hmem
  cases rpc with
  | addEvent event => exact hby
  | markProduced x =>
    refine ⟨hby, ?_⟩
    -- the target has been added, and it is live since the cursor of the sender is not past it
    have hle := (h.instances j).advancing _ x hsent
    rw [← h.cursor s.net.order List.prefix_rfl j] at hle
    have hlow := (CursorLog.low_le_cursor hby).trans hle
    obtain ⟨e, he, ht, hpart, ho⟩ := (hw.marks j x hmem).exists_getElem?
    rw [System.log, ← Config.log_cursors c] at he
    obtain ⟨k, hk⟩ := Nat.exists_eq_add_of_le hlow
    have hlive := CursorLog.getElem?_live (s := c.cursors s.net.order) k
    rw [← hk, he, Option.map_some] at hlive
    rw [hw.refines_order.events]
    have htriple : (e.topic, e.partition, e.offset) =
        (x.event.topic, x.event.partition, x.event.offset) := by rw [ht, hpart, ho]
    exact ⟨_, List.mem_map_of_mem (List.mem_of_getElem? hlive), htriple⟩

/-- Every step leaves only marks in the order that have found their targets. -/
theorem Exact.allHeld_effect (h : Exact c s) (hw : WellFormed c s)
    (hheld : EventList.AllHeld c.ids (.new c.nReplicas c.eventChunk) (calls s.net.order))
    (he : Effect c s i a s') :
    EventList.AllHeld c.ids (.new c.nReplicas c.eventChunk) (calls s'.net.order) := by
  cases he with
  | sequenced hnet =>
    obtain ⟨m, waiting, hout, horder, -⟩ := Broadcast.sequence_cases hnet
    rw [horder, calls_append, EventList.allHeld_append]
    exact ⟨hheld, h.held_sequence hw (m := (i, m)) hout, trivial⟩
  | delivered _ hnet =>
    obtain ⟨m, -, horder, -⟩ := Broadcast.deliver_cases hnet
    rwa [horder]
  | _ => exact hheld

variable {ok : System → UInt32 × Action → Prop} {actions : List (UInt32 × Action)}

/-- The invariants of a run with unique triples, and that all marks in the order have found their
targets. -/
def Found (c : Config) (s : System) : Prop :=
  WellFormed c s ∧ Exact c s ∧
    EventList.AllHeld c.ids (.new c.nReplicas c.eventChunk) (calls s.net.order)

theorem found_init (c : Config) : Found c .init := ⟨.init c, .init c, trivial⟩

theorem Found.step {a : UInt32 × Action} (h : Found c s) (hlog : Distinct s.log)
    (hstep : step c s a = some s') : Found c s' := by
  obtain ⟨hw, hexact, hheld⟩ := h
  obtain ⟨hi, he⟩ := Effect.of_step hstep
  exact ⟨hw.effect hi he, hexact.effect hw hlog hi he, hexact.allHeld_effect hw hheld he⟩

/-- **Every mark finds its target.** In every run whose events carry pairwise different triples,
with crashes and restarts at any moment, the target of each mark is in the list of each replica when
the mark is applied there. -/
theorem allHeld_of_run (h : Machine.Run (step c) ok .init actions s) (hlog : Distinct s.log)
    (r : UInt32) :
    EventList.AllHeld c.ids (.new c.nReplicas c.eventChunk) (calls (s.net.delivered r)) := by
  obtain ⟨-, -, hheld⟩ := (run_distinct h hlog).invariant (Found c) (found_init c)
    fun _ _ _ hfound hok hstep => hfound.step hok.2 hstep
  obtain ⟨rest, hrest⟩ := s.net.delivered_prefix r
  rw [← hrest, calls_append, EventList.allHeld_append] at hheld
  exact hheld.1

end Marks

theorem allHeld_of_run_crashAhead :
    ∃ s : System, s.trace 0 = [0, 1, 1] ∧
      EventList.AllHeld twoTopics.ids (.new 2 10) (calls (s.net.delivered 1)) := by
  obtain ⟨s, hrun, htrace, hlog⟩ := exists_run_crashAhead
  exact ⟨s, htrace, allHeld_of_run hrun hlog 1⟩

/-! ### The searches of a run -/

section Searches

variable {c : Config} {s : System} {i r : UInt32} {x : Served}

/-- With unique triples, an event of the list with the triple of an event of the log is this event,
so the list holds it. -/
theorem WellFormed.holds_of_mem (hw : WellFormed c s) (hlog : Distinct s.log) (hx : x.In s.log)
    {e : ReplicatedEvent} (he : e ∈ (s.list c r).events) (htriple : e.triple = x.event.triple) :
    s.Holds c r x := by
  obtain ⟨k, hk⟩ := List.mem_iff_getElem?.mp he
  have hlist := hw.getElem?_list r k
  rw [hk, Option.map_some] at hlist
  obtain ⟨e', he', hcontent⟩ := Option.map_eq_some_iff.mp hlist.symm
  obtain ⟨f, hf, htopic, hpartition, hoffset⟩ := hx.exists_getElem?
  have hsame : e'.triple = f.triple := by
    rw [← ReplicatedEvent.triple_content, hcontent, ReplicatedEvent.triple_content, htriple]
    simp [ReplicatedEvent.triple, htopic, hpartition, hoffset]
  have hposition := hlog.position_eq (getElem?_mono (localLog_prefix_log s r) he') hf hsame
  have hlt := (List.getElem?_eq_some_iff.mp hk).1
  exact ⟨by omega, by omega⟩

/-- **Unique triples suffice for all searches.** With unique triples, a query finds `last_event` or
nothing and a mark finds its target, so that a step is as `SearchesHeld` asks if an instance only
restarts while another one can send it the list. -/
theorem Found.searchesHeld (h : Found c s) (hlog : Distinct s.log) {a : UInt32 × Action}
    (hrestores : a.2 = .rejoin → s.Restores c) : SearchesHeld c s a := by
  obtain ⟨hw, -, hheld⟩ := h
  obtain ⟨i, a⟩ := a
  have hdeliver : ∀ x ∈ s.nextMark i, s.Holds c i x := by
    intro x hx
    obtain ⟨j, hm⟩ := System.exists_of_nextMark hx
    have horder := List.take_append_drop (s.net.applied i) s.net.order
    rw [List.drop_eq_getElem_cons (List.getElem?_eq_some_iff.mp hm).1,
      (List.getElem?_eq_some_iff.mp hm).2] at horder
    rw [← horder, calls_append, EventList.allHeld_append] at hheld
    obtain ⟨-, ⟨-, e, he, htriple⟩, -⟩ := hheld
    exact hw.holds_of_mem hlog (hw.marks j x (Broadcast.mem_sentBy_of_mem_order
      (List.mem_of_getElem? hm))) he htriple
  cases a with
  | query =>
    refine ⟨fun x hlooked => ?_, fun heq => by cases heq⟩
    obtain ⟨p, hp, hlast⟩ := System.exists_of_lookedFor hlooked
    have hx := ((hw.polling _ _ hp).lastEvent x hlast).mono (localLog_prefix_log s i)
    by_cases hmatch : ∃ event ∈ (s.list c i).events, event.triple = x.event.triple
    · obtain ⟨e, he, htriple⟩ := hmatch
      exact .inl (hw.holds_of_mem hlog hx he htriple)
    · exact .inr fun e he htriple => hmatch ⟨e, he, htriple⟩
  | deliver => exact ⟨trivial, fun _ x hx => .inl (hdeliver x hx)⟩
  | crash => trivial
  | rejoin => exact hrestores rfl
  | _ => exact ⟨trivial, fun heq => by cases heq⟩

end Searches

end Kdsync
