import Kdsync.Program.Statements

/-!
# Runs, statement by statement

Every run of the statements comes to the same as a run of the program (`Processes.exists_program`),
so the threads, Derecho and the clusters may take turns as they like. To carry results over, the
actions of the program are accounted for by the statements (`Processes.Explains`): a process ends as
often, no record fails unless its delivery does, and the events sent are those that were read, up to
the one that `kafka_polling` holds and at most one for each time that its process has ended.
-/

namespace Kdsync

/-- The event that the thread has read and not sent. -/
def KafkaThread.held : KafkaThread → Option ReplicatedEvent
  | .polling => none
  | .sending msg => kafkaPolling (some msg)

/-- The delivery of the queued record has failed. -/
def DerechoThread.failed : DerechoThread → Bool
  | .flushing _ _ _ _ .failed => true
  | _ => false

/-- The event that `kafka_polling` sends in an action. -/
def Program.Action.sent : Program.Action → Option ReplicatedEvent
  | .kafkaPoll polled => kafkaPolling polled
  | _ => none

namespace Processes

/-- The event that `kafka_polling` makes of a message. -/
def Statement.read : Statement → Option ReplicatedEvent
  | .poll polled => kafkaPolling polled
  | _ => none

/-- The program of the process ends. -/
def Statement.ends : Statement → Bool
  | .produce queued => !queued
  | .flush returns => !returns
  | .crash => true
  | _ => false

/-- A process does not end at a `poll`. -/
theorem Statement.read_of_ends {a : Statement} (h : a.ends = true) : a.read = none := by
  cases a with
  | poll => cases h
  | _ => rfl

/-- The delivery of a queued record does not fail. -/
def Statement.Reliable (a : Statement) : Prop := a ≠ .report false

instance (a : Statement) : Decidable a.Reliable := inferInstanceAs (Decidable (_ ≠ _))

/-- The event that a process has read and not sent. -/
def held (process : Option Process) : Option ReplicatedEvent := process.bind (·.kafka.held)

theorem length_held_le (process : Option Process) : (held process).toList.length ≤ 1 := by
  cases held process with
  | none => exact Nat.zero_le _
  | some event => exact Nat.le_refl _

/-- The delivery of the record that a process has queued has failed. -/
def failed (process : Option Process) : Bool := process.any (·.derecho.failed)

/-- What a statement does to its process. -/
structure Leads (a : Statement) (process process' : Option Process) : Prop where
  held : a.ends = false → (held process).toList ++ a.read.toList =
    (a.actions process).filterMap Program.Action.sent ++ (held process').toList
  ended : a.ends = true → process' = none ∧
    (a.actions process).filterMap Program.Action.sent = []
  outages : (a.actions process).countP Program.Action.ends = a.ends.toNat
  reliable : a.Reliable → failed process = false →
    failed process' = false ∧ .round .failed ∉ a.actions process

section Step

variable {m : Mutils} {c : Config} {s s' : Processes} {i : UInt32} {a : Statement}

/-- A statement that leaves `kafka_polling` where it is, reads nothing and sends nothing leads its
process on. -/
theorem Leads.of_held {process process' : Option Process}
    (hheld : Processes.held process' = Processes.held process)
    (hread : a.read = none) (hends : a.ends = false)
    (hsent : (a.actions process).filterMap Program.Action.sent = [])
    (houtages : (a.actions process).countP Program.Action.ends = 0)
    (hreliable : a.Reliable → failed process = false →
      failed process' = false ∧ .round .failed ∉ a.actions process) : Leads a process process' where
  held _ := by rw [hread, hsent, hheld]; exact List.append_nil _
  ended h := absurd h (by rw [hends]; decide)
  outages := by rw [houtages, hends]; rfl
  reliable := hreliable

/-- A statement that ends its process, with one action that ends the program, leads to no process.
-/
theorem Leads.exit {process : Option Process} {action : Program.Action} (hends : a.ends = true)
    (hone : a.actions process = [action]) (hsent : action.sent = none)
    (hended : action.ends = true) (hreliable : action.Reliable) : Leads a process none where
  held h := absurd h (by rw [hends]; decide)
  ended _ := ⟨rfl, by rw [hone, List.filterMap_cons_none hsent]; rfl⟩
  outages := by rw [hone, hends, List.countP_singleton, if_pos hended]; rfl
  reliable _ _ := ⟨rfl, by rw [hone]; exact fun h => hreliable (List.mem_singleton.mp h).symm⟩

/-- A statement leads its own process on, and leaves every other process as it is. -/
theorem exists_leads (h : Acts m c s i a s') :
    ∃ process, s'.processes = Function.update s.processes i process ∧
      Leads a (s.processes i) process := by
  have hsame : s.processes = Function.update s.processes i (s.processes i) :=
    (Function.update_eq_self _ _).symm
  cases h with
  | skip hp hpolled =>
    refine ⟨_, hsame, fun _ => ?_, nofun, rfl, fun _ h => ⟨h, nofun⟩⟩
    simp [Statement.read, hpolled, Statement.actions]
  | poll hp htopic herror =>
    exact ⟨_, rfl, hp ▸ ⟨fun _ => rfl, nofun, rfl, fun _ h => ⟨h, nofun⟩⟩⟩
  | addEvent hp =>
    refine ⟨_, rfl, hp ▸ ⟨fun _ => ?_, nofun, rfl, fun _ h => ⟨h, ?_⟩⟩⟩
    · simp only [held, KafkaThread.held, Statement.read, Statement.actions, Option.bind_some,
        Option.toList_none, List.append_nil]
      cases hpolled : kafkaPolling (some _) <;> simp [Program.Action.sent, hpolled]
    · simp [Statement.actions]
  | queryEmpty hp hquery =>
    exact ⟨_, hsame, hp ▸ .of_held rfl rfl rfl rfl rfl fun _ h => ⟨h, by simp [Statement.actions]⟩⟩
  | query hp hquery hback =>
    exact ⟨_, rfl, hp ▸ .of_held rfl rfl rfl rfl rfl fun _ h => ⟨rfl, by simp [Statement.actions]⟩⟩
  | queryFails hp =>
    exact ⟨_, hsame, hp ▸ .of_held rfl rfl rfl rfl rfl fun _ h => ⟨h, by simp [Statement.actions]⟩⟩
  | produce hp =>
    exact ⟨_, rfl, hp ▸ .of_held rfl rfl rfl rfl rfl fun _ h => ⟨rfl, nofun⟩⟩
  | refused hp => exact ⟨_, rfl, .exit rfl rfl rfl rfl (by decide)⟩
  | accepted hp =>
    exact ⟨_, rfl, hp ▸ .of_held rfl rfl rfl rfl rfl fun _ h => ⟨rfl, nofun⟩⟩
  | failed hp =>
    exact ⟨_, rfl, hp ▸ .of_held rfl rfl rfl rfl rfl fun h => absurd rfl h⟩
  | @flush _ _ _ _ _ delivery hp hdelivery =>
    refine ⟨_, rfl, hp ▸ ?_⟩
    cases delivery with
    | waiting => contradiction
    | accepted => exact .of_held rfl rfl rfl rfl rfl fun _ h => ⟨rfl, by simp [Statement.actions]⟩
    | failed => exact .of_held rfl rfl rfl rfl rfl nofun
  | timedOut hp => exact ⟨_, rfl, hp ▸ .exit rfl rfl rfl rfl nofun⟩
  | setLastEvent hp =>
    exact ⟨_, rfl, hp ▸ .of_held rfl rfl rfl rfl rfl fun _ h => ⟨rfl, nofun⟩⟩
  | markProduced hp =>
    exact ⟨_, rfl, hp ▸ .of_held rfl rfl rfl rfl rfl fun _ h => ⟨rfl, by simp [Statement.actions]⟩⟩
  | sequence hnet =>
    exact ⟨_, hsame, .of_held rfl rfl rfl rfl rfl fun _ h => ⟨h, by simp [Statement.actions]⟩⟩
  | deliver hp hx hnet =>
    exact ⟨_, hsame, .of_held rfl rfl rfl rfl rfl fun _ h => ⟨h, by simp [Statement.actions]⟩⟩
  | @crash process hp =>
    refine ⟨_, rfl, hp ▸ ?_⟩
    match process with
    | ⟨_, .flushing ..⟩ => exact .exit rfl rfl rfl rfl nofun
    | ⟨_, .querying _⟩ | ⟨_, .replicating ..⟩ | ⟨_, .marking _⟩ =>
      exact .exit rfl rfl rfl rfl (by decide)
  | rejoin hp hdonor hcopy =>
    exact ⟨_, rfl, hp ▸ ⟨fun _ => rfl, nofun, rfl, fun _ h => ⟨rfl, by simp [Statement.actions]⟩⟩⟩

end Step

/-! ### Runs -/

/-- How often a process has ended. -/
def outages (statements : List (UInt32 × Statement)) (i : UInt32) : ℕ :=
  statements.countP fun a => a.1 = i && a.2.ends

/-- The events that process `i` makes of the messages of its consumer. -/
def read (statements : List (UInt32 × Statement)) (i : UInt32) : List ReplicatedEvent :=
  statements.filterMap fun a => if a.1 = i then a.2.read else none

/-- The statements come to the same as some actions. -/
structure Explains (c : Config) (statements : List (UInt32 × Statement)) (s : Processes)
    (actions : List (UInt32 × Program.Action)) (p : Program) : Prop where
  views : s.Views c p
  outages i : Program.outages actions i = outages statements i
  /-- What a process has read and neither sent nor holds was lost when it ended. -/
  read i : (Program.handed actions i ++ (held (s.processes i)).toList).Sublist (read statements i)
  /-- At most one event is lost each time. -/
  length_read i : (Processes.read statements i).length ≤
    (Program.handed actions i ++ (held (s.processes i)).toList).length +
      Processes.outages statements i
  reliable : (∀ a ∈ statements, a.2.Reliable) →
    (∀ a ∈ actions, a.2.Reliable) ∧ ∀ i, failed (s.processes i) = false

section Runs

variable {m : Mutils} {c : Config} {s s' : Processes} {p p' : Program} {i j : UInt32}
  {statements : List (UInt32 × Statement)} {a : Statement}
  {actions : List (UInt32 × Program.Action)} {more : List Program.Action}

theorem outages_concat_self : outages (statements ++ [(i, a)]) i =
    outages statements i + a.ends.toNat := by
  cases h : a.ends <;> simp [outages, h]

theorem outages_concat_of_ne (hij : i ≠ j) :
    outages (statements ++ [(i, a)]) j = outages statements j := by
  simp [outages, hij]

theorem read_concat_self : read (statements ++ [(i, a)]) i =
    read statements i ++ a.read.toList := by
  cases h : a.read <;> simp [read, h]

theorem read_concat_of_ne (hij : i ≠ j) :
    read (statements ++ [(i, a)]) j = read statements j := by
  simp [read, hij]

theorem outages_append_self :
    Program.outages (actions ++ more.map fun action => (i, action)) i =
      Program.outages actions i + more.countP Program.Action.ends := by
  rw [Program.outages, List.countP_append, List.countP_map]
  simp [Program.outages, Function.comp_def]

theorem outages_append_of_ne (hij : i ≠ j) :
    Program.outages (actions ++ more.map fun action => (i, action)) j =
      Program.outages actions j := by
  simp [Program.outages, hij]

theorem handed_append_self :
    Program.handed (actions ++ more.map fun action => (i, action)) i =
      Program.handed actions i ++ more.filterMap Program.Action.sent := by
  rw [Program.handed, List.filterMap_append, List.filterMap_map]
  refine congrArg (_ ++ ·) (List.filterMap_congr fun action _ => ?_)
  cases action <;> simp [Program.Action.sent]

theorem handed_append_of_ne (hij : i ≠ j) :
    Program.handed (actions ++ more.map fun action => (i, action)) j =
      Program.handed actions j := by
  rw [Program.handed, List.filterMap_append, List.filterMap_map]
  refine List.append_right_eq_self.mpr (List.filterMap_eq_nil_iff.mpr fun action _ => ?_)
  cases action <;> simp [hij]

/-- A process that has not ended has sent what it has read, up to the event it holds. -/
theorem Explains.read_eq (h : Explains c statements s actions p)
    (hzero : Processes.outages statements i = 0) :
    Program.handed actions i ++ (held (s.processes i)).toList = Processes.read statements i :=
  (h.read i).eq_of_length_le (by simpa only [hzero, Nat.add_zero] using h.length_read i)

/-- **One statement.** If actions explain the statements so far, then with those that happen with
one more statement they explain that as well. -/
theorem Explains.step (h : Explains c statements s actions p)
    (hstep : step m c s (i, a) = some s') :
    ∃ more p', Machine.exec (Program.step m c) p more = some p' ∧
      Explains c (statements ++ [(i, a)]) s' (actions ++ more) p' := by
  rw [Processes.step] at hstep
  split_ifs at hstep with hi
  have hacts := acts_of_act hstep
  obtain ⟨p', hexec, hviews⟩ := follows_of_acts h.views hi hacts
  obtain ⟨process, hprocesses, hleads⟩ := exists_leads hacts
  refine ⟨_, p', hexec, hviews, fun j => ?_, fun j => ?_, fun j => ?_, fun hall => ?_⟩
  · rcases eq_or_ne i j with rfl | hij
    · rw [outages_append_self, outages_concat_self, h.outages, hleads.outages]
    · rw [outages_append_of_ne hij, outages_concat_of_ne hij, h.outages]
  · rw [hprocesses]
    rcases eq_or_ne i j with rfl | hij
    · rw [handed_append_self, read_concat_self, Function.update_self, List.append_assoc]
      cases hends : a.ends with
      | true =>
        -- what it held is lost
        obtain ⟨rfl, hsent⟩ := hleads.ended hends
        have hread := (List.sublist_append_left _ _).trans (h.read i)
        rw [hsent, List.nil_append, held, Option.bind_none, Option.toList_none, List.append_nil]
        exact hread.trans (List.sublist_append_left _ _)
      | false =>
        rw [← hleads.held hends, ← List.append_assoc]
        exact (h.read i).append_right _
    · rw [handed_append_of_ne hij, read_concat_of_ne hij, Function.update_of_ne hij.symm]
      exact h.read j
  · rw [hprocesses]
    rcases eq_or_ne i j with rfl | hij
    · have hlength := h.length_read i
      rw [handed_append_self, read_concat_self, outages_concat_self, Function.update_self]
      cases hends : a.ends with
      | true =>
        -- it held one event at most
        obtain ⟨rfl, hsent⟩ := hleads.ended hends
        have hheld := length_held_le (s.processes i)
        rw [hsent, Statement.read_of_ends hends]
        simp only [List.length_append, Option.toList_none, List.length_nil, held, Option.bind_none,
          Bool.toNat_true] at hlength hheld ⊢
        omega
      | false =>
        have hnow := congrArg List.length (hleads.held hends)
        simp only [List.length_append, Bool.toNat_false] at hlength hnow ⊢
        omega
    · rw [handed_append_of_ne hij, read_concat_of_ne hij, outages_concat_of_ne hij,
        Function.update_of_ne hij.symm]
      exact h.length_read j
  · rw [List.forall_mem_append] at hall
    obtain ⟨hactions, hfailed⟩ := h.reliable hall.1
    obtain ⟨hfailed', hmore⟩ := hleads.reliable (hall.2 _ (List.mem_singleton_self _)) (hfailed i)
    refine ⟨List.forall_mem_append.mpr ⟨hactions, ?_⟩, fun j => ?_⟩
    · exact List.forall_mem_map.mpr fun action haction heq => hmore (heq ▸ haction)
    · rw [hprocesses]
      rcases eq_or_ne i j with rfl | hij
      · rw [Function.update_self, hfailed']
      · rw [Function.update_of_ne hij.symm, hfailed j]

/-- Every run of the statements is explained by an execution of the program. -/
theorem exists_explains {ok : Processes → UInt32 × Statement → Prop}
    (h : Machine.Run (step m c) ok (init c) statements s) :
    ∃ actions p, Machine.exec (Program.step m c) (.init c) actions = some p ∧
      Explains c statements s actions p := by
  refine h.follow (Explains c) ⟨views_init c, fun _ => rfl, fun _ => ?_, fun _ => Nat.zero_le _,
    fun _ => ⟨nofun, fun _ => rfl⟩⟩ fun statements s a s' actions p hexplains _ hstep =>
      hexplains.step hstep
  exact List.Sublist.refl _

end Runs

/-! ### Main result -/

section Runs

variable {m : Mutils} {c : Config} {s : Processes} {statements : List (UInt32 × Statement)}

/-- **The threads may take turns at every statement.** Every run of the statements comes to the same
as a run of the program, with the same lists, the same calls under way and the same records in the
clusters, up to one that is accepted while `flush` waits. Processes end equally often, and what
`kafka_polling` sends is what it has read, up to the event it holds and at most one for each time
that its process has ended. -/
theorem exists_program {ok : Processes → UInt32 × Statement → Prop}
    (h : Machine.Run (step m c) ok (init c) statements s) :
    ∃ actions p, Machine.Run (Program.step m c) (fun _ _ => True) (.init c) actions p ∧
      s.Views c p ∧ (∀ i, Program.outages actions i = outages statements i) ∧
      (∀ i, (Program.handed actions i ++ (held (s.processes i)).toList).Sublist
        (read statements i)) ∧
      (∀ i, (read statements i).length ≤
        (Program.handed actions i ++ (held (s.processes i)).toList).length +
          outages statements i) ∧
      (∀ i, outages statements i = 0 →
        Program.handed actions i ++ (held (s.processes i)).toList = read statements i) ∧
      ((∀ a ∈ statements, a.2.Reliable) → ∀ a ∈ actions, a.2.Reliable) := by
  obtain ⟨actions, p, hexec, hexplains⟩ := exists_explains h
  exact ⟨actions, p, Machine.run_of_exec (fun _ _ _ => trivial) hexec, hexplains.views,
    hexplains.outages, hexplains.read, hexplains.length_read, fun _ => hexplains.read_eq,
    fun hall => (hexplains.reliable hall).1⟩

end Runs

/-- Process 0 ends after its cluster has accepted the record and before `flush` returns, between
statements of process 1. It restarts with the list of process 1, and its cluster accepts the record
again. -/
def turns : List (UInt32 × Statement) :=
  [(0, .poll (some (record [97] 0 0 [1]))), (1, .query), (0, .addEvent), (0, .sequence),
    (1, .deliver), (1, .query), (0, .deliver), (0, .query), (1, .produce true), (0, .produce true),
    (0, .report true), (1, .report true), (0, .flush false), (1, .flush true), (0, .rejoin 1),
    (1, .setLastEvent), (0, .query), (1, .markProduced), (0, .produce true), (0, .report true)]

theorem exists_run_turns :
    ∃ s, Machine.Run (step .plain twoTopics) (fun _ a => a.2.Reliable) (init twoTopics) turns s ∧
      (s.clusters 0).length = 2 ∧ (s.clusters 1).length = 1 := by
  obtain ⟨s, hrun, hcheck⟩ := Machine.Run.exists_of_exec (step .plain twoTopics)
    (fun _ a => a.2.Reliable) (init twoTopics) turns
    (fun s => (s.clusters 0).length = 2 ∧ (s.clusters 1).length = 1) (by decide +kernel)
  exact ⟨s, hrun, of_decide_eq_true hcheck⟩

theorem exists_program_turns :
    ∃ s : Processes, (s.clusters 0).length = 2 ∧ ∃ actions p,
      Machine.Run (Program.step .plain twoTopics) (fun _ _ => True) (.init twoTopics) actions p ∧
        s.Views twoTopics p ∧ Program.outages actions 0 = 1 := by
  obtain ⟨s, hrun, hlength, -⟩ := exists_run_turns
  obtain ⟨actions, p, hprogram, hviews, houtages, -⟩ := exists_program hrun
  exact ⟨s, hlength, actions, p, hprogram, hviews, (houtages 0).trans (by decide)⟩

end Processes

end Kdsync
