import TpcBank.Commands
import TpcBank.Coordinator
import TpcBank.Library.Simulation

/-! The driver of `driver.cc`: the main thread reads command lines, reads the sets of the file
for some of them and has the client start its calls, while the loops of the servers and the
thread of `consumeReplies` go on. -/
namespace TpcBank
open Decimal Transition

/-- What the main thread has the client do for a command, one call of the loops in `client.cc`
after the other. -/
inductive Task
  | updateDisconnected (servers : List Text)
  | processTransaction (t : Transaction) (leaders : List Text)
  | printBalance (clientId : ℤ)
  | printDatastore
  deriving DecidableEq

/-- The action of a task; the tid is the time at which the task is done. -/
def Task.action (tid : ℤ) : Task → Action
  | .updateDisconnected servers => .updateDisconnected servers
  | .processTransaction t leaders => .processTransaction t leaders tid
  | .printBalance clientId => .printBalance clientId
  | .printDatastore => .printDatastore

/-- The task behind an action of the client. -/
def Action.task : Action → Option Task
  | .updateDisconnected servers => some (.updateDisconnected servers)
  | .processTransaction t leaders _ => some (.processTransaction t leaders)
  | .printBalance clientId => some (.printBalance clientId)
  | .printDatastore => some .printDatastore
  | .deliver _ _ | .complete _ _ _ => none

/-- The calls of the task are synchronous: the thread waits for their end. -/
def Task.blocks : Task → Bool
  | .processTransaction _ _ => false
  | _ => true

/-- Where the main thread is: at the prompt when nothing is left to do. -/
inductive Mainloop
  | running (todo : List Task)
  | exited
  /-- An exception has left `mainloop`. -/
  | terminated
  deriving DecidableEq

/-- The program, with the calls that the main thread is blocked in. -/
structure Driver where
  reader : CSVReader
  set : TransactionSet := {}
  mainloop : Mainloop := .running []
  awaited : List ℕ := []
  system : System

/-- One thing that happens: a line is read at the prompt, the main thread does its next task,
or something in the system that the main thread has no part in. -/
inductive DriverEvent
  | prompt (command : Text)
  | issue (tid : ℤ)
  | deliver (i : ℕ) (fs : FileSystem)
  | complete (i : ℕ) (status : Status) (fs : FileSystem)

/-- Every file operation of the event succeeds. -/
def DriverEvent.working : DriverEvent → Prop
  | .deliver _ fs | .complete _ _ fs => fs.working
  | _ => True

namespace Driver

def init (c : Constants) (text : Text) (disk : ℤ → Disk) : Driver :=
  { reader := CSVReader.ofText text, system := System.init c disk }

/-- What is done for a set: the servers learn which of them are disconnected, then its
transactions are issued. -/
def setTasks (set : TransactionSet) : List Task :=
  .updateDisconnected set.disconnected ::
    set.transactions.map fun t => .processTransaction t set.leaders

/-- What a call of `readNextSet` leads to: nothing when it returns 0 or throws. -/
def readTasks (read : CSVReader.Read) : List Task :=
  match read.returned with
  | .ok size => if size = 0 then [] else setTasks read.set
  | .error _ => []

/-- The `switch` of `mainloop`. An exception of the reader is reported, and the loop goes on. -/
def execute (c : Constants) (d : Driver) : AppCommand → Driver
  | ⟨.processNextSet, _⟩ =>
      let read := d.reader.readNextSet c d.set
      { d with reader := read.reader, set := read.set, mainloop := .running (readTasks read) }
  | ⟨.printBalance, clientId⟩ => { d with mainloop := .running [.printBalance clientId] }
  | ⟨.printDatastore, _⟩ => { d with mainloop := .running [.printDatastore] }
  | ⟨.printPerformance, _⟩ => d
  | ⟨.exit, _⟩ => { d with mainloop := .exited }

/-- The body of the loop in `mainloop`: of the parser, only `std::invalid_argument` is caught. -/
def command (c : Constants) (d : Driver) (line : Text) : Driver :=
  match CommandsParser.parseCommand line with
  | .error .invalidArgument => d
  | .error .outOfRange => { d with mainloop := .terminated }
  | .ok cmd => d.execute c cmd

/-- The calls that the main thread is blocked in have ended. -/
def ready (d : Driver) : Bool :=
  d.awaited.all fun i => d.system.network.calls[i]?.any Call.completed

/-- What is left to do. -/
def todo (d : Driver) : List Task :=
  match d.mainloop with
  | .running todo => todo
  | _ => []

/-- The main thread does a task. -/
def perform (c : Constants) (d : Driver) (task : Task) (todo : List Task) (tid : ℤ) :
    Option Driver := do
  let σ ← System.step c d.system (task.action tid)
  let calls := d.system.network.calls.length
  some { d with
    mainloop := .running todo
    awaited := if task.blocks then List.range' calls (σ.network.calls.length - calls) else []
    system := σ }

def step (c : Constants) (d : Driver) : DriverEvent → Option Driver
  | .prompt line =>
      if d.mainloop = .running [] ∧ d.ready then some (d.command c line) else none
  | .issue tid =>
      match d.mainloop with
      | .running (task :: todo) => if d.ready then d.perform c task todo tid else none
      | _ => none
  | .deliver i fs => do
      let σ ← System.step c d.system (.deliver i fs)
      some { d with system := σ }
  | .complete i status fs => do
      let σ ← System.step c d.system (.complete i status fs)
      some { d with system := σ }

/-- All runs of the program on a file. -/
abbrev Reaches (c : Constants) (P : Driver → DriverEvent → Prop) (text : Text) (disk : ℤ → Disk) :
    List DriverEvent → Driver → Prop :=
  Runs (step c) P (init c text disk)

/-- What an event is to the system. -/
def action (d : Driver) : DriverEvent → Option Action
  | .prompt _ => none
  | .issue tid => d.todo.head?.map (Task.action tid)
  | .deliver i fs => some (.deliver i fs)
  | .complete i status fs => some (.complete i status fs)

end Driver

/-- The commands of a run: the lines read at the prompt that were valid. -/
def DriverEvent.command : DriverEvent → Option AppCommand
  | .prompt line => (CommandsParser.parseCommand line).toOption
  | _ => none

/-! ### What a file and a list of commands ask for -/

/-- What is to be done for a set of the file. -/
def WrittenSet.tasks (c : Constants) (set : WrittenSet) : List Task :=
  .updateDisconnected (c.serverNames.filter fun name => !set.servers.names.contains name) ::
    set.transactions.map fun t => .processTransaction t set.leaders.names

/-- What some commands ask for, with the sets that are still to come. -/
def plan (c : Constants) : List WrittenSet → List AppCommand → List Task
  | _, [] => []
  | sets, ⟨.processNextSet, _⟩ :: rest => sets.head?.elim [] (WrittenSet.tasks c) ++ plan c sets.tail rest
  | sets, ⟨.printBalance, clientId⟩ :: rest => .printBalance clientId :: plan c sets rest
  | sets, ⟨.printDatastore, _⟩ :: rest => .printDatastore :: plan c sets rest
  | sets, ⟨.printPerformance, _⟩ :: rest => plan c sets rest
  | _, ⟨.exit, _⟩ :: _ => []

/-- How many sets some commands have asked for. -/
def setsAsked (commands : List AppCommand) : ℕ :=
  commands.countP fun cmd => cmd.command = .processNextSet

namespace Driver

variable {c : Constants} {d d' : Driver} {e : DriverEvent} {disk : ℤ → Disk} {text : Text}
  {es : List DriverEvent} {P : Driver → DriverEvent → Prop}

@[simp] theorem task_action (tid : ℤ) (task : Task) : (task.action tid).task = some task := by
  cases task <;> rfl

theorem todo_running {rest : List Task} (h : d.mainloop = .running rest) : d.todo = rest := by
  unfold todo
  rw [h]

theorem working_action (h : e.working) {a : Action} (ha : a ∈ d.action e) : a.working := by
  cases e with
  | prompt => cases ha
  | issue tid =>
    obtain ⟨task, -, rfl⟩ := Option.map_eq_some_iff.mp ha
    cases task <;> trivial
  | deliver =>
    cases ha
    exact h
  | complete =>
    cases ha
    exact h

/-- What a step does: it reads a line, does a task, or is a step of the system alone. -/
inductive Stepped (c : Constants) (d : Driver) : DriverEvent → Driver → Prop
  | prompted (line : Text) (hidle : d.mainloop = .running []) (hready : d.ready = true) :
      Stepped c d (.prompt line) (d.command c line)
  | issued (tid : ℤ) (task : Task) (rest : List Task) (σ : System) (awaited : List ℕ)
      (hrunning : d.mainloop = .running (task :: rest)) (hready : d.ready = true)
      (hstep : System.step c d.system (task.action tid) = some σ)
      (hawaited : awaited = if task.blocks then
        List.range' d.system.network.calls.length
          (σ.network.calls.length - d.system.network.calls.length) else []) :
      Stepped c d (.issue tid) { d with mainloop := .running rest, awaited, system := σ }
  | delivered (i : ℕ) (fs : FileSystem) (σ : System)
      (hstep : System.step c d.system (.deliver i fs) = some σ) :
      Stepped c d (.deliver i fs) { d with system := σ }
  | completed (i : ℕ) (status : Status) (fs : FileSystem) (σ : System)
      (hstep : System.step c d.system (.complete i status fs) = some σ) :
      Stepped c d (.complete i status fs) { d with system := σ }

theorem step_stepped (h : step c d e = some d') : Stepped c d e d' := by
  cases e with
  | prompt line =>
    obtain ⟨⟨hidle, hready⟩, h⟩ := Option.ite_none_right_eq_some.mp h
    cases h
    exact .prompted line hidle hready
  | issue tid =>
    unfold step at h
    dsimp only at h
    split at h
    · rename_i task rest hrunning
      obtain ⟨hready, h⟩ := Option.ite_none_right_eq_some.mp h
      obtain ⟨σ, hstep, h⟩ := Option.bind_eq_some_iff.mp h
      cases h
      exact .issued tid task rest σ _ hrunning hready hstep rfl
    · cases h
  | deliver i fs =>
    obtain ⟨σ, hstep, h⟩ := Option.bind_eq_some_iff.mp h
    cases h
    exact .delivered i fs σ hstep
  | complete i status fs =>
    obtain ⟨σ, hstep, h⟩ := Option.bind_eq_some_iff.mp h
    cases h
    exact .completed i status fs σ hstep

@[simp] theorem command_system (c : Constants) (d : Driver) (line : Text) :
    (d.command c line).system = d.system := by
  unfold command
  split
  · rfl
  · rfl
  · unfold execute
    split <;> rfl

/-- The program is the system with a client that the main thread drives. -/
theorem Stepped.system {Q : System → Action → Prop} (h : Stepped c d e d')
    (hQ : ∀ a ∈ d.action e, Q d.system a) :
    Runs (System.step c) Q d.system (d.action e).toList d'.system := by
  cases h with
  | prompted =>
    rw [command_system]
    exact .refl
  | issued tid task rest σ awaited hrunning hready hstep =>
    have haction : d.action (.issue tid) = some (task.action tid) := by
      simp [action, todo_running hrunning]
    rw [haction] at hQ ⊢
    exact .single (hQ _ rfl) hstep
  | delivered i fs σ hstep => exact .single (hQ _ rfl) hstep
  | completed i status fs σ hstep => exact .single (hQ _ rfl) hstep

/-! ### The plan -/

theorem plan_append (c : Constants) (sets : List WrittenSet) {commands : List AppCommand}
    (hexit : ∀ cmd ∈ commands, cmd.command ≠ .exit) (cmd : AppCommand) :
    plan c sets (commands ++ [cmd]) =
      plan c sets commands ++ plan c (sets.drop (setsAsked commands)) [cmd] := by
  induction commands generalizing sets with
  | nil => rfl
  | cons first commands ih =>
    have ih := fun sets => ih sets fun cmd hcmd => hexit cmd (List.mem_cons_of_mem _ hcmd)
    obtain ⟨name, clientId⟩ := first
    cases name with
    | exit => exact absurd rfl (hexit _ List.mem_cons_self)
    | _ => simp [plan, ih, setsAsked]

/-- A reader that has been asked for some sets of a file. -/
def Asked (sets : List WrittenSet) (k : ℕ) (r : CSVReader) : Prop :=
  if k < sets.length then r.currentSetNo = k ∧ CSVReader.Ahead (k + 1) (sets.drop k) r
  else ∃ j, CSVReader.Ahead j [] r

theorem asked_of_ahead {sets : List WrittenSet} {k : ℕ} {r : CSVReader} (hno : r.currentSetNo = k)
    (hahead : CSVReader.Ahead (k + 1) (sets.drop k) r) : Asked sets k r := by
  unfold Asked
  split_ifs with hk
  · exact ⟨hno, hahead⟩
  · rw [List.drop_eq_nil_of_le (not_lt.mp hk)] at hahead
    exact ⟨_, hahead⟩

variable {sets : List WrittenSet} {k : ℕ} {r : CSVReader}

/-- The next set of the file, or nothing at its end. -/
theorem Asked.next (h : Asked sets k r) (c : Constants) (hsets : sets.length < 2 ^ 31)
    (hcounts : ∀ set ∈ sets, set.transactions.length < 2 ^ 31) (t : TransactionSet) :
    Asked sets (k + 1) (r.readNextSet c t).reader ∧
      readTasks (r.readNextSet c t) = plan c (sets.drop k) [⟨.processNextSet, -1⟩] := by
  unfold Asked at h
  split_ifs at h with hk
  · obtain ⟨hno, hahead⟩ := h
    have hint : ∀ j : ℕ, j ≤ sets.length → IsInt j := by
      intro j hj
      unfold IsInt
      omega
    have hnext : sets.drop (k + 1) ≠ [] → IsInt ((k : ℤ) + 1 + 1) := by
      intro hne
      have hlt : k + 1 < sets.length := by
        by_contra hge
        exact hne (List.drop_eq_nil_of_le (not_lt.mp hge))
      exact_mod_cast hint (k + 2) hlt
    rw [List.drop_eq_getElem_cons hk] at hahead
    obtain ⟨hreturned, hset, hno', hahead'⟩ := CSVReader.readNextSet_ahead c
      (by exact_mod_cast hint (k + 1) hk) (by omega) hnext (by rw [hno]) hahead t
    refine ⟨asked_of_ahead (by exact_mod_cast hno') (by exact_mod_cast hahead'), ?_⟩
    have hcount := hcounts _ (List.getElem_mem hk)
    have hpos := List.length_pos_of_ne_nil (sets[k]).nonempty
    have hsize : toInt (sets[k]).transactions.length ≠ 0 := by
      rw [toInt_of_isInt (by unfold IsInt; omega)]
      omega
    unfold readTasks
    rw [hreturned, hset]
    simp only [if_neg hsize]
    simp [plan, hk, List.head?_drop, WrittenSet.tasks, setTasks, CSVReader.filled]
  · obtain ⟨j, hahead⟩ := h
    obtain ⟨hreturned, hahead'⟩ := CSVReader.readNextSet_done c hahead t
    have hk' : ¬ k + 1 < sets.length := fun hlt => hk (by omega)
    refine ⟨?_, ?_⟩
    · rw [Asked, if_neg hk']
      exact ⟨j, hahead'⟩
    · rw [readTasks, hreturned, List.drop_eq_nil_of_le (not_lt.mp hk)]
      rfl

/-- The main thread keeps to the plan: what it has done and what it still has to do is what the
commands ask for. -/
structure Follows (c : Constants) (sets : List WrittenSet) (commands : List AppCommand)
    (past : List Task) (d : Driver) : Prop where
  tasks : past ++ d.todo = plan c sets commands
  asked : Asked sets (setsAsked commands) d.reader
  exits : ∀ todo, d.mainloop = .running todo → ∀ cmd ∈ commands, cmd.command ≠ .exit

theorem follows_init (c : Constants) (crlf final : Bool) (sets : List WrittenSet)
    (disk : ℤ → Disk) : Follows c sets [] [] (init c (WrittenSet.write crlf final sets) disk) where
  tasks := rfl
  asked := asked_of_ahead rfl (.whole rfl (CSVReader.unread_write crlf final sets))
  exits := fun _ _ _ hcmd => absurd hcmd List.not_mem_nil

section

variable {commands : List AppCommand} {past : List Task}

theorem Follows.grow (h : Follows c sets commands past d) (hidle : d.mainloop = .running [])
    {cmd : AppCommand} (htodo : d'.todo = plan c (sets.drop (setsAsked commands)) [cmd])
    (hasked : Asked sets (setsAsked (commands ++ [cmd])) d'.reader)
    (hexit : ∀ todo, d'.mainloop = .running todo → cmd.command ≠ .exit) :
    Follows c sets (commands ++ [cmd]) past d' where
  tasks := by
    rw [plan_append c sets (h.exits [] hidle), htodo, ← h.tasks, todo_running hidle, List.append_nil]
  asked := hasked
  exits := by
    intro rest hrest cmd' hcmd
    rcases List.mem_append.mp hcmd with hold | hnew
    · exact h.exits [] hidle cmd' hold
    · obtain rfl := List.mem_singleton.mp hnew
      exact hexit rest hrest

theorem Follows.execute (h : Follows c sets commands past d) (hidle : d.mainloop = .running [])
    (hsets : sets.length < 2 ^ 31) (hcounts : ∀ set ∈ sets, set.transactions.length < 2 ^ 31)
    (cmd : AppCommand) : Follows c sets (commands ++ [cmd]) past (d.execute c cmd) := by
  have hasked := h.asked
  obtain ⟨name, clientId⟩ := cmd
  cases name with
  | processNextSet =>
    obtain ⟨hnext, hread⟩ := hasked.next c hsets hcounts d.set
    refine h.grow hidle hread ?_ (by simp)
    simpa [setsAsked, Driver.execute] using hnext
  | exit =>
    refine h.grow hidle rfl (by simpa [setsAsked, Driver.execute] using hasked) ?_
    intro todo htodo
    cases htodo
  | printPerformance =>
    exact h.grow hidle (todo_running hidle) (by simpa [setsAsked, Driver.execute] using hasked) (by simp)
  | _ => exact h.grow hidle rfl (by simpa [setsAsked, Driver.execute] using hasked) (by simp)

theorem Follows.command (h : Follows c sets commands past d) (hidle : d.mainloop = .running [])
    (hsets : sets.length < 2 ^ 31) (hcounts : ∀ set ∈ sets, set.transactions.length < 2 ^ 31)
    (line : Text) :
    Follows c sets (commands ++ (DriverEvent.prompt line).command.toList) past (d.command c line) := by
  unfold DriverEvent.command Driver.command
  rcases hparse : CommandsParser.parseCommand line with (_ | _) | cmd
  · simpa [hparse, Except.toOption] using h
  · have htasks := h.tasks
    rw [todo_running hidle] at htasks
    have hfollows : Follows c sets commands past { d with mainloop := .terminated } :=
      ⟨htasks, h.asked, by simp⟩
    simpa [hparse, Except.toOption] using hfollows
  · simpa [hparse, Except.toOption] using h.execute hidle hsets hcounts cmd

theorem Follows.withSystem (h : Follows c sets commands past d) (σ : System) :
    Follows c sets commands past { d with system := σ } :=
  ⟨h.tasks, h.asked, h.exits⟩

theorem Follows.step (h : Follows c sets commands past d) (hstep : Stepped c d e d')
    (hsets : sets.length < 2 ^ 31) (hcounts : ∀ set ∈ sets, set.transactions.length < 2 ^ 31) :
    Follows c sets (commands ++ e.command.toList)
      (past ++ ((d.action e).bind Action.task).toList) d' := by
  cases hstep with
  | prompted line hidle => simpa [action] using h.command hidle hsets hcounts line
  | issued tid task rest σ awaited hrunning =>
    have htasks := h.tasks
    rw [todo_running hrunning] at htasks
    have hfollows : Follows c sets commands (past ++ [task])
        { d with mainloop := .running rest, awaited, system := σ } :=
      ⟨by simpa [todo] using htasks, h.asked, fun _ _ => h.exits _ hrunning⟩
    simpa [action, todo_running hrunning, DriverEvent.command] using hfollows
  | delivered i fs σ => simpa [action, Action.task, DriverEvent.command] using h.withSystem σ
  | completed i status fs σ => simpa [action, Action.task, DriverEvent.command] using h.withSystem σ

end

theorem reaches_follows {crlf final : Bool}
    (h : Reaches c P (WrittenSet.write crlf final sets) disk es d) (hsets : sets.length < 2 ^ 31)
    (hcounts : ∀ set ∈ sets, set.transactions.length < 2 ^ 31) :
    Follows c sets (es.filterMap DriverEvent.command)
      ((observe (step c) action (init c (WrittenSet.write crlf final sets) disk) es).filterMap
        Action.task) d := by
  induction h with
  | refl => exact follows_init c crlf final sets disk
  | @snoc es d d' e hrun _ hs ih =>
    have hfollows := ih.step (step_stepped hs) hsets hcounts
    rw [hrun.filterMap_observe_snoc, List.filterMap_append]
    cases hcommand : e.command <;> simpa [hcommand] using hfollows

/-- On a file of transaction sets whose counts are `int`s, the program is the system whose client
does what the commands ask for, in this order and nothing else: for each set the servers learn which
of them are disconnected, and then its transactions are issued. -/
theorem reaches_plan {crlf final : Bool}
    (h : Reaches c P (WrittenSet.write crlf final sets) disk es d) (hsets : sets.length < 2 ^ 31)
    (hcounts : ∀ set ∈ sets, set.transactions.length < 2 ^ 31) :
    ∃ actions, run (System.step c) (System.init c disk) actions = some d.system ∧
      actions.filterMap Action.task ++ d.todo = plan c sets (es.filterMap DriverEvent.command) := by
  obtain ⟨σ, hrun, rfl⟩ := h.refines (Q := fun _ _ => True) (R := fun d σ => d.system = σ) rfl
    fun d e d' σ hd _ hs => ⟨_, hd ▸ (step_stepped hs).system fun _ _ => trivial, rfl⟩
  exact ⟨_, hrun.run_eq, (reaches_follows h hsets hcounts).tasks⟩

/-- All nine servers. -/
def allServers : Names where
  names := ['1', '2', '3', '4', '5', '6', '7', '8', '9'].map fun digit => ['S', digit]
  nonempty := by decide
  clean := by simp [IsNameChar]

def threeLeaders : Names where
  names := [['S', '1'], ['S', '4'], ['S', '7']]
  nonempty := by decide
  clean := by simp [IsNameChar]

/-- A set with a transfer inside the first cluster and one to the second. -/
def twoTransfers : WrittenSet where
  transactions := [⟨1, 2, 3⟩, ⟨2, 1001, 4⟩]
  servers := allServers
  leaders := threeLeaders
  nonempty := by decide
  isInt := by decide

/-- The set is read, every server learns that it is connected, both transactions are issued and
the first one commits. -/
def oneSetRun : List DriverEvent :=
  [.prompt "processNextSet".toList, .issue 1] ++
    (List.range 9).flatMap (fun i => [.deliver i .allOpen, .complete i .ok .allOpen]) ++
    [.issue 7, .issue 8, .deliver 9 .allOpen, .deliver 12 .allOpen, .complete 12 .ok .allOpen,
      .deliver 9 .allOpen, .deliver 14 .allOpen, .complete 14 .ok .allOpen, .deliver 9 .allOpen,
      .prompt "exit".toList]

theorem reaches_plan_oneSetRun : ∃ d actions,
    run (step .standard) (init .standard (WrittenSet.write true false [twoTransfers])
      fun _ => .empty) oneSetRun = some d ∧
    run (System.step .standard) (System.init .standard fun _ => .empty) actions = some d.system ∧
    actions.filterMap Action.task = [.updateDisconnected [],
      .processTransaction ⟨1, 2, 3⟩ threeLeaders.names,
      .processTransaction ⟨2, 1001, 4⟩ threeLeaders.names] := by
  obtain ⟨d, hd, hexited⟩ := (Option.any_eq_true _ _).mp
    (show (run (step .standard) (init .standard (WrittenSet.write true false [twoTransfers])
      fun _ => .empty) oneSetRun).any (fun d => decide (d.todo = [])) = true by decide +kernel)
  obtain ⟨actions, hactions, htasks⟩ := reaches_plan (runs_of_run hd) (by decide) (by decide)
  rw [of_decide_eq_true hexited, List.append_nil] at htasks
  refine ⟨d, actions, hd, hactions, htasks.trans ?_⟩
  decide +kernel

end Driver
end TpcBank
