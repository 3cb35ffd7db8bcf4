import ContainerRuntime.Registry.Metadata
import ContainerRuntime.Scheduler.Table
import ContainerRuntime.Logic.Program

/-! The host around the manager: processes, files, the scheduler thread and time.

Everything the manager does not decide comes from an oracle, one `Tick` for
every call it makes: which call fails and how, what happens in between, and
whether the manager dies there. The scheduler thread runs in between as well,
its locked section and each of its two signals being separate steps.
-/

set_option autoImplicit false

namespace ContainerRuntime

open CString Cli Program

/-! ## Processes -/

structure Proc where
  /-- The container that `namespace_start_container` made the process for. -/
  origin : Option Text
  /-- It is a child of the running manager. -/
  child : Bool
  /-- It has ended, and is a zombie until its parent reaps it. -/
  exit : Option WaitStatus
  /-- The last of SIGSTOP and SIGCONT it was sent is SIGSTOP. -/
  stopped : Bool
  deriving DecidableEq

abbrev Procs := Pid → Option Proc

def Proc.signal (signal : Signal) (proc : Proc) : Proc :=
  match signal with
  | .SIGKILL => { proc with exit := some (proc.exit.getD (.signaled 9)) }
  | .SIGSTOP => { proc with stopped := true }
  | .SIGCONT => { proc with stopped := false }

namespace Procs

/-- `kill(pid, signal)`. -/
def kill (procs : Procs) (pid : Pid) (signal : Signal) : Procs :=
  Function.update procs pid ((procs pid).map (Proc.signal signal))

def isChild (procs : Procs) (pid : Pid) : Bool := (procs pid).any (·.child)

/-- The manager is gone: its children have another parent. -/
def orphaned (procs : Procs) : Procs := fun pid => (procs pid).map fun proc => { proc with child := false }

end Procs

/-! ## Ticks -/

inductive Event where
  /-- A process ends. -/
  | exits (pid : Pid) (status : WaitStatus)
  /-- A process that is no child of the manager is reaped by its parent. -/
  | vanishes (pid : Pid)
  /-- Somebody else creates a process. -/
  | spawns (pid : Pid)
  /-- The scheduler thread takes its next step. -/
  | thread
  deriving DecidableEq

/-- What `filesystem_prepare_rootfs` stores on success: the path `realpath` returned. -/
abbrev ResolvedPath := { path : Buffer 512 // path.text ≠ [] }

structure Tick where
  events : List Event
  /-- The manager dies before its call. -/
  cut : Bool
  /-- The call fails. -/
  fail : Option Errno
  /-- The `waitpid` of `container.c` fails although there may be a child to wait for. -/
  waitFail : Option Errno
  /-- The `waitpid` of `namespace.c` fails. -/
  reapFail : Option Errno
  /-- The pid that `clone` takes, if it is free. -/
  pid : Pid
  /-- How a process ends that the manager waits for. -/
  status : WaitStatus
  path : ResolvedPath
  /-- `isatty(STDIN_FILENO)`. -/
  tty : Bool

/-- Nothing happens and the call succeeds. -/
def Tick.calm : Tick where
  events := []
  cut := false
  fail := none
  waitFail := none
  reapFail := none
  pid := 1
  status := .exited 0
  path := ⟨copyString 512 (lit "/"), copyString_ne_nil (by decide) (by decide)⟩
  tty := false

/-- An oracle that is calm but for the calls it has a script for. -/
def scripted (script : List (Nat × Tick)) (n : Nat) : Tick := (script.lookup n).getD Tick.calm

theorem scripted_cases (script : List (Nat × Tick)) (n : Nat) :
    scripted script n = Tick.calm ∨ ∃ entry ∈ script, scripted script n = entry.2 := by
  unfold scripted
  cases found : script.lookup n with
  | none => exact .inl rfl
  | some now =>
    obtain ⟨front, back, parts, -⟩ := List.lookup_eq_some_iff.mp found
    exact .inr ⟨(n, now), by simp [parts], rfl⟩

/-! ## The log -/

/-- The messages of `container.log` that `container.c` and `main.c` write about containers. -/
inductive LogEvent where
  | saveFailedToOpen | saveFailedToClose | saveFailedToRename
  | exited (id : Text) (how : Text) (status : WaitStatus)
  | recovered (id : Text)
  | failedToStop (id : Text) (pid : Pid)
  | failedToReap (id : Text) (pid : Pid)
  | stopped (id : Text) (pid : Pid)
  | restored (count : Nat)
  | created (record : Record)
  | startFailed (id : Text) (error : Errno)
  | started (record : Record) (namespacePid : Pid)
  | deleted (id : Text)
  | schedulerEnabled (sliceMs : UInt32)
  | schedulerDisabled
  | unknownCommand (word : Text)
  deriving DecidableEq

/-! ## The manager's memory -/

/-- The registry, and the local variables of the operation that is under way. -/
structure Memory where
  registry : List Container
  nextSequence : Nat
  /-- The number `container_create` has drawn for the record it is filling in. -/
  draft : Option Nat
  /-- The record `container_delete` has unlinked and not yet freed. -/
  detached : Option Container
  /-- The list position of the container that `start_container_by_id` is starting. -/
  starting : Option Nat
  /-- `pid` in `namespace_start_container`, while the child is in nobody's record. -/
  inflight : Option Pid
  /-- A reaped pid that its record still holds. -/
  released : Option Pid
  /-- The records of `containers.meta` that `container_manager_init` has still to append. -/
  restoring : List Record
  deriving DecidableEq

/-- No operation is under way. -/
structure Memory.Settled (m : Memory) : Prop where
  draft : m.draft = none
  detached : m.detached = none
  starting : m.starting = none
  inflight : m.inflight = none
  released : m.released = none
  restoring : m.restoring = []

def Memory.fresh : Memory where
  registry := []
  nextSequence := 1
  draft := none
  detached := none
  starting := none
  inflight := none
  released := none
  restoring := []

def Memory.records (m : Memory) : List Record := m.registry.map (·.toRecord)

/-- All records of the manager: in the list, still to be restored, or being deleted. -/
def Memory.held (m : Memory) : List Record :=
  m.records ++ m.restoring ++ (m.detached.map (·.toRecord)).toList

theorem Memory.mem_held {m : Memory} {c : Container} (member : c ∈ m.registry) : c.toRecord ∈ m.held :=
  List.mem_append_left _ (List.mem_append_left _ (List.mem_map_of_mem member))

/-- The pids the manager takes for containers: of RUNNING records, and of the start under way. -/
def Memory.watched (m : Memory) : List Pid := (m.held.filter (·.running)).map (·.pid) ++ m.inflight.toList

/-- The pids that a loop over RUNNING containers sees, in list order. -/
def pidsOf (containers : List Container) : List Pid := (containers.filter (·.running)).map (·.pid)

def Memory.runningPids (m : Memory) : List Pid := pidsOf m.registry

@[simp] theorem pidsOf_append (front back : List Container) : pidsOf (front ++ back) = pidsOf front ++ pidsOf back := by
  simp [pidsOf]

theorem pidsOf_cons_of_running {c : Container} (running : c.running = true) (rest : List Container) :
    pidsOf (c :: rest) = c.pid :: pidsOf rest := by simp [pidsOf, running]

theorem pidsOf_cons_of_down {c : Container} (down : c.running = false) (rest : List Container) :
    pidsOf (c :: rest) = pidsOf rest := by simp [pidsOf, down]

/-! ## The world -/

/-- Where `scheduler_thread_main` stands. -/
inductive Thread where
  | idle
  | stopping (current next : Pid)
  | resuming (next : Pid)
  deriving DecidableEq

/-- The thread has this pid still to signal. -/
def Thread.Holds (pid : Pid) : Thread → Prop
  | .idle => False
  | .stopping current next => pid = current ∨ pid = next
  | .resuming next => pid = next

instance (pid : Pid) : DecidablePred (Thread.Holds pid)
  | .idle => inferInstanceAs (Decidable False)
  | .stopping current next => inferInstanceAs (Decidable (pid = current ∨ pid = next))
  | .resuming next => inferInstanceAs (Decidable (pid = next))

/-- How far the last `sched` command has come. -/
inductive Sweep where
  | never | on
  /-- `sched off` has disabled the scheduler. -/
  | ahead
  /-- Its loop has these pids still to resume. -/
  | visiting (rest : List Pid)
  | off
  deriving DecidableEq

/-- What an observer of the manager's own calls would write down. -/
inductive Note where
  /-- `log_event_type` could not open the log. -/
  | unlogged (entry : LogEvent)
  /-- `save_metadata` ends: what the list holds, and what the file holds of it if it was renamed. -/
  | saved (wanted : List Record) (written : Option (List Record))
  /-- The recovery check finds no process, next to the table of the scheduler. -/
  | givenUp (pid : Pid) (targets : List Pid)
  /-- `container_manager_init` looks for the process of a record, next to the log at that time. -/
  | checked (record : Record) (alive : Bool) (log : List LogEvent)
  /-- `container_create` returns 0 with this id. -/
  | issued (sequence : Nat) (id : Text)
  /-- The manager is gone: what its list, the file and the log held at that time. -/
  | died (records : List Record) (disk : Option Text) (log : List LogEvent)
  deriving DecidableEq

/-- What an observer of the host's calls would write down. -/
inductive Obs where
  /-- SIGKILL, sent on behalf of a container. -/
  | killed (who : Text) (pid : Pid) (target : Option Proc)
  | waited (pid : Pid) (target : Option Proc)
  /-- The thread's SIGSTOP, next to how far the last `sched` command had come at that time. -/
  | paused (pid : Pid) (sweep : Sweep) (watched : List Pid) (target : Option Proc)
  /-- The thread's SIGCONT. -/
  | resumed (pid : Pid) (target : Option Proc)
  /-- A child is reaped, next to where the thread stood at that time. -/
  | reaped (pid : Pid) (thread : Thread)
  /-- A process appears, next to what the manager, its file and the scheduler's table held at that time. -/
  | appeared (pid : Pid) (origin : Option Text) (held : List Record) (disk : Option Text) (targets : List Pid)
  /-- `container_create` appends a record. -/
  | enrolled (record : Record)
  | noted (note : Note)
  deriving DecidableEq

structure World where
  oracle : Nat → Tick
  clock : Nat
  /-- The manager is serving commands. -/
  up : Bool
  memory : Memory
  procs : Procs
  /-- `containers.meta`. -/
  disk : Option Text
  log : List LogEvent
  sched : Scheduler
  thread : Thread
  sweep : Sweep
  trace : List Obs

namespace World

/-- A host on which the manager has never run. -/
def initial (oracle : Nat → Tick) (procs : Procs) : World where
  oracle := oracle
  clock := 0
  up := false
  memory := .fresh
  procs := procs
  disk := none
  log := []
  sched := .initial
  thread := .idle
  sweep := .never
  trace := []

def observe (w : World) (obs : Obs) : World := { w with trace := w.trace ++ [obs] }

@[simp] theorem observe_memory (w : World) (obs : Obs) : (w.observe obs).memory = w.memory := rfl
@[simp] theorem observe_procs (w : World) (obs : Obs) : (w.observe obs).procs = w.procs := rfl
@[simp] theorem observe_disk (w : World) (obs : Obs) : (w.observe obs).disk = w.disk := rfl
@[simp] theorem observe_log (w : World) (obs : Obs) : (w.observe obs).log = w.log := rfl
@[simp] theorem observe_sched (w : World) (obs : Obs) : (w.observe obs).sched = w.sched := rfl
@[simp] theorem observe_thread (w : World) (obs : Obs) : (w.observe obs).thread = w.thread := rfl
@[simp] theorem observe_sweep (w : World) (obs : Obs) : (w.observe obs).sweep = w.sweep := rfl
@[simp] theorem observe_trace (w : World) (obs : Obs) : (w.observe obs).trace = w.trace ++ [obs] := rfl

/-- A new process, running. -/
def appear (w : World) (pid : Pid) (origin : Option Text) (child : Bool) : World :=
  { w with procs := Function.update w.procs pid (some ⟨origin, child, none, false⟩) }.observe
    (.appeared pid origin w.memory.held w.disk w.sched.targets)

/-- `kill(pid, 0)`, in `scheduler.c`. -/
def found (w : World) (pid : Pid) : Bool := (w.procs pid).isSome

/-- The next step of `scheduler_thread_main`. -/
def threadStep (w : World) : World :=
  match w.thread with
  | .idle =>
    if w.sched.threadStarted = true ∧ w.sched.stopRequested = false then
      match Scheduler.selectLocked w.found w.sched with
      | (sched, none) => { w with sched := sched }
      | (sched, some (current, next)) => { w with sched := sched, thread := .stopping current next }
    else w
  -- The pruned table holds positive pids only, so both signals are sent.
  | .stopping current next =>
    { w with procs := w.procs.kill current .SIGSTOP, thread := .resuming next }.observe
      (.paused current w.sweep w.memory.watched (w.procs current))
  | .resuming next =>
    { w with procs := w.procs.kill next .SIGCONT, thread := .idle }.observe (.resumed next (w.procs next))

def event (w : World) : Event → World
  | .exits pid status =>
    match w.procs pid with
    | some proc =>
      { w with procs := Function.update w.procs pid (some { proc with exit := some (proc.exit.getD status) }) }
    | none => w
  | .vanishes pid => if w.procs.isChild pid then w else { w with procs := Function.update w.procs pid none }
  | .spawns pid => if 0 < pid ∧ w.procs pid = none then w.appear pid none false else w
  | .thread => w.threadStep

/-- The oracle lets the process end this way. -/
def Dealt (w : World) (pid : Pid) (status : WaitStatus) : Prop := ∃ n, Event.exits pid status ∈ (w.oracle n).events

/-- What can happen between two calls of the manager. -/
inductive Drift : World → World → Prop where
  | nothing (w : World) : Drift w w
  | exits (w : World) (pid : Pid) (proc : Proc) (status : WaitStatus) (here : w.procs pid = some proc)
      (cause : proc.exit = some status ∨ proc.exit = none ∧ w.Dealt pid status) :
      Drift w { w with procs := Function.update w.procs pid (some { proc with exit := some status }) }
  | vanishes (w : World) (pid : Pid) (foreign : w.procs.isChild pid = false) :
      Drift w { w with procs := Function.update w.procs pid none }
  | spawns (w : World) (pid : Pid) (positive : 0 < pid) (free : w.procs pid = none) :
      Drift w (w.appear pid none false)
  | selects (w : World) (sched : Scheduler) (thread : Thread) (idle : w.thread = .idle)
      (enabled : sched.enabled = w.sched.enabled)
      (picked : thread = .idle ∨ w.sched.enabled = true ∧ ∃ current next, thread = .stopping current next)
      (fewer : sched.targets.Sublist w.sched.targets)
      (live : ∀ pid, thread.Holds pid → pid ∈ w.sched.targets ∧ w.found pid = true) :
      Drift w { w with sched := sched, thread := thread }
  | pauses (w : World) (current next : Pid) (stopping : w.thread = .stopping current next) :
      Drift w ({ w with procs := w.procs.kill current .SIGSTOP, thread := .resuming next }.observe
        (.paused current w.sweep w.memory.watched (w.procs current)))
  | resumes (w : World) (next : Pid) (resuming : w.thread = .resuming next) :
      Drift w ({ w with procs := w.procs.kill next .SIGCONT, thread := .idle }.observe (.resumed next (w.procs next)))

theorem drift_threadStep (w : World) : w.Drift w.threadStep := by
  unfold threadStep
  split
  · rename_i idle
    split
    · have fewer : (Scheduler.pruneDeadLocked w.found w.sched).targets.Sublist w.sched.targets := by
        rw [Scheduler.pruneDeadLocked_targets]
        exact List.filter_sublist
      rcases Scheduler.selectLocked_cases w.found w.sched with ⟨-, same⟩ | ⟨on, -, current, next, here, there, same⟩
      · rw [same]
        exact .selects w _ w.thread idle (Scheduler.pruneDeadLocked_enabled _ _) (.inl idle) fewer
          (by simp [idle, Thread.Holds])
      · rw [same]
        have live : ∀ pid ∈ w.sched.targets.filter (Scheduler.pidIsAlive w.found),
            pid ∈ w.sched.targets ∧ w.found pid = true := by
          intro pid member
          obtain ⟨listed, alive⟩ := List.mem_filter.mp member
          exact ⟨listed, (Bool.and_eq_true_iff.mp alive).2⟩
        refine .selects w _ _ idle (Scheduler.pruneDeadLocked_enabled _ _) (.inr ⟨on, current, next, rfl⟩) fewer ?_
        rintro pid (rfl | rfl)
        · exact live pid (List.mem_of_getElem? here)
        · exact live pid (List.mem_of_getElem? there)
    · exact .nothing w
  · exact .pauses w _ _ (by assumption)
  · exact .resumes w _ (by assumption)

theorem drift_event (w : World) (e : Event) (dealt : ∀ pid status, e = .exits pid status → w.Dealt pid status) :
    w.Drift (w.event e) := by
  cases e with
  | exits pid status =>
    simp only [event]
    split
    · rename_i proc here
      refine .exits w pid proc _ here ?_
      -- The first end of a process is the one that counts.
      cases ended : proc.exit with
      | none => exact .inr ⟨rfl, dealt pid status rfl⟩
      | some known => exact .inl rfl
    · exact .nothing w
  | vanishes pid =>
    simp only [event]
    split
    · exact .nothing w
    · rename_i foreign
      exact .vanishes w pid (Bool.eq_false_iff.mpr foreign)
  | spawns pid =>
    simp only [event]
    split
    · rename_i ready
      exact .spawns w pid ready.1 ready.2
    · exact .nothing w
  | thread => exact drift_threadStep w

/-- A new process of the manager, its memory as the program starts with it. -/
def launched (w : World) : World :=
  { w with
    memory := .fresh
    sched := .initial
    thread := .idle
    sweep := .never }

/-- The process of the manager is gone, and its memory with it. -/
def crash (w : World) : World :=
  { w.launched with
    up := false
    procs := w.procs.orphaned }.observe (.noted (.died w.memory.records w.disk w.log))

end World

/-- One call of the manager: what happened since the last one, and then the call's fate. -/
def tick : Prog World Tick := fun w =>
  let now := w.oracle w.clock
  let w := now.events.foldl World.event { w with clock := w.clock + 1 }
  (if now.cut then .cut else .done now, w)

end ContainerRuntime
