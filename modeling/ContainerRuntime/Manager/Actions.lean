import ContainerRuntime.Host.World
import ContainerRuntime.Logic.Lists

/-! The manager as a guarded action system.

Each action is one effect that some operation of `container.c` has between two
calls; `Move` says in which situations the actions occur. The operations are
programs of these actions, and an invariant of `Move` is an invariant of all
of them, wherever they are interrupted.
-/

set_option autoImplicit false

namespace ContainerRuntime

open CString Cli Program

namespace Memory

/-- The record leaves RUNNING: `state`, `pid` and `stack` change together. -/
def retire (m : Memory) (i : Nat) : Memory :=
  { m with
    registry := m.registry.modify i fun c => { c with state := .STOPPED, pid := -1, stack := false }
    released := none }

def beginStart (m : Memory) (i : Nat) : Memory :=
  { m with registry := m.registry.modify i fun c => { c with stack := true }, starting := some i }

def abortStart (m : Memory) (i : Nat) : Memory :=
  { m with registry := m.registry.modify i fun c => { c with stack := false }, starting := none }

/-- `container->pid = start_result.host_pid; container->state = STATE_RUNNING`. -/
def adopt (m : Memory) (i : Nat) (pid : Pid) : Memory :=
  { m with
    registry := m.registry.modify i fun c => { c with state := .RUNNING, pid := pid }
    starting := none
    inflight := none }

/-- `next_sequence++`. -/
def draw (m : Memory) : Memory := { m with draft := some m.nextSequence, nextSequence := m.nextSequence + 1 }

def enroll (m : Memory) (record : Record) : Memory :=
  { m with registry := m.registry ++ [⟨record, false⟩], draft := none }

/-- `remove_container` of the last record. -/
def unenroll (m : Memory) : Memory := { m with registry := m.registry.dropLast }

/-- `remove_container`. -/
def detach (m : Memory) (i : Nat) (container : Container) : Memory :=
  { m with registry := m.registry.eraseIdx i, detached := some container }

/-- `append_container` of the record that could not be deleted. -/
def reattach (m : Memory) (container : Container) : Memory :=
  { m with registry := m.registry ++ [container], detached := none }

/-- `update_next_sequence`. -/
def updateNextSequence (id : Text) (next : Nat) : Nat :=
  match scanInt (lit "container-") id with
  | some value => if (next : Int) ≤ value then (value + 1).toNat else next
  | none => next

/-- The record as `container_manager_init` appends it, given whether its process is there. -/
def revived (record : Record) (alive : Bool) : Record :=
  if record.state = .RUNNING ∧ alive = false then { record with state := .STOPPED, pid := -1 } else record

def restore (m : Memory) (record : Record) (alive : Bool) (rest : List Record) : Memory :=
  { m with
    registry := m.registry ++ [⟨revived record alive, false⟩]
    nextSequence := updateNextSequence record.id.text m.nextSequence
    restoring := rest }

/-! Which records the actions leave. -/

section

variable {m : Memory} {i : Nat} {c : Container} {record : Record}

/-- One record of the list changes in place. -/
theorem mem_held_modify (after : Memory) {f : Container → Container} (here : m.registry[i]? = some c)
    (registry : after.registry = m.registry.modify i f) (restoring : after.restoring = m.restoring)
    (detached : after.detached = m.detached) (member : record ∈ after.held) : record ∈ m.held ∨ record = (f c).toRecord := by
  obtain ⟨front, back, parts, -, modified, -⟩ := List.split_at here
  have changed : after.registry = front ++ f c :: back := registry.trans (modified f)
  simp only [held, records, changed, parts, restoring, detached, List.map_append, List.map_cons, List.mem_append,
    List.mem_cons] at member ⊢
  tauto

theorem mem_held_retire (here : m.registry[i]? = some c) (member : record ∈ (m.retire i).held) :
    record ∈ m.held ∨ record = { c.toRecord with state := .STOPPED, pid := -1 } :=
  mem_held_modify (m.retire i) here rfl rfl rfl member

theorem mem_held_beginStart (here : m.registry[i]? = some c) (member : record ∈ (m.beginStart i).held) :
    record ∈ m.held := by
  rcases mem_held_modify (m.beginStart i) here rfl rfl rfl member with known | rfl
  · exact known
  · exact mem_held (c := c) (List.mem_of_getElem? here)

theorem mem_held_abortStart (here : m.registry[i]? = some c) (member : record ∈ (m.abortStart i).held) :
    record ∈ m.held := by
  rcases mem_held_modify (m.abortStart i) here rfl rfl rfl member with known | rfl
  · exact known
  · exact mem_held (c := c) (List.mem_of_getElem? here)

theorem mem_held_adopt {pid : Pid} (here : m.registry[i]? = some c) (member : record ∈ (m.adopt i pid).held) :
    record ∈ m.held ∨ record = { c.toRecord with state := .RUNNING, pid := pid } :=
  mem_held_modify (m.adopt i pid) here rfl rfl rfl member

theorem mem_held_enroll {new : Record} (member : record ∈ (m.enroll new).held) : record ∈ m.held ∨ record = new := by
  simp only [enroll, held, records, List.map_append, List.map_cons, List.map_nil, List.mem_append,
    List.mem_singleton] at member ⊢
  tauto

theorem mem_held_unenroll (member : record ∈ m.unenroll.held) : record ∈ m.held := by
  have fewer : m.unenroll.records.Sublist m.records := (List.dropLast_sublist _).map _
  exact ((fewer.append_right _).append_right _).subset member

theorem mem_held_detach (here : m.registry[i]? = some c) (member : record ∈ (m.detach i c).held) :
    record ∈ m.held := by
  have fewer : (m.detach i c).records.Sublist m.records := (List.eraseIdx_sublist _ _).map _
  rcases List.mem_append.mp member with early | parted
  · exact List.mem_append_left _ ((fewer.append_right _).subset early)
  · simp only [detach, Option.map_some, Option.toList_some, List.mem_singleton] at parted
    rw [parted]
    exact mem_held (List.mem_of_getElem? here)

theorem mem_held_reattach (detached : m.detached = some c) (member : record ∈ (m.reattach c).held) :
    record ∈ m.held := by
  simp only [reattach, held, records, detached, List.map_append, List.map_cons, List.map_nil, Option.map_none,
    Option.toList_none, Option.map_some, Option.toList_some, List.mem_append, List.mem_singleton, List.not_mem_nil,
    or_false] at member ⊢
  tauto

theorem mem_held_discard (member : record ∈ { m with detached := none }.held) : record ∈ m.held :=
  ((List.Sublist.refl _).append (List.nil_sublist _)).subset member

theorem mem_held_free (member : record ∈ { m with registry := [] }.held) : record ∈ m.held :=
  (((List.nil_sublist _).append_right _).append_right _).subset member

theorem mem_held_restore {next : Record} {alive : Bool} {rest : List Record} (ahead : m.restoring = next :: rest)
    (member : record ∈ (m.restore next alive rest).held) :
    record ∈ m.held ∨ record = revived next alive ∧ next ∈ m.held := by
  simp only [restore, held, records, ahead, List.map_append, List.map_cons, List.map_nil, List.mem_append,
    List.mem_cons] at member ⊢
  tauto

end

end Memory

namespace World

def remember (w : World) (f : Memory → Memory) : World := { w with memory := f w.memory }

/-- `is_pid_alive`. -/
def isPidAlive (w : World) (pid : Pid) : Bool := 0 < pid && w.found pid

def logged (w : World) (entry : LogEvent) : World := { w with log := w.log ++ [entry] }

/-- `kill(pid, SIGKILL)` for a container. -/
def killed (w : World) (who : Text) (pid : Pid) : World :=
  { w with procs := w.procs.kill pid .SIGKILL }.observe (.killed who pid (w.procs pid))

/-- The manager's own SIGSTOP or SIGCONT. -/
def signalled (w : World) (pid : Pid) (signal : Signal) : World := { w with procs := w.procs.kill pid signal }

/-- A call of `waitpid`. -/
def waited (w : World) (pid : Pid) : World := w.observe (.waited pid (w.procs pid))

/-- `waitpid` has returned a child. -/
def reaped (w : World) (pid : Pid) : World :=
  { w with procs := Function.update w.procs pid none, memory := { w.memory with released := some pid } }.observe
    (.reaped pid w.thread)

/-- `clone`. -/
def cloned (w : World) (pid : Pid) (owner : Text) : World :=
  (w.appear pid (some owner) true).remember fun m => { m with inflight := some pid }

/-- `waitpid` of `namespace_start_container` has returned the child it was starting. -/
def reapedInflight (w : World) (pid : Pid) : World :=
  { w with procs := Function.update w.procs pid none, memory := { w.memory with inflight := none } }.observe
    (.reaped pid w.thread)

/-- `append_container` of a new record. -/
def enrolled (w : World) (record : Record) : World := (w.remember (·.enroll record)).observe (.enrolled record)

/-- The rename that makes a save visible. -/
def published (w : World) (records : List Record) : World :=
  { w with disk := some (encodeRegistry records) }.observe (.noted (.saved w.memory.records (some records)))

/-- A save that leaves the file as it is. -/
def unsaved (w : World) : World := w.observe (.noted (.saved w.memory.records none))

/-- `container_create` returns this id. -/
def issued (w : World) (sequence : Nat) (id : Text) : World := w.observe (.noted (.issued sequence id))

/-- The recovery check of `sync_container_state`. -/
def givenUp (w : World) (pid : Pid) : World := w.observe (.noted (.givenUp pid w.sched.targets))

/-- One round of the loop of `container_manager_init`. -/
def restored (w : World) (record : Record) (rest : List Record) : World :=
  (w.remember (·.restore record (w.isPidAlive record.pid) rest)).observe
    (.noted (.checked record (w.isPidAlive record.pid) w.log))

def scheduled (w : World) (f : Scheduler → Scheduler) : World := { w with sched := f w.sched }

def enabled (w : World) : World := { w with sched := w.sched.schedulerSetEnabled true, sweep := .on }

def disabled (w : World) : World := { w with sched := w.sched.schedulerSetEnabled false, sweep := .ahead }

/-- The loop of `sched off` is about to resume the RUNNING containers. -/
def sweeping (w : World) : World := { w with sweep := .visiting w.memory.runningPids }

/-- It resumes the next one. -/
def sweptNext (w : World) (pid : Pid) (rest : List Pid) : World :=
  { w with procs := w.procs.kill pid .SIGCONT, sweep := .visiting rest }

def swept (w : World) : World := { w with sweep := .off }

/-- `cleanup_all_containers` has freed the list; the manager is on its way out. -/
def freed (w : World) : World := w.remember fun m => { m with registry := [] }

/-- Some `waitpid` of `container.c` was made to fail with ECHILD. -/
def DeniedChild (w : World) : Prop := ∃ n, (w.oracle n).waitFail = some Errno.ECHILD

/-- Some `waitpid` of `namespace.c` failed. -/
def DeniedReap (w : World) : Prop := ∃ n, (w.oracle n).reapFail ≠ none

end World

/-- The operations of `scheduler.c` that leave `enabled` alone. -/
inductive TableCall : (Scheduler → Scheduler) → Prop where
  | add (alloc : Bool) (pid : Pid) : TableCall (Scheduler.schedulerAddTarget alloc pid)
  | remove (pid : Pid) : TableCall (Scheduler.schedulerRemoveTarget pid)
  | clear : TableCall Scheduler.schedulerClearTargets
  | slice (ms : UInt32) : TableCall fun s => { s with timeSliceMs := ms }
  | thread (started stop : Bool) : TableCall fun s => { s with threadStarted := started, stopRequested := stop }

/-- Time passes. -/
inductive Idle : World → World → Prop where
  | clock (w : World) : Idle w { w with clock := w.clock + 1 }
  | drift (w w' : World) (drift : w.Drift w') : Idle w w'

/-- The actions that leave the manager's memory alone. -/
inductive Quiet : World → World → Prop where
  | idle (w w' : World) (idle : Idle w w') : Quiet w w'
  | log (w : World) (entry : LogEvent) : Quiet w (w.logged entry)
  | publish (w : World) (records : List Record) (kept : records.Sublist w.memory.records) :
      Quiet w (w.published records)
  | table (w : World) (f : Scheduler → Scheduler) (call : TableCall f)
      (listed : ∀ pid ∈ (f w.sched).targets, pid ∈ w.sched.targets ∨ pid ∈ w.memory.runningPids ∧ w.memory.Settled) :
      Quiet w (w.scheduled f)
  | note (w : World) (note : Note) : Quiet w (w.observe (.noted note))

inductive Move : World → World → Prop where
  | quiet (w w' : World) (quiet : Quiet w w') : Move w w'
  /-- `stop_container_process`. -/
  | kill (w : World) (c : Container) (member : c ∈ w.memory.registry) (running : c.running = true)
      (settled : w.memory.Settled) : Move w (w.killed c.id.text c.pid)
  | wait (w : World) (pid : Pid) (running : pid ∈ w.memory.runningPids) (settled : w.memory.Settled) :
      Move w (w.waited pid)
  | reap (w : World) (pid : Pid) (running : pid ∈ w.memory.runningPids) (child : w.procs.isChild pid = true)
      (settled : w.memory.Settled) : Move w (w.reaped pid)
  | retire (w : World) (i : Nat) (c : Container) (here : w.memory.registry[i]? = some c) (running : c.running = true)
      (nobody : w.memory.inflight = none) (gone : w.memory.released = some c.pid ∨
        w.memory.released = none ∧ (w.procs.isChild c.pid = false ∨ w.DeniedChild)) :
      Move w (w.remember (·.retire i))
  /-- `container_scheduler_refresh_targets` with the scheduler on. -/
  | signal (w : World) (pid : Pid) (signal : Signal) (running : pid ∈ w.memory.runningPids)
      (on : w.sweep = .on) : Move w (w.signalled pid signal)
  | beginStart (w : World) (i : Nat) (c : Container) (here : w.memory.registry[i]? = some c)
      (down : c.state ≠ .RUNNING) (settled : w.memory.Settled) : Move w (w.remember (·.beginStart i))
  | abortStart (w : World) (i : Nat) (c : Container) (starting : w.memory.starting = some i)
      (here : w.memory.registry[i]? = some c) (down : c.state ≠ .RUNNING) (nobody : w.memory.inflight = none) :
      Move w (w.remember (·.abortStart i))
  | clone (w : World) (i : Nat) (c : Container) (pid : Pid) (starting : w.memory.starting = some i)
      (here : w.memory.registry[i]? = some c) (nobody : w.memory.inflight = none) (positive : 0 < pid)
      (free : w.procs pid = none) : Move w (w.cloned pid c.id.text)
  | killInflight (w : World) (i : Nat) (c : Container) (pid : Pid) (starting : w.memory.starting = some i)
      (here : w.memory.registry[i]? = some c) (inflight : w.memory.inflight = some pid) :
      Move w (w.killed c.id.text pid)
  | waitInflight (w : World) (pid : Pid) (inflight : w.memory.inflight = some pid) : Move w (w.waited pid)
  | reapInflight (w : World) (pid : Pid) (inflight : w.memory.inflight = some pid) : Move w (w.reapedInflight pid)
  | leakInflight (w : World) (pid : Pid) (inflight : w.memory.inflight = some pid) (denied : w.DeniedReap) :
      Move w (w.remember fun m => { m with inflight := none })
  | adopt (w : World) (i : Nat) (c : Container) (pid : Pid) (starting : w.memory.starting = some i)
      (here : w.memory.registry[i]? = some c) (down : c.state ≠ .RUNNING) (inflight : w.memory.inflight = some pid)
      (positive : 0 < pid) : Move w (w.remember (·.adopt i pid))
  | draw (w : World) (settled : w.memory.Settled) : Move w (w.remember (·.draw))
  | abandon (w : World) : Move w (w.remember fun m => { m with draft := none })
  | enroll (w : World) (spec : ContainerSpec) (sequence : Nat) (resolved : ResolvedPath)
      (drawn : w.memory.draft = some sequence) (nobody : w.memory.inflight = none) :
      Move w (w.enrolled (createdRecord spec sequence resolved.1))
  | unenroll (w : World) (c : Container) (last : w.memory.registry.getLast? = some c)
      (created : c.state = .CREATED) (settled : w.memory.Settled) : Move w (w.remember (·.unenroll))
  | detach (w : World) (i : Nat) (c : Container) (here : w.memory.registry[i]? = some c) (down : c.state ≠ .RUNNING)
      (settled : w.memory.Settled) : Move w (w.remember (·.detach i c))
  | reattach (w : World) (c : Container) (detached : w.memory.detached = some c) (nobody : w.memory.inflight = none) :
      Move w (w.remember (·.reattach c))
  | discard (w : World) : Move w (w.remember fun m => { m with detached := none })
  | enable (w : World) : Move w w.enabled
  | disable (w : World) : Move w w.disabled
  | sweep (w : World) (ahead : w.sweep = .ahead) (settled : w.memory.Settled) : Move w w.sweeping
  | sweepNext (w : World) (pid : Pid) (rest : List Pid) (next : w.sweep = .visiting (pid :: rest)) :
      Move w (w.sweptNext pid rest)
  | swept (w : World) (done : w.sweep = .visiting []) : Move w w.swept

/-- The actions of `container_manager_init`, which found `file`. -/
inductive BootMove (file : Text) : World → World → Prop where
  | move (w w' : World) (move : Move w w') : BootMove file w w'
  | load (w : World) (stored : w.disk = some file) (fresh : w.memory = .fresh) (never : w.sweep = .never) :
      BootMove file w (w.remember fun m => { m with restoring := decodeRegistry file })
  | restore (w : World) (record : Record) (rest : List Record) (next : w.memory.restoring = record :: rest)
      (nobody : w.memory.inflight = none) :
      BootMove file w (w.restored record rest)

/-- The actions of `cleanup_all_containers`. -/
inductive ExitMove : World → World → Prop where
  | move (w w' : World) (move : Move w w') : ExitMove w w'
  | free (w : World) : ExitMove w w.freed

end ContainerRuntime
