import ContainerRuntime.Manager.Actions

/-! The operations of `container.c`, call by call.

A container is named by its position in the list, as the source names it by a
pointer; no operation moves the record it works on. What is printed to the
terminal is left out, and the functions return whether they succeeded.
-/

set_option autoImplicit false

namespace ContainerRuntime

open CString Cli Program
open Prog (read modify forEach)

/-! ## Calls -/

/-- `log_event_type`; a log that cannot be opened is skipped. -/
def logEventType (entry : LogEvent) : Prog World Unit := do
  let now ← tick
  if now.fail.isNone then modify (·.logged entry) else modify (·.observe (.noted (.unlogged entry)))

/-- `is_pid_alive`. -/
def isPidAlive (pid : Pid) : Prog World Bool := do
  let _ ← tick
  read (·.isPidAlive pid)

/-- `kill(pid, SIGKILL)` for a container. -/
def kill (who : Text) (pid : Pid) : Prog World (Option Errno) := do
  let now ← tick
  match now.fail with
  | some error => pure (some error)
  | none =>
    let found ← read (·.found pid)
    modify (·.killed who pid)
    pure (if found then none else some Errno.ESRCH)

/-- `waitpid(pid, &status, 0)`: it returns when the child has ended. -/
def waitpid (pid : Pid) : Prog World (Except Errno WaitStatus) := do
  let now ← tick
  match now.waitFail with
  | some error => pure (.error error)
  | none =>
    modify (·.waited pid)
    match ← read (·.procs pid) with
    | some ⟨_, true, exit, _⟩ =>
      modify (·.reaped pid)
      pure (.ok (exit.getD now.status))
    | _ => pure (.error Errno.ECHILD)

/-- `waitpid(pid, &status, WNOHANG)`. -/
def waitpidNoHang (pid : Pid) : Prog World (Except Errno (Option WaitStatus)) := do
  let now ← tick
  match now.waitFail with
  | some error => pure (.error error)
  | none =>
    modify (·.waited pid)
    match ← read (·.procs pid) with
    | some ⟨_, true, some status, _⟩ =>
      modify (·.reaped pid)
      pure (.ok (some status))
    | some ⟨_, true, none, _⟩ => pure (.ok none)
    | _ => pure (.error Errno.ECHILD)

/-- A function of `scheduler.c` that takes the mutex. -/
def underMutex (f : Scheduler → Scheduler) : Prog World Unit := do
  let _ ← tick
  modify (·.scheduled f)

def containerSchedulerOnStarted (pid : Pid) : Prog World Unit := do
  let now ← tick
  modify (·.scheduled (Scheduler.schedulerAddTarget now.fail.isNone pid))

def containerSchedulerOnStopped (pid : Pid) : Prog World Unit :=
  underMutex (Scheduler.schedulerRemoveTarget pid)

/-! ## The metadata file -/

/-- The `fprintf` loop; a record whose write fails is lost. -/
def writeRecords : List Record → Prog World (List Record)
  | [] => pure []
  | record :: rest => do
    let now ← tick
    let written ← writeRecords rest
    pure (if now.fail.isNone then record :: written else written)

def saveMetadata : Prog World Bool := do
  let opened ← tick
  if opened.fail.isSome then
    failed .saveFailedToOpen
  else
    let records ← read (·.memory.records)
    let written ← writeRecords records
    let closed ← tick
    if closed.fail.isSome then
      failed .saveFailedToClose
    else
      let renamed ← tick
      if renamed.fail.isSome then
        failed .saveFailedToRename
      else
        modify (·.published written)
        pure true
where
  failed (entry : LogEvent) : Prog World Bool := do
    logEventType entry
    modify (·.unsaved)
    pure false

/-! ## Polling -/

def syncContainerState (i : Nat) : Prog World Bool := do
  match ← read (·.memory.registry[i]?) with
  | none => pure false
  | some c =>
    if c.running = false then pure false
    else
      match ← waitpidNoHang c.pid with
      | .ok (some status) =>
        modify (·.remember (·.retire i))
        containerSchedulerOnStopped c.pid
        logEventType (.exited c.id.text (lit "reaped by manager") status)
        pure true
      | .ok none => pure false
      | .error error =>
        if error = Errno.ECHILD then
          if ← isPidAlive c.pid then pure false
          else
            modify (·.givenUp c.pid)
            modify (·.remember (·.retire i))
            logEventType (.recovered c.id.text)
            pure true
        else pure false

def syncAll (changed : Bool) : List Nat → Prog World Bool
  | [] => pure changed
  | i :: rest => do
    let now ← syncContainerState i
    syncAll (changed || now) rest

def pollStates : Prog World Unit := do
  let count ← read (·.memory.registry.length)
  let changed ← syncAll false (List.range count)
  if changed then
    let _ ← saveMetadata
    pure ()

/-! ## Stopping and waiting -/

def stopContainerProcess (i : Nat) : Prog World Bool := do
  match ← read (·.memory.registry[i]?) with
  | none => pure false
  | some c =>
    if c.running = false then pure false
    else
      let killed ← kill c.id.text c.pid
      if killed.isSome ∧ killed ≠ some Errno.ESRCH then
        logEventType (.failedToStop c.id.text c.pid)
        pure false
      else
        match ← waitpid c.pid with
        | .error error =>
          if error ≠ Errno.ECHILD then
            logEventType (.failedToReap c.id.text c.pid)
            pure false
          else markStopped i c
        | .ok _ => markStopped i c
where
  markStopped (i : Nat) (c : Container) : Prog World Bool := do
    logEventType (.stopped c.id.text c.pid)
    containerSchedulerOnStopped c.pid
    modify (·.remember (·.retire i))
    let _ ← saveMetadata
    pure true

/-- Whether the terminal was handed over, and what it left in `errno`. -/
def moveTerminalForeground : Prog World (Bool × Option Errno) := do
  let terminal ← tick
  if terminal.tty = false then pure (true, some Errno.ENOTTY)
  else
    let moved ← tick
    match moved.fail with
    | some error => pure (false, some error)
    | none => pure (true, none)

/-- `if (terminal_moved) move_terminal_foreground(shell_pgrp)`, given `errno` before it. -/
def restoreTerminal (moved : Bool) (errno : Errno) : Prog World Errno := do
  if moved then
    let (_, left) ← moveTerminalForeground
    pure (left.getD errno)
  else pure errno

def waitForContainerProcess (i : Nat) : Prog World Bool := do
  match ← read (·.memory.registry[i]?) with
  | none => pure false
  | some c =>
    if c.running = false then pure false
    else
      let (moved, _) ← moveTerminalForeground
      match ← waitpid c.pid with
      | .ok status => finish i c moved status
      | .error error =>
        let errno ← restoreTerminal moved error
        if errno = Errno.ECHILD then
          if ← isPidAlive c.pid then pure false else finish i c moved (.exited 0)
        else pure false
where
  finish (i : Nat) (c : Container) (moved : Bool) (status : WaitStatus) : Prog World Bool := do
    let _ ← restoreTerminal moved 0
    logEventType (.exited c.id.text (lit "finished") status)
    modify (·.remember (·.retire i))
    saveMetadata

/-! ## Starting -/

/-- The first failure among a number of calls. -/
def firstFailure : Nat → Prog World (Option Errno)
  | 0 => pure none
  | calls + 1 => do
    let now ← tick
    match now.fail with
    | some error => pure (some error)
    | none => firstFailure calls

/-- `configure_user_namespace`: a missing `setgroups` file is accepted. -/
def configureUserNamespace : Prog World (Option Errno) := do
  let setgroups ← tick
  if setgroups.fail.isSome ∧ setgroups.fail ≠ some Errno.ENOENT then pure setgroups.fail
  else firstFailure 2

/-- `waitpid(pid, NULL, 0)` for the child that could not be started. -/
def reapChild (pid : Pid) : Prog World Unit := do
  let now ← tick
  match now.reapFail with
  | none =>
    modify (·.waited pid)
    modify (·.reapedInflight pid)
  | some _ => modify (·.remember fun m => { m with inflight := none })

def killChild (who : Text) (pid : Pid) : Prog World Unit := do
  let _ ← tick
  modify (·.killed who pid)

/-- The parent's side of `namespace_start_container`; what the child reports is the oracle's. -/
def namespaceStartContainer (c : Container) : Prog World (Except Errno Pid) := do
  if c.commandLine.text = [] then pure (.error Errno.EINVAL)
  else
    -- Three pipes and the close-on-exec flag.
    match ← firstFailure 4 with
    | some error => pure (.error error)
    | none =>
      let now ← tick
      let taken ← read (·.found now.pid)
      if now.fail.isSome ∨ taken = true ∨ ¬ 0 < now.pid then pure (.error (now.fail.getD Errno.EAGAIN))
      else
        modify (·.cloned now.pid c.id.text)
        handshake c now.pid
where
  handshake (c : Container) (pid : Pid) : Prog World (Except Errno Pid) := do
    match ← configureUserNamespace with
    | some error =>
      killChild c.id.text pid
      reapChild pid
      pure (.error error)
    | none =>
      let token ← tick
      match token.fail with
      | some error =>
        killChild c.id.text pid
        reapChild pid
        pure (.error error)
      | none =>
        let status ← tick
        match status.fail with
        | some error =>
          reapChild pid
          pure (.error (if error ≠ 0 then error else Errno.EPROTO))
        | none =>
          let executed ← tick
          match executed.fail with
          | some error =>
            killChild c.id.text pid
            reapChild pid
            pure (.error error)
          | none => pure (.ok pid)

/-- `getpid()` of the first process in a pid namespace. -/
def namespacePid : Pid := 1

def findContainer (id : Text) (registry : List Container) : Option Nat :=
  registry.findIdx? fun c => c.id.text = id

def startContainerById (id : Text) (scheduleTarget : Bool) : Prog World Bool := do
  if id = [] then pure false
  else
    pollStates
    match ← read fun w => (findContainer id w.memory.registry).bind fun i =>
        w.memory.registry[i]?.map fun c => (i, c) with
    | none => pure false
    | some (i, c) =>
      if c.state = .RUNNING then pure false
      else
        let stack ← tick
        if stack.fail.isSome then pure false
        else
          modify (·.remember (·.beginStart i))
          match ← namespaceStartContainer c with
          | .error error =>
            logEventType (.startFailed c.id.text error)
            modify (·.remember (·.abortStart i))
            pure false
          | .ok pid =>
            modify (·.remember (·.adopt i pid))
            if ← saveMetadata then
              logEventType (.started { c.toRecord with state := .RUNNING, pid := pid } namespacePid)
              if scheduleTarget then containerSchedulerOnStarted pid
              pure true
            else
              let _ ← stopContainerProcess i
              pure false

/-! ## Commands -/

/-- The id of the new container, or nothing. -/
def containerCreate (spec : ContainerSpec) : Prog World (Option Text) := do
  let allocated ← tick
  if allocated.fail.isSome then pure none
  else
    let sequence ← read (·.memory.nextSequence)
    modify (·.remember (·.draw))
    let prepared ← tick
    if prepared.fail.isSome then
      modify (·.remember fun m => { m with draft := none })
      pure none
    else
      let record := createdRecord spec sequence prepared.path.1
      modify (·.enrolled record)
      if ← saveMetadata then
        logEventType (.created record)
        modify (·.issued sequence record.id.text)
        pure (some record.id.text)
      else
        modify (·.remember (·.unenroll))
        pure none

def containerRun (spec : ContainerSpec) : Prog World Bool := do
  match ← containerCreate spec with
  | none => pure false
  | some id =>
    if ← startContainerById id false then
      match ← read fun w => findContainer id w.memory.registry with
      | none => pure false
      | some i => waitForContainerProcess i
    else pure false

def containerRunBackground (spec : ContainerSpec) : Prog World Bool := do
  match ← containerCreate spec with
  | none => pure false
  | some id => startContainerById id true

def containerStart (id : Text) : Prog World Bool := startContainerById id true

def containerStop (id : Text) : Prog World Bool := do
  if id = [] then pure false
  else
    pollStates
    match ← read fun w => findContainer id w.memory.registry with
    | none => pure false
    | some i => stopContainerProcess i

def containerDelete (id : Text) : Prog World Bool := do
  if id = [] then pure false
  else
    pollStates
    match ← read fun w => (findContainer id w.memory.registry).bind fun i =>
        w.memory.registry[i]?.map fun c => (i, c) with
    | none => pure false
    | some (i, c) =>
      if c.state = .RUNNING then pure false
      else
        modify (·.remember (·.detach i c))
        if ← saveMetadata then
          logEventType (.deleted c.id.text)
          modify (·.remember fun m => { m with detached := none })
          pure true
        else
          modify (·.remember (·.reattach c))
          pure false

/-- `monitor_read`: whether `/proc/<pid>/stat` is there and can be parsed is the oracle's; the `status` file is best effort. -/
def monitorRead (pid : Pid) : Prog World Bool := do
  if pid ≤ 0 then pure false
  else
    let stat ← tick
    if stat.fail.isSome then pure false
    else
      let _ ← tick
      pure true

def containerStats (id : Text) : Prog World Bool := do
  if id = [] then pure false
  else
    pollStates
    match ← read fun w => (findContainer id w.memory.registry).bind fun i => w.memory.registry[i]? with
    | none => pure false
    | some c => if c.state ≠ .RUNNING ∨ c.pid ≤ 0 then pure false else monitorRead c.pid

/-! ## Start-up and shutdown -/

/-- The loop of `container_manager_init` over the lines that hold a record. -/
def restoreRecords : List Record → Prog World Bool
  | [] => pure true
  | record :: rest => do
    let allocated ← tick
    if allocated.fail.isSome then pure false
    else
      if record.state = .RUNNING then
        let _ ← tick
      modify (·.restored record rest)
      restoreRecords rest

def containerManagerInit : Prog World Bool := do
  let opened ← tick
  match ← read (·.disk) with
  | none => pure true
  | some file =>
    if opened.fail.isSome then pure true
    else
      let records := decodeRegistry file
      modify (·.remember fun m => { m with restoring := records })
      if ← restoreRecords records then
        pollStates
        if records.length > 0 then logEventType (.restored records.length)
        pure true
      else pure false

/-! ## The `sched` commands -/

/-- The SIGCONT loop that ends `sched off`. -/
def resumeAll : List Pid → Prog World Unit
  | [] => modify (·.swept)
  | pid :: rest => do
    let _ ← tick
    modify (·.sweptNext pid rest)
    resumeAll rest

/-- Start from a stable point: stop the others and resume the first. -/
def resumeFirst : List Pid → Prog World Unit
  | [] => pure ()
  | first :: rest => do
    forEach (fun pid => do
      let _ ← tick
      modify (·.signalled pid .SIGSTOP)) (rest.filter (· ≠ first))
    let _ ← tick
    modify (·.signalled first .SIGCONT)

def containerSchedulerRefreshTargets : Prog World Unit := do
  let _ ← tick
  let enabled ← read (·.sched.enabled)
  underMutex Scheduler.schedulerClearTargets
  let pids ← read (·.memory.runningPids)
  forEach containerSchedulerOnStarted pids
  if enabled then resumeFirst pids
  else
    modify (·.sweeping)
    resumeAll pids

/-- `scheduler_start`. -/
def schedulerStart (sliceMs : UInt32) : Prog World Bool := do
  let created ← tick
  modify (·.scheduled fun s => { s with timeSliceMs := sliceMs })
  let started ← read (·.sched.threadStarted)
  if started then pure true
  else if created.fail.isSome then
    modify (·.scheduled fun s => { s with threadStarted := false, stopRequested := false })
    pure false
  else
    modify (·.scheduled fun s => { s with threadStarted := true, stopRequested := false })
    pure true

def schedOn : Prog World Unit := do
  let _ ← tick
  let slice ← read (·.sched.timeSliceMs)
  let slice := if slice = 0 then 200 else slice
  if ← schedulerStart slice then
    let _ ← tick
    modify (·.enabled)
    containerSchedulerRefreshTargets
    logEventType (.schedulerEnabled slice)

def schedOff : Prog World Unit := do
  let _ ← tick
  modify (·.disabled)
  containerSchedulerRefreshTargets
  logEventType .schedulerDisabled

/-- `scheduler_set_time_slice_ms`. -/
def schedulerSetTimeSliceMs (timeSliceMs : UInt32) : Prog World Bool := do
  let _ ← tick
  if timeSliceMs = 0 then pure false
  else
    modify (·.scheduled fun s => { s with timeSliceMs := timeSliceMs })
    pure true

/-- `scheduler_stop`: the thread finishes the iteration it is in and is joined. -/
def schedulerStop : Prog World Unit := do
  let _ ← tick
  let started ← read (·.sched.threadStarted)
  if started then
    modify (·.scheduled fun s => { s with threadStarted := true, stopRequested := true })
    let _ ← tick
    modify (·.event .thread)
    modify (·.event .thread)
    modify (·.scheduled fun s => { s with threadStarted := false, stopRequested := false })

def cleanupAllContainers : Prog World Unit := do
  pollStates
  let count ← read (·.memory.registry.length)
  forEach (fun i => do
    -- A container that is not RUNNING is refused by `stop_container_process` as well.
    let _ ← stopContainerProcess i
    pure ()) (List.range count)
  let _ ← saveMetadata
  modify (·.freed)
  schedulerStop

end ContainerRuntime
