import ContainerRuntime.Logger.Filter

/-! The lines of `container.log`: what `log_event_type` writes, and the record that
is made of the first piece of a line.

The messages are the formats of `container.c` and `main.c` with their arguments
in place. The texts of `strerror` are a parameter.
-/

set_option autoImplicit false

namespace ContainerRuntime

open CString

/-! ## Messages -/

/-- `RESOURCE_ERROR_BASE`. -/
def RESOURCE_ERROR_BASE : Errno := 10000

def NAMESPACE_PROFILE : Text := lit "PID | UTS | MOUNT | NET"
def SCHEDULER_PROFILE : Text := lit "round-robin (SIGSTOP/SIGCONT)"

/-- `format_wait_status`, in the buffer of `log_container_exit_status`. -/
def formatWaitStatus : WaitStatus → Text
  | .exited code => snprintf 64 (lit "exited code=" ++ showUnsigned code)
  | .signaled signal => snprintf 64 (lit "killed signal=" ++ showUnsigned signal)

section

variable (strerror : Errno → Text)

/-- `filesystem_format_error`, for the errors that `namespace_format_start_error` passes to it. -/
def filesystemFormatError (error : Errno) : Text :=
  if error = Errno.ENOTDIR then lit "rootfs path exists but is not a directory"
  else if error = Errno.ENAMETOOLONG then lit "rootfs path is too long for the current runtime limits"
  else if error = Errno.EBUSY then lit "pivot_root could not detach the old root cleanly"
  else strerror error

/-- `namespace_format_start_error`, in the buffer of `start_container_by_id`. -/
def namespaceFormatStartError (error : Errno) : Text := snprintf 256 <|
  if error = RESOURCE_ERROR_BASE + Errno.EPERM then lit "resource limits need privileges the host denied"
  else if error = RESOURCE_ERROR_BASE + Errno.EINVAL then lit "resource control received an invalid limit configuration"
  else if error = Errno.EPERM then
    lit "permission denied while creating namespaces; try sudo or enable unprivileged namespaces"
  else if error = Errno.EINVAL then lit "kernel rejected the requested namespace flags on this host"
  else if error = Errno.ENOSPC then lit "namespace limit reached on this host"
  else if error = Errno.EPROTO then lit "namespace child exited before finishing setup"
  else if error = Errno.E2BIG then lit "container command has too many arguments for the current runtime"
  else if error = Errno.ENOENT then lit "container command was not found inside the isolated rootfs"
  else if error = Errno.ENOTDIR ∨ error = Errno.ENAMETOOLONG ∨ error = Errno.EBUSY then filesystemFormatError strerror error
  else strerror error

/-- The limits at the end of the messages about a creation and a start. -/
def limitsText (limits : ResourceConfig) : Text :=
  lit " cpu=" ++ showLimit limits.cpuSeconds ++ lit "s mem=" ++ showLimit limits.memoryMb ++ lit "MB nproc=" ++
    showLimit limits.maxProcesses

/-- What the format of `log_event_type` gives with its arguments. -/
def LogEvent.message : LogEvent → Text
  | .saveFailedToOpen => lit "metadata save failed: could not open temp file"
  | .saveFailedToClose => lit "metadata save failed: fclose"
  | .saveFailedToRename => lit "metadata save failed: rename"
  | .exited id how status => id ++ lit " " ++ how ++ lit " (" ++ formatWaitStatus status ++ lit ")"
  | .recovered id => id ++ lit " marked stopped after recovery check"
  | .failedToStop id pid => lit "failed to stop " ++ id ++ lit " (pid " ++ showPid pid ++ lit ")"
  | .failedToReap id pid => lit "failed to reap " ++ id ++ lit " (pid " ++ showPid pid ++ lit ")"
  | .stopped id pid => id ++ lit " stopped (pid " ++ showPid pid ++ lit ")"
  | .restored count => lit "restored " ++ showUnsigned count ++ lit " container record(s)"
  | .created record =>
    record.id.text ++ lit " name=" ++ record.name.text ++ lit " hostname=" ++ record.hostname.text ++ lit " rootfs=" ++
      record.rootfs.text ++ lit " command=" ++ record.commandLine.text ++ limitsText record.resourceLimits
  | .startFailed id error => lit "startup isolation failed for " ++ id ++ lit ": " ++ namespaceFormatStartError strerror error
  | .started record namespacePid =>
    record.id.text ++ lit " pid=" ++ showPid record.pid ++ lit " ns_pid=" ++ showPid namespacePid ++ lit " isolation=" ++
      NAMESPACE_PROFILE ++ lit " command=" ++ record.commandLine.text ++ limitsText record.resourceLimits
  | .deleted id => id ++ lit " deleted"
  | .schedulerEnabled sliceMs => lit "profile=" ++ SCHEDULER_PROFILE ++ lit " slice=" ++ showLimit sliceMs ++ lit "ms"
  | .schedulerDisabled => lit "scheduler disabled"
  | .unknownCommand word => lit "unknown command '" ++ word ++ lit "'"

namespace Logger

/-! ## Lines -/

/-- A call of `log_event_type`: for an event of the manager, or one of the others in the read loop of `main`. -/
inductive LogCall where
  | manager (entry : LogEvent)
  | simulatorStarted | inputClosed | userExit
  | schedulerUpdated (sliceMs : UInt32)
  deriving DecidableEq

def LogCall.eventType : LogCall → Text
  | .manager entry => entry.eventType
  | .simulatorStarted => lit "SIMULATOR_STARTED"
  | .inputClosed | .userExit => lit "SIMULATOR_STOPPED"
  | .schedulerUpdated _ => lit "SCHEDULER_UPDATED"

def LogCall.message : LogCall → Text
  | .manager entry => entry.message strerror
  | .simulatorStarted => lit "interactive CLI started"
  | .inputClosed => lit "CLI stopped after input closed"
  | .userExit => lit "CLI stopped by user command"
  | .schedulerUpdated sliceMs => lit "time_slice_ms=" ++ showLimit sliceMs

/-- What `strftime` stores for `%Y-%m-%d %H:%M:%S` in a buffer of 32 bytes. -/
abbrev Stamp := { text : Text // text.length < 32 ∧ text.all (fun c => c.isDigit || c = '-' || c = ':' || c = ' ') = true }

structure LogLine where
  stamp : Stamp
  call : LogCall
  deriving DecidableEq

/-- `[stamp] TYPE: `, in front of the message. -/
def LogLine.front (line : LogLine) : Text := '[' :: line.stamp.1 ++ (lit "] " ++ (line.call.eventType ++ lit ": "))

/-- What `log_event_type_va` appends, without the newline at its end. -/
def LogLine.text (line : LogLine) : Text := line.front ++ line.call.message strerror

/-- `container.log` after these calls. -/
def logFile (lines : List LogLine) : Text := lines.flatMap fun line => line.text strerror ++ [newline]

/-- The events of the manager among them. -/
def managerLog (lines : List LogLine) : List LogEvent := lines.filterMap fun line =>
  match line.call with
  | .manager entry => some entry
  | _ => none

end Logger

end

namespace Logger

/-! ## The front of a line -/

/-- What event types are made of. -/
def isTypeChar (c : Char) : Bool := c.isUpper || c = '_'

theorem eventType_form (call : LogCall) : call.eventType.length ≤ 18 ∧ call.eventType.all isTypeChar = true := by
  have manager : ∀ entry : LogEvent, entry.eventType.length ≤ 18 ∧ entry.eventType.all isTypeChar = true := by
    intro entry
    cases entry with
    | exited id how status =>
      cases status with
      | exited code =>
        simp only [LogEvent.eventType]
        decide
      | signaled signal =>
        by_cases hit : signal = SIGXCPU
        · simp only [LogEvent.eventType, hit, if_true]
          decide
        · simp only [LogEvent.eventType, hit, if_false]
          decide
    | _ =>
      simp only [LogEvent.eventType]
      decide
  cases call with
  | manager entry => exact manager entry
  | _ =>
    simp only [LogCall.eventType]
    decide

theorem not_mem_eventType (call : LogCall) {c : Char} (other : isTypeChar c = false) : c ∉ call.eventType := by
  intro member
  rw [List.all_eq_true.mp (eventType_form call).2 c member] at other
  cases other

theorem not_mem_stamp (stamp : Stamp) {c : Char} (other : (c.isDigit || c = '-' || c = ':' || c = ' ') = false) : c ∉ stamp.1 := by
  intro member
  have inside : (c.isDigit || c = '-' || c = ':' || c = ' ') = true := List.all_eq_true.mp stamp.2.2 c member
  rw [other] at inside
  cases inside

/-- No small letter and no opening parenthesis stands in front of a message. -/
theorem not_mem_front (line : LogLine) {c : Char}
    (other : (isTypeChar c || c.isDigit || c = '-' || c = ':' || c = ' ' || c = '[' || c = ']') = false) : c ∉ line.front := by
  simp only [Bool.or_eq_false_iff, decide_eq_false_iff_not] at other
  obtain ⟨⟨⟨⟨⟨⟨type, digit⟩, dash⟩, colon⟩, blank⟩, opening⟩, closing⟩ := other
  have stamp := not_mem_stamp line.stamp (c := c) (by simp [digit, dash, colon, blank])
  have kind := not_mem_eventType line.call type
  simp [LogLine.front, lit, stamp, kind, opening, closing, colon, blank]

theorem length_front_le (line : LogLine) : line.front.length ≤ 54 := by
  have stamp := line.stamp.2.1
  have kind := (eventType_form line.call).1
  simp only [LogLine.front, List.length_cons, List.length_append, show (lit "] ").length = 2 from rfl,
    show (lit ": ").length = 2 from rfl]
  omega

/-! ## The first piece of a line -/

/-- The part of a message that its record keeps. -/
def keptMessage (message : Text) : Text := snprintf 768 (trimNewline message)

section

variable (strerror : Errno → Text)

/-- No character that ends a line stands in front of a message. -/
theorem front_whole (line : LogLine) : ∀ c ∈ line.front, c ∉ [nul, carriageReturn, newline] := by
  intro c member rejected
  simp only [List.mem_cons, List.not_mem_nil, or_false] at rejected
  rcases rejected with rfl | rfl | rfl
  · exact not_mem_front line (by decide) member
  · exact not_mem_front line (by decide) member
  · exact not_mem_front line (by decide) member

/-- Where the newline is rejected, the front of the line is in the first piece. -/
theorem cutAt_first {reject : List Char} (ends : newline ∈ reject) (listed : reject ⊆ [nul, carriageReturn, newline]) (line : LogLine) :
    cutAt reject (fgets (bufferSize - 1) (line.text strerror ++ [newline])).1 =
      line.front ++ (cutAt reject (line.call.message strerror)).take (bufferSize - 1 - line.front.length) := by
  have clean : ∀ c ∈ line.front, c ∉ reject := fun c member rejected => front_whole line c member (listed rejected)
  have room := length_front_le line
  rw [cutAt_fgets ends, cutAt_concat ends, LogLine.text, cutAt_front clean, List.take_append,
    List.take_of_length_le (by unfold bufferSize; omega)]

/-- The stamp has no bracket and the type no colon. -/
theorem isFront_front (line : LogLine) : IsFront line.front := by
  have bracket : ']' ∉ '[' :: line.stamp.1 := by
    simp only [List.mem_cons, not_or]
    exact ⟨by decide, not_mem_stamp line.stamp (by decide)⟩
  have colon : ':' ∉ line.call.eventType := not_mem_eventType line.call (by decide)
  exact ⟨line.stamp.1, line.call.eventType, rfl, not_infix_of_not_mem (by decide) bracket, not_infix_of_not_mem (by decide) colon⟩

/-- What fits behind the front is more than a record keeps. -/
theorem snprintf_behind_front (line : LogLine) (message : Text) :
    snprintf 768 (message.take (bufferSize - 1 - line.front.length)) = snprintf 768 message := by
  have room := length_front_le line
  have enough : 767 ≤ bufferSize - 1 - line.front.length := by unfold bufferSize; omega
  exact List.take_take.trans (congrArg (List.take · _) (Nat.min_eq_left enough))

/-- The record of the first piece has the message that was logged, up to its end or to what fits. -/
theorem messageOf_first (line : LogLine) :
    messageOf (fgets (bufferSize - 1) (line.text strerror ++ [newline])).1 = keptMessage (line.call.message strerror) := by
  have fits := length_fgets_le (bufferSize - 1) (line.text strerror ++ [newline])
  have trimmed := cutAt_first strerror (by decide) (List.subset_cons_self nul [carriageReturn, newline]) line
  rw [messageOf_carried (Nat.lt_of_le_pred (by decide) fits) (Or.inl ⟨_, isFront_front line, trimmed⟩), snprintf_behind_front]
  rfl

/-- The same of the line in the buffer, which ends at a NUL as well. -/
theorem messageOf_first_line (line : LogLine) :
    messageOf (cstringAt (fgets (bufferSize - 1) (line.text strerror ++ [newline])).1 0) =
      keptMessage (cstringAt (line.call.message strerror) 0) := by
  have cut := (cstringAt_begins (fgets (bufferSize - 1) (line.text strerror ++ [newline])).1).length_le
  have fits := cut.trans (length_fgets_le (bufferSize - 1) (line.text strerror ++ [newline]))
  have trimmed := cutAt_first strerror (by decide) (List.Subset.refl [nul, carriageReturn, newline]) line
  rw [← cutAt_cstringAt, ← cutAt_cstringAt] at trimmed
  rw [messageOf_carried (Nat.lt_of_le_pred (by decide) fits) (Or.inl ⟨_, isFront_front line, trimmed⟩), snprintf_behind_front]
  rfl

end

end Logger

end ContainerRuntime
