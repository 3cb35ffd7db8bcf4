import ContainerRuntime.Namespace.ExecArgv
import ContainerRuntime.Resource.Limits
import ContainerRuntime.Logic.Coroutine

/-! The two sides of `namespace_start_container`.

The manager and the child it clones talk over three pipes: the child waits for
a token, reports how far it came as a `NamespaceStatus`, and says with one
`int` that `execvp` has failed. Both sides are codes over one set of calls; the
descriptor tables of the processes and the contents of the pipes are the
kernel's, which answers the calls in any order it likes.
-/

set_option autoImplicit false

namespace ContainerRuntime.Namespace

open CString Coroutine

/-! ## Values in a pipe -/

/-- The bytes of an `int` in memory. -/
def intBytes (n : Int32) : List UInt8 :=
  let word := n.toUInt32.toNat
  [.ofNat word, .ofNat (word / 2 ^ 8), .ofNat (word / 2 ^ 16), .ofNat (word / 2 ^ 24)]

def intOfBytes : List UInt8 → Int32
  | [a, b, c, d] => (UInt32.ofNat (a.toNat + b.toNat * 2 ^ 8 + c.toNat * 2 ^ 16 + d.toNat * 2 ^ 24)).toInt32
  | _ => 0

@[simp] theorem length_intBytes (n : Int32) : (intBytes n).length = 4 := rfl

@[simp] theorem intOfBytes_intBytes (n : Int32) : intOfBytes (intBytes n) = n := by
  have word := n.toUInt32.toNat_lt
  have whole : n.toUInt32.toNat % 2 ^ 8 + n.toUInt32.toNat / 2 ^ 8 % 2 ^ 8 * 2 ^ 8 +
      n.toUInt32.toNat / 2 ^ 16 % 2 ^ 8 * 2 ^ 16 + n.toUInt32.toNat / 2 ^ 24 % 2 ^ 8 * 2 ^ 24 = n.toUInt32.toNat := by
    omega
  simp only [intBytes, intOfBytes, UInt8.toNat_ofNat', whole, UInt32.ofNat_toNat, Int32.toInt32_toUInt32]

structure NamespaceStatus where
  ready : Int32
  errorNumber : Int32
  namespacePid : Pid
  deriving DecidableEq

namespace NamespaceStatus

/-- `memset`, and `namespace_pid = -1`. -/
def blank : NamespaceStatus := ⟨0, 0, -1⟩

/-- A step of the child has failed. -/
def refused (error : Int32) : NamespaceStatus := { blank with errorNumber := error }

/-- The child is about to call `execvp`. -/
def prepared (namespacePid : Pid) : NamespaceStatus := { blank with ready := 1, namespacePid := namespacePid }

def bytes (status : NamespaceStatus) : List UInt8 :=
  intBytes status.ready ++ intBytes status.errorNumber ++ intBytes status.namespacePid

def ofBytes (bytes : List UInt8) : NamespaceStatus :=
  ⟨intOfBytes (bytes.take 4), intOfBytes ((bytes.drop 4).take 4), intOfBytes ((bytes.drop 8).take 4)⟩

/-- `sizeof(NamespaceStatus)`. -/
def size : Nat := 12

@[simp] theorem length_bytes (status : NamespaceStatus) : status.bytes.length = size := rfl

@[simp] theorem ofBytes_bytes (status : NamespaceStatus) : ofBytes status.bytes = status := by
  have first : status.bytes.take 4 = intBytes status.ready := rfl
  have second : (status.bytes.drop 4).take 4 = intBytes status.errorNumber := rfl
  have third : (status.bytes.drop 8).take 4 = intBytes status.namespacePid := rfl
  rw [ofBytes, first, second, third, intOfBytes_intBytes, intOfBytes_intBytes, intOfBytes_intBytes]

theorem bytes_injective : Function.Injective bytes := by
  intro status other same
  rw [← ofBytes_bytes status, same, ofBytes_bytes]

end NamespaceStatus

/-! ## Calls -/

inductive Pipe where
  | status | exec | continue
  deriving DecidableEq

/-- `pipe[0]` and `pipe[1]`. -/
inductive Side where
  | reading | writing
  deriving DecidableEq

structure End where
  pipe : Pipe
  side : Side
  deriving DecidableEq

/-- The files of `/proc/<pid>` that `configure_user_namespace` writes. -/
inductive ProcFile where
  | setgroups | uidMap | gidMap
  deriving DecidableEq

inductive Call where
  | pipe (pipe : Pipe)
  /-- `fcntl(fd, F_SETFD, FD_CLOEXEC)`. -/
  | closeOnExec (fd : End)
  | clone
  | close (fd : End)
  /-- `read`, made again whenever it is interrupted. -/
  | read (pipe : Pipe) (count : Nat)
  | write (pipe : Pipe) (bytes : List UInt8)
  | writeTextFile (file : ProcFile)
  /-- `kill(pid, SIGKILL)`. -/
  | kill (pid : Pid)
  | waitpid (pid : Pid)
  | setgid
  | setuid
  | sethostname (name : Text)
  | filesystemIsolateRootfs (rootfs : Text)
  /-- `mount` of `/proc` with MS_REMOUNT. -/
  | remountProc
  | networkSetupLoopback
  | resourceApplyLimits (limits : ResourceConfig)
  | setpgid
  | getpid
  | execvp (argv : List Text)
  deriving DecidableEq

/-- What a call returns when it succeeds. -/
def Call.Value : Call → Type
  | .read _ _ => List UInt8
  | .clone | .getpid => Pid
  | _ => Unit

instance : (c : Call) → DecidableEq c.Value
  | .read _ _ => inferInstanceAs (DecidableEq (List UInt8))
  | .clone | .getpid => inferInstanceAs (DecidableEq Pid)
  | .pipe _ | .closeOnExec _ | .close _ | .write _ _ | .writeTextFile _ | .kill _ | .waitpid _ | .setgid | .setuid
  | .sethostname _ | .filesystemIsolateRootfs _ | .remountProc | .networkSetupLoopback | .resourceApplyLimits _
  | .setpgid | .execvp _ => inferInstanceAs (DecidableEq Unit)

/-- The value, or `errno`. -/
abbrev Call.Answer (c : Call) : Type := Except Int32 c.Value

abbrev Done := Coroutine.Done Call Call.Answer

abbrev Code (α : Type) := Coroutine.Code Call Call.Answer α

/-- The bytes a call has got from the pipe. -/
def Done.taken (pipe : Pipe) : Done → List UInt8
  | ⟨.read source _, .ok bytes⟩ => if source = pipe then bytes else []
  | _ => []

/-- The bytes a call has put into the pipe. -/
def Done.sent (pipe : Pipe) : Done → List UInt8
  | ⟨.write target bytes, .ok _⟩ => if target = pipe then bytes else []
  | _ => []

namespace Code

/-- A call of which only the failure matters. -/
def attempt (c : Call) : Code (Option Int32) := do
  match ← Coroutine.Code.make c with
  | .ok _ => pure none
  | .error error => pure (some error)

def read (pipe : Pipe) (count : Nat) : Code (Except Int32 (List UInt8)) := Coroutine.Code.make (Call.read pipe count)

def clone : Code (Except Int32 Pid) := Coroutine.Code.make Call.clone

def getpid : Code (Except Int32 Pid) := Coroutine.Code.make Call.getpid

def close (fd : End) : Code Unit := do
  let _ ← attempt (.close fd)

def closeAll : List End → Code Unit
  | [] => pure ()
  | fd :: rest => do
    close fd
    closeAll rest

end Code

open Code

/-! ## The child -/

structure NamespaceConfig where
  hostname : Option Text
  rootfs : Text
  commandLine : Text
  resourceLimits : ResourceConfig
  deriving DecidableEq

def token : UInt8 := 49

/-- `errno` if the token did not come. -/
def waitForParentReady : Code (Option Int32) := do
  match ← read .continue 1 with
  | .ok [] =>
    close ⟨.continue, .reading⟩
    pure (some (.ofNat Errno.EPROTO))
  | .ok (first :: _) =>
    close ⟨.continue, .reading⟩
    -- No call has failed for another byte: `errno` is what it was.
    if first = token then pure none else pure (some 0)
  | .error error =>
    close ⟨.continue, .reading⟩
    pure (some error)

/-- `write(child_args->status_fd, &status, sizeof(status))` and `close`. -/
def sendStatus (status : NamespaceStatus) : Code Unit := do
  let _ ← attempt (.write .status status.bytes)
  close ⟨.status, .writing⟩

/-- The child's way out of every step that fails. -/
def giveUp (error : Int32) : Code Nat := do
  sendStatus (.refused error)
  pure 1

/-- A step of `namespace_child` that has to succeed. -/
def must (c : Call) (rest : Code Nat) : Code Nat := do
  match ← attempt c with
  | some error => giveUp error
  | none => rest

/-- A step of `namespace_child` in which one error is let pass. -/
def mustUnless (c : Call) (tolerated : Int32) (rest : Code Nat) : Code Nat := do
  match ← attempt c with
  | some error => if error ≠ tolerated then giveUp error else rest
  | none => rest

def resourceErrorBase : Int32 := 10000

/-- The end of `namespace_child`. -/
def execute (argv : List Text) : Code Nat := do
  let namespacePid ← getpid
  sendStatus (.prepared (namespacePid.toOption.getD (-1)))
  match ← attempt (.execvp argv) with
  | none => pure 0
  | some error =>
    let _ ← attempt (.write .exec (intBytes error))
    close ⟨.exec, .writing⟩
    pure 127

/-- The part of `namespace_child` after the hostname. -/
def isolate (config : NamespaceConfig) : Code Nat :=
  must (.filesystemIsolateRootfs config.rootfs) <|
  mustUnless .remountProc (.ofNat Errno.EINVAL) <|
  mustUnless .networkSetupLoopback (.ofNat Errno.EPERM) <|
  match buildExecArgv config.commandLine 256 32 with
  | .error error => giveUp (.ofNat error)
  | .ok argv => do
    match ← attempt (.resourceApplyLimits config.resourceLimits) with
    | some error => giveUp (resourceErrorBase + error)
    | none => must .setpgid (execute argv)

def namespaceChild (config : NamespaceConfig) : Code Nat := do
  match ← waitForParentReady with
  | some error => giveUp error
  | none =>
    must .setgid <| must .setuid <|
      match config.hostname with
      | none | some [] => isolate config
      | some name => must (.sethostname name) (isolate config)

/-! ## The parent -/

structure NamespaceStartResult where
  hostPid : Pid
  namespacePid : Pid
  deriving DecidableEq

/-- `write_text_file` for the three files. -/
def configureUserNamespace : Code (Option Int32) := do
  let setgroups ← attempt (.writeTextFile .setgroups)
  if setgroups.isSome ∧ setgroups ≠ some (.ofNat Errno.ENOENT) then pure setgroups
  else
    match ← attempt (.writeTextFile .uidMap) with
    | some error => pure (some error)
    | none => attempt (.writeTextFile .gidMap)

/-- What `read_status` has received when its loop ends. Every round takes one byte at least, so as many
rounds as there are bytes are enough. -/
def readStatus : Nat → List UInt8 → Code (List UInt8)
  | 0, received => pure received
  | rounds + 1, received =>
    if NamespaceStatus.size ≤ received.length then pure received
    else do
      match ← read .status (NamespaceStatus.size - received.length) with
      | .ok [] => pure received
      | .ok (first :: more) => readStatus rounds (received ++ first :: more)
      | .error _ => pure received

/-- The status in memory: what was received, over the blank one. -/
def overwrite (received : List UInt8) : NamespaceStatus :=
  .ofBytes (received ++ NamespaceStatus.blank.bytes.drop received.length)

def readExecStatus : Code (Option Int32) := do
  match ← read .exec 4 with
  | .ok bytes =>
    close ⟨.exec, .reading⟩
    if bytes = [] then pure none
    else if bytes.length = 4 then pure (some (intOfBytes bytes))
    else pure (some (.ofNat Errno.EPROTO))
  | .error error =>
    close ⟨.exec, .reading⟩
    pure (some error)

/-- The child is killed and reaped, and `errno` is kept over it. -/
def abandon (pid : Pid) (error : Int32) : Code (Except Int32 NamespaceStartResult) := do
  let _ ← attempt (.kill pid)
  let _ ← attempt (.waitpid pid)
  pure (.error error)

def awaitExec (pid : Pid) (status : NamespaceStatus) : Code (Except Int32 NamespaceStartResult) := do
  match ← readExecStatus with
  | some error => abandon pid error
  | none => pure (.ok ⟨pid, status.namespacePid⟩)

def awaitStatus (pid : Pid) : Code (Except Int32 NamespaceStartResult) := do
  let received ← readStatus NamespaceStatus.size []
  let status := overwrite received
  if received.length ≠ NamespaceStatus.size ∨ status.ready = 0 then
    closeAll [⟨.status, .reading⟩, ⟨.exec, .reading⟩]
    let _ ← attempt (.waitpid pid)
    pure (.error (if status.errorNumber ≠ 0 then status.errorNumber else .ofNat Errno.EPROTO))
  else
    close ⟨.status, .reading⟩
    awaitExec pid status

/-- The parent, once it has a child. -/
def guide (pid : Pid) : Code (Except Int32 NamespaceStartResult) := do
  closeAll [⟨.exec, .writing⟩, ⟨.status, .writing⟩, ⟨.continue, .reading⟩]
  match ← configureUserNamespace with
  | some error =>
    closeAll [⟨.continue, .writing⟩, ⟨.status, .reading⟩, ⟨.exec, .reading⟩]
    abandon pid error
  | none =>
    match ← attempt (.write .continue [token]) with
    | some error =>
      closeAll [⟨.continue, .writing⟩, ⟨.status, .reading⟩, ⟨.exec, .reading⟩]
      abandon pid error
    | none =>
      close ⟨.continue, .writing⟩
      awaitStatus pid

def bothEnds (pipe : Pipe) : List End := [⟨pipe, .reading⟩, ⟨pipe, .writing⟩]

def namespaceStartContainer (config : NamespaceConfig) : Code (Except Int32 NamespaceStartResult) :=
  if config.commandLine = [] then pure (.error (.ofNat Errno.EINVAL))
  else do
    match ← attempt (.pipe .status) with
    | some error => pure (.error error)
    | none =>
    match ← attempt (.pipe .exec) with
    | some error =>
      closeAll (bothEnds .status)
      pure (.error error)
    | none =>
    match ← attempt (.closeOnExec ⟨.exec, .writing⟩) with
    | some error =>
      closeAll (bothEnds .status ++ bothEnds .exec)
      pure (.error error)
    | none =>
    match ← attempt (.pipe .continue) with
    | some error =>
      closeAll (bothEnds .status ++ bothEnds .exec)
      pure (.error error)
    | none =>
    match ← clone with
    | .error error =>
      closeAll (bothEnds .status ++ bothEnds .exec ++ bothEnds .continue)
      pure (.error error)
    | .ok pid => guide pid

end ContainerRuntime.Namespace
