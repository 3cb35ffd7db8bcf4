import ContainerRuntime.Namespace.Handshake

/-! The manager and its children under the kernel.

A run is a list of turns. In a turn one process makes its next call, and the
turn says how the call fares; or a process dies, at whatever point it has
reached; or the manager, between two starts, begins another one. A turn of a
process that blocks changes nothing.
-/

set_option autoImplicit false

namespace ContainerRuntime.Namespace

open CString Coroutine

inductive Party where
  | parent | child
  deriving DecidableEq

/-- A call of the manager, or of the child, within one start. -/
structure Event where
  start : Nat
  party : Party
  done : Done
  deriving DecidableEq

/-- An open descriptor of a handshake pipe. -/
structure Held where
  start : Nat
  fd : End
  closeOnExec : Bool
  deriving DecidableEq

inductive Stage where
  | running (code : Code Nat)
  /-- It is the program that `execvp` has started. -/
  | executed
  | dead

structure Child where
  stage : Stage
  fds : List Held

/-- One call of `namespace_start_container`. -/
structure Start where
  config : NamespaceConfig
  /-- What the manager has still to do. -/
  code : Code (Except Int32 NamespaceStartResult)
  pipes : Pipe → List UInt8
  child : Option Child

/-- What it has returned. -/
def Start.outcome (start : Start) : Option (Except Int32 NamespaceStartResult) :=
  match start.code with
  | .ret value => some value
  | .call _ _ => none

theorem Start.code_of_outcome {start : Start} {value : Except Int32 NamespaceStartResult}
    (returned : start.outcome = some value) : start.code = .ret value := by
  unfold outcome at returned
  split at returned
  · rename_i code
    rw [code, Option.some.inj returned]
  · cases returned

structure System where
  /-- The manager is alive. -/
  up : Bool
  /-- Its descriptors of handshake pipes. -/
  fds : List Held
  count : Nat
  starts : Nat → Option Start
  trace : List Event

/-- How the next call fares. -/
structure Fate where
  fail : Option Int32
  /-- The number of bytes a `read` gets, if there are as many. -/
  bytes : Nat
  pid : Pid
  deriving DecidableEq

inductive Turn where
  /-- The manager calls `namespace_start_container`. -/
  | start (config : NamespaceConfig)
  | parent (fate : Fate)
  | child (start : Nat) (fate : Fate)
  | childDies (start : Nat)
  | parentDies
  deriving DecidableEq

def Child.gone : Child := ⟨.dead, []⟩

namespace System

/-- A manager that has not started any container. -/
def initial : System := ⟨true, [], 0, fun _ => none, []⟩

def child (s : System) (k : Nat) : Option Child := (s.starts k).bind (·.child)

def childFds (s : System) (k : Nat) : List Held := ((s.child k).map (·.fds)).getD []

def table (s : System) (k : Nat) : Party → List Held
  | .parent => s.fds
  | .child => s.childFds k

def contents (s : System) (k : Nat) (pipe : Pipe) : List UInt8 := ((s.starts k).map (·.pipes pipe)).getD []

/-- The process has this end of a pipe of the start `k` open. -/
def Holds (fds : List Held) (k : Nat) (fd : End) : Prop := ∃ held ∈ fds, held.start = k ∧ held.fd = fd

instance (fds : List Held) (k : Nat) (fd : End) : Decidable (Holds fds k fd) :=
  inferInstanceAs (Decidable (∃ held ∈ fds, held.start = k ∧ held.fd = fd))

/-- Some process has it open. -/
def Open (s : System) (k : Nat) (fd : End) : Prop :=
  Holds s.fds k fd ∨ ∃ j ∈ List.range s.count, Holds (s.childFds j) k fd

instance (s : System) (k : Nat) (fd : End) : Decidable (s.Open k fd) :=
  inferInstanceAs (Decidable (Holds s.fds k fd ∨ ∃ j ∈ List.range s.count, Holds (s.childFds j) k fd))

def childAlive (s : System) (k : Nat) : Bool :=
  match s.child k with
  | some ⟨.running _, _⟩ | some ⟨.executed, _⟩ => true
  | some ⟨.dead, _⟩ | none => false

/-! ## Calls -/

/-- The answer to a call that is not made to fail; nothing if it blocks. -/
def succeed (s : System) (k : Nat) (who : Party) (fate : Fate) : (c : Call) → Option c.Answer
  | .read pipe count =>
    if Holds (s.table k who) k ⟨pipe, .reading⟩ then
      match s.contents k pipe with
      | [] => if s.Open k ⟨pipe, .writing⟩ then none else some (.ok [])
      | first :: more => some (.ok ((first :: more).take (min count (max 1 fate.bytes))))
    else some (.error (.ofNat Errno.EBADF))
  -- SIGPIPE comes with EPIPE; for a process that does not ignore it, dying of it is a turn of its own.
  | .write pipe _ =>
    if Holds (s.table k who) k ⟨pipe, .writing⟩ then
      if s.Open k ⟨pipe, .reading⟩ then some (.ok ()) else some (.error (.ofNat Errno.EPIPE))
    else some (.error (.ofNat Errno.EBADF))
  | .waitpid _ => if s.childAlive k then none else some (.ok ())
  | .clone => some (.ok fate.pid)
  -- The first process of a pid namespace.
  | .getpid => some (.ok (1 : Pid))
  | .pipe _ | .closeOnExec _ | .close _ | .writeTextFile _ | .kill _ | .setgid | .setuid | .sethostname _
  | .filesystemIsolateRootfs _ | .remountProc | .networkSetupLoopback | .resourceApplyLimits _ | .setpgid
  | .execvp _ => some (.ok ())

/-- The kernel's answer; nothing if the call blocks, or is made again. -/
def reply (s : System) (k : Nat) (who : Party) (fate : Fate) (c : Call) : Option c.Answer :=
  match c, fate.fail with
  | c, none => s.succeed k who fate c
  -- A descriptor is gone even if `close` reports an error.
  | .close fd, some _ => s.succeed k who fate (.close fd)
  | .read _ _, some error => if error = .ofNat Errno.EINTR then none else some (.error error)
  | _, some error => some (.error error)

/-- What an answered call has done to the pipes. -/
def pour (d : Done) (pipes : Pipe → List UInt8) (pipe : Pipe) : List UInt8 :=
  (pipes pipe).drop (d.taken pipe).length ++ d.sent pipe

/-- What it has done to the descriptor table of its process. -/
def retable (k : Nat) : Done → List Held → List Held
  | ⟨.pipe pipe, .ok _⟩, fds => fds ++ [⟨k, ⟨pipe, .reading⟩, false⟩, ⟨k, ⟨pipe, .writing⟩, false⟩]
  | ⟨.closeOnExec fd, .ok _⟩, fds =>
    fds.map fun held => if held.start = k ∧ held.fd = fd then { held with closeOnExec := true } else held
  | ⟨.close fd, _⟩, fds => fds.filter fun held => ¬ (held.start = k ∧ held.fd = fd)
  | _, fds => fds

/-- What a call of the manager has done to the child; a new one has a copy of the manager's table. -/
def rechild (config : NamespaceConfig) (fds : List Held) : Done → Option Child → Option Child
  | ⟨.clone, .ok _⟩, _ => some ⟨.running (namespaceChild config), fds⟩
  | ⟨.kill _, .ok _⟩, child => child.map fun _ => .gone
  | _, child => child

/-- Where a call leaves the child that has made it. -/
def restage (code : Code Nat) : Done → List Held → Child
  | ⟨.execvp _, .ok _⟩, fds => ⟨.executed, fds.filter fun held => ¬ held.closeOnExec⟩
  | _, fds => ⟨.running code, fds⟩

def change (s : System) (k : Nat) (f : Start → Start) : System :=
  { s with starts := Function.update s.starts k ((s.starts k).map f) }

def childGone (s : System) (k : Nat) : System :=
  s.change k fun start => { start with child := start.child.map fun _ => .gone }

def record (s : System) (event : Event) : System := { s with trace := s.trace ++ [event] }

/-- The manager has made a call. -/
def parentMade (s : System) (k : Nat) (d : Done) (code : Code (Except Int32 NamespaceStartResult)) : System :=
  { s with fds := retable k d s.fds }.change k (fun start =>
    { start with
      code := code
      pipes := pour d start.pipes
      child := rechild start.config s.fds d start.child }) |>.record ⟨k, .parent, d⟩

/-- A child has made a call. -/
def childMade (s : System) (k : Nat) (d : Done) (code : Code Nat) : System :=
  s.change k (fun start =>
    { start with
      pipes := pour d start.pipes
      child := start.child.map fun child => restage code d (retable k d child.fds) }) |>.record ⟨k, .child, d⟩

/-! ## Turns -/

def begun (s : System) (config : NamespaceConfig) : System :=
  { s with
    count := s.count + 1
    starts := Function.update s.starts s.count (some ⟨config, namespaceStartContainer config, fun _ => [], none⟩) }

/-- The manager is between two starts. -/
def idle (s : System) : Bool :=
  match s.starts (s.count - 1) with
  | some ⟨_, .call _ _, _, _⟩ => false
  | some ⟨_, .ret _, _, _⟩ | none => true

def parentTurn (s : System) (fate : Fate) : System :=
  let k := s.count - 1
  match s.starts k with
  | some ⟨_, .call c next, _, _⟩ =>
    match s.reply k .parent fate c with
    | some answer => s.parentMade k ⟨c, answer⟩ (next answer)
    | none => s
  | some ⟨_, .ret _, _, _⟩ | none => s

def childTurn (s : System) (k : Nat) (fate : Fate) : System :=
  match s.child k with
  | some ⟨.running (.call c next), _⟩ =>
    match s.reply k .child fate c with
    | some answer => s.childMade k ⟨c, answer⟩ (next answer)
    | none => s
  | some ⟨.running (.ret _), _⟩ => s.childGone k
  | some ⟨.executed, _⟩ | some ⟨.dead, _⟩ | none => s

def step (s : System) : Turn → System
  | .start config => if s.up ∧ s.idle then s.begun config else s
  | .parent fate => if s.up then s.parentTurn fate else s
  | .child k fate => s.childTurn k fate
  | .childDies k => s.childGone k
  | .parentDies => { s with up := false, fds := [] }

def run (s : System) (turns : List Turn) : System := turns.foldl step s

end System

end ContainerRuntime.Namespace
