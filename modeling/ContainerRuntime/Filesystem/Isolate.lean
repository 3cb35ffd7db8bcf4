import ContainerRuntime.Filesystem.Prepare
import ContainerRuntime.Filesystem.Rooted
import ContainerRuntime.Logic.Failing

/-! How `filesystem_isolate_rootfs` gives a process another root, call by call.

The process sees one tree, from its root on. Mounts change what a directory of
that tree shows; those that are there already are part of it. Every call can fail
at will. What a proc file system shows is a parameter, and so is the test whether
a directory is empty.
-/

set_option autoImplicit false

namespace ContainerRuntime

def Errno.ENOTEMPTY : Errno := 39

namespace Filesystem

open CString Program

/-! ## Mounts -/

structure Mount where
  point : Loc
  /-- What stood below the point; nothing where a directory is mounted on itself. -/
  covered : Option Tree

/-- The mounts of a namespace, the latest one first. -/
abbrev Mounts := List Mount

namespace Mounts

/-- The mount that shows at a location. -/
def top (mounts : Mounts) (loc : Loc) : Option Mount := mounts.find? (·.point = loc)

/-- What is mounted in what a location shows. -/
def inside (mounts : Mounts) (loc : Loc) : Mounts := (mounts.takeWhile (·.point ≠ loc)).filter (loc <+: ·.point)

/-- What is left when the mount at a location is taken away, with all that is mounted in it. -/
def outside (mounts : Mounts) (loc : Loc) : Mounts :=
  (mounts.takeWhile (·.point ≠ loc)).filter (¬ loc <+: ·.point) ++ (mounts.dropWhile (·.point ≠ loc)).tail

/-- The same mounts, in a tree that stands at `loc` now. -/
def under (mounts : Mounts) (loc : Loc) : Mounts := mounts.map fun m => { m with point := loc ++ m.point }

/-- The same mounts, in a tree whose root is now the location. -/
def from_ (mounts : Mounts) (loc : Loc) : Mounts := mounts.map fun m => { m with point := m.point.drop loc.length }

end Mounts

/-- The tree without the mount. -/
def Mount.lifted (mount : Mount) (tree : Tree) : Tree :=
  match mount.covered with
  | none => tree
  | some covered => tree.graft mount.point covered

/-! ## The process -/

inductive RootCall where
  | makePrivate | bindMount | chdir (path : Text) | pivotRoot | umount2 | rmdir | chroot | mountProc
  deriving DecidableEq

/-- A call that has returned, and its error. -/
structure Returned where
  call : RootCall
  error : Option Errno
  deriving DecidableEq

structure Process where
  machine : Machine
  root : Loc
  mounts : Mounts
  log : List Returned

namespace Process

def later (s : Process) : Process := { s with machine := s.machine.later }

def failed (s : Process) (call : RootCall) (error : Errno) : Process := { s with log := s.log ++ [⟨call, some error⟩] }

def withTree (s : Process) (tree : Tree) : Process := { s with machine := { s.machine with tree } }

def withCwd (s : Process) (cwd : Loc) : Process := { s with machine := { s.machine with cwd } }

def resolve (s : Process) (last : Bool) (path : Text) : Except Errno Spot :=
  resolveFrom s.machine.tree s.root s.machine.cwd last path

def entry (s : Process) (last : Bool) (path : Text) : Except Errno (Loc × Node) :=
  match s.resolve last path with
  | .error error => .error error
  | .ok (.missing _) => .error Errno.ENOENT
  | .ok (.there loc) =>
    match s.machine.tree.node loc with
    | some node => .ok (loc, node)
    | none => .error Errno.ENOENT

def directory (s : Process) (path : Text) : Except Errno Loc :=
  match s.entry true path with
  | .error error => .error error
  | .ok (loc, .dir) => .ok loc
  | .ok _ => .error Errno.ENOTDIR

/-- `mount(path, path, NULL, MS_BIND | MS_REC, NULL)`. -/
def boundOnItself (s : Process) (path : Text) : Except Errno Process :=
  match s.entry true path with
  | .error error => .error error
  | .ok (loc, _) => .ok { s with mounts := s.mounts.inside loc ++ ⟨loc, none⟩ :: s.mounts }

def movedTo (s : Process) (path : Text) : Except Errno Process :=
  match s.directory path with
  | .error error => .error error
  | .ok loc => .ok (s.withCwd loc)

/-- `pivot_root(".", put_old)`: the mount at the working directory becomes the root, and the old root is mounted in it. -/
def pivoted (s : Process) (putOld : Text) : Except Errno Process :=
  match s.directory putOld, s.mounts.top s.machine.cwd with
  | .error error, _ => .error error
  | .ok _, none => .error Errno.EINVAL
  | .ok loc, some mount =>
    if s.root ≠ [] ∨ ¬ s.machine.cwd <+: loc then .error Errno.EINVAL
    else
      let point := loc.drop s.machine.cwd.length
      let new := s.machine.tree.below s.machine.cwd
      let inner := (s.mounts.inside s.machine.cwd).from_ s.machine.cwd
      let mounts := (((s.mounts.outside s.machine.cwd).inside []).under point) ++ ⟨point, some (new.below point)⟩ :: inner
      -- On the new root itself, the old one lies over the root of this process, and out of its sight.
      if point = [] then .ok { (s.withTree new).withCwd [] with mounts := ⟨[], some new⟩ :: inner }
      else .ok { (s.withTree (new.graft point (mount.lifted s.machine.tree))).withCwd [] with mounts }

/-- `umount2(path, MNT_DETACH)`. -/
def detached (s : Process) (path : Text) : Except Errno Process :=
  match s.entry true path with
  | .error error => .error error
  | .ok (loc, _) =>
    match s.mounts.top loc with
    | none => .error Errno.EINVAL
    | some mount => .ok { s.withTree (mount.lifted s.machine.tree) with mounts := s.mounts.outside loc }

/-- `chroot(".")`. -/
def rooted (s : Process) : Except Errno Process := .ok { s with root := s.machine.cwd }

/-- `rmdir(path)`. -/
def removed [∀ (tree : Tree) (loc : Loc), Decidable (tree.Empty loc)] (s : Process) (path : Text) :
    Except Errno Process :=
  match s.entry false path with
  | .error error => .error error
  | .ok (loc, .dir) =>
    if inner : loc = [] ∨ (s.mounts.top loc).isSome then .error Errno.EBUSY
    else if empty : s.machine.tree.Empty loc then
      .ok (s.withTree (s.machine.tree.removed loc (fun same => inner (.inl same)) empty))
    else .error Errno.ENOTEMPTY
  | .ok _ => .error Errno.ENOTDIR

/-- A proc file system is mounted at a path. -/
def showing (s : Process) (proc : Tree) (path : Text) : Except Errno Process :=
  match s.directory path with
  | .error error => .error error
  | .ok loc =>
    .ok { s.withTree (s.machine.tree.graft loc proc) with mounts := ⟨loc, some (s.machine.tree.below loc)⟩ :: s.mounts }

end Process

/-! ## System calls -/

abbrev Isolating := ExceptT Errno (Prog Process)

def call (call : RootCall) (effect : Process → Except Errno Process) : Isolating Unit := fun s =>
  match (s.machine.faults s.machine.clock).fail with
  | some error => (.done (.error error), s.later.failed call error)
  | none =>
    match effect s.later with
    | .error error => (.done (.error error), s.later.failed call error)
    | .ok after => (.done (.ok ()), { after with log := s.log ++ [⟨call, none⟩] })

/-- Calls of the process while its root is the root of the tree. -/
def within {α : Type} (p : Sys α) : Isolating α := fun s =>
  ((p s.machine).1, { s with machine := (p s.machine).2 })

def refuse (error : Errno) : Isolating Unit := fun s => (.done (.error error), s)

/-- `mount(NULL, "/", NULL, MS_REC | MS_PRIVATE, NULL)`: it changes what other namespaces see of later mounts. -/
def makePrivate : Isolating Unit := call .makePrivate .ok

def bindMount (path : Text) : Isolating Unit := call .bindMount (·.boundOnItself path)

def chdir (path : Text) : Isolating Unit := call (.chdir path) (·.movedTo path)

def pivotRoot (putOld : Text) : Isolating Unit := call .pivotRoot (·.pivoted putOld)

def umount2 (path : Text) : Isolating Unit := call .umount2 (·.detached path)

def chroot : Isolating Unit := call .chroot (·.rooted)

def mountProc (proc : Tree) : Isolating Unit := call .mountProc (·.showing proc (lit "/proc"))

section

variable [∀ (tree : Tree) (loc : Loc), Decidable (tree.Empty loc)]

def rmdir (path : Text) : Isolating Unit := call .rmdir (·.removed path)

/-! ## The operations of the source -/

/-- `OLD_ROOT_DIR`. -/
def oldRootDir : Name := lit ".old_root"

def pathJoin (bufferSize : Nat) (left right : Text) : Except Errno Text :=
  let joined := left ++ slash :: right
  if bufferSize ≤ joined.length then .error Errno.ENAMETOOLONG else .ok joined

def enterRootWithPivotRoot (rounds : Nat) (rootfs : Text) : Isolating Unit := do
  bindMount rootfs
  match pathJoin pathMax rootfs oldRootDir with
  | .error error => refuse error
  | .ok oldRootPath =>
    within (mkdirP rounds oldRootPath)
    chdir rootfs
    pivotRoot oldRootDir
    chdir (lit "/")
    umount2 (slash :: oldRootDir)
    rmdir (slash :: oldRootDir)

omit [∀ (tree : Tree) (loc : Loc), Decidable (tree.Empty loc)] in
def enterRootWithChroot (rootfs : Text) : Isolating Unit := do
  chdir rootfs
  chroot
  chdir (lit "/")

/-- `filesystem_isolate_rootfs`; a missing configuration has no rootfs, either. -/
def filesystemIsolateRootfs (proc : Tree) (rounds : Nat) (rootfs : Option Text) : Isolating Unit :=
  match rootfs with
  | none | some [] => refuse Errno.EINVAL
  | some rootfs => do
    recover makePrivate fun error => if error = Errno.EPERM then pure () else refuse error
    recover (enterRootWithPivotRoot rounds rootfs) fun error =>
      if error = Errno.EPERM ∨ error = Errno.EINVAL then enterRootWithChroot rootfs else refuse error
    recover (mountProc proc) fun error => if error = Errno.EPERM then pure () else refuse error

end

/-- A process that has made no call yet, at the root of its tree. -/
def Process.start (tree : Tree) (cwd : Loc) (mounts : Mounts) (faults : Nat → Fault) : Process :=
  ⟨⟨tree, cwd, faults, 0, none, []⟩, [], mounts, []⟩

end Filesystem

end ContainerRuntime
