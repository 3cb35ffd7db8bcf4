import ContainerRuntime.Filesystem.Tree
import ContainerRuntime.CString.Lines
import ContainerRuntime.Logic.Program

/-! The operations of `filesystem.c` that prepare a rootfs, call by call.

Every system call can fail at will, and each change it makes to the tree is
written down with the path it was given. What `ldd` prints is a parameter. A
recursion of the source that may go on for ever has a bound here, and the
program is cut when it is reached.
-/

set_option autoImplicit false

namespace ContainerRuntime.Filesystem

open CString Program

/-- A change to the tree. -/
structure Touch where
  /-- The directory that is being populated, once `realpath` has found it. -/
  rootfs : Option Loc
  /-- The tree in front of the call. -/
  tree : Tree
  path : Text
  /-- The call follows a link in the last place. -/
  last : Bool
  loc : Loc

/-- What a call of the source meets: success, or an error after a part of its work. -/
structure Fault where
  fail : Option Errno
  written : Nat

structure Machine where
  tree : Tree
  cwd : Loc
  faults : Nat → Fault
  clock : Nat
  rootfs : Option Loc
  trace : List Touch

namespace Machine

def later (m : Machine) : Machine := { m with clock := m.clock + 1 }

/-- The entry that a path leads to. -/
def entry (m : Machine) (last : Bool) (path : Text) : Except Errno (Loc × Node) :=
  match resolve m.tree m.cwd last path with
  | .error error => .error error
  | .ok (.missing _) => .error Errno.ENOENT
  | .ok (.there loc) =>
    match m.tree.node loc with
    | some node => .ok (loc, node)
    | none => .error Errno.ENOENT

def touch (m : Machine) (last : Bool) (path : Text) (loc : Loc) : Touch := ⟨m.rootfs, m.tree, path, last, loc⟩

/-- A call has put an entry at `loc`. -/
def touched (m : Machine) (touch : Touch) (entry : Option Node) : Machine :=
  { m with tree := m.tree.set touch.loc entry, trace := m.trace ++ [touch] }

/-- A new entry at the end of the path. -/
def added (m : Machine) (path : Text) (node : Node) : Except Errno (Machine × Unit) :=
  match resolve m.tree m.cwd false path with
  | .error error => .error error
  | .ok (.there _) => .error Errno.EEXIST
  | .ok (.missing loc) => .ok (m.touched (m.touch false path loc) (some node), ())

def unlinked (m : Machine) (path : Text) : Except Errno (Machine × Unit) :=
  match m.entry false path with
  | .error error => .error error
  | .ok (_, .dir) => .error Errno.EISDIR
  | .ok (loc, _) => .ok (m.touched (m.touch false path loc) none, ())

/-- The file is empty and open for writing. -/
def truncated (m : Machine) (path : Text) (mode : Nat) : Except Errno (Machine × Touch) :=
  match resolve m.tree m.cwd true path with
  | .error error => .error error
  | .ok spot =>
    let touch := m.touch true path spot.loc
    match m.tree.node spot.loc with
    | some .dir => .error Errno.EISDIR
    | some (.link _) => .error Errno.ELOOP
    | some .special => .ok (m.touched touch (some .special), touch)
    | some (.file kept _) => .ok (m.touched touch (some (.file kept [])), touch)
    | none => .ok (m.touched touch (some (.file mode [])), touch)

/-- This much has been written to an open file. -/
def written (m : Machine) (touch : Touch) (content : Text) : Machine :=
  match m.tree.node touch.loc with
  | some (.file mode _) => m.touched touch (some (.file mode content))
  | _ => m.touched touch (m.tree.node touch.loc)

end Machine

/-! ## System calls -/

abbrev Sys := ExceptT Errno (Prog Machine)

/-- One call: it fails, or it has its effect. -/
def syscall {α : Type} (effect : Machine → Except Errno (Machine × α)) : Sys α := fun m =>
  match (m.faults m.clock).fail with
  | some error => (.done (.error error), m.later)
  | none =>
    match effect m.later with
    | .error error => (.done (.error error), m.later)
    | .ok (after, value) => (.done (.ok value), after)

/-- The recursion has gone on for too long to be followed. -/
def diverge {α : Type} : Sys α := fun m => (.cut, m)

/-- The result of a call, which the source looks at. -/
def attempt {α : Type} (p : Sys α) : Sys (Except Errno α) := fun m =>
  match p m with
  | (.done result, after) => (.done (.ok result), after)
  | (.cut, after) => (.cut, after)

def ofResult {α : Type} (result : Except Errno α) : Sys α := fun m => (.done result, m)

/-- The body for every element, up to the first error. -/
def eachOf {α : Type} (body : α → Sys Unit) : List α → Sys Unit
  | [] => pure ()
  | first :: rest => do
    body first
    eachOf body rest

def stat (path : Text) : Sys (Loc × Node) := syscall fun m => (m.entry true path).map fun found => (m, found)

def lstat (path : Text) : Sys (Loc × Node) := syscall fun m => (m.entry false path).map fun found => (m, found)

/-- `PATH_MAX`. -/
def pathMax : Nat := 4096

/-- `readlink` into `char[PATH_MAX]`. -/
def readlink (path : Text) : Sys Text := syscall fun m =>
  match m.entry false path with
  | .error error => .error error
  | .ok (_, .link target) => .ok (m, target.take (pathMax - 1))
  | .ok _ => .error Errno.EINVAL

def realpath (path : Text) : Sys Loc := syscall fun m =>
  match m.entry true path with
  | .error error => .error error
  | .ok (loc, _) => if pathMax ≤ (Loc.text loc).length then .error Errno.ENAMETOOLONG else .ok (m, loc)

def mkdir (path : Text) : Sys Unit := syscall fun m => m.added path .dir

def symlink (target path : Text) : Sys Unit := syscall fun m => m.added path (.link target)

def unlink (path : Text) : Sys Unit := syscall fun m => m.unlinked path

/-- `open(path, O_RDONLY)`. -/
def openRead (path : Text) : Sys Loc := syscall fun m => (m.entry true path).map fun found => (m, found.1)

/-- `open(path, O_WRONLY | O_CREAT | O_TRUNC, mode)`. -/
def openTruncated (path : Text) (mode : Nat) : Sys Touch := syscall fun m => m.truncated path mode

def close : Sys Unit := syscall fun m => .ok (m, ())

/-- `copy_file_contents`: what it has read and written when it fails is the oracle's. -/
def copyFileContents (source : Loc) (target : Touch) : Sys Unit := fun m =>
  match m.tree.node source with
  | some (.file _ content) =>
    match (m.faults m.clock).fail with
    | some error => (.done (.error error), m.later.written target (content.take (m.faults m.clock).written))
    | none => (.done (.ok ()), m.later.written target content)
  | _ => (.done (.error Errno.EISDIR), m.later)

/-! ## Directories -/

def ensureDirectory : Nat → Text → Sys Unit
  | 0, _ => diverge
  | rounds + 1, path => do
    match ← attempt (stat path) with
    | .ok (_, .dir) => pure ()
    | .ok _ => throw Errno.ENOTDIR
    | .error _ =>
      match ← attempt (mkdir path) with
      | .ok _ => pure ()
      -- A link to nowhere is found by `mkdir` and not by `stat`, time and again.
      | .error error => if error = Errno.EEXIST then ensureDirectory rounds path else throw error

/-- The texts in front of a slash, `done` being in front of all of them. -/
def cutsFrom (done : Text) : Text → List Text
  | [] => []
  | c :: rest => if c = slash then done :: cutsFrom (done ++ [c]) rest else cutsFrom (done ++ [c]) rest

/-- What the loop of `mkdir_p` makes of its buffer, from the second character on. -/
def cuts (buffer : Text) : List Text := cutsFrom (buffer.take 1) (buffer.drop 1)

def stripSlash (path : Text) : Text :=
  if 1 < path.length ∧ path.getLast? = some slash then path.dropLast else path

def mkdirP (rounds : Nat) (path : Text) : Sys Unit :=
  if path = [] then throw Errno.EINVAL
  else if pathMax ≤ path.length then throw Errno.ENAMETOOLONG
  else do
    let buffer := stripSlash path
    eachOf (ensureDirectory rounds) (cuts buffer)
    ensureDirectory rounds buffer

def layoutDirs : List Text :=
  [lit "bin", lit "lib", lit "lib64", lit "usr", lit "usr/bin", lit "usr/lib", lit "usr/lib64", lit "proc", lit "tmp",
    lit "dev", lit ".old_root"]

def createLayout (rounds : Nat) (rootfs : Text) : Sys Unit :=
  eachOf (fun dir => do
    let path := rootfs ++ [slash] ++ dir
    if pathMax ≤ path.length then throw Errno.ENAMETOOLONG
    mkdirP rounds path) layoutDirs

/-! ## Copies -/

def Node.mode : Node → Nat
  | .file mode _ => mode
  | _ => 0

def copyRegularFile (src dst : Text) : Sys Unit := do
  let (_, node) ← stat src
  let source ← openRead src
  let target ← openTruncated dst (node.mode &&& 0o777)
  copyFileContents source target
  close
  close

def copySymlink (src dst : Text) : Sys Unit := do
  let target ← readlink src
  match ← attempt (unlink dst) with
  | .ok _ => symlink target dst
  | .error error => if error = Errno.ENOENT then symlink target dst else throw error

/-- `path_dirname` into `char[PATH_MAX]`: what stands in front of the last slash. -/
def pathDirname (path : Text) : Except Errno Text :=
  match path.reverse.dropWhile (· ≠ slash) with
  | [] => .error Errno.EINVAL
  | _ :: front =>
    let parent := if front = [] then [slash] else front.reverse
    if pathMax ≤ parent.length then .error Errno.ENAMETOOLONG else .ok parent

def resolveSymlinkTarget (linkPath target : Text) : Except Errno Text :=
  if isAbsolute target then
    if pathMax ≤ target.length then .error Errno.ENAMETOOLONG else .ok target
  else
    match pathDirname linkPath with
    | .error error => .error error
    | .ok parent =>
      let resolved := parent ++ (if parent = [slash] then [] else [slash]) ++ target
      if pathMax ≤ resolved.length then .error Errno.ENAMETOOLONG else .ok resolved

def copyPathIntoRootfs (rounds : Nat) (rootfs : Text) : Nat → Text → Sys Unit
  | 0, _ => diverge
  | hops + 1, hostPath =>
    if isAbsolute hostPath = false then throw Errno.EINVAL
    else if pathMax ≤ (rootfs ++ hostPath).length then throw Errno.ENAMETOOLONG
    else do
      let destination := rootfs ++ hostPath
      let destinationDir ← ofResult (pathDirname destination)
      mkdirP rounds destinationDir
      let (_, node) ← lstat hostPath
      match node with
      | .link _ =>
        let target ← readlink hostPath
        copySymlink hostPath destination
        let resolved ← ofResult (resolveSymlinkTarget hostPath target)
        copyPathIntoRootfs rounds rootfs hops resolved
      | .file _ _ => copyRegularFile hostPath destination
      | _ => throw Errno.EINVAL

/-! ## Binaries and their libraries -/

def copyHostBinaryToContainerPath (rounds : Nat) (rootfs hostBinary containerPath : Text) : Sys Unit := do
  let (_, node) ← lstat hostBinary
  match node with
  | .file _ _ =>
    let destination := rootfs ++ containerPath
    if pathMax ≤ destination.length then throw Errno.ENAMETOOLONG
    let destinationDir ← ofResult (pathDirname destination)
    mkdirP rounds destinationDir
    copyRegularFile hostBinary destination
  | _ => throw Errno.EINVAL

def parseLddDependency (line : Text) : Except Errno Text :=
  if (strstr (lit "=> not found") line).isSome then .error Errno.ENOENT
  else
    let start := match strstr (lit "=> ") line with
      | some found => (found.drop 3).dropWhile (· = ' ')
      | none => line.dropWhile fun c => c = ' ' ∨ c = '\t'
    if isAbsolute start = false then .error Errno.EINVAL
    else
      let path := start.takeWhile fun c => c ≠ ' ' ∧ c ≠ '\t' ∧ c ≠ newline
      if path = [] ∨ pathMax ≤ path.length then .error Errno.ENAMETOOLONG else .ok path

/-- The bounds on the recursions, and what `ldd` prints for a binary. -/
structure Setting where
  rounds : Nat
  hops : Nat
  ldd : Tree → Text → Text

/-- `popen` of `ldd`. -/
def popenLdd (setting : Setting) (binaryPath : Text) : Sys Text :=
  syscall fun m => .ok (m, setting.ldd m.tree binaryPath)

def copyDependency (setting : Setting) (rootfs line : Text) : Sys Unit :=
  match parseLddDependency line with
  | .ok dependency => copyPathIntoRootfs setting.rounds rootfs setting.hops dependency
  | .error error => if error = Errno.EINVAL then pure () else throw error

def copyBinaryDependencies (setting : Setting) (rootfs binaryPath : Text) : Sys Unit :=
  if pathMax + 16 ≤ (lit "ldd " ++ binaryPath).length then throw Errno.ENAMETOOLONG
  else do
    let output ← popenLdd setting binaryPath
    eachOf (copyDependency setting rootfs) (fgetsAll (pathMax * 2) output)
    close

def bootstrapBinaries : List Text :=
  [lit "/bin/sh", lit "/bin/echo", lit "/bin/hostname", lit "/bin/ps", lit "/bin/sleep"]

def bootstrapRootfsTools (setting : Setting) (rootfs : Text) : Sys Unit :=
  eachOf (fun binary => do
    copyPathIntoRootfs setting.rounds rootfs setting.hops binary
    copyBinaryDependencies setting rootfs binary) bootstrapBinaries

/-- `host_relative` and `container_path`. -/
def bootstrapWorkloads : List (Text × Text) :=
  [(lit "./bin/workload-cpu", lit "/bin/workload-cpu"), (lit "./bin/workload-mem", lit "/bin/workload-mem"),
    (lit "./bin/workload-fork", lit "/bin/workload-fork"), (lit "./bin/workload-netcheck", lit "/bin/workload-netcheck")]

def bootstrapRootfsWorkloads (setting : Setting) (rootfs : Text) : Sys Unit :=
  eachOf (fun workload => do
    match ← attempt (realpath workload.1) with
    | .error error => if error = Errno.ENOENT then pure () else throw error
    | .ok host =>
      copyHostBinaryToContainerPath setting.rounds rootfs (Loc.text host) workload.2
      copyBinaryDependencies setting rootfs (Loc.text host)) bootstrapWorkloads

/-- From here on the changes are those that populate the rootfs. -/
def populating (root : Loc) : Sys Unit := fun m => (.done (.ok ()), { m with rootfs := some root })

/-- The path for `resolved_rootfs`, a buffer of this size. -/
def filesystemPrepareRootfs (setting : Setting) (requestedRootfs : Text) (size : Nat) : Sys Text :=
  if requestedRootfs = [] ∨ size = 0 then throw Errno.EINVAL
  else do
    mkdirP setting.rounds requestedRootfs
    let root ← realpath requestedRootfs
    populating root
    let absoluteRootfs := Loc.text root
    createLayout setting.rounds absoluteRootfs
    bootstrapRootfsTools setting absoluteRootfs
    bootstrapRootfsWorkloads setting absoluteRootfs
    if size ≤ absoluteRootfs.length then throw Errno.ENAMETOOLONG
    pure absoluteRootfs

end ContainerRuntime.Filesystem
