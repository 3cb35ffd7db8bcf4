import ContainerRuntime.Filesystem.Prepare
import ContainerRuntime.Logic.ShellWords

/-! The command that `copy_binary_dependencies` hands to `popen`.

The path of the binary is put behind `ldd ` as it is, and `popen` gives the text
to the shell. For a workload the path is what `realpath` has returned, so it
begins with the working directory of the manager, whatever that is called.
-/

set_option autoImplicit false

namespace ContainerRuntime.Filesystem

open CString Program

/-- `snprintf(command, PATH_MAX + 16, "ldd %s", binary_path)`. -/
def lddCommand (binaryPath : Text) : Except Errno Text :=
  if pathMax + 16 ≤ (lit "ldd " ++ binaryPath).length then .error Errno.ENAMETOOLONG else .ok (lit "ldd " ++ binaryPath)

/-- What `realpath` can return: the location of an entry, shorter than its buffer. -/
structure RealPath where
  loc : Loc
  proper : ∀ name ∈ loc, Proper name ∧ nul ∉ name
  short : (Loc.text loc).length < pathMax

def RealPath.text (path : RealPath) : Text := Loc.text path.loc

/-- The shell runs `ldd` on this path. -/
def ReadWhole (path : Text) : Prop :=
  ∃ command, lddCommand path = .ok command ∧ Shell.readCommand command = some [lit "ldd", path]

/-- No character of the path means anything to the shell. -/
def ShellPlain (path : Text) : Prop :=
  (∀ c ∈ path, Shell.isSpecial c = false) ∧ Shell.patterned (Shell.plainly path) = false

/-- The source makes this command of the path, or stops in front of `popen`. -/
theorem copyBinaryDependencies_command (setting : Setting) (rootfs binaryPath : Text) :
    copyBinaryDependencies setting rootfs binaryPath =
      match lddCommand binaryPath with
      | .error error => throw error
      | .ok _ => (do
        let output ← popenLdd setting binaryPath
        eachOf (copyDependency setting rootfs) (fgetsAll (pathMax * 2) output)
        close) := by
  unfold copyBinaryDependencies lddCommand
  split <;> rfl

theorem absolute_text (loc : Loc) : ∃ rest, Loc.text loc = slash :: rest := by
  cases loc with
  | nil => exact ⟨[], rfl⟩
  | cons name rest => exact ⟨name ++ rest.flatMap (slash :: ·), rfl⟩

/-- A path that `realpath` returns fits. -/
theorem RealPath.command (path : RealPath) : lddCommand path.text = .ok (lit "ldd " ++ path.text) := by
  have four : (lit "ldd ").length = 4 := by decide
  have short := path.short
  unfold lddCommand
  rw [if_neg]
  rw [List.length_append, four]
  unfold RealPath.text
  omega

/-- The model of `realpath` returns such paths, the NUL apart, which no name has. -/
theorem realpath_returns {path : Text} {m after : Machine} {loc : Loc}
    (found : realpath path m = (.done (.ok loc), after)) :
    (∀ name ∈ loc, Proper name) ∧ (Loc.text loc).length < pathMax := by
  simp only [realpath, syscall, Machine.entry] at found
  split at found
  · cases found
  split at found
  · cases found
  rename_i answered
  cases found
  split at answered
  · cases answered
  rename_i looked
  split at answered
  · cases answered
  rename_i short
  cases answered
  split at looked
  · cases looked
  · cases looked
  split at looked
  · rename_i here
    cases looked
    exact ⟨Tree.proper_of_mem (by rw [here]; simp), Nat.lt_of_not_le short⟩
  · cases looked

/-- The command is read as `ldd` and the path, and nothing else, exactly for the paths that no character of which
means anything to the shell. -/
theorem readWhole_iff (path : RealPath) : ReadWhole path.text ↔ ShellPlain path.text := by
  obtain ⟨rest, begins⟩ := absolute_text path.loc
  have named : Shell.Reader.start.run (lit "ldd" ++ [' ']) = some ⟨.free, none, [Shell.plainly (lit "ldd")]⟩ := rfl
  have reads : Shell.readCommand (lit "ldd " ++ path.text) = some [lit "ldd", path.text] ↔ ShellPlain path.text :=
    Shell.readCommand_two_iff named ⟨by decide, by decide⟩ begins (by decide) (by decide)
  unfold ReadWhole
  rw [path.command, ← reads]
  simp

/-- The workload of a manager that runs in a directory with a blank in its name. -/
def blankPath : RealPath where
  loc := [lit "home", lit "my dir", lit "bin", lit "workload-cpu"]
  proper := by decide
  short := by decide

theorem blankPath_split : ¬ ReadWhole blankPath.text ∧
    Shell.readCommand (lit "ldd " ++ blankPath.text) = some [lit "ldd", lit "/home/my", lit "dir/bin/workload-cpu"] := by
  have read : Shell.readCommand (lit "ldd " ++ blankPath.text) =
      some [lit "ldd", lit "/home/my", lit "dir/bin/workload-cpu"] := by decide +kernel
  refine ⟨?_, read⟩
  rintro ⟨command, made, whole⟩
  cases made.symm.trans blankPath.command
  cases read.symm.trans whole

end ContainerRuntime.Filesystem
