import ContainerRuntime.Filesystem.Reach

/-! How `copy_path_into_rootfs` follows links.

Each call copies one link and calls itself with the text of its target. The calls
are a run of a deterministic system, whose states are the tree and the path. All
paths fit into a buffer, and all changes to the tree are links and directories at
the ends of such paths: the states are finitely many. So the run ends if and only
if none of them comes back.
-/

set_option autoImplicit false

namespace ContainerRuntime.Filesystem

open CString Program

/-! ## One call -/

/-- The directory that the copy of a path stands in. -/
def destinationDir (rootfs hostPath : Text) : Except Errno Text :=
  if isAbsolute hostPath = false then .error Errno.EINVAL
  else if pathMax ≤ (rootfs ++ hostPath).length then .error Errno.ENAMETOOLONG
  else pathDirname (rootfs ++ hostPath)

/-- The tree once nothing is left at the destination of a link. -/
def cleared (tree : Tree) (cwd : Loc) (dst : Text) : Except Errno Tree :=
  match lookup tree cwd false dst with
  | .error error => if error = Errno.ENOENT then .ok tree else .error error
  | .ok (_, .dir) => .error Errno.EISDIR
  | .ok (loc, _) => .ok (tree.set loc none)

/-- What `copy_symlink` makes of the tree. -/
def relinked (tree : Tree) (cwd : Loc) (target dst : Text) : Except Errno Tree :=
  match cleared tree cwd dst with
  | .error error => .error error
  | .ok bare =>
    match resolve bare cwd false dst with
    | .error error => .error error
    | .ok (.there _) => .error Errno.EEXIST
    | .ok (.missing loc) => .ok (bare.set loc (some (.link target)))

/-- What one call of `copy_path_into_rootfs` comes to. -/
inductive Hop where
  /-- A link has been copied, and the next call is about its target. -/
  | on (tree : Tree) (path : Text)
  /-- A regular file is to be copied. -/
  | file (tree : Tree)
  | refused (error : Errno)
  /-- `mkdir_p` does not return. -/
  | stuck

/-- What `lstat` and the code behind it make of a path. -/
def arrival (cwd : Loc) (rootfs : Text) (made : Tree) (path : Text) : Hop :=
  match lookup made cwd false path with
  | .error error => .refused error
  | .ok (_, .link target) =>
    match relinked made cwd (target.take (pathMax - 1)) (rootfs ++ path) with
    | .error error => .refused error
    | .ok after =>
      match resolveSymlinkTarget path (target.take (pathMax - 1)) with
      | .error error => .refused error
      | .ok next => .on after next
  | .ok (_, .file _ _) => .file made
  | .ok _ => .refused Errno.EINVAL

def hop (cwd : Loc) (rootfs : Text) (tree : Tree) (path : Text) : Hop :=
  match destinationDir rootfs path with
  | .error error => .refused error
  | .ok dir =>
    match ensuredAll cwd tree (prefixes dir) with
    | none => .stuck
    | some (.error error, _) => .refused error
    | some (.ok (), made) => arrival cwd rootfs made path

/-- The part of `copy_path_into_rootfs` behind `mkdir_p`. -/
def copyArrived (rounds : Nat) (rootfs : Text) (hops : Nat) (hostPath : Text) : Sys Unit := do
  let (_, node) ← lstat hostPath
  match node with
  | .link _ =>
    let target ← readlink hostPath
    copySymlink hostPath (rootfs ++ hostPath)
    let resolved ← ofResult (resolveSymlinkTarget hostPath target)
    copyPathIntoRootfs rounds rootfs hops resolved
  | .file _ _ => copyRegularFile hostPath (rootfs ++ hostPath)
  | _ => throw Errno.EINVAL

theorem copyPath_eq (rounds : Nat) (rootfs : Text) (hops : Nat) (hostPath : Text) :
    copyPathIntoRootfs rounds rootfs (hops + 1) hostPath = (do
      let dir ← ofResult (destinationDir rootfs hostPath)
      mkdirP rounds dir
      copyArrived rounds rootfs hops hostPath) := by
  unfold destinationDir
  rw [copyPathIntoRootfs]
  split
  · rfl
  split
  · rfl
  · rfl

/-- The program completes, whatever the machine. -/
def Halts {α : Type} (p : Sys α) : Prop := ∀ m, ∃ result m', p m = (.done result, m')

section Calls

variable {α β : Type} {cwd : Loc} {tree middle after : Tree} {error : Errno}

theorem Halts.bind {p : Sys α} {f : α → Sys β} (first : Halts p) (next : ∀ a, Halts (f a)) : Halts (p >>= f : Sys β) := by
  intro m
  obtain ⟨result, m₁, done⟩ := first m
  rw [sys_bind, done]
  cases result with
  | error error => exact ⟨_, m₁, rfl⟩
  | ok a => exact next a m₁

theorem syscall_halts (effect : Machine → Except Errno (Machine × α)) : Halts (Filesystem.syscall effect) := by
  intro m
  unfold Filesystem.syscall
  cases (m.faults m.clock).fail with
  | some error => exact ⟨_, _, rfl⟩
  | none => cases effect m.later <;> exact ⟨_, _, rfl⟩

theorem copyFileContents_halts (source : Loc) (target : Touch) : Halts (copyFileContents source target) := by
  intro m
  unfold copyFileContents
  split
  · split <;> exact ⟨_, _, rfl⟩
  · exact ⟨_, _, rfl⟩

theorem copyRegularFile_halts (src dst : Text) : Halts (copyRegularFile src dst) := by
  apply (syscall_halts _).bind
  intro found
  apply (syscall_halts _).bind
  intro source
  apply (syscall_halts _).bind
  intro target
  apply (copyFileContents_halts source target).bind
  intro _
  exact (syscall_halts _).bind fun _ => syscall_halts _

theorem yields_ofResult (result : Except Errno α) : Yields cwd (ofResult result) tree result tree := fun m calm => ⟨m, rfl, calm⟩

theorem yields_readlink {path target : Text} {loc : Loc} (looked : lookup tree cwd false path = .ok (loc, .link target)) :
    Yields cwd (readlink path) tree (.ok (target.take (pathMax - 1))) tree := by
  apply Yields.syscall
  intro m calm
  rw [calm.entry, looked]
  exact ⟨m, rfl, calm⟩

/-- An entry that is no directory is taken away. -/
theorem Machine.Calm.unlinked {m : Machine} {path : Text} {loc : Loc} {node : Node} (calm : m.Calm tree cwd)
    (looked : lookup tree cwd false path = .ok (loc, node)) (plain : node ≠ .dir) :
    ∃ m', m.unlinked path = .ok (m', ()) ∧ m'.Calm (tree.set loc none) cwd := by
  have entry := calm.entry false path
  obtain ⟨rfl, rfl, quiet⟩ := calm
  refine ⟨m.touched (m.touch false path loc) none, ?_, rfl, rfl, quiet⟩
  rw [Machine.unlinked, entry, looked]
  cases node with
  | dir => exact absurd rfl plain
  | file | link | special => rfl

theorem Machine.Calm.unlinked_error {m : Machine} {path : Text} (calm : m.Calm tree cwd)
    (looked : lookup tree cwd false path = .error error) : m.unlinked path = .error error := by
  rw [Machine.unlinked, calm.entry, looked]

theorem Machine.Calm.unlinked_dir {m : Machine} {path : Text} {loc : Loc} (calm : m.Calm tree cwd)
    (looked : lookup tree cwd false path = .ok (loc, .dir)) : m.unlinked path = .error Errno.EISDIR := by
  rw [Machine.unlinked, calm.entry, looked]

theorem copySymlink_yields {src dst target : Text} {loc : Loc} {bare : Tree} {result : Except Errno Unit}
    (looked : lookup tree cwd false src = .ok (loc, .link target)) (free : cleared tree cwd dst = .ok bare)
    (linked : Yields cwd (symlink (target.take (pathMax - 1)) dst) bare result after) :
    Yields cwd (copySymlink src dst) tree result after := by
  apply (yields_readlink looked).bind
  unfold cleared at free
  split at free
  · rename_i error absent
    split at free
    · rename_i same
      cases free
      have refused : Yields cwd (unlink dst) tree (.error error) tree := .syscall_error fun m calm => calm.unlinked_error absent
      apply refused.attempt.bind
      simp only [if_pos same]
      exact linked
    · cases free
  · cases free
  · rename_i spot node plain there
    cases free
    have removed : Yields cwd (unlink dst) tree (.ok ()) (tree.set spot none) := .syscall fun m calm => calm.unlinked there plain
    exact removed.attempt.bind linked

theorem copySymlink_barred {src dst target : Text} {loc : Loc} (looked : lookup tree cwd false src = .ok (loc, .link target))
    (barred : cleared tree cwd dst = .error error) : Yields cwd (copySymlink src dst) tree (.error error) tree := by
  apply (yields_readlink looked).bind
  unfold cleared at barred
  split at barred
  · rename_i other absent
    split at barred
    · cases barred
    · rename_i new
      cases barred
      have refused : Yields cwd (unlink dst) tree (.error error) tree := .syscall_error fun m calm => calm.unlinked_error absent
      apply refused.attempt.bind
      simp only [if_neg new]
      exact .throw error
  · rename_i spot there
    cases barred
    have refused : Yields cwd (unlink dst) tree (.error Errno.EISDIR) tree :=
      .syscall_error fun m calm => calm.unlinked_dir there
    apply refused.attempt.bind
    have new : Errno.EISDIR ≠ Errno.ENOENT := by decide
    simp only [if_neg new]
    exact .throw Errno.EISDIR
  · cases barred

theorem copySymlink_ok {src dst target : Text} {loc : Loc} (looked : lookup tree cwd false src = .ok (loc, .link target))
    (copied : relinked tree cwd (target.take (pathMax - 1)) dst = .ok after) :
    Yields cwd (copySymlink src dst) tree (.ok ()) after := by
  unfold relinked at copied
  split at copied
  · cases copied
  rename_i bare free
  split at copied
  · cases copied
  · cases copied
  · rename_i spot missing
    cases copied
    exact copySymlink_yields looked free (.syscall fun m calm => calm.added missing _)

theorem copySymlink_error {src dst target : Text} {loc : Loc} (looked : lookup tree cwd false src = .ok (loc, .link target))
    (failed : relinked tree cwd (target.take (pathMax - 1)) dst = .error error) :
    ∃ left, Yields cwd (copySymlink src dst) tree (.error error) left := by
  unfold relinked at failed
  split at failed
  · rename_i other barred
    cases failed
    exact ⟨tree, copySymlink_barred looked barred⟩
  rename_i bare free
  split at failed
  · rename_i other barred
    cases failed
    exact ⟨bare, copySymlink_yields looked free (.syscall_error fun m calm => calm.added_error barred _)⟩
  · rename_i spot there
    cases failed
    exact ⟨bare, copySymlink_yields looked free (.syscall_error fun m calm => calm.added_there there _)⟩
  · cases failed

end Calls

/-! ## The run of the calls -/

section Hops

variable {cwd : Loc} {rootfs : Text} {tree made after : Tree} {path next : Text} {error : Errno}

theorem arrival_refused (refused : arrival cwd rootfs made path = .refused error) (rounds hops : Nat) :
    ∃ left, Yields cwd (copyArrived rounds rootfs hops path) made (.error error) left := by
  have found := @yields_lstat cwd made path
  unfold arrival at refused
  split at refused
  · rename_i other looked
    cases refused
    rw [looked] at found
    exact ⟨made, found.bind_error⟩
  · rename_i loc target looked
    rw [looked] at found
    split at refused
    · rename_i other failed
      cases refused
      obtain ⟨left, copied⟩ := copySymlink_error looked failed
      exact ⟨left, found.bind ((yields_readlink looked).bind copied.bind_error)⟩
    · rename_i after copied
      split at refused
      · rename_i other unresolved
        cases refused
        have resolved := @yields_ofResult _ cwd after (resolveSymlinkTarget path (target.take (pathMax - 1)))
        rw [unresolved] at resolved
        refine ⟨after, found.bind ((yields_readlink looked).bind ((copySymlink_ok looked copied).bind ?_))⟩
        rw [unresolved]
        exact resolved.bind_error
      · cases refused
  · cases refused
  · rename_i entry noLink noFile looked
    cases refused
    rw [looked] at found
    refine ⟨made, found.bind ?_⟩
    obtain ⟨loc, node⟩ := entry
    cases node with
    | link target => exact absurd rfl (noLink loc target)
    | file mode content => exact absurd rfl (noFile loc mode content)
    | dir | special => exact .throw Errno.EINVAL

theorem arrival_file (found : arrival cwd rootfs made path = .file after) :
    after = made ∧ ∃ loc mode content, lookup made cwd false path = .ok (loc, .file mode content) := by
  unfold arrival at found
  split at found
  · cases found
  · split at found
    · cases found
    · split at found <;> cases found
  · rename_i loc mode content looked
    cases found
    exact ⟨rfl, loc, mode, content, looked⟩
  · cases found

theorem arrival_on (goes : arrival cwd rootfs made path = .on after next) :
    ∃ loc target, lookup made cwd false path = .ok (loc, .link target) ∧
      relinked made cwd (target.take (pathMax - 1)) (rootfs ++ path) = .ok after ∧
      resolveSymlinkTarget path (target.take (pathMax - 1)) = .ok next := by
  unfold arrival at goes
  split at goes
  · cases goes
  · rename_i loc target looked
    split at goes
    · cases goes
    · rename_i copied
      split at goes
      · cases goes
      · rename_i resolved
        cases goes
        exact ⟨loc, target, looked, copied, resolved⟩
  · cases goes
  · cases goes

theorem arrival_ne_stuck : arrival cwd rootfs made path ≠ .stuck := by
  unfold arrival
  split
  · simp
  · split
    · simp
    · split <;> simp
  · simp
  · simp

/-- A regular file is found: the copy comes to an end. -/
theorem arrived_file (found : arrival cwd rootfs made path = .file after) (rounds hops : Nat) {m : Machine}
    (calm : m.Calm made cwd) : ∃ result m', copyArrived rounds rootfs hops path m = (.done result, m') := by
  obtain ⟨-, loc, mode, content, looked⟩ := arrival_file found
  obtain ⟨m₁, done, calm₁⟩ := yields_lstat path m calm
  rw [looked] at done
  obtain ⟨result, m₂, copied⟩ := copyRegularFile_halts path (rootfs ++ path) m₁
  refine ⟨result, m₂, ?_⟩
  rw [copyArrived, sys_bind, done]
  exact copied

/-- A link is found: the call goes on as the next one. -/
theorem arrived_on (goes : arrival cwd rootfs made path = .on after next) (rounds hops : Nat) {m : Machine}
    (calm : m.Calm made cwd) : ∃ m', m'.Calm after cwd ∧
      copyArrived rounds rootfs hops path m = copyPathIntoRootfs rounds rootfs hops next m' := by
  obtain ⟨loc, target, looked, copied, resolved⟩ := arrival_on goes
  obtain ⟨m₁, found, calm₁⟩ := yields_lstat path m calm
  rw [looked] at found
  obtain ⟨m₂, read, calm₂⟩ := yields_readlink looked m₁ calm₁
  obtain ⟨m₃, linked, calm₃⟩ := copySymlink_ok looked copied m₂ calm₂
  refine ⟨m₃, calm₃, ?_⟩
  rw [copyArrived, sys_bind, found]
  simp only
  rw [sys_bind, read]
  simp only
  rw [sys_bind, linked]
  simp only
  rw [resolved]
  rfl

/-- A text that has passed the check of its length. -/
theorem of_fits {text buffer : Text}
    (fits : (if pathMax ≤ text.length then .error Errno.ENAMETOOLONG else .ok text : Except Errno Text) = .ok buffer) :
    text = buffer ∧ buffer ∈ Short := by
  split at fits
  · cases fits
  · rename_i short
    cases fits
    exact ⟨rfl, Nat.lt_of_not_le short⟩

theorem pathDirname_spec {text dir : Text} (parent : pathDirname text = .ok dir) : dir ≠ [] ∧ dir.length < pathMax := by
  unfold pathDirname at parent
  split at parent
  · cases parent
  · obtain ⟨rfl, short⟩ := of_fits parent
    refine ⟨?_, short⟩
    split
    · simp
    · rename_i given
      simpa using given

theorem destinationDir_spec {dir : Text} (parent : destinationDir rootfs path = .ok dir) :
    (rootfs ++ path).length < pathMax ∧ dir ≠ [] ∧ dir.length < pathMax := by
  unfold destinationDir at parent
  split at parent
  · cases parent
  split at parent
  · cases parent
  · rename_i short
    exact ⟨Nat.lt_of_not_le short, pathDirname_spec parent⟩

/-- How far a call gets. -/
theorem hop_cases (cwd : Loc) (rootfs : Text) (tree : Tree) (path : Text) :
    (∃ error, destinationDir rootfs path = .error error ∧ hop cwd rootfs tree path = .refused error) ∨
    ∃ dir, destinationDir rootfs path = .ok dir ∧
      (ensuredAll cwd tree (prefixes dir) = none ∧ hop cwd rootfs tree path = .stuck ∨
      (∃ error left, ensuredAll cwd tree (prefixes dir) = some (.error error, left) ∧ hop cwd rootfs tree path = .refused error) ∨
      ∃ made, ensuredAll cwd tree (prefixes dir) = some (.ok (), made) ∧ hop cwd rootfs tree path = arrival cwd rootfs made path) := by
  unfold hop
  cases destinationDir rootfs path with
  | error error => exact .inl ⟨error, rfl, rfl⟩
  | ok dir =>
    refine .inr ⟨dir, rfl, ?_⟩
    cases ensured : ensuredAll cwd tree (prefixes dir) with
    | none => exact .inl ⟨rfl, by simp only [ensured]⟩
    | some pair =>
      obtain ⟨error | ⟨⟩, left⟩ := pair
      · exact .inr (.inl ⟨error, left, rfl, by simp only [ensured]⟩)
      · exact .inr (.inr ⟨left, rfl, by simp only [ensured]⟩)

/-- A call whose `mkdir_p` is given. -/
theorem copyPath_behind {dir : Text} (parent : destinationDir rootfs path = .ok dir) (rounds hops : Nat) :
    copyPathIntoRootfs rounds rootfs (hops + 1) path = (do
      mkdirP rounds dir
      copyArrived rounds rootfs hops path) := by
  rw [copyPath_eq, parent]
  rfl

theorem copyPath_barred (barred : destinationDir rootfs path = .error error) (rounds hops : Nat) :
    Yields cwd (copyPathIntoRootfs rounds rootfs (hops + 1) path) tree (.error error) tree := by
  rw [copyPath_eq, barred]
  exact (yields_ofResult (.error error)).bind_error

theorem copyPath_refused (refused : hop cwd rootfs tree path = .refused error) (rounds hops : Nat) :
    ∃ left, Yields cwd (copyPathIntoRootfs (rounds + 1) rootfs (hops + 1) path) tree (.error error) left := by
  rcases hop_cases cwd rootfs tree path with ⟨other, barred, is⟩ | ⟨dir, parent, ⟨-, is⟩ | ⟨other, left, stops, is⟩ | ⟨made, makes, is⟩⟩
  · cases refused.symm.trans is
    exact ⟨tree, copyPath_barred barred _ _⟩
  · cases refused.symm.trans is
  · cases refused.symm.trans is
    obtain ⟨-, given, short⟩ := destinationDir_spec parent
    refine ⟨left, ?_⟩
    rw [copyPath_behind parent]
    exact (mkdirP_yields given short stops rounds).bind_error
  · obtain ⟨-, given, short⟩ := destinationDir_spec parent
    obtain ⟨left, fails⟩ := arrival_refused (is.symm.trans refused) (rounds + 1) hops
    refine ⟨left, ?_⟩
    rw [copyPath_behind parent]
    exact (mkdirP_yields given short makes rounds).bind fails

/-- A call that is neither refused nor stuck comes to its `lstat`. -/
theorem hop_arrives {step : Hop} (is : hop cwd rootfs tree path = step) (goes : step ≠ .stuck)
    (fine : ∀ error, step ≠ .refused error) :
    ∃ dir made, destinationDir rootfs path = .ok dir ∧ ensuredAll cwd tree (prefixes dir) = some (.ok (), made) ∧
      arrival cwd rootfs made path = step := by
  rcases hop_cases cwd rootfs tree path with ⟨error, -, is'⟩ | ⟨dir, parent, ⟨-, is'⟩ | ⟨error, left, -, is'⟩ | ⟨made, makes, is'⟩⟩
  · exact absurd (is.symm.trans is') (fine error)
  · exact absurd (is.symm.trans is') goes
  · exact absurd (is.symm.trans is') (fine error)
  · exact ⟨dir, made, parent, makes, is'.symm.trans is⟩

theorem stuck_iff : hop cwd rootfs tree path = .stuck ↔
    ∃ dir, destinationDir rootfs path = .ok dir ∧ ensuredAll cwd tree (prefixes dir) = none := by
  rcases hop_cases cwd rootfs tree path with ⟨error, barred, is⟩ | ⟨dir, parent, ⟨never, is⟩ | ⟨error, left, stops, is⟩ | ⟨made, makes, is⟩⟩
  · simp [is, barred]
  · simp [is, parent, never]
  · simp [is, parent, stops]
  · simp [is, parent, makes, arrival_ne_stuck]

theorem copyPath_stuck (stuck : hop cwd rootfs tree path = .stuck) (rounds hops : Nat) :
    Stuck cwd (copyPathIntoRootfs rounds rootfs hops path) tree := by
  cases hops with
  | zero => exact fun m _ => ⟨m, rfl⟩
  | succ hops =>
    obtain ⟨dir, parent, never⟩ := stuck_iff.mp stuck
    obtain ⟨-, given, short⟩ := destinationDir_spec parent
    rw [copyPath_behind parent]
    exact (mkdirP_stuck given short never rounds).bind

theorem copyPath_arrives {dir : Text} (parent : destinationDir rootfs path = .ok dir)
    (makes : ensuredAll cwd tree (prefixes dir) = some (.ok (), made)) (rounds hops : Nat) {m : Machine}
    (calm : m.Calm tree cwd) : ∃ m', m'.Calm made cwd ∧
      copyPathIntoRootfs (rounds + 1) rootfs (hops + 1) path m = copyArrived (rounds + 1) rootfs hops path m' := by
  obtain ⟨-, given, short⟩ := destinationDir_spec parent
  obtain ⟨m', done, calm'⟩ := mkdirP_yields given short makes rounds m calm
  refine ⟨m', calm', ?_⟩
  rw [copyPath_behind parent, sys_bind, done]

theorem copyPath_file (found : hop cwd rootfs tree path = .file made) (rounds hops : Nat) {m : Machine}
    (calm : m.Calm tree cwd) : ∃ result m', copyPathIntoRootfs (rounds + 1) rootfs (hops + 1) path m = (.done result, m') := by
  obtain ⟨dir, middle, parent, makes, arrives⟩ := hop_arrives found (by simp) (by simp)
  obtain ⟨m₁, calm₁, same⟩ := copyPath_arrives parent makes rounds hops calm
  rw [same]
  exact arrived_file arrives (rounds + 1) hops calm₁

theorem copyPath_on (goes : hop cwd rootfs tree path = .on after next) (rounds hops : Nat) {m : Machine}
    (calm : m.Calm tree cwd) : ∃ m', m'.Calm after cwd ∧
      copyPathIntoRootfs (rounds + 1) rootfs (hops + 1) path m = copyPathIntoRootfs (rounds + 1) rootfs hops next m' := by
  obtain ⟨dir, middle, parent, makes, arrives⟩ := hop_arrives goes (by simp) (by simp)
  obtain ⟨m₁, calm₁, same⟩ := copyPath_arrives parent makes rounds hops calm
  rw [same]
  exact arrived_on arrives (rounds + 1) hops calm₁

end Hops

/-- The next call: the tree that it finds, and its path. -/
def onward (cwd : Loc) (rootfs : Text) : Tree × Text → Option (Tree × Text)
  | (tree, path) =>
    match hop cwd rootfs tree path with
    | .on after next => some (after, next)
    | .file _ | .refused _ | .stuck => none

section Run

variable {cwd : Loc} {rootfs : Text} {tree after : Tree} {path next : Text}

theorem onward_on (goes : hop cwd rootfs tree path = .on after next) : onward cwd rootfs (tree, path) = some (after, next) := by
  simp only [onward, goes]

theorem onward_some (goes : onward cwd rootfs (tree, path) = some (after, next)) :
    hop cwd rootfs tree path = .on after next := by
  cases is : hop cwd rootfs tree path with
  | on =>
    simp only [onward, is] at goes
    cases goes
    rfl
  | file | refused | stuck => simp [onward, is] at goes

/-- A copy that returns has come to the end of the run. -/
theorem copyPath_outcome {rounds hops : Nat} {m m' : Machine} {result : Except Errno Unit} (calm : m.Calm tree cwd)
    (done : copyPathIntoRootfs rounds rootfs hops path m = (.done result, m')) :
    ∃ n last final, Orbit.after (onward cwd rootfs) (tree, path) n = some (last, final) ∧
      ((∃ made, hop cwd rootfs last final = .file made) ∨
        ∃ error, hop cwd rootfs last final = .refused error ∧ result = .error error) := by
  -- By induction on the calls; the last one is no link.
  induction hops generalizing tree path m with
  | zero => cases done
  | succ hops ih =>
    cases rounds with
    | zero =>
      rcases hop_cases cwd rootfs tree path with ⟨error, barred, is⟩ | ⟨dir, parent, -⟩
      · obtain ⟨rfl, -⟩ := (copyPath_barred barred 0 hops).done calm done
        exact ⟨0, tree, path, rfl, .inr ⟨error, is, rfl⟩⟩
      · -- Without a round, `mkdir_p` does not return.
        obtain ⟨-, given, short⟩ := destinationDir_spec parent
        rw [copyPath_behind parent] at done
        exact absurd done fun done => (mkdirP_zero given short).bind.not_done calm done
    | succ rounds =>
      cases is : hop cwd rootfs tree path with
      | file made => exact ⟨0, tree, path, rfl, .inl ⟨made, is⟩⟩
      | refused error =>
        obtain ⟨left, fails⟩ := copyPath_refused is rounds hops
        obtain ⟨rfl, -⟩ := fails.done calm done
        exact ⟨0, tree, path, rfl, .inr ⟨error, is, rfl⟩⟩
      | stuck => exact absurd done fun done => (copyPath_stuck is _ _).not_done calm done
      | on after next =>
        obtain ⟨m₁, calm₁, same⟩ := copyPath_on is rounds hops calm
        obtain ⟨n, last, final, here, ends⟩ := ih calm₁ (same.symm.trans done)
        refine ⟨n + 1, last, final, ?_, ends⟩
        rw [Orbit.after_next (onward_on is), here]

/-- A run with an end is a copy that returns. -/
theorem copyPath_returns {n : Nat}
    (clear : ∀ i last final, Orbit.after (onward cwd rootfs) (tree, path) i = some (last, final) →
      hop cwd rootfs last final ≠ .stuck)
    (ends : Orbit.after (onward cwd rootfs) (tree, path) n = none) :
    ∃ hops, ∀ m : Machine, m.Calm tree cwd → ∃ result m', copyPathIntoRootfs 1 rootfs hops path m = (.done result, m') := by
  -- By induction on the length of the run, for every machine with its tree.
  induction n generalizing tree path with
  | zero => cases ends
  | succ n ih =>
    cases is : hop cwd rootfs tree path with
    | file made => exact ⟨1, fun m calm => copyPath_file is 0 0 calm⟩
    | refused error =>
      obtain ⟨left, fails⟩ := copyPath_refused is 0 0
      refine ⟨1, fun m calm => ?_⟩
      obtain ⟨m', done, -⟩ := fails m calm
      exact ⟨.error error, m', done⟩
    | stuck => exact absurd is (clear 0 tree path rfl)
    | on after next =>
      have first := onward_on is
      rw [Orbit.after_next first] at ends
      have later (i : Nat) (last : Tree) (final : Text)
          (here : Orbit.after (onward cwd rootfs) (after, next) i = some (last, final)) :
          hop cwd rootfs last final ≠ .stuck := by
        apply clear (i + 1) last final
        rw [Orbit.after_next first, here]
      obtain ⟨hops, returns⟩ := ih later ends
      refine ⟨hops + 1, fun m calm => ?_⟩
      obtain ⟨m₁, calm₁, same⟩ := copyPath_on is 0 hops calm
      rw [same]
      exact returns m₁ calm₁

/-! ## The states are finitely many -/

section Bounded

variable {origin : Tree} {target dst : Text}

theorem Varies.cleared {bare : Tree} (varies : Varies origin cwd tree) (short : dst ∈ Short)
    (free : cleared tree cwd dst = .ok bare) : Varies origin cwd bare := by
  unfold Filesystem.cleared at free
  split at free
  · split at free
    · cases free
      exact varies
    · cases free
  · cases free
  · rename_i looked
    cases free
    exact varies.set (varies.resolves short (lookup_iff.mp looked).1) (.inl (.inl rfl))

theorem Varies.relinked (varies : Varies origin cwd tree) (short : dst ∈ Short) (fits : target ∈ Short)
    (copied : relinked tree cwd target dst = .ok after) : Varies origin cwd after := by
  unfold Filesystem.relinked at copied
  split at copied
  · cases copied
  rename_i bare free
  split at copied
  · cases copied
  · cases copied
  · rename_i loc missing
    cases copied
    have before := varies.cleared short free
    exact before.set (before.resolves short missing) (.inr ⟨target, fits, rfl⟩)

theorem resolveSymlinkTarget_short (resolved : resolveSymlinkTarget path target = .ok next) : next ∈ Short := by
  unfold resolveSymlinkTarget at resolved
  split at resolved
  · exact (of_fits resolved).2
  · split at resolved
    · cases resolved
    · exact (of_fits resolved).2

theorem onward_bounded (varies : Varies origin cwd tree) (goes : onward cwd rootfs (tree, path) = some (after, next)) :
    Varies origin cwd after ∧ next ∈ Short := by
  obtain ⟨dir, made, parent, makes, arrives⟩ := hop_arrives (onward_some goes) (by simp) (by simp)
  obtain ⟨dst, given, short⟩ := destinationDir_spec parent
  obtain ⟨loc, target, looked, copied, resolved⟩ := arrival_on arrives
  -- `readlink` has cut the target, so the new link fits a buffer, too.
  have fits : target.take (pathMax - 1) ∈ Short := by
    have cut := List.length_take_le (pathMax - 1) target
    have positive : 0 < pathMax := by decide
    exact Nat.lt_of_le_of_lt cut (by omega)
  have before := varies.ensuredAll (fun front member => short_of_prefix given short member) makes
  exact ⟨before.relinked dst fits copied, resolveSymlinkTarget_short resolved⟩

end Bounded

end Run

/-- The calls of a copy, each with the tree that it finds. -/
def chain (fs : FileSystem) (rootfs hostPath : Text) (n : Nat) : Option (Tree × Text) :=
  Orbit.after (onward fs.cwd rootfs) (fs.tree, hostPath) n

/-- `copy_path_into_rootfs` returns, and with an error unless its chain of links ends at a regular file. -/
def Settles (fs : FileSystem) (rootfs hostPath : Text) : Prop :=
  ∃ rounds hops result after, copyPathIntoRootfs rounds rootfs hops hostPath fs.machine = (.done result, after) ∧
    (result = .ok () → ∃ n tree path made loc mode content, chain fs rootfs hostPath n = some (tree, path) ∧
      hop fs.cwd rootfs tree path = .file made ∧ lookup made fs.cwd false path = .ok (loc, .file mode content))

section Settling

variable {fs : FileSystem} {rootfs hostPath : Text}

/-- The directory of every copy can be made, as far as `mkdir_p` gets. -/
def Open (fs : FileSystem) (rootfs hostPath : Text) : Prop :=
  ∀ n tree path dir, chain fs rootfs hostPath n = some (tree, path) → destinationDir rootfs path = .ok dir →
    Clear fs.cwd tree (prefixes dir)

theorem open_iff : Open fs rootfs hostPath ↔
    ∀ n tree path, chain fs rootfs hostPath n = some (tree, path) → hop fs.cwd rootfs tree path ≠ .stuck := by
  constructor
  · intro clear n tree path here stuck
    obtain ⟨dir, parent, never⟩ := stuck_iff.mp stuck
    exact (clear_iff _).mp (clear n tree path dir here parent) never
  · intro clear n tree path dir here parent
    refine (clear_iff _).mpr fun never => clear n tree path here ?_
    exact stuck_iff.mpr ⟨dir, parent, never⟩

/-- All states of the run. -/
theorem chain_bounded (n : Nat) (state : Tree × Text) (here : chain fs rootfs hostPath n = some state) :
    state ∈ {tree | Varies fs.tree fs.cwd tree} ×ˢ insert hostPath Short := by
  refine Orbit.keeps (P := (· ∈ {tree | Varies fs.tree fs.cwd tree} ×ˢ insert hostPath Short)) ?_ ?_ here
  · rintro ⟨tree, path⟩ ⟨after, next⟩ ⟨varies, -⟩ goes
    obtain ⟨varies', short⟩ := onward_bounded varies goes
    exact ⟨varies', .inr short⟩
  · exact ⟨Varies.same, Set.mem_insert hostPath Short⟩

theorem chain_ends_iff : (∃ n, chain fs rootfs hostPath n = none) ↔
    ∀ i j state, i < j → chain fs rootfs hostPath i = some state → chain fs rootfs hostPath j ≠ some state :=
  Orbit.ends_iff ((finite_varies fs.cwd).prod (finite_short.insert hostPath)) chain_bounded

theorem onward_last {cwd : Loc} {tree : Tree} {path : Text} (last : ∀ after next, hop cwd rootfs tree path ≠ .on after next) :
    onward cwd rootfs (tree, path) = none := by
  cases is : hop cwd rootfs tree path with
  | on after next => exact absurd is (last after next)
  | file | refused | stuck => simp only [onward, is]

/-- A copy that returns is at the end of its run, and not at a loop of `mkdir_p`. -/
theorem chain_of_done {rounds hops : Nat} {result : Except Errno Unit} {after : Machine}
    (done : copyPathIntoRootfs rounds rootfs hops hostPath fs.machine = (.done result, after)) :
    ∃ n tree path, chain fs rootfs hostPath n = some (tree, path) ∧ onward fs.cwd rootfs (tree, path) = none ∧
      hop fs.cwd rootfs tree path ≠ .stuck ∧ (result = .ok () → ∃ made, hop fs.cwd rootfs tree path = .file made) := by
  obtain ⟨n, tree, path, here, ⟨made, is⟩ | ⟨error, is, rfl⟩⟩ := copyPath_outcome fs.calm done
  · exact ⟨n, tree, path, here, onward_last (by simp [is]), by simp [is], fun _ => ⟨made, is⟩⟩
  · exact ⟨n, tree, path, here, onward_last (by simp [is]), by simp [is], fun absurd => by cases absurd⟩

theorem hop_file {cwd : Loc} {tree made : Tree} {path : Text} (is : hop cwd rootfs tree path = .file made) :
    ∃ loc mode content, lookup made cwd false path = .ok (loc, .file mode content) := by
  obtain ⟨dir, middle, -, -, arrives⟩ := hop_arrives is (by simp) (by simp)
  obtain ⟨rfl, found⟩ := arrival_file arrives
  exact found

end Settling

/-- The chase of links ends where no call of it comes back, and where `mkdir_p` returns. -/
theorem copyPath_settles_iff (fs : FileSystem) (rootfs hostPath : Text) :
    Settles fs rootfs hostPath ↔ Open fs rootfs hostPath ∧
      ∀ i j state, i < j → chain fs rootfs hostPath i = some state → chain fs rootfs hostPath j ≠ some state := by
  rw [open_iff, ← chain_ends_iff]
  constructor
  · rintro ⟨rounds, hops, result, after, done, -⟩
    obtain ⟨n, tree, path, here, last, clear, -⟩ := chain_of_done done
    refine ⟨fun i other otherPath there stuck => ?_, n + 1, Orbit.ends_at here last⟩
    -- A run has one end, and this one is not stuck.
    have same := Orbit.end_unique here last there (onward_last (by simp [stuck]))
    cases same
    exact clear stuck
  · rintro ⟨clear, n, ends⟩
    obtain ⟨hops, returns⟩ := copyPath_returns clear ends
    obtain ⟨result, after, done⟩ := returns fs.machine fs.calm
    refine ⟨1, hops, result, after, done, fun fine => ?_⟩
    obtain ⟨m, tree, path, here, -, -, file⟩ := chain_of_done done
    obtain ⟨made, is⟩ := file fine
    obtain ⟨loc, mode, content, found⟩ := hop_file is
    exact ⟨m, tree, path, made, loc, mode, content, here, is, found⟩

/-! ## A link to itself -/

/-- The shell of the host is a link to itself. -/
def loopedHost : FileSystem :=
  ⟨(Tree.bare.set [lit "bin"] (some .dir)).set [lit "bin", lit "sh"] (some (.link (lit "sh"))), [], by decide⟩

/-- The host once the link has been copied. -/
def loopedCopy : Tree :=
  ((loopedHost.tree.set [lit "r"] (some .dir)).set [lit "r", lit "bin"] (some .dir)).set [lit "r", lit "bin", lit "sh"]
    (some (.link (lit "sh")))

/-- An entry that is taken away and put back. -/
theorem set_back {tree : Tree} {loc : Loc} {node : Node} (there : tree.node loc = some node) (gone : tree.Settable loc none)
    (back : (tree.set loc none).Settable loc (some node)) : (tree.set loc none).set loc (some node) = tree := by
  apply Tree.node_injective
  funext other
  rw [Tree.node_set back, Tree.node_set gone]
  split
  · rename_i same
    rw [same, there]
  · rfl

theorem looped_first : hop loopedHost.cwd (lit "/r") loopedHost.tree (lit "/bin/sh") = .on loopedCopy (lit "/bin/sh") := rfl

theorem looped_again : hop loopedHost.cwd (lit "/r") loopedCopy (lit "/bin/sh") = .on loopedCopy (lit "/bin/sh") := by
  have put_back : (loopedCopy.set [lit "r", lit "bin", lit "sh"] none).set [lit "r", lit "bin", lit "sh"]
      (some (.link (lit "sh"))) = loopedCopy := set_back (by decide) (by decide) (by decide)
  have goes : hop loopedHost.cwd (lit "/r") loopedCopy (lit "/bin/sh") =
    .on ((loopedCopy.set [lit "r", lit "bin", lit "sh"] none).set [lit "r", lit "bin", lit "sh"]
      (some (.link (lit "sh")))) (lit "/bin/sh") := rfl
  rw [goes, put_back]

theorem looped_chain (n : Nat) : chain loopedHost (lit "/r") (lit "/bin/sh") (n + 1) = some (loopedCopy, lit "/bin/sh") := by
  induction n with
  | zero => exact onward_on looped_first
  | succ n ih =>
    unfold chain at ih ⊢
    rw [Orbit.after, ih]
    exact onward_on looped_again

theorem looped_never_settles : ¬ Settles loopedHost (lit "/r") (lit "/bin/sh") := by
  rintro ⟨rounds, hops, result, after, done, -⟩
  obtain ⟨n, tree, path, here, last, -, -⟩ := chain_of_done done
  have ends : chain loopedHost (lit "/r") (lit "/bin/sh") (n + 1) = none := Orbit.ends_at here last
  cases ends.symm.trans (looped_chain n)

end ContainerRuntime.Filesystem
