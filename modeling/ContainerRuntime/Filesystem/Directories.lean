import ContainerRuntime.Filesystem.Confinement

/-! What `mkdir_p` makes of a tree.

Nobody else changes the tree, and a call fails only for what it finds there. The
loop over the prefixes of the path is then a function of the tree. It has no
value where `ensure_directory` calls itself for ever: `stat` does not get through
a symbolic link, and `mkdir` finds that there is one.
-/

set_option autoImplicit false

namespace ContainerRuntime.Filesystem

open CString Program

/-- A file system as a process finds it. -/
structure FileSystem where
  tree : Tree
  cwd : Loc
  here : tree.node cwd = some .dir

/-- A process that has made no call yet, on a host where no call fails without a reason. -/
def FileSystem.machine (fs : FileSystem) : Machine := .start fs.tree fs.cwd unfaulted

/-! ## Calls that fail for what is in the tree only -/

/-- The machine has this tree, and makes no call fail on its own. -/
structure Machine.Calm (m : Machine) (tree : Tree) (cwd : Loc) : Prop where
  tree : m.tree = tree
  cwd : m.cwd = cwd
  quiet : ∀ n, (m.faults n).fail = none

theorem FileSystem.calm (fs : FileSystem) : fs.machine.Calm fs.tree fs.cwd := ⟨rfl, rfl, fun _ => rfl⟩

/-- Started with one tree, the program completes with a result and another tree. -/
def Yields {α : Type} (cwd : Loc) (p : Sys α) (tree : Tree) (result : Except Errno α) (after : Tree) : Prop :=
  ∀ m : Machine, m.Calm tree cwd → ∃ m', p m = (.done result, m') ∧ m'.Calm after cwd

/-- Started with this tree, the program does not complete within its bounds. -/
def Stuck {α : Type} (cwd : Loc) (p : Sys α) (tree : Tree) : Prop :=
  ∀ m : Machine, m.Calm tree cwd → ∃ m', p m = (.cut, m')

section Calculus

variable {α β : Type} {cwd : Loc} {tree middle after : Tree}

theorem sys_bind (p : Sys α) (f : α → Sys β) (m : Machine) :
    (p >>= f : Sys β) m = match p m with
      | (.done (.ok a), m') => f a m'
      | (.done (.error error), m') => (.done (.error error), m')
      | (.cut, m') => (.cut, m') := by
  change Prog.bind p _ m = _
  unfold Prog.bind
  rcases p m with ⟨⟨error | a⟩ | -, m'⟩ <;> rfl

theorem Yields.pure (value : α) : Yields cwd (Pure.pure value : Sys α) tree (.ok value) tree :=
  fun m calm => ⟨m, rfl, calm⟩

theorem Yields.throw (error : Errno) : Yields cwd (throw error : Sys α) tree (.error error) tree :=
  fun m calm => ⟨m, rfl, calm⟩

theorem Yields.bind {p : Sys α} {f : α → Sys β} {a : α} {result : Except Errno β}
    (first : Yields cwd p tree (.ok a) middle) (next : Yields cwd (f a) middle result after) :
    Yields cwd (p >>= f : Sys β) tree result after := by
  intro m calm
  obtain ⟨m₁, done, calm₁⟩ := first m calm
  obtain ⟨m₂, later, calm₂⟩ := next m₁ calm₁
  refine ⟨m₂, ?_, calm₂⟩
  rw [sys_bind, done]
  exact later

theorem Yields.bind_error {p : Sys α} {f : α → Sys β} {error : Errno} (first : Yields cwd p tree (.error error) after) :
    Yields cwd (p >>= f : Sys β) tree (.error error) after := by
  intro m calm
  obtain ⟨m₁, done, calm₁⟩ := first m calm
  refine ⟨m₁, ?_, calm₁⟩
  rw [sys_bind, done]

theorem Stuck.bind {p : Sys α} {f : α → Sys β} (first : Stuck cwd p tree) : Stuck cwd (p >>= f : Sys β) tree := by
  intro m calm
  obtain ⟨m₁, cut⟩ := first m calm
  refine ⟨m₁, ?_⟩
  rw [sys_bind, cut]

theorem Yields.bind_stuck {p : Sys α} {f : α → Sys β} {a : α} (first : Yields cwd p tree (.ok a) middle)
    (next : Stuck cwd (f a) middle) : Stuck cwd (p >>= f : Sys β) tree := by
  intro m calm
  obtain ⟨m₁, done, calm₁⟩ := first m calm
  obtain ⟨m₂, cut⟩ := next m₁ calm₁
  refine ⟨m₂, ?_⟩
  rw [sys_bind, done]
  exact cut

theorem Yields.attempt {p : Sys α} {result : Except Errno α} (yields : Yields cwd p tree result after) :
    Yields cwd (attempt p) tree (.ok result) after := by
  intro m calm
  obtain ⟨m', done, calm'⟩ := yields m calm
  refine ⟨m', ?_, calm'⟩
  rw [Filesystem.attempt, done]

/-- One call has the effect that it has on the tree. -/
theorem Yields.syscall {effect : Machine → Except Errno (Machine × α)} {value : α}
    (effected : ∀ m : Machine, m.Calm tree cwd → ∃ m', effect m = .ok (m', value) ∧ m'.Calm after cwd) :
    Yields cwd (Filesystem.syscall effect) tree (.ok value) after := by
  intro m calm
  obtain ⟨m', done, calm'⟩ := effected m.later ⟨calm.tree, calm.cwd, calm.quiet⟩
  refine ⟨m', ?_, calm'⟩
  simp only [Filesystem.syscall, calm.quiet, done]

theorem Yields.syscall_error {effect : Machine → Except Errno (Machine × α)} {error : Errno}
    (refused : ∀ m : Machine, m.Calm tree cwd → effect m = .error error) :
    Yields cwd (Filesystem.syscall effect) tree (.error error) tree := by
  intro m calm
  have calm' : m.later.Calm tree cwd := ⟨calm.tree, calm.cwd, calm.quiet⟩
  refine ⟨m.later, ?_, calm'⟩
  simp only [Filesystem.syscall, calm.quiet, refused m.later calm']

end Calculus

/-- The entry that a path leads to. -/
def lookup (tree : Tree) (cwd : Loc) (last : Bool) (path : Text) : Except Errno (Loc × Node) :=
  match resolve tree cwd last path with
  | .error error => .error error
  | .ok (.missing _) => .error Errno.ENOENT
  | .ok (.there loc) =>
    match tree.node loc with
    | some node => .ok (loc, node)
    | none => .error Errno.ENOENT

section Calls

variable {cwd : Loc} {tree : Tree} {m : Machine}

theorem Machine.Calm.entry (calm : m.Calm tree cwd) (last : Bool) (path : Text) :
    m.entry last path = lookup tree cwd last path := by
  obtain ⟨rfl, rfl, -⟩ := calm
  rfl

theorem yields_entry (last : Bool) (path : Text) :
    Yields cwd (syscall fun m => (m.entry last path).map fun found => (m, found)) tree (lookup tree cwd last path) tree := by
  cases looked : lookup tree cwd last path with
  | ok found =>
    apply Yields.syscall
    intro m calm
    rw [calm.entry, looked]
    exact ⟨m, rfl, calm⟩
  | error error =>
    apply Yields.syscall_error
    intro m calm
    rw [calm.entry, looked]
    rfl

theorem yields_stat (path : Text) : Yields cwd (stat path) tree (lookup tree cwd true path) tree := yields_entry true path

theorem yields_lstat (path : Text) : Yields cwd (lstat path) tree (lookup tree cwd false path) tree := yields_entry false path

/-- A new entry at a place that is free. -/
theorem Machine.Calm.added {path : Text} {loc : Loc} (calm : m.Calm tree cwd)
    (free : resolve tree cwd false path = .ok (.missing loc)) (node : Node) :
    ∃ m', m.added path node = .ok (m', ()) ∧ m'.Calm (tree.set loc (some node)) cwd := by
  obtain ⟨rfl, rfl, quiet⟩ := calm
  refine ⟨m.touched (m.touch false path loc) (some node), ?_, rfl, rfl, quiet⟩
  rw [Machine.added, free]

theorem Machine.Calm.added_there {path : Text} {loc : Loc} (calm : m.Calm tree cwd)
    (there : resolve tree cwd false path = .ok (.there loc)) (node : Node) :
    m.added path node = .error Errno.EEXIST := by
  obtain ⟨rfl, rfl, -⟩ := calm
  rw [Machine.added, there]

theorem Machine.Calm.added_error {path : Text} {error : Errno} (calm : m.Calm tree cwd)
    (barred : resolve tree cwd false path = .error error) (node : Node) : m.added path node = .error error := by
  obtain ⟨rfl, rfl, -⟩ := calm
  rw [Machine.added, barred]

end Calls

/-! ## `ensure_directory` -/

/-- What `ensure_directory` finds at a path. -/
inductive Standing where
  | directory
  /-- Something else. -/
  | obstacle
  /-- Nothing, where a directory can be made. -/
  | missing (loc : Loc)
  /-- A link that `stat` cannot follow to an entry. -/
  | dangling
  | barred (error : Errno)
  deriving DecidableEq

def standing (tree : Tree) (cwd : Loc) (path : Text) : Standing :=
  match lookup tree cwd true path with
  | .ok (_, .dir) => .directory
  | .ok _ => .obstacle
  | .error _ =>
    match resolve tree cwd false path with
    | .ok (.there _) => .dangling
    | .ok (.missing loc) => .missing loc
    | .error error => .barred error

/-- What `ensure_directory` returns, and the tree it leaves; nothing where it does not return. -/
def ensured (tree : Tree) (cwd : Loc) (path : Text) : Option (Except Errno Unit × Tree) :=
  match standing tree cwd path with
  | .directory => some (.ok (), tree)
  | .obstacle => some (.error Errno.ENOTDIR, tree)
  | .missing loc => some (.ok (), tree.set loc (some .dir))
  | .dangling => none
  | .barred error => some (.error error, tree)

/-- No walk ends in EEXIST. -/
theorem follow_error {tree : Tree} {last : Bool} {again : Loc → List Name → Except Errno Spot}
    (later : ∀ here rest, again here rest ≠ .error Errno.EEXIST) (here : Loc) (rest : List Name) :
    follow tree last again here rest ≠ .error Errno.EEXIST := by
  -- Each branch has an error of its own, or goes on.
  induction rest generalizing here with
  | nil =>
    rw [follow]
    simp
  | cons name rest ih =>
    rw [follow]
    split
    · simp [Errno.ENOTDIR, Errno.EEXIST]
    split
    · exact ih here
    split
    · exact ih here.dropLast
    split
    · split
      · simp
      · simp [Errno.ENOENT, Errno.EEXIST]
    · split
      · simp
      · exact later _ _
    · exact ih _

theorem resolve_error (tree : Tree) (cwd : Loc) (last : Bool) (path : Text) :
    resolve tree cwd last path ≠ .error Errno.EEXIST := by
  have walks (links : Nat) (here : Loc) (rest : List Name) : walk tree last links here rest ≠ .error Errno.EEXIST := by
    induction links generalizing here rest with
    | zero =>
      refine follow_error (fun _ _ => ?_) here rest
      simp [Errno.ELOOP, Errno.EEXIST]
    | succ links ih => exact follow_error ih here rest
  unfold resolve
  split
  · simp [Errno.ENOENT, Errno.EEXIST]
  · exact walks _ _ _

section Ensure

variable {cwd : Loc} {tree after : Tree} {path : Text} {result : Except Errno Unit}

/-- What the two calls of `ensure_directory` see. -/
theorem standing_spec (tree : Tree) (cwd : Loc) (path : Text) :
    match standing tree cwd path with
    | .directory => ∃ loc, lookup tree cwd true path = .ok (loc, .dir)
    | .obstacle => ∃ loc node, lookup tree cwd true path = .ok (loc, node) ∧ node ≠ .dir
    | .missing loc => (∃ error, lookup tree cwd true path = .error error) ∧ resolve tree cwd false path = .ok (.missing loc)
    | .dangling => (∃ error, lookup tree cwd true path = .error error) ∧
        ∃ loc, resolve tree cwd false path = .ok (.there loc)
    | .barred error => (∃ error, lookup tree cwd true path = .error error) ∧ resolve tree cwd false path = .error error := by
  unfold standing
  cases looked : lookup tree cwd true path with
  | ok found =>
    obtain ⟨loc, node⟩ := found
    cases node with
    | dir => exact ⟨loc, rfl⟩
    | file mode content => exact ⟨loc, _, rfl, by simp⟩
    | link target => exact ⟨loc, _, rfl, by simp⟩
    | special => exact ⟨loc, _, rfl, by simp⟩
  | error error =>
    cases found : resolve tree cwd false path with
    | error other => exact ⟨⟨error, rfl⟩, rfl⟩
    | ok spot =>
      cases spot with
      | there loc => exact ⟨⟨error, rfl⟩, loc, rfl⟩
      | missing loc => exact ⟨⟨error, rfl⟩, rfl⟩

theorem yields_mkdir {loc : Loc} (free : resolve tree cwd false path = .ok (.missing loc)) :
    Yields cwd (mkdir path) tree (.ok ()) (tree.set loc (some .dir)) :=
  .syscall fun _ calm => calm.added free .dir

theorem yields_mkdir_there {loc : Loc} (there : resolve tree cwd false path = .ok (.there loc)) :
    Yields cwd (mkdir path) tree (.error Errno.EEXIST) tree :=
  .syscall_error fun _ calm => calm.added_there there .dir

theorem yields_mkdir_error {error : Errno} (barred : resolve tree cwd false path = .error error) :
    Yields cwd (mkdir path) tree (.error error) tree :=
  .syscall_error fun _ calm => calm.added_error barred .dir

theorem ensureDirectory_yields (returns : ensured tree cwd path = some (result, after)) (rounds : Nat) :
    Yields cwd (ensureDirectory (rounds + 1) path) tree result after := by
  have stated : Yields cwd (attempt (stat path)) tree (.ok (lookup tree cwd true path)) tree := (yields_stat path).attempt
  have spec := standing_spec tree cwd path
  unfold ensured at returns
  unfold ensureDirectory
  apply stated.bind
  -- One case for each way through the two calls.
  cases stands : standing tree cwd path with
  | directory =>
    rw [stands] at returns spec
    obtain ⟨loc, looked⟩ := spec
    cases returns
    rw [looked]
    exact .pure ()
  | obstacle =>
    rw [stands] at returns spec
    obtain ⟨loc, node, looked, other⟩ := spec
    cases returns
    rw [looked]
    cases node with
    | dir => exact absurd rfl other
    | file | link | special => exact .throw Errno.ENOTDIR
  | missing loc =>
    rw [stands] at returns spec
    obtain ⟨⟨error, looked⟩, free⟩ := spec
    cases returns
    rw [looked]
    exact (yields_mkdir free).attempt.bind (.pure ())
  | dangling =>
    rw [stands] at returns
    cases returns
  | barred error =>
    rw [stands] at returns spec
    obtain ⟨⟨other, looked⟩, barred⟩ := spec
    cases returns
    rw [looked]
    apply (yields_mkdir_error barred).attempt.bind
    have new : error ≠ Errno.EEXIST := fun same => resolve_error tree cwd false path (same ▸ barred)
    simp only [if_neg new]
    exact .throw error

/-- The link is there in every round. -/
theorem ensureDirectory_stuck (never : ensured tree cwd path = none) (rounds : Nat) :
    Stuck cwd (ensureDirectory rounds path) tree := by
  have dangling : standing tree cwd path = .dangling := by
    unfold ensured at never
    split at never <;> first | assumption | cases never
  have spec := standing_spec tree cwd path
  rw [dangling] at spec
  obtain ⟨⟨error, looked⟩, loc, there⟩ := spec
  -- Neither call has changed the tree, so the next round sees the same.
  induction rounds with
  | zero => exact fun m _ => ⟨m, rfl⟩
  | succ rounds ih =>
    unfold ensureDirectory
    apply (yields_stat path).attempt.bind_stuck
    rw [looked]
    apply (yields_mkdir_there there).attempt.bind_stuck
    exact ih

end Ensure

/-! ## `mkdir_p` -/

/-- The paths that `mkdir_p` makes directories of, in this order. -/
def prefixes (path : Text) : List Text := cuts (stripSlash path) ++ [stripSlash path]

/-- The directories of a list of paths are made one after the other, up to the first error. -/
def ensuredAll (cwd : Loc) : Tree → List Text → Option (Except Errno Unit × Tree)
  | tree, [] => some (.ok (), tree)
  | tree, path :: rest =>
    match ensured tree cwd path with
    | none => none
    | some (.error error, after) => some (.error error, after)
    | some (.ok (), after) => ensuredAll cwd after rest

section Prefixes

variable {cwd : Loc} {tree after : Tree} {result : Except Errno Unit}

theorem eachOf_yields {paths : List Text} (returns : ensuredAll cwd tree paths = some (result, after)) (rounds : Nat) :
    Yields cwd (eachOf (ensureDirectory (rounds + 1)) paths) tree result after := by
  induction paths generalizing tree with
  | nil =>
    cases returns
    exact .pure ()
  | cons path rest ih =>
    rw [ensuredAll] at returns
    split at returns
    · cases returns
    · rename_i error middle first
      cases returns
      exact (ensureDirectory_yields first rounds).bind_error
    · rename_i middle first
      exact (ensureDirectory_yields first rounds).bind (ih returns)

theorem eachOf_stuck {paths : List Text} (never : ensuredAll cwd tree paths = none) (rounds : Nat) :
    Stuck cwd (eachOf (ensureDirectory rounds) paths) tree := by
  cases rounds with
  | zero =>
    cases paths with
    | nil => cases never
    | cons path rest => exact Stuck.bind fun m _ => ⟨m, rfl⟩
  | succ rounds =>
    induction paths generalizing tree with
    | nil => cases never
    | cons path rest ih =>
      rw [ensuredAll] at never
      split at never
      · rename_i first
        exact (ensureDirectory_stuck first _).bind
      · cases never
      · rename_i middle first
        exact (ensureDirectory_yields first rounds).bind_stuck (ih never)

theorem ensuredAll_append (cwd : Loc) (tree : Tree) (front back : List Text) :
    ensuredAll cwd tree (front ++ back) =
      match ensuredAll cwd tree front with
      | some (.ok (), after) => ensuredAll cwd after back
      | other => other := by
  induction front generalizing tree with
  | nil => rfl
  | cons path rest ih =>
    rw [List.cons_append, ensuredAll, ensuredAll]
    split
    · rfl
    · rfl
    · exact ih _

theorem ensuredAll_singleton (cwd : Loc) (tree : Tree) (path : Text) : ensuredAll cwd tree [path] = ensured tree cwd path := by
  rw [ensuredAll]
  split
  · rename_i same
    exact same.symm
  · rename_i same
    exact same.symm
  · rename_i same
    exact same.symm

section

variable {path : Text}

theorem mkdirP_body (given : path ≠ []) (short : path.length < pathMax) (rounds : Nat) :
    mkdirP rounds path = (do
      eachOf (ensureDirectory rounds) (cuts (stripSlash path))
      ensureDirectory rounds (stripSlash path)) := by
  unfold mkdirP
  rw [if_neg given, if_neg (Nat.not_le_of_lt short)]

theorem mkdirP_yields (given : path ≠ []) (short : path.length < pathMax)
    (returns : ensuredAll cwd tree (prefixes path) = some (result, after)) (rounds : Nat) :
    Yields cwd (mkdirP (rounds + 1) path) tree result after := by
  rw [mkdirP_body given short]
  rw [prefixes, ensuredAll_append] at returns
  split at returns
  · rename_i middle parents
    rw [ensuredAll_singleton] at returns
    exact (eachOf_yields parents rounds).bind (ensureDirectory_yields returns rounds)
  · rename_i other
    rcases result with error | done
    · exact (eachOf_yields returns rounds).bind_error
    · exact absurd returns (other after)

/-- Without a round nothing is done. -/
theorem mkdirP_zero (given : path ≠ []) (short : path.length < pathMax) : Stuck cwd (mkdirP 0 path) tree := by
  rw [mkdirP_body given short]
  cases cuts (stripSlash path) with
  | nil => exact (Yields.pure ()).bind_stuck fun m _ => ⟨m, rfl⟩
  | cons first rest => exact Stuck.bind (Stuck.bind fun m _ => ⟨m, rfl⟩)

theorem mkdirP_stuck (given : path ≠ []) (short : path.length < pathMax)
    (never : ensuredAll cwd tree (prefixes path) = none) (rounds : Nat) : Stuck cwd (mkdirP rounds path) tree := by
  cases rounds with
  | zero => exact mkdirP_zero given short
  | succ rounds =>
    rw [mkdirP_body given short]
    rw [prefixes, ensuredAll_append] at never
    -- It is the last directory that does not come to be, or one in front of it.
    split at never
    · rename_i middle parents
      rw [ensuredAll_singleton] at never
      exact (eachOf_yields parents rounds).bind_stuck (ensureDirectory_stuck never _)
    · exact (eachOf_stuck never _).bind

end

/-! ## It returns, unless it meets a link that leads nowhere -/

/-- The paths are made in order; up to the one that cannot be a directory, none of them is a link that leads nowhere. -/
def Clear (cwd : Loc) : Tree → List Text → Prop
  | _, [] => True
  | tree, path :: rest =>
    match standing tree cwd path with
    | .directory => Clear cwd tree rest
    | .missing loc => Clear cwd (tree.set loc (some .dir)) rest
    | .dangling => False
    | .obstacle | .barred _ => True

theorem clear_iff (paths : List Text) : Clear cwd tree paths ↔ ensuredAll cwd tree paths ≠ none := by
  induction paths generalizing tree with
  | nil => simp [Clear, ensuredAll]
  | cons path rest ih =>
    rw [Clear, ensuredAll, ensured]
    cases standing tree cwd path <;> simp [ih]

end Prefixes

/-- `mkdir_p` returns, with 0 or -1. -/
def Returns (fs : FileSystem) (path : Text) : Prop :=
  ∃ rounds result after, mkdirP rounds path fs.machine = (.done result, after)

/-- The empty path is refused, as the definition has it too. -/
theorem clear_nil (cwd : Loc) (tree : Tree) : Clear cwd tree (prefixes []) := trivial

theorem mkdirP_returns_iff (fs : FileSystem) {path : Text} (short : path.length < pathMax) :
    Returns fs path ↔ Clear fs.cwd fs.tree (prefixes path) := by
  by_cases given : path = []
  · subst given
    exact ⟨fun _ => clear_nil fs.cwd fs.tree, fun _ => ⟨0, .error Errno.EINVAL, _, rfl⟩⟩
  rw [clear_iff]
  constructor
  · rintro ⟨rounds, result, after, done⟩ never
    obtain ⟨m, cut⟩ := mkdirP_stuck given short never rounds fs.machine fs.calm
    cases done.symm.trans cut
  · intro clear
    cases returns : ensuredAll fs.cwd fs.tree (prefixes path) with
    | none => exact absurd returns clear
    | some pair =>
      obtain ⟨result, after⟩ := pair
      obtain ⟨m, done, _⟩ := mkdirP_yields given short returns 0 fs.machine fs.calm
      exact ⟨1, result, m, done⟩

instance (cwd : Loc) (tree : Tree) (paths : List Text) : Decidable (Clear cwd tree paths) :=
  decidable_of_iff _ (clear_iff paths).symm

/-- Nothing but the root, and the rootfs path a link to nowhere. -/
def bareHost : FileSystem := ⟨.bare, [], rfl⟩

def danglingHost : FileSystem := ⟨Tree.bare.set [lit "a"] (some (.link (lit "b"))), [], by decide⟩

theorem returns_bare : Returns bareHost (lit "a//b/") :=
  (mkdirP_returns_iff bareHost (by decide)).mpr (by decide)

theorem dangling_never_returns : ¬ Returns danglingHost (lit "a/c") := by
  rintro ⟨rounds, result, after, done⟩
  have never : ensuredAll danglingHost.cwd danglingHost.tree (prefixes (lit "a/c")) = none := by decide
  obtain ⟨m, cut⟩ := mkdirP_stuck (by decide) (by decide) never rounds danglingHost.machine danglingHost.calm
  cases done.symm.trans cut

end ContainerRuntime.Filesystem
