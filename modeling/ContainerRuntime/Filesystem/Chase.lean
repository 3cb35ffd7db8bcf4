import ContainerRuntime.Filesystem.Mirror

/-! The chase of links against the walk of the host's kernel.

Each call of `copy_path_into_rootfs` is about what is left of the kernel's walk:
the link that it copies is the next one of the walk. So a copy that returns 0 has
made a path through the rootfs, with no more links than the kernel has followed.
-/

set_option autoImplicit false

namespace ContainerRuntime.Filesystem

open CString Program

/-! ## The copy of a file -/

section Files

variable {α β : Type} {tree : Tree} {cwd place : Loc} {src dst : Text}

theorem bind_ok {p : Sys α} {f : α → Sys β} {m m' : Machine} {value : β}
    (done : (p >>= f : Sys β) m = (.done (.ok value), m')) :
    ∃ a middle, p m = (.done (.ok a), middle) ∧ f a middle = (.done (.ok value), m') := by
  rw [sys_bind] at done
  split at done
  · rename_i a middle first
    exact ⟨a, middle, first, done⟩
  · cases done
  · cases done

theorem syscall_ok {effect : Machine → Except Errno (Machine × α)} {m m' : Machine} {value : α}
    (done : Filesystem.syscall effect m = (.done (.ok value), m')) : effect m.later = .ok (m', value) := by
  unfold Filesystem.syscall at done
  split at done
  · cases done
  · split at done
    · cases done
    · rename_i after result effected
      cases done
      exact effected

/-- Another entry may take the place of one that is no directory. -/
theorem Tree.settable_there {node : Node} (there : tree.node place = some node) (plain : node ≠ .dir) (entry : Option Node) :
    tree.Settable place entry := by
  have other : tree.node place ≠ some .dir := by
    rw [there]
    intro dir
    exact plain (Option.some.inj dir)
  refine ⟨other, fun _ => ?_⟩
  rcases List.eq_nil_or_concat place with rfl | ⟨dir, name, rfl⟩
  · exact absurd tree.root other
  · rw [List.concat_eq_append] at there ⊢
    rw [List.dropLast_concat, List.getLastD_concat]
    exact tree.parents dir name (by rw [there]; simp)

/-- The file at the destination is empty, and open. -/
theorem openTruncated_ok {mode : Nat} {m m' : Machine} {target : Touch} (calm : m.Calm tree cwd)
    (leads : ∀ spot, resolve tree cwd true dst = .ok spot → spot.loc = place) (ordinary : tree.node place ≠ some .special)
    (settable : tree.node place ≠ some .dir → ∀ entry, tree.Settable place entry)
    (done : openTruncated dst mode m = (.done (.ok target), m')) :
    tree.node place ≠ some .dir ∧ target.loc = place ∧ ∃ kept empty, m'.Calm empty cwd ∧
      ∀ loc, empty.node loc = if loc = place then some (.file kept []) else tree.node loc := by
  have effected := syscall_ok done
  obtain ⟨rfl, rfl, quiet⟩ := calm
  unfold Machine.truncated at effected
  split at effected
  · cases effected
  rename_i spot found
  have here : spot.loc = place := leads spot found
  simp only [here] at effected
  -- What the call finds decides the mode of the file.
  cases entry : m.tree.node place with
  | none =>
    simp only [Machine.later, entry] at effected
    cases effected
    have plain : m.tree.node place ≠ some .dir := by simp [entry]
    exact ⟨by simp, rfl, _, _, ⟨rfl, rfl, quiet⟩, fun loc => Tree.node_set (settable plain _)⟩
  | some node =>
    simp only [Machine.later, entry] at effected
    cases node with
    | dir | link => cases effected
    | special => exact absurd entry ordinary
    | file old content =>
      cases effected
      have plain : m.tree.node place ≠ some .dir := by simp [entry]
      exact ⟨by simp, rfl, _, _, ⟨rfl, rfl, quiet⟩, fun loc => Tree.node_set (settable plain _)⟩

theorem copyFileContents_ok {source : Loc} {target : Touch} {mode kept : Nat} {content old : Text} {m m' : Machine}
    (calm : m.Calm tree cwd) (file : tree.node source = some (.file mode content))
    (opened : tree.node target.loc = some (.file kept old)) (done : copyFileContents source target m = (.done (.ok ()), m')) :
    ∃ after, m'.Calm after cwd ∧
      ∀ loc, after.node loc = if loc = target.loc then some (.file kept content) else tree.node loc := by
  obtain ⟨rfl, rfl, quiet⟩ := calm
  unfold copyFileContents at done
  simp only [file, quiet] at done
  cases done
  refine ⟨_, ⟨rfl, ?_, ?_⟩, ?_⟩
  · simp only [Machine.written, Machine.later, opened]
    rfl
  · simp only [Machine.written, Machine.later, opened]
    exact quiet
  · intro loc
    simp only [Machine.written, Machine.later, opened]
    exact Tree.node_set (Tree.settable_there opened (by simp) _)

/-- The content has come to the place that the destination leads to. -/
theorem copyRegularFile_ok {source : Loc} {mode : Nat} {content : Text} {m m' : Machine} (calm : m.Calm tree cwd)
    (looked : lookup tree cwd true src = .ok (source, .file mode content)) (apart : source ≠ place)
    (leads : ∀ spot, resolve tree cwd true dst = .ok spot → spot.loc = place) (ordinary : tree.node place ≠ some .special)
    (settable : tree.node place ≠ some .dir → ∀ entry, tree.Settable place entry)
    (done : copyRegularFile src dst m = (.done (.ok ()), m')) :
    tree.node place ≠ some .dir ∧ ∃ kept after, m'.Calm after cwd ∧
      ∀ loc, after.node loc = if loc = place then some (.file kept content) else tree.node loc := by
  unfold copyRegularFile at done
  obtain ⟨found, m₁, stated, done⟩ := bind_ok done
  obtain ⟨opened, m₂, read, done⟩ := bind_ok done
  obtain ⟨target, m₃, truncated, done⟩ := bind_ok done
  obtain ⟨_, m₄, copied, done⟩ := bind_ok done
  obtain ⟨_, m₅, closed, done⟩ := bind_ok done
  obtain ⟨-, calm₁⟩ := (yields_stat src).done calm stated
  have reading := syscall_ok read
  have calm₁' : m₁.later.Calm tree cwd := ⟨calm₁.tree, calm₁.cwd, calm₁.quiet⟩
  rw [calm₁'.entry, looked] at reading
  cases reading
  obtain ⟨plain, here, kept, empty, calm₃, emptied⟩ := openTruncated_ok calm₁' leads ordinary settable truncated
  subst here
  have file : empty.node source = some (.file mode content) := by
    rw [emptied, if_neg apart]
    exact (lookup_iff.mp looked).2
  have opened : empty.node target.loc = some (.file kept []) := by rw [emptied, if_pos rfl]
  obtain ⟨after, calm₄, node⟩ := copyFileContents_ok calm₃ file opened copied
  refine ⟨plain, kept, after, ?_, fun loc => ?_⟩
  · have first := syscall_ok closed
    cases first
    have second := syscall_ok done
    cases second
    exact ⟨calm₄.tree, calm₄.cwd, calm₄.quiet⟩
  · rw [node, emptied]
    split
    · rfl
    · rfl

end Files

/-! ## Copies that lead to the content -/

/-- The path has been copied, and so have the links behind it: `n` of them lead to a copied file. `Met` holds of the
path and of each text that a link has led to. -/
inductive Served {host : Tree} (additions : Additions host) (root : Loc) (tree : Tree) (Met : Text → Prop) (content : Text) :
    Nat → Text → Prop where
  | file (path : Text) (front : List Name) (name : Name) (met : Met path) (passed : Passed root tree path front name)
      (due : additions.Due (reduced front ++ [name]) content)
      (there : tree.Holds (root ++ (reduced front ++ [name])) content) : Served additions root tree Met content 0 path
  | link (n : Nat) (path : Text) (front : List Name) (name : Name) (target next : Text) (met : Met path)
      (passed : Passed root tree path front name)
      (there : tree.node (root ++ (reduced front ++ [name])) = some (.link target))
      (resolved : resolveSymlinkTarget path target = .ok next) (later : Served additions root tree Met content n next) :
      Served additions root tree Met content (n + 1) path

namespace Served

variable {host tree after inside : Tree} {additions : Additions host} {root : Loc} {Met : Text → Prop} {content : Text} {n : Nat}
  {path : Text} {hidden : List Name}

theorem passed (served : Served additions root tree Met content n path) : ∃ front name, Passed root tree path front name := by
  cases served with
  | file _ front name _ passed => exact ⟨front, name, passed⟩
  | link _ _ front name _ _ _ passed => exact ⟨front, name, passed⟩

theorem renewed (served : Served additions root tree Met content n path) (renewed : Renewed additions root tree after) :
    Served additions root after Met content n path := by
  induction served with
  | file path front name met passed due there =>
    exact .file path front name met (passed.renewed renewed.dirs) due (renewed.files _ _ due there)
  | link n path front name target next met passed there resolved _ ih =>
    exact .link n path front name target next met (passed.renewed renewed.dirs) (renewed.links _ _ there) resolved ih

/-- A process that sees the rootfs, but for some names that are not met, comes to the file. -/
theorem walks (served : Served additions root tree Met content n path) (clear : ∀ text, Met text → ∀ name ∈ components text, name ∉ hidden)
    (sees : ∀ loc node, (∀ name ∈ loc, name ∉ hidden) → tree.node (root ++ loc) = some node → inside.node loc = some node) :
    ∃ place, Walks inside true n [] (components path) (.there place) ∧ inside.Holds place content := by
  have shown : ∀ {path front name part node}, Met path → Passed root tree path front name → part <+: front ++ [name] →
      tree.node (root ++ reduced part) = some node → inside.node (reduced part) = some node := by
    intro path front name part node met passed shorter there
    refine sees _ _ (fun name member => ?_) there
    apply clear path met
    rw [passed.parts]
    exact shorter.subset (mem_reduced member)
  -- By induction on the links: in front of each name the walk goes through directories.
  have through : ∀ {path front name rest spot links}, Met path → Passed root tree path front name →
      (Walks inside true links [] (front ++ rest) spot ↔ Walks inside true links (reduced front) rest spot) := by
    intro path front name rest spot links met passed
    have dirs : ∀ part, part <+: front → inside.node ([] ++ reduced part) = some .dir := by
      intro part shorter
      exact shown met passed (shorter.trans (List.prefix_append front [name])) (passed.dirs part shorter)
    have walks : Walks inside true links ([] ++ []) (front ++ rest) spot ↔
        Walks inside true links ([] ++ reduced front) rest spot := walks_reduced passed.deep dirs
    rwa [List.nil_append, List.nil_append] at walks
  have dir : ∀ {path front name}, Met path → Passed root tree path front name → inside.node (reduced front) = some .dir :=
    fun met passed => shown met passed (List.prefix_append _ _) (passed.dirs _ (List.prefix_refl _))
  have last : ∀ {path front name node}, Met path → Passed root tree path front name →
      tree.node (root ++ (reduced front ++ [name])) = some node → inside.node (reduced front ++ [name]) = some node := by
    intro path front name node met passed there
    rw [← passed.reduced_eq, passed.parts] at there ⊢
    exact shown met passed (List.prefix_refl _) there
  induction served with
  | file path front name met passed due there =>
    obtain ⟨mode, file⟩ := there
    have seen := last met passed file
    refine ⟨reduced front ++ [name], ?_, mode, seen⟩
    rw [passed.parts, through met passed]
    exact .enter 0 (reduced front) name [] _ _ (dir met passed) passed.plain seen (by simp) (.done 0 _)
  | link n path front name target next met passed there resolved later ih =>
    obtain ⟨place, leads, holds⟩ := ih
    refine ⟨place, ?_, holds⟩
    rw [passed.parts, through met passed]
    apply Walks.link n (reduced front) name [] target _ (dir met passed) passed.plain (last met passed there) (by simp)
    obtain ⟨front', name', passed'⟩ := later.passed
    obtain ⟨-, next_parts⟩ := components_resolved passed.parts passed.plain.1 resolved passed'.parts passed'.plain.1
    rw [next_parts] at leads
    rw [List.append_nil]
    split
    · rename_i start
      rwa [if_pos start] at leads
    · rename_i start
      rw [if_neg start] at leads
      exact (through met passed).mp leads

end Served

/-! ## The chase of links -/

/-- What the next call of `copy_path_into_rootfs` is about. -/
def Points (host : Tree) (path next : Text) : Prop :=
  ∃ place target, lookup host [] false path = .ok (place, .link target) ∧ resolveSymlinkTarget path target = .ok next

/-- No link has a target that `readlink` would cut. -/
def Tree.Fits (host : Tree) : Prop := ∀ loc target, host.node loc = some (.link target) → target.length < pathMax

section Hops

variable {host tree : Tree} {additions : Additions host} {root cwd here place loc : Loc} {path dir : Text} {content : Text} {rest : List Name} {links : Nat}
  {node : Node} {Met : Text → Prop}

/-- What is no directory is found under a name. -/
theorem Walks.last_name {last : Bool} (walks : Walks tree last links here rest (.there loc)) (start : tree.node here = some .dir)
    (other : tree.node loc ≠ some .dir) : ∃ front name, rest = front ++ [name] ∧ name ≠ Filesystem.dot ∧ name ≠ dotDot := by
  rcases List.eq_nil_or_concat rest with rfl | ⟨front, name, rfl⟩
  · cases walks
    exact absurd start other
  · rw [List.concat_eq_append] at walks ⊢
    obtain ⟨middle, fewer, -, -, dir, onward⟩ := walks.split rfl (by simp)
    refine ⟨front, name, rfl, ?_, ?_⟩
    · rintro rfl
      rw [walks_dot dir] at onward
      cases onward
      exact other dir
    · rintro rfl
      rw [walks_up dir] at onward
      cases onward
      exact other (Tree.dir_dropLast dir)

theorem mkdirP_ok {rounds : Nat} {m m' : Machine} (calm : m.Calm tree cwd) (done : mkdirP rounds path m = (.done (.ok ()), m')) :
    ∃ made, ensuredAll cwd tree (prefixes path) = some (.ok (), made) ∧ m'.Calm made cwd := by
  have given : path ≠ [] := by
    rintro rfl
    cases done
  have short : path.length < pathMax := by
    by_contra long
    unfold mkdirP at done
    rw [if_neg given, if_pos (Nat.le_of_not_lt long)] at done
    cases done
  cases rounds with
  | zero => exact absurd done fun done => (mkdirP_zero given short).not_done calm done
  | succ rounds =>
    cases returns : ensuredAll cwd tree (prefixes path) with
    | none => exact absurd done fun done => (mkdirP_stuck given short returns _).not_done calm done
    | some pair =>
      obtain ⟨result, made⟩ := pair
      obtain ⟨rfl, calm₁⟩ := (mkdirP_yields given short returns rounds).done calm done
      exact ⟨made, rfl, calm₁⟩

theorem copyPath_step {rounds hops : Nat} {m m' : Machine} (calm : m.Calm tree cwd)
    (done : copyPathIntoRootfs rounds (Loc.text root) (hops + 1) path m = (.done (.ok ()), m')) :
    ∃ dir made m₁, destinationDir (Loc.text root) path = .ok dir ∧
      ensuredAll cwd tree (prefixes dir) = some (.ok (), made) ∧ m₁.Calm made cwd ∧
      copyArrived rounds (Loc.text root) hops path m₁ = (.done (.ok ()), m') := by
  rw [copyPath_eq] at done
  obtain ⟨dir, m₀, named, done⟩ := bind_ok done
  cases parent : destinationDir (Loc.text root) path with
  | error error =>
    rw [parent] at named
    cases named
  | ok dir' =>
    rw [parent] at named
    cases named
    obtain ⟨_, m₁, makes, done⟩ := bind_ok done
    obtain ⟨made, returns, calm₁⟩ := mkdirP_ok calm makes
    exact ⟨dir, made, m₁, rfl, returns, calm₁, done⟩

/-- What `lstat` has found, and what the source does with it. -/
theorem copyArrived_ok {rounds hops : Nat} {m m' : Machine} (calm : m.Calm tree cwd)
    (done : copyArrived rounds (Loc.text root) hops path m = (.done (.ok ()), m')) :
    (∃ loc mode content m₁, lookup tree cwd false path = .ok (loc, .file mode content) ∧ m₁.Calm tree cwd ∧
      copyRegularFile path (Loc.text root ++ path) m₁ = (.done (.ok ()), m')) ∨
    ∃ loc target after next m₁, lookup tree cwd false path = .ok (loc, .link target) ∧
      relinked tree cwd (target.take (pathMax - 1)) (Loc.text root ++ path) = .ok after ∧
      resolveSymlinkTarget path (target.take (pathMax - 1)) = .ok next ∧ m₁.Calm after cwd ∧
      copyPathIntoRootfs rounds (Loc.text root) hops next m₁ = (.done (.ok ()), m') := by
  unfold copyArrived at done
  obtain ⟨⟨loc, node⟩, m₁, stated, done⟩ := bind_ok done
  obtain ⟨looked, calm₁⟩ := (yields_lstat path).done calm stated
  cases node with
  | dir | special => cases done
  | file mode content => exact .inl ⟨loc, mode, content, m₁, looked.symm, calm₁, done⟩
  | link target =>
    obtain ⟨text, m₂, read, done⟩ := bind_ok done
    obtain ⟨same, calm₂⟩ := (yields_readlink looked.symm).done calm₁ read
    cases same
    obtain ⟨_, m₃, linked, done⟩ := bind_ok done
    obtain ⟨next, m₄, resolved, done⟩ := bind_ok done
    right
    cases copied : relinked tree cwd (target.take (pathMax - 1)) (Loc.text root ++ path) with
    | error error =>
      obtain ⟨left, fails⟩ := copySymlink_error looked.symm copied
      obtain ⟨absurd, -⟩ := fails.done calm₂ linked
      cases absurd
    | ok after =>
      obtain ⟨-, calm₃⟩ := (copySymlink_ok looked.symm copied).done calm₂ linked
      cases resolved_eq : resolveSymlinkTarget path (target.take (pathMax - 1)) with
      | error error =>
        rw [resolved_eq] at resolved
        cases resolved
      | ok found =>
        rw [resolved_eq] at resolved
        cases resolved
        exact ⟨loc, target, after, next, m₃, looked.symm, copied, resolved_eq, calm₃, done⟩

theorem parent_dir (there : tree.node loc = some node) (other : node ≠ .dir) : tree.node loc.dropLast = some .dir := by
  rcases List.eq_nil_or_concat loc with rfl | ⟨dir, name, rfl⟩
  · rw [tree.root] at there
    exact absurd (Option.some.inj there).symm other
  · rw [List.concat_eq_append] at there ⊢
    rw [List.dropLast_concat]
    exact (tree.parents dir name (by rw [there]; simp)).1

/-- Where the walk of the host's kernel is that the source is following with its calls. -/
structure Chase (host : Tree) (path : Text) (links : Nat) (here : Loc) (rest : List Name) (place : Loc) : Prop where
  walks : Walks host true links here rest (.there place)
  solid : host.Solid here
  same : ∀ loc, walk host false maxLinks [] (components path) = .ok (.there loc) → host.node loc ≠ some .dir →
    ∃ budget, Walks host false budget here rest (.there loc)

namespace Chase

variable {target further : Text}

theorem start (looked : lookup host [] true path = .ok (place, node)) :
    Chase host path maxLinks [] (components path) place := by
  obtain ⟨found, -⟩ := lookup_iff.mp looked
  unfold resolve at found
  split at found
  · cases found
  · rw [ite_self] at found
    exact ⟨.of_walk found, Tree.solid_of_dir host.root, fun _ leads _ => ⟨_, .of_walk leads⟩⟩

theorem onward (chase : Chase host path links here rest place)
    (found : walk host false maxLinks [] (components path) = .ok (.there loc)) (link : host.node loc = some (.link target)) :
    ∃ fewer, fewer < links ∧
      Walks host true fewer (if isAbsolute target then [] else loc.dropLast) (components target) (.there place) := by
  obtain ⟨budget, leads⟩ := chase.same loc found (by simp [link])
  exact leads.through rfl link chase.solid chase.walks

/-- The link does not lead to a directory, as the walk ends at something else. -/
theorem linkAt {names : Loc} (chase : Chase host path links here rest place) (other : host.node place ≠ some .dir)
    (found : walk host false maxLinks [] (components path) = .ok (.there loc)) (link : host.node loc = some (.link target))
    (named : walk host false maxLinks [] names = .ok (.there loc)) : host.LinkAt names target := by
  refine ⟨⟨loc, named, link⟩, fun budget last leads => ?_⟩
  obtain ⟨fewer, -, goes⟩ := chase.onward found link
  obtain ⟨fewer', -, goes'⟩ := (Walks.of_walk named).through rfl link (Tree.solid_of_dir host.root) leads
  cases goes.unique goes'
  exact other

/-- The next call is about the rest of the walk. -/
theorem next (chase : Chase host path links here rest place)
    (found : walk host false maxLinks [] (components path) = .ok (.there loc)) (link : host.node loc = some (.link target))
    (resolved : resolveSymlinkTarget path target = .ok further) :
    ∃ fewer here' rest', fewer < links ∧ Chase host further fewer here' rest' place := by
  obtain ⟨fewer, fits, goes⟩ := chase.onward found link
  have dir : host.node loc.dropLast = some .dir := parent_dir link (by simp)
  refine ⟨fewer, _, _, fits, goes, Tree.solid_start dir target, fun loc' found' other => ?_⟩
  have leads := Walks.of_walk found
  obtain ⟨front, name, parts, plain⟩ := leads.last_name host.root (by simp [link])
  obtain ⟨front', name', parts', plain'⟩ := (Walks.of_walk found').last_name host.root other
  obtain ⟨given, next_parts⟩ := components_resolved parts plain.1 resolved parts' plain'.1
  have leads' := Walks.of_walk found'
  rw [next_parts] at leads'
  split
  · rename_i start
    rw [if_pos start] at leads'
    exact ⟨_, leads'⟩
  · rename_i start
    rw [if_neg start] at leads'
    -- Both paths lead through the directory of the link.
    rw [parts] at leads
    obtain ⟨middle, _, -, way, -, last⟩ := leads.split rfl (by simp)
    obtain ⟨middle', budget, -, way', -, goes'⟩ := leads'.split rfl given
    cases way.unique way'
    rcases walks_name plain last with ⟨absurd, -⟩ | ⟨ends, -⟩
    · cases absurd
    · cases ends
      rw [List.dropLast_concat]
      exact ⟨budget, goes'⟩

theorem file {mode : Nat} (chase : Chase host path links here rest place)
    (found : walk host false maxLinks [] (components path) = .ok (.there loc))
    (file : host.node loc = some (.file mode content)) : loc = place := by
  obtain ⟨budget, leads⟩ := chase.same loc found (by simp [file])
  have whole := leads.whole rfl (by intro target link; cases file.symm.trans link)
  cases whole.unique chase.walks
  rfl

end Chase

/-- What a call finds behind its `mkdir_p`: the host's entry, and the directories of its copy. -/
structure Arrived (host : Tree) (root : Loc) (made : Tree) (path : Text) (loc : Loc) (node : Node) (front : List Name)
    (name : Name) : Prop where
  passed : Passed root made path front name
  found : walk host false maxLinks [] (components path) = .ok (.there loc)
  named : walk host false maxLinks [] (reduced front ++ [name]) = .ok (.there loc)
  there : host.node loc = some node
  outside : ¬ root <+: loc

theorem Mirrored.arrives {made : Tree} (mirrored : Mirrored host root tree) (inner : root ≠ [])
    (proper : ∀ name ∈ root, Proper name) (parent : destinationDir (Loc.text root) path = .ok dir)
    (makes : ensuredAll cwd tree (prefixes dir) = some (.ok (), made))
    (looked : lookup made cwd false path = .ok (loc, node)) (other : node ≠ .dir)
    (lexical : Lexical host root (components path)) :
    Mirrored host root made ∧ Renewed additions root tree made ∧ ∃ front name, Arrived host root made path loc node front name := by
  obtain ⟨found, there⟩ := lookup_iff.mp looked
  have absolute : isAbsolute path = true := by
    unfold destinationDir at parent
    split at parent
    · cases parent
    · rename_i start
      simpa using start
  have given : path ≠ [] := by
    rintro rfl
    cases absolute
  rw [resolve, if_neg given, if_pos absolute] at found
  obtain ⟨front, name, parts, plain⟩ :=
    (Walks.of_walk found).last_name made.root (by rw [there]; intro dir; exact other (Option.some.inj dir))
  rw [parts] at lexical
  obtain ⟨-, behind, tokens⟩ := destinationDir_parts inner proper parts plain.1 parent
  obtain ⟨mirrored', renewed, dirs, -⟩ :=
    mirrored.ensured (lexical.deep.initial (List.prefix_append front [name])) (mirrored.unlinked lexical) behind tokens makes
  refine ⟨mirrored', renewed, front, name, ?_⟩
  have outside_top : ¬ root <+: ([] : Loc) := fun inside => inner (List.prefix_nil.mp inside)
  -- The walk of the host does not come to the rootfs, so that it finds the same as before.
  rw [parts, walk_apart inner mirrored'.agree outside_top lexical.apart] at found
  have outside := (Walks.of_walk found).apart inner outside_top lexical.apart
  refine ⟨⟨absolute, parts, plain, lexical.deep.initial (List.prefix_append front [name]), dirs⟩, ?_, ?_, ?_, outside⟩
  · rw [parts, found]
  · have named := lexical.same loc found
    rwa [reduced, reducedFrom_concat plain] at named
  · rw [← there, mirrored'.agree loc outside]

/-- A file of the host comes to where it is due. -/
theorem Mirrored.filed {made : Tree} {src : Text} {front : List Name} {name : Name} {mode : Nat} {m m' : Machine}
    (mirrored : Mirrored host root made) (proper : ∀ name ∈ root, Proper name) (passed : Passed root made path front name)
    (due : additions.Due (reduced front ++ [name]) content) (calm : m.Calm made cwd)
    (looked : lookup made cwd true src = .ok (loc, .file mode content)) (outside : ¬ root <+: loc)
    (done : copyRegularFile src (Loc.text root ++ path) m = (.done (.ok ()), m')) :
    ∃ after, m'.Calm after cwd ∧ Mirrored host root after ∧ Renewed additions root made after ∧
      after.Holds (root ++ (reduced front ++ [name])) content := by
  have solid : made.Solid (root ++ (reduced front ++ [name])) := fun target link => due.no_link (mirrored.links _ target link)
  have apart : loc ≠ root ++ (reduced front ++ [name]) := by
    rintro rfl
    exact outside (List.prefix_append _ _)
  obtain ⟨plain, kept, after, calm', node⟩ := copyRegularFile_ok calm looked apart
    (fun spot leads => passed.opened proper solid leads) (mirrored.ordinary _) passed.settable done
  have copy : additions.Original (reduced front ++ [name]) (.file kept content) := due
  obtain ⟨mirrored', renewed⟩ := mirrored.put copy plain node
  exact ⟨after, calm', mirrored', renewed, kept, by rw [node, if_pos rfl]⟩

/-- Where the host's kernel finds a regular file, a copy that returns 0 has made a path to its content. -/
theorem copyPath_serves {mode rounds hops : Nat} {m m' : Machine} (inner : root ≠ []) (proper : ∀ name ∈ root, Proper name)
    (fits : host.Fits) (met : Met path) (closed : ∀ text next, Met text → Points host text next → Met next)
    (lexical : ∀ text, Met text → Lexical host root (components text))
    (chase : Chase host path links here rest place) (original : host.node place = some (.file mode content))
    (mirrored : Mirrored host root tree) (calm : m.Calm tree cwd)
    (done : copyPathIntoRootfs rounds (Loc.text root) hops path m = (.done (.ok ()), m')) :
    ∃ n after, n ≤ links ∧ m'.Calm after cwd ∧ Mirrored host root after ∧ Renewed additions root tree after ∧
      Served additions root after Met content n path := by
  -- By induction on the calls, each of which is about the rest of the kernel's walk.
  induction hops generalizing path tree m links here rest with
  | zero => cases done
  | succ hops ih =>
    obtain ⟨dir, made, m₁, parent, makes, calm₁, done⟩ := copyPath_step calm done
    have text := lexical path met
    rcases copyArrived_ok calm₁ done with ⟨loc, mode', content', m₂, looked, calm₂, done⟩ |
      ⟨loc, target, after, next, m₂, looked, copied, resolved, calm₂, done⟩
    · obtain ⟨mirrored', renewed, front, name, arrived⟩ := mirrored.arrives inner proper parent makes looked (by simp) text
      have passed := arrived.passed
      -- The file is what the kernel's walk ends at.
      have same := chase.file arrived.found arrived.there
      subst same
      cases original.symm.trans arrived.there
      have due : additions.Due (reduced front ++ [name]) content := .inl ⟨loc, mode, arrived.named, arrived.there⟩
      have stated : lookup made cwd true path = .ok (loc, .file mode content) := by
        obtain ⟨found, there⟩ := lookup_iff.mp looked
        refine lookup_iff.mpr ⟨?_, there⟩
        unfold resolve at found ⊢
        split at found
        · cases found
        · rename_i given
          rw [if_neg given]
          exact ((Walks.of_walk found).whole rfl (by intro target link; cases there.symm.trans link)).walk
      obtain ⟨after, calm₃, mirrored'', renewed', there⟩ :=
        mirrored'.filed proper passed due calm₂ stated arrived.outside done
      refine ⟨0, after, Nat.zero_le links, calm₃, mirrored'', renewed.trans renewed', ?_⟩
      exact .file path front name met (passed.renewed renewed'.dirs) due there
    · obtain ⟨mirrored', renewed, front, name, arrived⟩ := mirrored.arrives inner proper parent makes looked (by simp) text
      have passed := arrived.passed
      have whole : target.take (pathMax - 1) = target := by
        have short := fits loc target arrived.there
        exact List.take_of_length_le (by omega)
      rw [whole] at copied resolved
      have copy : additions.Original (reduced front ++ [name]) (.link target) :=
        chase.linkAt (by simp [original]) arrived.found arrived.there arrived.named
      obtain ⟨plain, node⟩ := passed.relinked_node proper copied
      obtain ⟨mirrored'', renewed'⟩ := mirrored'.put copy plain node
      obtain ⟨fewer, here', rest', less, chase'⟩ := chase.next arrived.found arrived.there resolved
      have points : Points host path next := by
        refine ⟨loc, target, lookup_iff.mpr ⟨?_, arrived.there⟩, resolved⟩
        have given : path ≠ [] := by
          rintro rfl
          cases passed.absolute
        rw [resolve, if_neg given, ite_self]
        exact arrived.found
      obtain ⟨n, final, fits_n, calm₃, mirrored₃, renewed₃, served⟩ :=
        ih (closed path next met points) chase' mirrored'' calm₂ done
      refine ⟨n + 1, final, by omega, calm₃, mirrored₃, renewed.trans (renewed'.trans renewed₃), ?_⟩
      apply Served.link n path front name target next met (passed.renewed (renewed'.trans renewed₃).dirs) _ resolved served
      apply renewed₃.links
      rw [node, if_pos rfl]

end Hops

end ContainerRuntime.Filesystem
