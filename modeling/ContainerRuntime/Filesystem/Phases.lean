import ContainerRuntime.Filesystem.Chase
import ContainerRuntime.Logic.Failing

/-! The phases of `filesystem_prepare_rootfs`, and what each adds to the rootfs.

A phase that returns has put directories, links or files there. What it has put
there is still there after the phases that follow.
-/

set_option autoImplicit false

namespace ContainerRuntime.Filesystem

open CString Program

/-! ## Phases that keep what is there -/

section Phases

variable {α β : Type} {host : Tree} (additions : Additions host) (root cwd : Loc)

/-- The rootfs has been filled from `base` on, and this is known of it. -/
def Supplied (base : Tree) (P : Tree → Prop) (m : Machine) : Prop :=
  ∃ tree, m.Calm tree cwd ∧ Mirrored host root tree ∧ Renewed additions root base tree ∧ P tree

/-- Where the program returns, the rootfs has been filled further. -/
def Supplies (P : Tree → Prop) (p : Sys α) (Q : α → Tree → Prop) : Prop :=
  ∀ base, Ends (Supplied additions root cwd base P) p (fun a => Supplied additions root cwd base (Q a)) fun _ _ => True

/-- What later phases do not undo. -/
def Lasting (P : Tree → Prop) : Prop := ∀ tree after, Renewed additions root tree after → P tree → P after

variable {additions root cwd} {P K : Tree → Prop} {p : Sys α} {Q : α → Tree → Prop}

theorem Supplies.of_step
    (step : ∀ {tree m m' a}, m.Calm tree cwd → Mirrored host root tree → P tree → p m = (.done (.ok a), m') →
      ∃ after, m'.Calm after cwd ∧ Mirrored host root after ∧ Renewed additions root tree after ∧ Q a after) :
    Supplies additions root cwd P p Q := by
  intro base
  refine ⟨fun m a m' pre done => ?_, fun _ _ _ _ _ => trivial⟩
  obtain ⟨tree, calm, mirrored, renewed, holds⟩ := pre
  obtain ⟨after, calm', mirrored', renewed', holds'⟩ := step calm mirrored holds done
  exact ⟨after, calm', mirrored', renewed.trans renewed', holds'⟩

theorem Supplies.step {tree : Tree} {m m' : Machine} {a : α} (supplies : Supplies additions root cwd P p Q) (calm : m.Calm tree cwd)
    (mirrored : Mirrored host root tree) (holds : P tree) (done : p m = (.done (.ok a), m')) :
    ∃ after, m'.Calm after cwd ∧ Mirrored host root after ∧ Renewed additions root tree after ∧ Q a after :=
  (supplies tree).returns m a m' ⟨tree, calm, mirrored, .refl, holds⟩ done

theorem Supplies.bind {f : α → Sys β} {S : β → Tree → Prop} (first : Supplies additions root cwd P p Q)
    (next : ∀ a, Supplies additions root cwd (Q a) (f a) S) : Supplies additions root cwd P (p >>= f) S :=
  fun base => (first base).bind fun a => next a base

theorem Supplies.conseq {P' : Tree → Prop} {Q' : α → Tree → Prop} (supplies : Supplies additions root cwd P p Q)
    (pre : ∀ tree, P' tree → P tree) (post : ∀ a tree, Q a tree → Q' a tree) : Supplies additions root cwd P' p Q' := by
  intro base
  apply (supplies base).conseq _ _ fun _ _ _ => trivial
  · rintro m ⟨tree, calm, mirrored, renewed, holds⟩
    exact ⟨tree, calm, mirrored, renewed, pre tree holds⟩
  · rintro a m ⟨tree, calm, mirrored, renewed, holds⟩
    exact ⟨tree, calm, mirrored, renewed, post a tree holds⟩

theorem Supplies.pure (value : α) : Supplies additions root cwd P (Pure.pure value : Sys α) fun _ => P :=
  .of_step fun calm mirrored holds done => by
    cases done
    exact ⟨_, calm, mirrored, .refl, holds⟩

theorem Supplies.throw (error : Errno) : Supplies additions root cwd P (throw error : Sys α) Q :=
  .of_step fun _ _ _ done => by cases done

theorem Supplies.given {fact : Prop} (supplies : fact → Supplies additions root cwd P p Q) :
    Supplies additions root cwd (fun tree => fact ∧ P tree) p Q := by
  apply Supplies.of_step
  rintro tree m m' a calm mirrored ⟨known, holds⟩ done
  exact (supplies known).step calm mirrored holds done

/-- What lasts is known afterwards, too. -/
theorem Supplies.frame (supplies : Supplies additions root cwd P p Q) (lasting : Lasting additions root K) :
    Supplies additions root cwd (fun tree => P tree ∧ K tree) p fun a tree => Q a tree ∧ K tree := by
  apply Supplies.of_step
  rintro tree m m' a calm mirrored ⟨holds, kept⟩ done
  obtain ⟨after, calm', mirrored', renewed, holds'⟩ := supplies.step calm mirrored holds done
  exact ⟨after, calm', mirrored', renewed, holds', lasting tree after renewed kept⟩

/-- Every element gets its own. -/
theorem Supplies.eachOf {body : α → Sys Unit} {items : List α} {G : α → Tree → Prop}
    (each : ∀ item ∈ items, Supplies additions root cwd P (body item) fun _ tree => P tree ∧ G item tree)
    (lasting : ∀ item ∈ items, Lasting additions root (G item)) :
    Supplies additions root cwd P (Filesystem.eachOf body items) fun _ tree => P tree ∧ ∀ item ∈ items, G item tree := by
  induction items with
  | nil => exact (Supplies.pure ()).conseq (fun _ holds => holds) fun _ _ holds => ⟨holds, fun _ absent => by cases absent⟩
  | cons first rest ih =>
    have later := ih (fun item member => each item (List.mem_cons_of_mem first member))
      fun item member => lasting item (List.mem_cons_of_mem first member)
    apply (each first List.mem_cons_self).bind
    intro _
    apply (later.frame (lasting first List.mem_cons_self)).conseq (fun _ holds => holds)
    rintro _ tree ⟨⟨holds, others⟩, own⟩
    exact ⟨holds, List.forall_mem_cons.mpr ⟨own, others⟩⟩

theorem Supplies.eachOf_lasting {body : α → Sys Unit} {items : List α} {G : α → Tree → Prop} (kept : Lasting additions root K)
    (each : ∀ item ∈ items, Supplies additions root cwd K (body item) fun _ => G item)
    (lasting : ∀ item ∈ items, Lasting additions root (G item)) :
    Supplies additions root cwd K (Filesystem.eachOf body items) fun _ tree => ∀ item ∈ items, G item tree := by
  apply (Supplies.eachOf (P := K) (G := G) _ lasting).conseq (fun _ holds => holds) fun _ _ known => known.2
  intro item member
  exact ((each item member).frame kept).conseq (fun _ holds => ⟨holds, holds⟩) fun _ _ known => known.symm

end Phases

/-! ## Tools and libraries -/

/-- No link stands where the directories of the layout go. -/
def LayoutClear (root : Loc) (tree : Tree) : Prop := ∀ dir ∈ layoutDirs, Unlinked root tree (strtok slash dir)

/-- A directory that can be filled: it has no links but those of the host. -/
structure Fillable (host : Tree) (root : Loc) : Prop where
  inner : root ≠ []
  fits : host.Fits
  mirrored : Mirrored host root host
  clear : LayoutClear root host

/-- The host's kernel finds a file under the path, and each text that the copy comes to says where it leads. -/
structure Tree.Suits (host : Tree) (root : Loc) (path : Text) : Prop where
  file : ∃ place mode content, lookup host [] true path = .ok (place, .file mode content)
  lexical : ∀ text, Relation.ReflTransGen (Points host) path text → Lexical host root (components text)

/-- A copy leads to what the host's kernel finds under the path. -/
def Provided {host : Tree} (additions : Additions host) (root : Loc) (path : Text) (tree : Tree) : Prop :=
  ∃ place mode content n, lookup host [] true path = .ok (place, .file mode content) ∧ n ≤ maxLinks ∧
    Served additions root tree (Relation.ReflTransGen (Points host) path) content n path

/-- The paths that `ldd` names. -/
def libraries (output : Text) : List Text :=
  (fgetsAll (pathMax * 2) output).filterMap fun line => (parseLddDependency line).toOption

/-- What `ldd` says of a binary does not come from the rootfs, and names files of the host. -/
structure Setting.Suits (setting : Setting) (host : Tree) (root : Loc) (binary : Text) : Prop where
  same : ∀ tree, host.Agree root tree → setting.ldd tree binary = setting.ldd host binary
  files : ∀ path ∈ libraries (setting.ldd host binary), host.Suits root path

section Tools

variable {host : Tree} {additions : Additions host} {root cwd : Loc} {path binary line : Text} {setting : Setting}

theorem Fillable.proper (fillable : Fillable host root) : ∀ name ∈ root, Proper name :=
  Tree.proper_of_mem (by rw [fillable.mirrored.real]; simp)

theorem Provided.lasting (path : Text) : Lasting additions root (Provided additions root path) := by
  rintro tree after renewed ⟨place, mode, content, n, looked, fits, served⟩
  exact ⟨place, mode, content, n, looked, fits, served.renewed renewed⟩

theorem copyPath_supplies (fillable : Fillable host root) (suits : host.Suits root path) (rounds hops : Nat) :
    Supplies additions root cwd (fun _ => True) (copyPathIntoRootfs rounds (Loc.text root) hops path)
      fun _ => Provided additions root path := by
  apply Supplies.of_step
  intro tree m m' _ calm mirrored _ done
  obtain ⟨place, mode, content, looked⟩ := suits.file
  obtain ⟨n, after, fits, calm', mirrored', renewed, served⟩ :=
    copyPath_serves fillable.inner fillable.proper fillable.fits .refl (fun _ _ reached points => reached.tail points) suits.lexical
      (Chase.start looked) (lookup_iff.mp looked).2 mirrored calm done
  exact ⟨after, calm', mirrored', renewed, place, mode, content, n, looked, fits, served⟩

theorem copyDependency_supplies (fillable : Fillable host root)
    (suits : ∀ path, parseLddDependency line = .ok path → host.Suits root path) :
    Supplies additions root cwd (fun _ => True) (copyDependency setting (Loc.text root) line)
      fun _ tree => ∀ path, parseLddDependency line = .ok path → Provided additions root path tree := by
  unfold copyDependency
  split
  · rename_i dependency parsed
    apply (copyPath_supplies fillable (suits dependency parsed) _ _).conseq (fun _ known => known)
    intro _ tree provided path same
    cases parsed.symm.trans same
    exact provided
  · rename_i error parsed
    split
    · apply (Supplies.pure ()).conseq (fun _ known => known)
      intro _ tree _ path same
      cases parsed.symm.trans same
    · exact .throw error

theorem popenLdd_supplies (suits : setting.Suits host root binary) :
    Supplies additions root cwd (fun _ => True) (popenLdd setting binary)
      fun output _ => output = setting.ldd host binary ∧ True := by
  apply Supplies.of_step
  intro tree m m' output calm mirrored _ done
  obtain ⟨rfl, rfl, quiet⟩ := calm
  have effected := syscall_ok done
  cases effected
  exact ⟨_, ⟨rfl, rfl, quiet⟩, mirrored, .refl, suits.same _ mirrored.agree, trivial⟩

theorem close_supplies (P : Tree → Prop) : Supplies additions root cwd P close fun _ => P := by
  apply Supplies.of_step
  intro tree m m' _ calm mirrored known done
  have effected := syscall_ok done
  cases effected
  exact ⟨tree, ⟨calm.tree, calm.cwd, calm.quiet⟩, mirrored, .refl, known⟩

theorem copyBinaryDependencies_supplies (fillable : Fillable host root) (suits : setting.Suits host root binary) :
    Supplies additions root cwd (fun _ => True) (copyBinaryDependencies setting (Loc.text root) binary)
      fun _ tree => ∀ path ∈ libraries (setting.ldd host binary), Provided additions root path tree := by
  unfold copyBinaryDependencies
  split
  · exact .throw _
  apply (popenLdd_supplies suits).bind
  intro output
  apply Supplies.given
  rintro rfl
  -- The lines that name no path are passed over.
  have named {line path : Text} (member : line ∈ fgetsAll (pathMax * 2) (setting.ldd host binary))
      (parsed : parseLddDependency line = .ok path) : path ∈ libraries (setting.ldd host binary) := by
    rw [libraries, List.mem_filterMap]
    exact ⟨line, member, by rw [parsed]; rfl⟩
  have kept (line : Text) :
      Lasting additions root fun tree => ∀ path, parseLddDependency line = .ok path → Provided additions root path tree :=
    fun tree after renewed provided path parsed => Provided.lasting path tree after renewed (provided path parsed)
  have each : ∀ line ∈ fgetsAll (pathMax * 2) (setting.ldd host binary),
      Supplies additions root cwd (fun _ => True) (copyDependency setting (Loc.text root) line)
        fun _ tree => ∀ path, parseLddDependency line = .ok path → Provided additions root path tree :=
    fun line member => copyDependency_supplies fillable fun path parsed => suits.files path (named member parsed)
  apply (Supplies.eachOf_lasting (fun _ _ _ _ => trivial) each fun line _ => kept line).bind
  intro _
  apply (close_supplies _).conseq (fun _ known => known)
  intro _ tree known path member
  obtain ⟨line, read, parsed⟩ := List.mem_filterMap.mp member
  cases result : parseLddDependency line with
  | error error =>
    rw [result] at parsed
    cases parsed
  | ok other =>
    rw [result] at parsed
    cases parsed
    exact known line read path result

/-- A binary and the libraries that it is started with. -/
def Equipped {host : Tree} (additions : Additions host) (setting : Setting) (root : Loc) (binary : Text) (tree : Tree) : Prop :=
  Provided additions root binary tree ∧ ∀ path ∈ libraries (setting.ldd host binary), Provided additions root path tree

theorem Equipped.lasting (setting : Setting) (binary : Text) : Lasting additions root (Equipped additions setting root binary) :=
  fun tree after renewed equipped =>
    ⟨Provided.lasting binary tree after renewed equipped.1,
      fun path member => Provided.lasting path tree after renewed (equipped.2 path member)⟩

theorem bootstrapRootfsTools_supplies (fillable : Fillable host root)
    (tools : ∀ binary ∈ bootstrapBinaries, host.Suits root binary ∧ setting.Suits host root binary) :
    Supplies additions root cwd (fun _ => True) (bootstrapRootfsTools setting (Loc.text root))
      fun _ tree => ∀ binary ∈ bootstrapBinaries, Equipped additions setting root binary tree := by
  apply Supplies.eachOf_lasting (fun _ _ _ _ => trivial) _ fun binary _ => Equipped.lasting setting binary
  intro binary member
  obtain ⟨suits, suits_ldd⟩ := tools binary member
  apply (copyPath_supplies fillable suits _ _).bind
  intro _
  apply ((copyBinaryDependencies_supplies fillable suits_ldd).frame (Provided.lasting binary)).conseq
  · exact fun _ provided => ⟨trivial, provided⟩
  · exact fun _ _ known => known.symm

end Tools

/-! ## The layout -/

section Layout

variable {host : Tree} {additions : Additions host} {root cwd : Loc} {dir : Text}

def LaidOut (root : Loc) (dir : Text) (tree : Tree) : Prop := tree.node (root ++ strtok slash dir) = some .dir

theorem LaidOut.lasting (dir : Text) : Lasting additions root (LaidOut root dir) := fun _ _ renewed there => renewed.dirs _ there

/-- Names without `..` take nothing back. -/
theorem deep_of_plain {names : List Name} (plain : ∀ name ∈ names, name ≠ dot ∧ name ≠ dotDot) : Deep [] names := by
  intro front shorter
  have member : dotDot ∈ names := shorter.subset (by simp)
  exact absurd rfl (plain dotDot member).2

theorem createLayout_body (fillable : Fillable host root) (rounds : Nat) (member : dir ∈ layoutDirs)
    (plain : ∀ name ∈ strtok slash dir, name ≠ dot ∧ name ≠ dotDot) :
    Supplies additions root cwd (LayoutClear root) (mkdirP rounds (Loc.text root ++ [slash] ++ dir))
      fun _ tree => LayoutClear root tree ∧ LaidOut root dir tree := by
  apply Supplies.of_step
  intro tree m m' _ calm mirrored clear done
  obtain ⟨made, returns, calm'⟩ := mkdirP_ok calm done
  have joint : isAbsolute (slash :: dir) = true := rfl
  rw [List.append_assoc, List.singleton_append] at returns
  have tokens : strtok slash (Loc.text root ++ slash :: dir) = root ++ strtok slash dir := by
    rw [strtok_text fillable.proper _ (.inr joint), strtok_cons_self]
  obtain ⟨mirrored', renewed, dirs, solid⟩ :=
    mirrored.ensured (deep_of_plain plain) (clear dir member) ⟨slash :: dir, rfl, .inr joint⟩ tokens returns
  have clear' : LayoutClear root made := fun other listed before name behind parts named =>
    solid _ (clear other listed before name behind parts named)
  refine ⟨made, calm', mirrored', renewed, clear', ?_⟩
  have there := dirs (strtok slash dir) (List.prefix_refl _)
  rwa [reduced_eq plain] at there

theorem createLayout_supplies (fillable : Fillable host root) (rounds : Nat) :
    Supplies additions root cwd (LayoutClear root) (createLayout rounds (Loc.text root))
      fun _ tree => ∀ dir ∈ layoutDirs, LaidOut root dir tree := by
  have plain : ∀ dir ∈ layoutDirs, ∀ name ∈ strtok slash dir, name ≠ dot ∧ name ≠ dotDot := by decide
  apply (Supplies.eachOf _ fun dir _ => LaidOut.lasting dir).conseq (fun _ clear => clear) fun _ _ known => known.2
  intro dir member
  dsimp only
  split
  · exact .throw _
  · exact createLayout_body fillable rounds member (plain dir member)

end Layout

/-! ## Workloads -/

section Workloads

variable {fs : FileSystem} {setting : Setting} {root : Loc} {tree : Tree} {workload : Text × Text} {loc : Loc}
  {mode : Nat} {content : Text} {m m' : Machine}

/-- The host has nothing where the workloads are put. -/
def Reserved (host : Tree) : Prop :=
  ∀ workload ∈ bootstrapWorkloads, ∀ place, walk host false maxLinks [] (strtok slash workload.2) ≠ .ok (.there place)

/-- What stands for these names in the tree of the source. -/
def workloadContent (fs : FileSystem) (names : Loc) : Option Text :=
  match bootstrapWorkloads.find? fun workload => strtok slash workload.2 = names with
  | none => none
  | some workload =>
    match lookup fs.tree fs.cwd true workload.1 with
    | .ok (_, .file _ content) => some content
    | _ => none

def workloadAdditions (fs : FileSystem) (reserved : Reserved fs.tree) : Additions fs.tree where
  content := workloadContent fs
  apart names given := by
    unfold workloadContent at given
    split at given
    · exact absurd rfl given
    · rename_i workload found
      have named := List.find?_some found
      rw [decide_eq_true_eq] at named
      exact named ▸ reserved workload (List.mem_of_find?_eq_some found)

theorem workloadContent_eq (member : workload ∈ bootstrapWorkloads)
    (looked : lookup fs.tree fs.cwd true workload.1 = .ok (loc, .file mode content)) :
    workloadContent fs (strtok slash workload.2) = some content := by
  have first : ∀ workload ∈ bootstrapWorkloads,
      bootstrapWorkloads.find? (fun other => strtok slash other.2 = strtok slash workload.2) = some workload := by decide +kernel
  unfold workloadContent
  rw [first workload member]
  simp only [looked]

/-- What is to be known of a workload: `realpath` keeps apart from the rootfs, and its libraries are files of the host. -/
structure WorkloadSuits (setting : Setting) (fs : FileSystem) (root : Loc) (workload : Text × Text) : Prop where
  apart : walkApart fs.tree root true maxLinks fs.cwd (components workload.1) = true
  libraries : ∀ loc mode content, lookup fs.tree fs.cwd true workload.1 = .ok (loc, .file mode content) →
    setting.Suits fs.tree root (Loc.text loc)

/-- Where the source has the workload, it is in the rootfs, with its libraries. -/
def Delivered (additions : Additions fs.tree) (setting : Setting) (root : Loc) (workload : Text × Text) (tree : Tree) : Prop :=
  ∀ loc mode content, lookup fs.tree fs.cwd true workload.1 = .ok (loc, .file mode content) →
    tree.Holds (root ++ strtok slash workload.2) content ∧
      ∀ path ∈ libraries (setting.ldd fs.tree (Loc.text loc)), Provided additions root path tree

theorem attempt_done {α : Type} {p : Sys α} {result : Except Errno α} (done : attempt p m = (.done (.ok result), m')) :
    p m = (.done result, m') := by
  unfold attempt at done
  split at done
  · rename_i result' after ran
    cases done
    exact ran
  · cases done

/-- What `realpath` returns. -/
def realPath (tree : Tree) (cwd : Loc) (path : Text) : Except Errno Loc :=
  match lookup tree cwd true path with
  | .error error => .error error
  | .ok (loc, _) => if pathMax ≤ (Loc.text loc).length then .error Errno.ENAMETOOLONG else .ok loc

theorem yields_realpath (cwd : Loc) (path : Text) : Yields cwd (realpath path) tree (realPath tree cwd path) tree := by
  unfold realPath
  cases looked : lookup tree cwd true path with
  | error error =>
    apply Yields.syscall_error
    intro m calm
    rw [calm.entry, looked]
  | ok found =>
    dsimp only
    split
    · rename_i long
      apply Yields.syscall_error
      intro m calm
      rw [calm.entry, looked]
      exact if_pos long
    · rename_i short
      apply Yields.syscall
      intro m calm
      refine ⟨m, ?_, calm⟩
      rw [calm.entry, looked]
      exact if_neg short

/-- The text of a location leads to it. -/
theorem lookup_text {node : Node} (cwd : Loc) (last : Bool) (there : tree.node loc = some node) (solid : tree.Solid loc) :
    lookup tree cwd last (Loc.text loc) = .ok (loc, node) := by
  have proper := Tree.proper_of_mem (by rw [there]; simp : tree.node loc ≠ none)
  have absolute := isAbsolute_text loc []
  have tokens := strtok_text proper [] (.inl rfl)
  have top : strtok slash ([] : Text) = [] := by simp [strtok]
  rw [List.append_nil] at absolute
  rw [List.append_nil, top, List.append_nil] at tokens
  refine lookup_iff.mpr ⟨?_, there⟩
  rw [resolve, if_neg (text_ne_nil loc), if_pos absolute]
  apply Walks.walk
  rcases List.eq_nil_or_concat loc with rfl | ⟨front, name, rfl⟩
  · rw [components_nil.mpr tokens]
    exact .done _ _
  · rw [List.concat_eq_append] at *
    have dir := (tree.parents front name (by rw [there]; simp)).1
    have named := proper name (by simp)
    rw [components_of_strtok (getLast?_text proper (by simp)), tokens, walks_through [] dir]
    apply Walks.enter _ _ name [] node _ dir named.2.2 there _ (.done _ _)
    rintro target rfl
    exact solid target there

/-- The tree differs from the host below the rootfs only, so that `realpath` finds what it finds on the host. -/
theorem Mirrored.lookup_apart (mirrored : Mirrored fs.tree root tree) (inner : root ≠ []) (outside : ¬ root <+: fs.cwd) {path : Text}
    (relative : isAbsolute path = false) (apart : walkApart fs.tree root true maxLinks fs.cwd (components path) = true) :
    lookup tree fs.cwd true path = lookup fs.tree fs.cwd true path ∧
      ∀ loc node, lookup fs.tree fs.cwd true path = .ok (loc, node) → ¬ root <+: loc := by
  have same : resolve tree fs.cwd true path = resolve fs.tree fs.cwd true path := by
    unfold resolve
    rw [relative]
    split
    · rfl
    · exact walk_apart inner mirrored.agree outside apart
  have ends : ∀ spot, resolve fs.tree fs.cwd true path = .ok spot → ¬ root <+: spot.loc := by
    intro spot found
    unfold resolve at found
    rw [relative] at found
    split at found
    · cases found
    · exact (Walks.of_walk found).apart inner outside apart
  refine ⟨?_, fun loc node looked => ends _ (lookup_iff.mp looked).1⟩
  unfold lookup
  rw [same]
  cases found : resolve fs.tree fs.cwd true path with
  | error error => rfl
  | ok spot =>
    cases spot with
    | missing loc => rfl
    | there loc =>
      dsimp only
      rw [mirrored.agree loc (ends _ found)]

theorem workload_parts (member : workload ∈ bootstrapWorkloads) :
    isAbsolute workload.2 = true ∧ ∃ name, components workload.2 = [lit "bin"] ++ [name] ∧ name ≠ dot ∧ name ≠ dotDot := by
  have each : ∀ workload ∈ bootstrapWorkloads, isAbsolute workload.2 = true ∧
      components workload.2 = [lit "bin"] ++ [(components workload.2).getLastD []] ∧
      (components workload.2).getLastD [] ≠ dot ∧ (components workload.2).getLastD [] ≠ dotDot := by decide +kernel
  obtain ⟨absolute, parts, plain⟩ := each workload member
  exact ⟨absolute, _, parts, plain⟩

theorem copyHostBinary_supplies {node : Node} (fillable : Fillable fs.tree root) (reserved : Reserved fs.tree)
    (member : workload ∈ bootstrapWorkloads) (looked : lookup fs.tree fs.cwd true workload.1 = .ok (loc, node))
    (outside : ¬ root <+: loc) (rounds : Nat) :
    Supplies (workloadAdditions fs reserved) root fs.cwd (LaidOut root (lit "bin"))
      (copyHostBinaryToContainerPath rounds (Loc.text root) (Loc.text loc) workload.2)
      fun _ tree => (∃ mode content, node = .file mode content) ∧
        ∀ mode content, node = .file mode content → tree.Holds (root ++ strtok slash workload.2) content := by
  apply Supplies.of_step
  intro tree m m' _ calm mirrored bin done
  obtain ⟨found, there⟩ := lookup_iff.mp looked
  have solid : fs.tree.Solid loc := by
    unfold resolve at found
    split at found
    · cases found
    · apply (Walks.of_walk found).solid rfl
      split
      · exact Tree.solid_of_dir fs.tree.root
      · exact Tree.solid_of_dir fs.here
  have text {tree : Tree} (agree : fs.tree.Agree root tree) (last : Bool) :
      lookup tree fs.cwd last (Loc.text loc) = .ok (loc, node) := by
    have same := agree loc outside
    apply lookup_text
    · rw [same, there]
    · intro target
      rw [same]
      exact solid target
  unfold copyHostBinaryToContainerPath at done
  obtain ⟨⟨loc', node'⟩, m₁, stated, done⟩ := bind_ok done
  obtain ⟨same, calm₁⟩ := (yields_lstat _).done calm stated
  rw [text mirrored.agree] at same
  cases same
  cases node with
  | dir | link | special => cases done
  | file mode content =>
    dsimp only at done
    split at done
    · cases done
    rename_i short
    obtain ⟨dir, m₂, named, done⟩ := bind_ok done
    obtain ⟨_, m₃, makes, done⟩ := bind_ok done
    obtain ⟨same, calm₂⟩ := (yields_ofResult _).done calm₁ named
    obtain ⟨made, returns, calm₃⟩ := mkdirP_ok calm₂ makes
    obtain ⟨absolute, name, parts, plain⟩ := workload_parts member
    have parent : destinationDir (Loc.text root) workload.2 = .ok dir := by
      rw [destinationDir, if_neg (by simp [absolute]), if_neg short]
      exact same.symm
    obtain ⟨-, behind, tokens⟩ := destinationDir_parts fillable.inner fillable.proper parts plain.1 parent
    have bin_plain : ∀ name ∈ [lit "bin"], name ≠ dot ∧ name ≠ dotDot := by decide
    have deep : Deep [] [lit "bin"] := deep_of_plain bin_plain
    have clear : Unlinked root tree [lit "bin"] := by
      intro before other later split _
      cases before with
      | nil =>
        cases split
        exact Tree.solid_of_dir bin
      | cons => simp at split
    -- The names of the workload's path are those of the place that it is due at.
    have names : reduced [lit "bin"] ++ [name] = strtok slash workload.2 := by
      rw [(strtok_of_components parts plain.1).1, reduced_eq bin_plain]
    obtain ⟨mirrored', renewed, dirs, -⟩ := mirrored.ensured deep clear behind tokens returns
    have passed : Passed root made workload.2 [lit "bin"] name := ⟨absolute, parts, plain, deep, dirs⟩
    have due : (workloadAdditions fs reserved).Due (reduced [lit "bin"] ++ [name]) content := by
      rw [names]
      exact .inr (workloadContent_eq member looked)
    obtain ⟨after, calm₄, mirrored'', renewed', there⟩ :=
      mirrored'.filed fillable.proper passed due calm₃ (text mirrored'.agree true) outside done
    refine ⟨after, calm₄, mirrored'', renewed.trans renewed', ⟨mode, content, rfl⟩, fun mode' content' same => ?_⟩
    cases same
    rwa [names] at there

theorem Delivered.lasting (reserved : Reserved fs.tree) (member : workload ∈ bootstrapWorkloads) :
    Lasting (workloadAdditions fs reserved) root (Delivered (workloadAdditions fs reserved) setting root workload) := by
  intro tree after renewed delivered loc mode content looked
  obtain ⟨there, provided⟩ := delivered loc mode content looked
  exact ⟨renewed.files _ content (.inr (workloadContent_eq member looked)) there,
    fun path named => Provided.lasting path tree after renewed (provided path named)⟩

theorem realpath_supplies {P : Tree → Prop} {additions : Additions fs.tree} {path : Text} (inner : root ≠ []) (outside : ¬ root <+: fs.cwd)
    (relative : isAbsolute path = false) (apart : walkApart fs.tree root true maxLinks fs.cwd (components path) = true) :
    Supplies additions root fs.cwd P (attempt (realpath path)) fun result tree => result = realPath fs.tree fs.cwd path ∧ P tree := by
  apply Supplies.of_step
  intro tree m m' result calm mirrored holds done
  obtain ⟨same, calm'⟩ := (yields_realpath fs.cwd path).done calm (attempt_done done)
  refine ⟨tree, calm', mirrored, .refl, ?_, holds⟩
  rw [same]
  unfold realPath
  rw [(mirrored.lookup_apart inner outside relative apart).1]

theorem bootstrapRootfsWorkloads_supplies (fillable : Fillable fs.tree root) (reserved : Reserved fs.tree) (outside : ¬ root <+: fs.cwd)
    (workloads : ∀ workload ∈ bootstrapWorkloads, WorkloadSuits setting fs root workload) :
    Supplies (workloadAdditions fs reserved) root fs.cwd (LaidOut root (lit "bin"))
      (bootstrapRootfsWorkloads setting (Loc.text root))
      fun _ tree => ∀ workload ∈ bootstrapWorkloads, Delivered (workloadAdditions fs reserved) setting root workload tree := by
  have relative : ∀ workload ∈ bootstrapWorkloads, isAbsolute workload.1 = false := by decide
  apply Supplies.eachOf_lasting (LaidOut.lasting (lit "bin")) _ fun workload member => Delivered.lasting reserved member
  intro workload member
  have suits := workloads workload member
  apply (realpath_supplies fillable.inner outside (relative workload member) suits.apart).bind
  intro result
  apply Supplies.given
  rintro rfl
  unfold realPath
  cases looked : lookup fs.tree fs.cwd true workload.1 with
  | error error =>
    dsimp only
    split
    · apply (Supplies.pure ()).conseq (fun _ holds => holds)
      intro _ tree _ loc mode content found
      cases looked.symm.trans found
    · exact .throw error
  | ok found =>
    obtain ⟨loc, node⟩ := found
    have apart := (fillable.mirrored.lookup_apart fillable.inner outside (relative workload member) suits.apart).2 loc node looked
    dsimp only
    by_cases long : pathMax ≤ (Loc.text loc).length
    · rw [if_pos long]
      exact .throw _
    rw [if_neg long]
    apply (copyHostBinary_supplies fillable reserved member looked apart _).bind
    intro _
    apply Supplies.given
    rintro ⟨mode, content, rfl⟩
    -- What has been put there stays while the libraries are copied.
    have held : Lasting (workloadAdditions fs reserved) root fun tree => tree.Holds (root ++ strtok slash workload.2) content :=
      fun tree after renewed there => renewed.files _ content (.inr (workloadContent_eq member looked)) there
    apply ((copyBinaryDependencies_supplies fillable (suits.libraries loc mode content looked)).frame held).conseq
    · exact fun _ there => ⟨trivial, there mode content rfl⟩
    · rintro _ tree ⟨provided, there⟩ loc' mode' content' found
      cases looked.symm.trans found
      exact ⟨there, provided⟩

end Workloads

end ContainerRuntime.Filesystem
