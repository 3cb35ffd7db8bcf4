import ContainerRuntime.Filesystem.Phases

/-! A prepared rootfs against the host.

The phases of `filesystem_prepare_rootfs` are put together. In the end each tool
and each library leads a process in the rootfs to the content that it has on the
host.
-/

set_option autoImplicit false

namespace ContainerRuntime.Filesystem

open CString Program

/-! ## The whole preparation -/

/-- Both trees lead to a file under the path, with the same content. -/
def SameContent (host inside : Tree) (path : Text) : Prop :=
  ∃ content place mode place' mode', lookup host [] true path = .ok (place, .file mode content) ∧
    lookup inside [] true path = .ok (place', .file mode' content)

/-- A host that a rootfs can be filled from. -/
structure Ready (setting : Setting) (host : FileSystem) (root : Loc) : Prop where
  fillable : Fillable host.tree root
  reserved : Reserved host.tree
  outside : ¬ root <+: host.cwd
  tools : ∀ binary ∈ bootstrapBinaries, host.tree.Suits root binary ∧ setting.Suits host.tree root binary
  workloads : ∀ workload ∈ bootstrapWorkloads, WorkloadSuits setting host root workload

/-- A rootfs in which the tools are found as on the host. -/
structure Filled (setting : Setting) (host : FileSystem) (root : Loc) (tree : Tree) : Prop where
  outside : host.tree.Agree root tree
  dirs : ∀ dir ∈ layoutDirs, tree.node (root ++ strtok slash dir) = some .dir
  tools : ∀ binary ∈ bootstrapBinaries, ∀ path ∈ binary :: libraries (setting.ldd host.tree binary),
    SameContent host.tree (tree.below root) path
  workloads : ∀ workload ∈ bootstrapWorkloads, ∀ loc mode content,
    lookup host.tree host.cwd true workload.1 = .ok (loc, .file mode content) →
      tree.Holds (root ++ strtok slash workload.2) content ∧
        ∀ path ∈ libraries (setting.ldd host.tree (Loc.text loc)), SameContent host.tree (tree.below root) path

section Preparation

variable {setting : Setting} {fs host : FileSystem} {root : Loc} {tree : Tree} {requested resolved path : Text} {size : Nat} {m : Machine}

theorem Provided.same {additions : Additions host.tree} (provided : Provided additions root path tree) (real : tree.node root = some .dir) :
    SameContent host.tree (tree.below root) path := by
  obtain ⟨place, mode, content, n, looked, fits, served⟩ := provided
  have sees : ∀ loc node, (∀ name ∈ loc, name ∉ ([] : List Name)) → tree.node (root ++ loc) = some node →
      (tree.below root).node loc = some node := by
    intro loc node _ there
    rwa [Tree.node_below real]
  obtain ⟨place', walks, mode', file⟩ := served.walks (fun _ _ _ _ => List.not_mem_nil) sees
  obtain ⟨front, name, passed⟩ := served.passed
  refine ⟨content, place, mode, place', mode', looked, lookup_iff.mpr ⟨?_, file⟩⟩
  have given : path ≠ [] := by
    rintro rfl
    cases passed.absolute
  rw [resolve, if_neg given, if_pos passed.absolute]
  exact (walks.more fits).walk

/-- What is there when the last phase has returned. -/
def Populated (additions : Additions host.tree) (setting : Setting) (root : Loc) (tree : Tree) : Prop :=
  (∀ dir ∈ layoutDirs, LaidOut root dir tree) ∧ (∀ binary ∈ bootstrapBinaries, Equipped additions setting root binary tree) ∧
    ∀ workload ∈ bootstrapWorkloads, Delivered additions setting root workload tree

theorem Populated.filled {additions : Additions host.tree} (populated : Populated additions setting root tree)
    (mirrored : Mirrored host.tree root tree) : Filled setting host root tree where
  outside := mirrored.agree
  dirs := populated.1
  tools binary member path named := by
    obtain ⟨own, others⟩ := populated.2.1 binary member
    rcases List.mem_cons.mp named with rfl | named
    · exact own.same mirrored.real
    · exact (others path named).same mirrored.real
  workloads workload member loc mode content looked := by
    obtain ⟨there, others⟩ := populated.2.2 workload member loc mode content looked
    exact ⟨there, fun path named => (others path named).same mirrored.real⟩

theorem phases_supply (ready : Ready setting host root) :
    Supplies (workloadAdditions host ready.reserved) root host.cwd (LayoutClear root)
      (do
        createLayout setting.rounds (Loc.text root)
        bootstrapRootfsTools setting (Loc.text root)
        bootstrapRootfsWorkloads setting (Loc.text root)
        if size ≤ (Loc.text root).length then throw Errno.ENAMETOOLONG
        pure (Loc.text root))
      fun resolved tree => resolved = Loc.text root ∧ Populated (workloadAdditions host ready.reserved) setting root tree := by
  have laid_out : Lasting (workloadAdditions host ready.reserved) root fun tree => ∀ dir ∈ layoutDirs, LaidOut root dir tree :=
    fun tree after renewed there dir member => LaidOut.lasting dir tree after renewed (there dir member)
  have equipped : Lasting (workloadAdditions host ready.reserved) root
      fun tree => ∀ binary ∈ bootstrapBinaries, Equipped (workloadAdditions host ready.reserved) setting root binary tree :=
    fun tree after renewed there binary member => Equipped.lasting setting binary tree after renewed (there binary member)
  apply (createLayout_supplies ready.fillable setting.rounds).bind
  intro _
  apply (((bootstrapRootfsTools_supplies ready.fillable ready.tools).frame laid_out).conseq
    (fun _ there => ⟨trivial, there⟩) fun _ _ there => there).bind
  intro _
  -- The workloads are put into the `bin` of the layout.
  have bin (tree : Tree) (there : ∀ dir ∈ layoutDirs, LaidOut root dir tree) : LaidOut root (lit "bin") tree :=
    there (lit "bin") List.mem_cons_self
  apply ((((bootstrapRootfsWorkloads_supplies ready.fillable ready.reserved ready.outside ready.workloads).frame
    laid_out).frame equipped).conseq (fun tree there => ⟨⟨bin tree there.2, there.2⟩, there.1⟩) fun _ _ there => there).bind
  intro _
  split
  · exact .throw _
  · apply Supplies.of_step
    intro tree m m' resolved calm mirrored there done
    cases done
    exact ⟨tree, calm, mirrored, .refl, rfl, there.1.2, there.2, there.1.1⟩

theorem prepared_populates (made : ensuredAll fs.cwd fs.tree (prefixes requested) = some (.ok (), host.tree))
    (same : host.cwd = fs.cwd) (leads : lookup host.tree host.cwd true requested = .ok (root, .dir))
    (ready : Ready setting host root)
    (done : filesystemPrepareRootfs setting requested size fs.machine = (.done (.ok resolved), m)) :
    resolved = Loc.text root ∧ Mirrored host.tree root m.tree ∧
      Populated (workloadAdditions host ready.reserved) setting root m.tree := by
  unfold filesystemPrepareRootfs at done
  split at done
  · cases done
  obtain ⟨_, m₁, makes, done⟩ := bind_ok done
  obtain ⟨found, m₂, finds, done⟩ := bind_ok done
  obtain ⟨_, m₃, populates, done⟩ := bind_ok done
  obtain ⟨tree, returns, calm₁⟩ := mkdirP_ok fs.calm makes
  cases returns.symm.trans made
  rw [← same] at calm₁
  obtain ⟨result, calm₂⟩ := (yields_realpath host.cwd requested).done calm₁ finds
  unfold realPath at result
  rw [leads] at result
  dsimp only at result
  split at result
  · cases result
  cases result
  cases populates
  have calm₃ : ({ m₂ with rootfs := some root } : Machine).Calm host.tree host.cwd := ⟨calm₂.tree, calm₂.cwd, calm₂.quiet⟩
  obtain ⟨after, calm, mirrored, -, resolved_eq, populated⟩ :=
    (phases_supply ready).step calm₃ ready.fillable.mirrored ready.fillable.clear done
  rw [calm.tree]
  exact ⟨resolved_eq, mirrored, populated⟩

/-- Whatever links lie between: once the preparation of a rootfs has returned 0, every tool and every library that
`ldd` names leads a process in the rootfs to the content that it has on the host, and nothing else of the host has
changed. `host` is the file system once the directory of the rootfs has been made. -/
theorem prepared_rootfs_serves (made : ensuredAll fs.cwd fs.tree (prefixes requested) = some (.ok (), host.tree))
    (same : host.cwd = fs.cwd) (leads : lookup host.tree host.cwd true requested = .ok (root, .dir))
    (ready : Ready setting host root)
    (done : filesystemPrepareRootfs setting requested size fs.machine = (.done (.ok resolved), m)) :
    resolved = Loc.text root ∧ Filled setting host root m.tree := by
  obtain ⟨resolved_eq, mirrored, populated⟩ := prepared_populates made same leads ready done
  exact ⟨resolved_eq, populated.filled mirrored⟩

end Preparation

/-! ## Paths without dots -/

section Plain

variable {host : Tree} {root place : Loc} {names : List Name} {path : Text}

/-- Such names lead where their text does. -/
theorem Lexical.of_plain {budget : Nat} (plain : ∀ name ∈ names, name ≠ dot ∧ name ≠ dotDot) (walks : Walks host true budget [] names (.there place))
    (apart : walkApart host root false maxLinks [] names = true) : Lexical host root names where
  apart := apart
  deep := deep_of_plain plain
  passes front back parts further := by
    obtain ⟨middle, -, -, leads, dir, -⟩ := walks.split parts further
    have shorter : ∀ name ∈ front, name ≠ dot ∧ name ≠ dotDot := by
      intro name member
      exact plain name (by rw [parts]; exact List.mem_append_left back member)
    rw [reduced_eq shorter]
    exact ⟨_, middle, leads, dir⟩
  same place found := by rwa [reduced_eq plain]

/-- The text that the source goes on with, if the path leads to a link. -/
def pointed (host : Tree) (path : Text) : Option Text :=
  match lookup host [] false path with
  | .ok (_, .link target) => (resolveSymlinkTarget path target).toOption
  | _ => none

theorem Points.pointed {next : Text} (points : Points host path next) : Filesystem.pointed host path = some next := by
  obtain ⟨place, target, looked, resolved⟩ := points
  rw [Filesystem.pointed, looked]
  simp only [resolved]
  rfl

def leadsToFile (host : Tree) (path : Text) : Bool :=
  match lookup host [] true path with
  | .ok (_, .file _ _) => true
  | _ => false

/-- An absolute path without dots that the host's kernel follows to a file, apart from the rootfs. -/
def Dotless (host : Tree) (root : Loc) (path : Text) : Prop :=
  isAbsolute path = true ∧ (∀ name ∈ components path, name ≠ dot ∧ name ≠ dotDot) ∧
    walkApart host root false maxLinks [] (components path) = true ∧ leadsToFile host path = true

instance (host : Tree) (root : Loc) (path : Text) : Decidable (Dotless host root path) := inferInstanceAs (Decidable (_ ∧ _))

theorem Dotless.file (dotless : Dotless host root path) : ∃ place mode content, lookup host [] true path = .ok (place, .file mode content) := by
  have leads := dotless.2.2.2
  unfold leadsToFile at leads
  split at leads
  · rename_i place mode content looked
    exact ⟨place, mode, content, looked⟩
  · cases leads

theorem Dotless.lexical (dotless : Dotless host root path) : Lexical host root (components path) := by
  obtain ⟨place, mode, content, looked⟩ := dotless.file
  obtain ⟨absolute, plain, apart, -⟩ := dotless
  have found := (lookup_iff.mp looked).1
  unfold resolve at found
  split at found
  · cases found
  · exact .of_plain plain (.of_walk found) apart

/-- It is enough to look at the paths that the source can come to. -/
theorem Tree.Suits.of_closed {paths : List Text} (dotless : ∀ text ∈ paths, Dotless host root text)
    (closed : ∀ text ∈ paths, ∀ next ∈ pointed host text, next ∈ paths) (member : path ∈ paths) : host.Suits root path where
  file := (dotless path member).file
  lexical text reached := by
    have inside : text ∈ paths := by
      induction reached with
      | refl => exact member
      | tail _ points ih => exact closed _ ih _ points.pointed
    exact (dotless text inside).lexical

end Plain
/-! ## A merged host -/

def Tree.placed (places : List (Loc × Node)) : Tree := places.foldl (fun tree place => tree.set place.1 (some place.2)) .bare

theorem Tree.mem_of_placed {places : List (Loc × Node)} {loc : Loc} {node : Node} (there : (Tree.placed places).node loc = some node) :
    (loc, node) ∈ places ∨ loc = [] ∧ node = .dir := by
  unfold Tree.placed at there
  have each : ∀ tree : Tree, (places.foldl (fun tree place => tree.set place.1 (some place.2)) tree).node loc = some node →
      (loc, node) ∈ places ∨ tree.node loc = some node := by
    clear there
    induction places with
    | nil => exact fun tree there => .inr there
    | cons place rest ih =>
      intro tree there
      rw [List.foldl_cons] at there
      rcases ih _ there with member | there
      · exact .inl (List.mem_cons_of_mem place member)
      by_cases ready : tree.Settable place.1 (some place.2)
      · rw [Tree.node_set ready] at there
        split at there
        · rename_i same
          cases there
          exact .inl (by rw [same]; exact List.mem_cons_self)
        · exact .inr there
      · have same : tree.set place.1 (some place.2) = tree := dif_neg ready
        rw [same] at there
        exact .inr there
  rcases each _ there with member | bare
  · exact .inl member
  · unfold Tree.bare at bare
    dsimp only at bare
    split at bare
    · rename_i top
      cases bare
      exact .inr ⟨top, rfl⟩
    · cases bare

/-- `/bin` and `/lib` are links into `/usr`, the shell is a link, and there is one workload. -/
def mergedPlaces : List (Loc × Node) :=
  [([lit "usr"], .dir), ([lit "usr", lit "bin"], .dir), ([lit "usr", lit "lib"], .dir), ([lit "w"], .dir),
    ([lit "w", lit "bin"], .dir), ([lit "bin"], .link (lit "usr/bin")), ([lit "lib"], .link (lit "usr/lib")),
    ([lit "usr", lit "bin", lit "sh"], .link (lit "dash")),
    ([lit "usr", lit "lib", lit "libc.so.6"], .file 0o755 (lit "libc")),
    ([lit "w", lit "bin", lit "workload-cpu"], .file 0o755 (lit "spin"))] ++
    ["dash", "echo", "hostname", "ps", "sleep"].map fun tool => ([lit "usr", lit "bin", lit tool], .file 0o755 (lit tool))

def merged : FileSystem := ⟨.placed mergedPlaces, [lit "w"], by decide +kernel⟩

/-- The rootfs has been made. -/
def mergedHost : FileSystem := ⟨.placed (mergedPlaces ++ [([lit "r"], .dir)]), [lit "w"], by decide +kernel⟩

/-- The shell needs the C library. -/
def dynamicShell : Setting :=
  ⟨3, 5, fun _ binary => if binary = lit "/bin/sh" then lit "\tlibc.so.6 => /lib/libc.so.6 (0x00)\n" else []⟩

def Node.target : Node → Option Text
  | .link target => some target
  | _ => none

theorem merged_fillable : Fillable mergedHost.tree [lit "r"] := by
  have inside : ∀ loc, mergedHost.tree.node ([lit "r"] ++ loc) = if loc = [] then some .dir else none := by
    intro loc
    split
    · rename_i top
      rw [top]
      decide +kernel
    · rename_i further
      cases there : mergedHost.tree.node ([lit "r"] ++ loc) with
      | none => rfl
      | some node =>
        have places : ∀ place ∈ mergedPlaces ++ [([lit "r"], Node.dir)], [lit "r"] <+: place.1 → place.1 = [lit "r"] := by decide +kernel
        rcases Tree.mem_of_placed there with member | ⟨top, -⟩
        · have same := places _ member (List.prefix_append _ loc)
          exact absurd (List.append_right_eq_self.mp same) further
        · cases top
  have solid : ∀ loc, mergedHost.tree.Solid ([lit "r"] ++ loc) := by
    intro loc target link
    rw [inside] at link
    split at link
    · cases link
    · cases link
  constructor
  · decide
  · intro loc target link
    have short : ∀ place ∈ mergedPlaces ++ [([lit "r"], Node.dir)], ∀ target ∈ place.2.target, target.length < pathMax := by
      decide +kernel
    rcases Tree.mem_of_placed link with member | ⟨-, absurd⟩
    · exact short _ member target rfl
    · cases absurd
  · exact ⟨fun _ _ => rfl, inside [], fun loc => by rw [inside]; split <;> simp, fun loc target link => absurd link (solid loc target)⟩
  · exact fun _ _ before name _ _ _ => solid (reduced before ++ [name])

/-- The paths that the source comes to. -/
def mergedPaths : List Text := lit "/bin/dash" :: lit "/lib/libc.so.6" :: bootstrapBinaries

theorem merged_suits {path : Text} (member : path ∈ mergedPaths) : mergedHost.tree.Suits [lit "r"] path := by
  have dotless : ∀ text ∈ mergedPaths, Dotless mergedHost.tree [lit "r"] text := by decide +kernel
  have closed : ∀ text ∈ mergedPaths, ∀ next ∈ pointed mergedHost.tree text, next ∈ mergedPaths := by decide +kernel
  exact .of_closed dotless closed member

theorem merged_suits_ldd (binary : Text) : dynamicShell.Suits mergedHost.tree [lit "r"] binary where
  same _ _ := rfl
  files path member := by
    apply merged_suits
    unfold dynamicShell at member
    dsimp only at member
    split at member
    · have named : libraries (lit "\tlibc.so.6 => /lib/libc.so.6 (0x00)\n") = [lit "/lib/libc.so.6"] := by decide +kernel
      rw [named, List.mem_singleton] at member
      rw [member]
      exact List.mem_cons_of_mem _ List.mem_cons_self
    · cases member

theorem merged_ready : Ready dynamicShell mergedHost [lit "r"] where
  fillable := merged_fillable
  reserved workload member place := by
    have missing : ∀ workload ∈ bootstrapWorkloads, walk mergedHost.tree false maxLinks [] (strtok slash workload.2) =
      .ok (.missing ([lit "usr", lit "bin"] ++ (strtok slash workload.2).drop 1)) := by decide +kernel
    rw [missing workload member]
    simp
  outside := by decide
  tools binary member := ⟨merged_suits (List.mem_cons_of_mem _ (List.mem_cons_of_mem _ member)), merged_suits_ldd binary⟩
  workloads workload member := by
    have apart : ∀ workload ∈ bootstrapWorkloads,
        walkApart mergedHost.tree [lit "r"] true maxLinks mergedHost.cwd (components workload.1) = true := by decide +kernel
    exact ⟨apart workload member, fun loc _ _ _ => merged_suits_ldd (Loc.text loc)⟩

theorem merged_made : ensuredAll merged.cwd merged.tree (prefixes (lit "/r")) = some (.ok (), mergedHost.tree) := rfl

theorem merged_leads : lookup mergedHost.tree mergedHost.cwd true (lit "/r") = .ok ([lit "r"], .dir) := by decide +kernel

def mergedPrepared : Machine := (filesystemPrepareRootfs dynamicShell (lit "/r") 512 merged.machine).2

theorem merged_prepared :
    filesystemPrepareRootfs dynamicShell (lit "/r") 512 merged.machine = (.done (.ok (lit "/r")), mergedPrepared) := by
  have returns : (filesystemPrepareRootfs dynamicShell (lit "/r") 512 merged.machine).1 = .done (.ok (lit "/r")) := by decide +kernel
  unfold mergedPrepared
  rw [← returns]

theorem merged_rootfs_serves : lit "/r" = Loc.text [lit "r"] ∧ Filled dynamicShell mergedHost [lit "r"] mergedPrepared.tree :=
  prepared_rootfs_serves merged_made rfl merged_leads merged_ready merged_prepared

end ContainerRuntime.Filesystem
