import ContainerRuntime.Filesystem.Isolation
import ContainerRuntime.Filesystem.Population

/-! The tools of a container, as its process finds them.

`filesystem_prepare_rootfs` has filled a rootfs, and the child has gone into it with
`filesystem_isolate_rootfs`. The paths of the tools then lead the process to what
they lead to on the host.
-/

set_option autoImplicit false

namespace ContainerRuntime.Filesystem

open CString Program

section View

variable {s : Process} {tree : Tree} {root point : Loc} {inside proc : Tree} {last : Bool} {path : Text} {loc : Loc} {node : Node}

/-- The names that something else may stand under in the process' view. -/
def coveredNames : List Name := [lit "proc", oldRootDir]

theorem Process.Enclosed.entry_of_lookup (enclosed : s.Enclosed) (looked : lookup s.view [] last path = .ok (loc, node)) :
    s.entry last path = .ok (s.root ++ loc, node) := by
  obtain ⟨found, there⟩ := lookup_iff.mp looked
  have seen : s.machine.tree.node (s.root ++ loc) = some node := by
    rw [← Tree.node_below enclosed.real]
    exact there
  rw [Process.entry, enclosed.resolve_eq, found]
  simp only [Except.map, Spot.under, seen]

/-- The rest of the rootfs is in the view. -/
theorem Process.Isolated.shows (isolated : s.Isolated tree (Loc.text root) proc) (real : tree.node root = some .dir)
    (laid_out : tree.node (root ++ [lit "proc"]) = some .dir) (uncovered : ∀ name ∈ loc, name ∉ coveredNames)
    (there : tree.node (root ++ loc) = some node) : s.view.node loc = some node := by
  obtain ⟨-, root', inside, looked, jail, shown⟩ := isolated
  cases looked.symm.trans (lookup_text [] true real (Tree.solid_of_dir real))
  have own : inside.node loc = some node := by
    rcases jail.whole loc node there with same | ⟨rfl, -⟩
    · exact same
    · exact absurd (by decide) (uncovered oldRootDir List.mem_cons_self)
  rcases shown with view | ⟨point, mounted, view⟩
  · rw [view, own]
  -- The proc file system is mounted on the directory of the layout.
  have dir : inside.node [lit "proc"] = some .dir := by
    rcases jail.whole _ _ laid_out with same | ⟨absurd, -⟩
    · exact same
    · exact nomatch absurd
  cases mounted.symm.trans (lookup_text [] true dir (Tree.solid_of_dir dir))
  have beside : ¬ [lit "proc"] <+: loc := by
    intro under
    exact absurd (by decide) (uncovered (lit "proc") (under.subset List.mem_cons_self))
  rw [view, Tree.node_graft_beside beside, own]

end View

section Contained

variable {setting : Setting} {fs host : FileSystem} {root : Loc} {requested resolved path : Text} {size : Nat} {m : Machine}
  {s : Process}

/-- None of the texts that the copy comes to goes through a covered name. -/
def Uncovered (host : Tree) (path : Text) : Prop :=
  ∀ text, Relation.ReflTransGen (Points host) path text → ∀ name ∈ components text, name ∉ coveredNames

/-- A path leads the process to a file with the content that the host has there. -/
def Process.Finds (s : Process) (host : Tree) (path : Text) : Prop :=
  ∃ content place mode place' mode', lookup host [] true path = .ok (place, .file mode content) ∧
    s.entry true path = .ok (place', .file mode' content)

theorem Provided.finds {additions : Additions host.tree} {tree proc : Tree} (provided : Provided additions root path tree)
    (isolated : s.Isolated tree (Loc.text root) proc) (real : tree.node root = some .dir)
    (laid_out : tree.node (root ++ [lit "proc"]) = some .dir) (uncovered : Uncovered host.tree path) : s.Finds host.tree path := by
  obtain ⟨place, mode, content, n, looked, fits, served⟩ := provided
  obtain ⟨place', walks, mode', file⟩ := served.walks uncovered fun _ _ plain there => isolated.shows real laid_out plain there
  obtain ⟨front, name, passed⟩ := served.passed
  have given : path ≠ [] := by
    rintro rfl
    cases passed.absolute
  have found : lookup s.view [] true path = .ok (place', .file mode' content) := by
    refine lookup_iff.mpr ⟨?_, file⟩
    rw [resolve, if_neg given, if_pos passed.absolute]
    exact (walks.more fits).walk
  exact ⟨content, place, mode, _, mode', looked, isolated.1.entry_of_lookup found⟩

variable [∀ (tree : Tree) (loc : Loc), Decidable (tree.Empty loc)]

/-- Once a rootfs has been prepared and the child has gone into it: the tools, their libraries and the workloads lead
the process to the content that they have on the host, whatever links they lead through and whichever calls were
refused on the way, unless one was refused that came after `pivot_root`. -/
theorem contained_process_finds_tools (made : ensuredAll fs.cwd fs.tree (prefixes requested) = some (.ok (), host.tree))
    (same : host.cwd = fs.cwd) (leads : lookup host.tree host.cwd true requested = .ok (root, .dir))
    (ready : Ready setting host root)
    (prepared : filesystemPrepareRootfs setting requested size fs.machine = (.done (.ok resolved), m))
    (proc : Tree) (rounds : Nat) (cwd : Loc) (mounts : Mounts) (faults : Nat → Fault)
    (isolated : filesystemIsolateRootfs proc rounds (some resolved) (.start m.tree cwd mounts faults) = (.done (.ok ()), s))
    (whole : ¬ s.Stranded) :
    (∀ binary ∈ bootstrapBinaries, ∀ path ∈ binary :: libraries (setting.ldd host.tree binary),
      Uncovered host.tree path → s.Finds host.tree path) ∧
    ∀ workload ∈ bootstrapWorkloads, ∀ loc mode content,
      lookup host.tree host.cwd true workload.1 = .ok (loc, .file mode content) →
        (∃ place mode', s.entry true workload.2 = .ok (place, .file mode' content)) ∧
          ∀ path ∈ libraries (setting.ldd host.tree (Loc.text loc)), Uncovered host.tree path → s.Finds host.tree path := by
  obtain ⟨rfl, mirrored, dirs, equipped, delivered⟩ := prepared_populates made same leads ready prepared
  have laid_out : m.tree.node (root ++ [lit "proc"]) = some .dir := dirs (lit "proc") (by decide)
  have absolute : isAbsolute (Loc.text root) = true := List.append_nil (Loc.text root) ▸ isAbsolute_text root []
  have start : (Process.start m.tree cwd mounts faults).Outside m.tree (Loc.text root) := ⟨rfl, .refl _ _, .inl rfl⟩
  have seen : s.Isolated m.tree (Loc.text root) proc :=
    ((ends_filesystemIsolateRootfs absolute proc rounds).returns _ _ _ start isolated).resolve_right whole
  have finds {path : Text} (provided : Provided (workloadAdditions host ready.reserved) root path m.tree)
      (uncovered : Uncovered host.tree path) : s.Finds host.tree path :=
    provided.finds seen mirrored.real laid_out uncovered
  constructor
  · intro binary member path named uncovered
    rcases List.mem_cons.mp named with rfl | named
    · exact finds (equipped _ member).1 uncovered
    · exact finds ((equipped binary member).2 path named) uncovered
  · intro workload member loc mode content looked
    obtain ⟨⟨mode', there⟩, others⟩ := delivered workload member loc mode content looked
    refine ⟨?_, fun path named => finds (others path named)⟩
    have each : ∀ workload ∈ bootstrapWorkloads, Loc.text (strtok slash workload.2) = workload.2 ∧
        ∀ name ∈ strtok slash workload.2, name ∉ coveredNames := by decide +kernel
    obtain ⟨text, plain⟩ := each workload member
    have file := seen.shows mirrored.real laid_out plain there
    have found := lookup_text [] true file (by intro target link; cases file.symm.trans link)
    rw [text] at found
    exact ⟨_, mode', seen.1.entry_of_lookup found⟩

end Contained

section Run

-- No directory is removed in this run.
noncomputable local instance (tree : Tree) (loc : Loc) : Decidable (tree.Empty loc) := Classical.propDecidable _

/-- The child goes into the prepared rootfs, and the bind mount is refused. -/
noncomputable def containedRun : Outcome (Except Errno Unit) × Process :=
  filesystemIsolateRootfs .bare 1 (some (lit "/r")) (.start mergedPrepared.tree [] [] (failing 1 Errno.EPERM))

theorem containedRun_returns : filesystemIsolateRootfs .bare 1 (some (lit "/r"))
    (.start mergedPrepared.tree [] [] (failing 1 Errno.EPERM)) = (.done (.ok ()), containedRun.2) := by
  have returns : (filesystemIsolateRootfs .bare 1 (some (lit "/r"))
      (.start mergedPrepared.tree [] [] (failing 1 Errno.EPERM))).1 = .done (.ok ()) := by decide +kernel
  unfold containedRun
  rw [← returns]

theorem containedRun_whole : ¬ containedRun.2.Stranded := by decide +kernel

theorem contained_run_finds_tools :
    (∀ binary ∈ bootstrapBinaries, ∀ path ∈ binary :: libraries (dynamicShell.ldd mergedHost.tree binary),
      Uncovered mergedHost.tree path → containedRun.2.Finds mergedHost.tree path) ∧
    ∀ workload ∈ bootstrapWorkloads, ∀ loc mode content,
      lookup mergedHost.tree mergedHost.cwd true workload.1 = .ok (loc, .file mode content) →
        (∃ place mode', containedRun.2.entry true workload.2 = .ok (place, .file mode' content)) ∧
          ∀ path ∈ libraries (dynamicShell.ldd mergedHost.tree (Loc.text loc)),
            Uncovered mergedHost.tree path → containedRun.2.Finds mergedHost.tree path := by
  exact contained_process_finds_tools merged_made rfl merged_leads merged_ready merged_prepared .bare 1 [] [] _
    containedRun_returns containedRun_whole

end Run

end ContainerRuntime.Filesystem
