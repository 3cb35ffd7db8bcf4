import ContainerRuntime.Filesystem.OldRoot

/-! What a container sees of the host.

When `filesystem_isolate_rootfs` returns 0, the process sees what stands below
the rootfs, with a proc file system on it, and no path leads it anywhere else.
One case is left out: the old root is given up by calls behind `pivot_root`, and
when one of these is refused, the source goes on with `chroot` in a tree that
still has the old root in it.
-/

set_option autoImplicit false

namespace ContainerRuntime.Filesystem

open CString Program

/-! ## What the process sees -/

theorem Tree.ext_node {first second : Tree} (same : ∀ loc, first.node loc = second.node loc) : first = second := by
  obtain ⟨node, _, _⟩ := first
  obtain ⟨other, _, _⟩ := second
  obtain rfl : node = other := funext same
  rfl

/-- The tree that the process can name entries of. -/
def Process.view (s : Process) : Tree := s.machine.tree.below s.root

/-- The process stands at its root. -/
structure Process.Enclosed (s : Process) : Prop where
  real : s.machine.tree.node s.root = some .dir
  here : s.machine.cwd = s.root

/-- A tree is what stands below the rootfs, but for the directory for the old root. -/
structure Jail (host : Tree) (root : Loc) (inside : Tree) : Prop where
  own : ∀ loc node, inside.node loc = some node → host.node (root ++ loc) = some node ∨ loc = [oldRootDir] ∧ node = .dir
  whole : ∀ loc node, host.node (root ++ loc) = some node →
    inside.node loc = some node ∨ loc = [oldRootDir] ∧ node = .dir ∧ host.Empty (root ++ [oldRootDir])

/-- A call behind a successful `pivot_root` was refused. -/
def Process.Refused (error : Errno) (s : Process) : Prop :=
  ⟨.pivotRoot, none⟩ ∈ s.log ∧ ∃ call ∈ [RootCall.chdir (lit "/"), .umount2, .rmdir], ⟨call, some error⟩ ∈ s.log

/-- And the source did not stop there. -/
def Process.Stranded (s : Process) : Prop := ∃ error ∈ [Errno.EPERM, Errno.EINVAL], s.Refused error

instance (s : Process) : Decidable s.Stranded :=
  inferInstanceAs (Decidable (∃ error ∈ _, _ ∧ ∃ call ∈ _, _))

section Calls

variable {s after : Process} {path : Text} {last : Bool} {loc : Loc} {node : Node}

/-- A path leads an enclosed process where it leads in its view. -/
theorem Process.Enclosed.resolve_eq (enclosed : s.Enclosed) (last : Bool) (path : Text) :
    s.resolve last path = (Filesystem.resolve s.view [] last path).map (Spot.under s.root) := by
  have leads := resolveFrom_below enclosed.real [] last path
  rw [List.append_nil] at leads
  rw [Process.resolve, enclosed.here]
  exact leads

theorem Process.entry_eq (unrooted : s.root = []) (last : Bool) (path : Text) :
    s.entry last path = lookup s.machine.tree s.machine.cwd last path := by
  have same : s.resolve last path = Filesystem.resolve s.machine.tree s.machine.cwd last path := by
    rw [Process.resolve, unrooted, resolveFrom_nil]
  cases leads : Filesystem.resolve s.machine.tree s.machine.cwd last path with
  | error errno => simp only [Process.entry, lookup, same, leads]
  | ok spot =>
    cases spot with
    | missing loc => simp only [Process.entry, lookup, same, leads]
    | there loc => cases found : s.machine.tree.node loc <;> simp only [Process.entry, lookup, same, leads, found]

theorem Process.directory_iff : s.directory path = .ok loc ↔ s.entry true path = .ok (loc, .dir) := by
  unfold Process.directory
  constructor
  · intro found
    split at found
    · cases found
    · rename_i entry
      cases found
      exact entry
    · cases found
  · intro entry
    rw [entry]

/-- What a call can do to a process. -/
theorem ends_call {P : Process → Prop} {Q : Unit → Process → Prop} {E : Errno → Process → Prop} {name : RootCall}
    {effect : Process → Except Errno Process} (refused : ∀ s error, P s → E error (s.later.failed name error))
    (acts : ∀ s after, P s → effect s.later = .ok after → Q () { after with log := s.log ++ [⟨name, none⟩] }) :
    Ends P (call name effect) Q E where
  returns s a t pre done := by
    unfold call at done
    split at done
    · cases done
    split at done
    · cases done
    · rename_i effected
      cases done
      exact acts s _ pre effected
  fails s error t pre done := by
    unfold call at done
    split at done
    · cases done
      exact refused s _ pre
    split at done
    · cases done
      exact refused s _ pre
    · cases done

theorem ends_refuse {P : Process → Prop} {Q : Unit → Process → Prop} {E : Errno → Process → Prop} {error : Errno}
    (failed : ∀ s, P s → E error s) : Ends P (refuse error) Q E where
  returns s a t pre done := by cases done
  fails s other t pre done := by
    cases done
    exact failed _ pre

/-- Nothing is taken out of the log. -/
theorem ends_stranded (name : RootCall) (effect : Process → Except Errno Process) :
    Ends Process.Stranded (call name effect) (fun _ => Process.Stranded) fun _ => Process.Stranded := by
  have grown : ∀ (s : Process) (entry : Returned) (t : Process), s.Stranded → t.log = s.log ++ [entry] → t.Stranded := by
    rintro s entry t ⟨error, tolerated, pivoted, call, among, failed⟩ log
    refine ⟨error, tolerated, ?_, call, among, ?_⟩
    · rw [log]
      exact List.mem_append_left _ pivoted
    · rw [log]
      exact List.mem_append_left _ failed
  apply ends_call
  · exact fun s error stranded => grown s _ _ stranded rfl
  · exact fun s after stranded _ => grown s _ _ stranded rfl

end Calls

/-! ## `chroot` -/

/-- The root has not been changed yet. -/
structure Process.Outside (host : Tree) (rootfs : Text) (s : Process) : Prop where
  unrooted : s.root = []
  prepared : Prepared host rootfs s.machine.tree
  /-- Nothing is added where the rootfs path leads nowhere. -/
  found : s.machine.tree = host ∨ ∃ entry, lookup host [] true rootfs = .ok entry

/-- The process stands in the rootfs, and its root has not been changed. -/
def Process.Entered (host : Tree) (rootfs : Text) (root : Loc) (s : Process) : Prop :=
  s.Outside host rootfs ∧ lookup host [] true rootfs = .ok (root, .dir) ∧ s.machine.cwd = root

/-- The process sees the rootfs only. -/
def Process.Jailed (host : Tree) (rootfs : Text) (s : Process) : Prop :=
  s.Enclosed ∧ ∃ root, lookup host [] true rootfs = .ok (root, .dir) ∧ Jail host root s.view

theorem Prepared.jail {host tree : Tree} {rootfs : Text} {root : Loc} (prepared : Prepared host rootfs tree)
    (looked : lookup host [] true rootfs = .ok (root, .dir)) : Jail host root (tree.below root) := by
  have real := prepared.kept _ _ (lookup_iff.mp looked).2
  constructor
  · intro loc node there
    rw [Tree.node_below real] at there
    rcases prepared.new root looked _ _ there with old | ⟨same, dir⟩
    · exact .inl old
    · exact .inr ⟨List.append_cancel_left same, dir⟩
  · intro loc node there
    rw [Tree.node_below real]
    exact .inl (prepared.kept _ _ there)

section Chroot

variable {host : Tree} {rootfs : Text}

/-- The rootfs path leads where it led on the host. -/
theorem Process.Outside.looked {s : Process} {loc : Loc} (outside : s.Outside host rootfs)
    (absolute : isAbsolute rootfs = true) (found : s.directory rootfs = .ok loc) :
    lookup host [] true rootfs = .ok (loc, .dir) := by
  have looked := Process.directory_iff.mp found
  rw [Process.entry_eq outside.unrooted, lookup_absolute absolute] at looked
  rcases outside.found with same | ⟨⟨root, node⟩, before⟩
  · rwa [same] at looked
  · cases (lookup_kept outside.prepared.kept before).symm.trans looked
    exact before

theorem ends_chdir_rootfs (absolute : isAbsolute rootfs = true) :
    Ends (Process.Outside host rootfs) (chdir rootfs) (fun _ s => ∃ root, s.Entered host rootfs root)
      fun _ => Process.Outside host rootfs := by
  apply ends_call
  · exact fun s error outside => ⟨outside.unrooted, outside.prepared, outside.found⟩
  · intro s after outside moved
    unfold Process.movedTo at moved
    split at moved
    · cases moved
    · rename_i loc found
      have later : s.later.Outside host rootfs := ⟨outside.unrooted, outside.prepared, outside.found⟩
      cases moved
      exact ⟨loc, ⟨outside.unrooted, outside.prepared, outside.found⟩, later.looked absolute found, rfl⟩

/-- A process whose root is its working directory goes back to the root. -/
theorem ends_chdir_root {P : Process → Prop} {E : Errno → Process → Prop}
    (enclosed : ∀ s, P s → s.Enclosed) (keeps : ∀ s : Process, P s → P { s.later with log := s.log ++ [⟨.chdir (lit "/"), none⟩] })
    (refused : ∀ s error, P s → E error (s.later.failed (.chdir (lit "/")) error)) :
    Ends P (chdir (lit "/")) (fun _ => P) E := by
  apply ends_call refused
  intro s after pre moved
  have there := enclosed s pre
  have home : s.later.directory (lit "/") = .ok s.root := by
    rw [Process.directory_iff, Process.entry, Process.resolve]
    have walked : resolveFrom s.later.machine.tree s.later.root s.later.machine.cwd true (lit "/") = .ok (.there s.root) := rfl
    have real : s.later.machine.tree.node s.root = some .dir := there.real
    simp only [walked, real]
  rw [Process.movedTo, home] at moved
  cases moved
  have same : s.later.withCwd s.root = s.later := by
    rw [← there.here]
    rfl
  rw [same]
  exact keeps s pre

/-- What `enter_root_with_chroot` leaves. -/
theorem ends_enterRootWithChroot (absolute : isAbsolute rootfs = true) :
    Ends (Process.Outside host rootfs) (enterRootWithChroot rootfs) (fun _ => Process.Jailed host rootfs)
      fun _ _ => True := by
  apply Ends.bind ((ends_chdir_rootfs absolute).conseq (fun _ pre => pre) (fun _ _ post => post) fun _ _ _ => trivial)
  intro _
  apply Ends.exists_
  intro root
  apply Ends.bind (Q := fun _ => Process.Jailed host rootfs)
  · apply ends_call
    · exact fun _ _ _ => trivial
    · intro s after entered rooted
      obtain ⟨outside, looked, here⟩ := entered
      have real : s.machine.tree.node s.machine.cwd = some .dir := by
        rw [here]
        exact outside.prepared.kept _ _ (lookup_iff.mp looked).2
      have jail := outside.prepared.jail looked
      rw [← here] at jail
      cases rooted
      exact ⟨⟨real, rfl⟩, root, looked, here ▸ jail⟩
  · intro _
    apply ends_chdir_root
    · exact fun s jailed => jailed.1
    · exact fun s jailed => ⟨⟨jailed.1.real, jailed.1.here⟩, jailed.2⟩
    · exact fun _ _ _ => trivial

end Chroot

/-! ## `pivot_root` -/

section Points

variable {mounts : Mounts} {loc point : Loc}

theorem point_of_top {mount : Mount} (shown : mounts.top loc = some mount) : mount.point = loc := by
  have met := List.find?_some shown
  exact of_decide_eq_true met

theorem top_behind {front back : Mounts} (others : ∀ mount ∈ front, mount.point ≠ loc) :
    Mounts.top (front ++ back) loc = Mounts.top back loc := by
  have none_there : front.find? (·.point = loc) = none := by
    rw [List.find?_eq_none]
    intro mount member
    simpa using others mount member
  unfold Mounts.top
  rw [List.find?_append, none_there, Option.none_or]

theorem prefix_singleton {name : Name} (shorter : loc <+: [name]) : loc = [] ∨ loc = [name] := by
  have split : loc = [name] ∨ loc <+: [] := (@List.prefix_concat_iff _ loc [] name).mp shorter
  rcases split with same | nothing
  · exact .inr same
  · exact .inl (List.prefix_nil.mp nothing)

theorem Mounts.inside_points {mount : Mount} (among : mount ∈ mounts.inside loc) :
    loc <+: mount.point ∧ mount.point ≠ loc := by
  obtain ⟨taken, longer⟩ := List.mem_filter.mp among
  have other := List.mem_takeWhile_imp taken
  exact ⟨of_decide_eq_true longer, of_decide_eq_true other⟩

/-- What was mounted in the old root hangs below its new place, and strictly so. -/
theorem Mounts.under_points {mount : Mount} (among : mount ∈ (mounts.inside []).under point) :
    point <+: mount.point ∧ mount.point ≠ point := by
  obtain ⟨before, member, rfl⟩ := List.mem_map.mp among
  refine ⟨List.prefix_append _ _, fun same => (Mounts.inside_points member).2 ?_⟩
  exact List.append_right_eq_self.mp same

theorem Mounts.from_points {mount : Mount} (among : mount ∈ (mounts.inside loc).from_ loc) : mount.point ≠ [] := by
  obtain ⟨before, member, rfl⟩ := List.mem_map.mp among
  obtain ⟨⟨rest, same⟩, other⟩ := Mounts.inside_points member
  intro nothing
  apply other
  simp only [← same, List.drop_left] at nothing
  rw [← same, nothing, List.append_nil]

end Points

section Names

variable {tree : Tree} {last : Bool} {links : Nat} {here loc : Loc} {name : Name}

/-- One name leads to the entry of this name, unless that is a link that is followed. -/
theorem Walks.named {spot : Spot} (walks : Walks tree last links here [name] spot) (proper : Proper name)
    (ends : spot = .there loc) :
    loc = here ++ [name] ∨ last = true ∧ ∃ target, tree.node (here ++ [name]) = some (.link target) := by
  cases walks with
  | dot => exact absurd rfl proper.2.2.1
  | up => exact absurd rfl proper.2.2.2
  | missing => cases ends
  | stop =>
    cases ends
    exact .inl rfl
  | link _ _ _ _ target _ _ _ link goes => exact .inr ⟨by simpa using goes, target, link⟩
  | enter _ _ _ _ _ _ _ _ _ _ later =>
    cases later
    cases ends
    exact .inl rfl

theorem components_oldRootDir : components oldRootDir = [oldRootDir] ∧ components (slash :: oldRootDir) = [oldRootDir] := by
  decide

/-- The name of the directory for the old root, in the working directory or in the root. -/
theorem lookup_oldRootDir {cwd : Loc} {path : Text} {node : Node} (looked : lookup tree cwd last path = .ok (loc, node))
    (either : path = oldRootDir ∧ here = cwd ∨ path = slash :: oldRootDir ∧ here = []) :
    loc = here ++ [oldRootDir] ∨ last = true ∧ ∃ target, tree.node (here ++ [oldRootDir]) = some (.link target) := by
  have found := (lookup_iff.mp looked).1
  unfold resolve at found
  split at found
  · cases found
  apply Walks.named _ proper_oldRootDir rfl
  · exact maxLinks
  · apply Walks.of_walk
    rcases either with ⟨rfl, rfl⟩ | ⟨rfl, rfl⟩
    · rwa [components_oldRootDir.1, if_neg (by decide)] at found
    · rwa [components_oldRootDir.2, if_pos (by decide)] at found

end Names

/-- The root has been changed, and the old one is mounted on its directory. -/
structure Hung (tree : Tree) (root : Loc) (s : Process) : Prop where
  dir : tree.node (root ++ [oldRootDir]) = some .dir
  shown : ∃ old, s.machine.tree = (tree.below root).graft [oldRootDir] old
  mounted : s.mounts.top [oldRootDir] = some ⟨[oldRootDir], some ((tree.below root).below [oldRootDir])⟩

/-- The directory is a link, and the old root is mounted where it led. -/
structure Misled (s : Process) : Prop where
  link : ∃ target, s.machine.tree.node [oldRootDir] = some (.link target)
  above : ∀ mount, s.mounts.top [] = some mount → (mount.lifted s.machine.tree).node [oldRootDir] =
    s.machine.tree.node [oldRootDir]

structure Process.Home (s : Process) : Prop where
  unrooted : s.root = []
  here : s.machine.cwd = []
  pivoted : ⟨.pivotRoot, none⟩ ∈ s.log

/-- `pivot_root` has succeeded. -/
def Process.Swapped (host : Tree) (rootfs : Text) (s : Process) : Prop :=
  s.Home ∧ ∃ root tree, lookup host [] true rootfs = .ok (root, .dir) ∧ Prepared host rootfs tree ∧
    (Hung tree root s ∨ Misled s)

section Pivot

variable {host : Tree} {rootfs : Text}

theorem Process.Swapped.later {s : Process} (swapped : s.Swapped host rootfs) {log : List Returned} (longer : s.log <+: log) :
    ({ s.later with log } : Process).Swapped host rootfs := by
  obtain ⟨home, root, tree, looked, prepared, either⟩ := swapped
  refine ⟨⟨home.unrooted, home.here, longer.subset home.pivoted⟩, root, tree, looked, prepared, ?_⟩
  exact either.imp (fun hung => ⟨hung.dir, hung.shown, hung.mounted⟩) fun misled => ⟨misled.link, misled.above⟩

theorem pivoted_swaps {s after : Process} {root : Loc} (entered : s.Entered host rootfs root)
    (pivoted : s.pivoted oldRootDir = .ok after) (log : List Returned) (logged : ⟨.pivotRoot, none⟩ ∈ log) :
    ({ after with log } : Process).Swapped host rootfs := by
  obtain ⟨outside, looked, here⟩ := entered
  have real : s.machine.tree.node root = some .dir := outside.prepared.kept _ _ (lookup_iff.mp looked).2
  unfold Process.pivoted at pivoted
  split at pivoted
  · cases pivoted
  · cases pivoted
  rename_i loc mount found shown
  have entry := Process.directory_iff.mp found
  rw [Process.entry_eq outside.unrooted, here] at entry
  have dir := (lookup_iff.mp entry).2
  have named := lookup_oldRootDir entry (.inl ⟨rfl, rfl⟩)
  rw [here] at pivoted
  split at pivoted
  · cases pivoted
  rename_i allowed
  obtain ⟨point, rfl⟩ : root <+: loc := by
    by_contra other
    exact allowed (.inr other)
  simp only [List.drop_left] at pivoted
  have below (path : Loc) : (s.machine.tree.below root).node path = s.machine.tree.node (root ++ path) := Tree.node_below real path
  split at pivoted
  · -- The directory is a link to the rootfs itself.
    rename_i top
    subst top
    obtain ⟨-, target, link⟩ : true = true ∧ ∃ target, s.machine.tree.node (root ++ [oldRootDir]) = some (.link target) := by
      rcases named with same | link
      · have longer := congrArg List.length same
        simp at longer
      · exact link
    cases pivoted
    refine ⟨⟨outside.unrooted, rfl, logged⟩, root, s.machine.tree, looked, outside.prepared, .inr ⟨⟨target, ?_⟩, ?_⟩⟩
    · exact (below _).trans link
    · intro other first
      cases first
      exact Tree.node_graft_under (Tree.root _) _
  · rename_i inner
    cases pivoted
    refine ⟨⟨outside.unrooted, rfl, logged⟩, root, s.machine.tree, looked, outside.prepared, ?_⟩
    rcases named with same | ⟨-, target, link⟩
    · -- The old root is mounted on the directory.
      obtain rfl : point = [oldRootDir] := List.append_cancel_left same
      refine .inl ⟨dir, ⟨_, rfl⟩, ?_⟩
      exact (top_behind fun mount among => (Mounts.under_points among).2).trans rfl
    · refine .inr ⟨⟨target, ?_⟩, ?_⟩
      · have beside : ¬ point <+: [oldRootDir] := by
          intro shorter
          rcases prefix_singleton shorter with top | same
          · exact inner top
          · rw [same, link] at dir
            cases dir
        exact (Tree.node_graft_beside beside).trans ((below _).trans link)
      · intro other first
        have member := List.mem_of_find?_eq_some first
        have top := point_of_top first
        rcases List.mem_append.mp member with old | new
        · have shorter := (Mounts.under_points old).1
          rw [top] at shorter
          exact absurd (List.prefix_nil.mp shorter) inner
        · rcases List.mem_cons.mp new with rfl | new
          · exact absurd top inner
          · exact absurd top (Mounts.from_points new)

/-- The old root has been taken away again, if its directory is one. -/
def Process.Uncovered (host : Tree) (rootfs : Text) (s : Process) : Prop :=
  s.Home ∧ ∃ root tree, lookup host [] true rootfs = .ok (root, .dir) ∧ Prepared host rootfs tree ∧
    (s.machine.tree = tree.below root ∨ ∃ target, s.machine.tree.node [oldRootDir] = some (.link target))

theorem Mount.point_lifted {mount : Mount} {tree : Tree} {point : Loc} {target : Text} (here : mount.point = point)
    (link : tree.node [oldRootDir] = some (.link target))
    (above : point = [] → (mount.lifted tree).node [oldRootDir] = tree.node [oldRootDir]) :
    (mount.lifted tree).node [oldRootDir] = some (.link target) := by
  by_cases shorter : point <+: [oldRootDir]
  · rcases prefix_singleton shorter with top | same
    · rw [above top, link]
    · -- Nothing is mounted on a link.
      unfold Mount.lifted
      split
      · exact link
      · unfold Tree.graft
        rw [here, same, dif_neg (by rw [link]; simp)]
        exact link
  · unfold Mount.lifted
    split
    · exact link
    · rw [here, Tree.node_graft_beside shorter]
      exact link

/-- What was below a mount is there again without it. -/
theorem graft_graft {tree other : Tree} {point : Loc} (real : tree.node point = some .dir) :
    (tree.graft point other).graft point (tree.below point) = tree := by
  apply Tree.ext_node
  intro loc
  have dir : (tree.graft point other).node point = some .dir := by
    have top : (tree.graft point other).node (point ++ []) = other.node [] := Tree.node_graft_under real []
    rw [List.append_nil, other.root] at top
    exact top
  rw [Tree.node_graft dir]
  split
  · rename_i under
    obtain ⟨rest, rfl⟩ := under
    rw [List.drop_left, Tree.node_below real]
  · rename_i beside
    exact Tree.node_graft_beside beside

theorem detached_uncovers {s after : Process} (swapped : s.Swapped host rootfs)
    (detached : s.detached (slash :: oldRootDir) = .ok after) (log : List Returned) (logged : s.log <+: log) :
    ({ after with log } : Process).Uncovered host rootfs := by
  obtain ⟨⟨unrooted, here, pivoted⟩, root, tree, looked, prepared, either⟩ := swapped
  have real : tree.node root = some .dir := prepared.kept _ _ (lookup_iff.mp looked).2
  unfold Process.detached at detached
  split at detached
  · cases detached
  rename_i loc node entry
  rw [Process.entry_eq unrooted] at entry
  split at detached
  · cases detached
  rename_i mount shown
  cases detached
  refine ⟨⟨unrooted, here, logged.subset pivoted⟩, root, tree, looked, prepared, ?_⟩
  rcases either with hung | misled
  · left
    obtain ⟨dir, ⟨old, shows⟩, mounted⟩ := hung
    have inside : (tree.below root).node [oldRootDir] = some .dir := (Tree.node_below real _).trans dir
    have top : s.machine.tree.node [oldRootDir] = some .dir := by
      rw [shows]
      exact (Tree.node_graft_under inside []).trans old.root
    obtain rfl : loc = [oldRootDir] := by
      rcases lookup_oldRootDir entry (.inr ⟨rfl, rfl⟩) with same | ⟨-, target, link⟩
      · exact same
      · cases top.symm.trans link
    cases mounted.symm.trans shown
    rw [Process.withTree, shows]
    exact graft_graft inside
  · right
    obtain ⟨⟨target, link⟩, above⟩ := misled
    refine ⟨target, Mount.point_lifted (point_of_top shown) link ?_⟩
    rintro rfl
    exact above mount shown

/-- The directory for the old root was empty, or new. -/
theorem Prepared.jail_removed {tree shown : Tree} {root : Loc} (prepared : Prepared host rootfs tree)
    (looked : lookup host [] true rootfs = .ok (root, .dir)) (same : shown = tree.below root)
    (dir : shown.node [oldRootDir] = some .dir) (empty : shown.Empty [oldRootDir]) (inner : [oldRootDir] ≠ []) :
    Jail host root (shown.removed [oldRootDir] inner empty) := by
  have jail := prepared.jail looked
  rw [← same] at jail
  have node (loc : Loc) : (shown.removed [oldRootDir] inner empty).node loc =
      if loc = [oldRootDir] then none else shown.node loc := Function.update_apply _ _ _ _
  constructor
  · intro loc entry there
    rw [node] at there
    split at there
    · cases there
    · exact jail.own loc entry there
  · intro loc entry there
    rw [node]
    split
    · rename_i at_
      subst at_
      right
      rcases jail.whole _ _ there with kept | ⟨-, rest⟩
      · cases dir.symm.trans kept
        refine ⟨rfl, rfl, fun name => ?_⟩
        by_contra hidden
        obtain ⟨other, inside⟩ := Option.ne_none_iff_exists'.mp hidden
        rw [List.append_assoc] at inside
        rcases jail.whole _ _ inside with kept | ⟨longer, -⟩
        · cases (empty name).symm.trans kept
        · simp at longer
      · exact ⟨rfl, rest⟩
    · exact jail.whole loc entry there

theorem Tree.below_nil (tree : Tree) : tree.below [] = tree :=
  Tree.ext_node fun loc => Tree.node_below tree.root loc

theorem Process.Enclosed.unrooted {s : Process} (unrooted : s.root = []) (here : s.machine.cwd = []) : s.Enclosed := by
  refine ⟨?_, here.trans unrooted.symm⟩
  rw [unrooted]
  exact s.machine.tree.root

theorem Process.Jailed.unrooted {s : Process} {root : Loc} (unrooted : s.root = []) (here : s.machine.cwd = [])
    (looked : lookup host [] true rootfs = .ok (root, .dir)) (jail : Jail host root s.machine.tree) :
    s.Jailed host rootfs := by
  refine ⟨.unrooted unrooted here, root, looked, ?_⟩
  rw [Process.view, unrooted, Tree.below_nil]
  exact jail

section Remove

variable [∀ (tree : Tree) (loc : Loc), Decidable (tree.Empty loc)]

/-- `rmdir` takes nothing but an empty directory, and so no link. -/
theorem removed_jails {s after : Process} (uncovered : s.Uncovered host rootfs)
    (removed : s.removed (slash :: oldRootDir) = .ok after) (log : List Returned) :
    ({ after with log } : Process).Jailed host rootfs := by
  obtain ⟨⟨unrooted, here, -⟩, root, tree, looked, prepared, either⟩ := uncovered
  unfold Process.removed at removed
  split at removed
  · cases removed
  · rename_i loc entry
    rw [Process.entry_eq unrooted] at entry
    have dir := (lookup_iff.mp entry).2
    obtain rfl : loc = [oldRootDir] := by
      rcases lookup_oldRootDir entry (.inr ⟨rfl, rfl⟩) with same | ⟨follows, -⟩
      · exact same
      · cases follows
    split at removed
    · cases removed
    split at removed
    · rename_i inner empty
      have same : s.machine.tree = tree.below root := by
        rcases either with same | ⟨target, link⟩
        · exact same
        · cases dir.symm.trans link
      cases removed
      exact .unrooted unrooted here looked (prepared.jail_removed looked same dir empty (by simp))
    · cases removed
  · cases removed

end Remove

/-! ## The whole operation -/

/-- Where an operation on the root has failed. -/
def Process.Failed (host : Tree) (rootfs : Text) (error : Errno) (s : Process) : Prop :=
  s.Outside host rootfs ∨ s.Refused error

theorem ends_bindMount (absolute : isAbsolute rootfs = true) :
    Ends (Process.Outside host rootfs) (bindMount rootfs)
      (fun _ s => s.Outside host rootfs ∧ ∃ entry, lookup host [] true rootfs = .ok entry)
      (Process.Failed host rootfs) := by
  apply ends_call
  · exact fun s error outside => .inl ⟨outside.unrooted, outside.prepared, outside.found⟩
  · intro s after outside bound
    unfold Process.boundOnItself at bound
    split at bound
    · cases bound
    · rename_i loc node entry
      have unrooted : s.later.root = [] := outside.unrooted
      rw [Process.entry_eq unrooted, lookup_absolute absolute] at entry
      cases bound
      refine ⟨⟨outside.unrooted, outside.prepared, outside.found⟩, ?_⟩
      rcases outside.found with same | found
      · exact ⟨(loc, node), same ▸ entry⟩
      · exact found

theorem ends_within {α : Type} {I : Machine → Prop} {P Q : Process → Prop} {p : Sys α} (upholds : Upholds I p)
    (start : ∀ s, P s → I s.machine) (ends : ∀ s m, P s → I m → Q { s with machine := m }) :
    Ends P (within p) (fun _ => Q) fun _ => Q := by
  constructor
  all_goals
    intro s result t pre done
    obtain ⟨completes, rfl⟩ := Prod.mk.inj done
    apply ends s _ pre
  · exact upholds.returns s.machine result _ (start s pre) (Prod.ext completes rfl)
  · exact upholds.fails s.machine result _ (start s pre) (Prod.ext completes rfl)

theorem ends_mkdirP (absolute : isAbsolute rootfs = true) (rounds : Nat) :
    Ends (fun s => s.Outside host rootfs ∧ ∃ entry, lookup host [] true rootfs = .ok entry)
      (within (mkdirP rounds (rootfs ++ slash :: oldRootDir))) (fun _ => Process.Outside host rootfs)
      (Process.Failed host rootfs) := by
  apply (ends_within (Q := Process.Outside host rootfs) (upholds_prepared host absolute rounds) _ _).conseq
  · exact fun _ pre => pre
  · exact fun _ _ outside => outside
  · exact fun _ _ outside => .inl outside
  · exact fun s pre => pre.1.prepared
  · exact fun s m pre prepared => ⟨pre.1.unrooted, prepared, .inr pre.2⟩

theorem ends_pivotRoot (root : Loc) :
    Ends (Process.Entered host rootfs root) (pivotRoot oldRootDir) (fun _ => Process.Swapped host rootfs)
      (Process.Failed host rootfs) := by
  apply ends_call
  · exact fun s error entered => .inl ⟨entered.1.unrooted, entered.1.prepared, entered.1.found⟩
  · intro s after entered pivoted
    have later : s.later.Entered host rootfs root :=
      ⟨⟨entered.1.unrooted, entered.1.prepared, entered.1.found⟩, entered.2.1, entered.2.2⟩
    exact pivoted_swaps later pivoted _ (List.mem_append_right _ List.mem_cons_self)

/-- Behind `pivot_root`, a call that is refused is in the log beside it. -/
theorem Process.Home.refused {s : Process} (home : s.Home) {name : RootCall}
    (among : name ∈ [RootCall.chdir (lit "/"), .umount2, .rmdir]) (error : Errno) :
    (s.later.failed name error).Failed host rootfs error :=
  .inr ⟨List.mem_append_left _ home.pivoted, name, among, List.mem_append_right _ List.mem_cons_self⟩

theorem ends_umount2 :
    Ends (Process.Swapped host rootfs) (umount2 (slash :: oldRootDir)) (fun _ => Process.Uncovered host rootfs)
      (Process.Failed host rootfs) := by
  apply ends_call
  · exact fun s error swapped => swapped.1.refused (by decide) error
  · intro s after swapped detached
    exact detached_uncovers (swapped.later (List.prefix_refl _)) detached _ (List.prefix_append _ _)

theorem ends_enterRootWithChroot_stranded :
    Ends Process.Stranded (enterRootWithChroot rootfs) (fun _ => Process.Stranded) fun _ _ => True := by
  have each (name : RootCall) (effect : Process → Except Errno Process) :
      Ends Process.Stranded (call name effect) (fun _ => Process.Stranded) fun _ _ => True :=
    (ends_stranded name effect).conseq (fun _ pre => pre) (fun _ _ post => post) fun _ _ _ => trivial
  apply Ends.bind (each _ _)
  intro _
  apply Ends.bind (each _ _)
  intro _
  exact each _ _

/-- The proc file system is mounted on a directory of the jail, if it is mounted. -/
def Process.Isolated (host : Tree) (rootfs : Text) (proc : Tree) (s : Process) : Prop :=
  s.Enclosed ∧ ∃ root inside, lookup host [] true rootfs = .ok (root, .dir) ∧ Jail host root inside ∧
    (s.view = inside ∨ ∃ point, lookup inside [] true (lit "/proc") = .ok (point, .dir) ∧ s.view = inside.graft point proc)

theorem showing_isolates {s after : Process} {proc : Tree} (jailed : s.Jailed host rootfs)
    (shown : s.showing proc (lit "/proc") = .ok after) (log : List Returned) :
    ({ after with log } : Process).Isolated host rootfs proc := by
  obtain ⟨enclosed, root, looked, jail⟩ := jailed
  have below := Tree.node_below enclosed.real
  unfold Process.showing at shown
  split at shown
  · cases shown
  rename_i loc found
  have entry := Process.directory_iff.mp found
  -- The path leads where it leads in the view.
  obtain ⟨point, inner, rfl, dir⟩ : ∃ point, Filesystem.resolve s.view [] true (lit "/proc") = .ok (.there point) ∧
      s.root ++ point = loc ∧ s.view.node point = some .dir := by
    rw [Process.entry, enclosed.resolve_eq] at entry
    cases met : Filesystem.resolve s.view [] true (lit "/proc") with
    | error error =>
      rw [met] at entry
      cases entry
    | ok spot =>
      rw [met] at entry
      cases spot with
      | missing point => cases entry
      | there point =>
        simp only [Except.map, Spot.under] at entry
        split at entry
        · rename_i node there
          cases entry
          exact ⟨point, rfl, rfl, (below _).trans there⟩
        · cases entry
  have real : s.machine.tree.node (s.root ++ point) = some .dir := (below _).symm.trans dir
  have same : ∀ loc, (s.machine.tree.graft (s.root ++ point) proc).node (s.root ++ loc) = (s.view.graft point proc).node loc :=
    Tree.node_graft_below enclosed.real real
  have top : (s.machine.tree.graft (s.root ++ point) proc).node s.root = some .dir := by
    have first := same []
    rw [List.append_nil] at first
    exact first.trans (Tree.root _)
  cases shown
  refine ⟨⟨top, enclosed.here⟩, root, s.view, looked, jail, .inr ⟨point, lookup_iff.mpr ⟨inner, dir⟩, ?_⟩⟩
  exact Tree.ext_node fun loc => (Tree.node_below top loc).trans (same loc)

theorem ends_mountProc (proc : Tree) :
    Ends (fun s => s.Jailed host rootfs ∨ s.Stranded) (mountProc proc)
      (fun _ s => s.Isolated host rootfs proc ∨ s.Stranded) fun _ s => s.Jailed host rootfs ∨ s.Stranded := by
  apply Ends.or _ (ends_stranded _ _)
  apply ends_call
  · exact fun s error jailed => ⟨⟨jailed.1.real, jailed.1.here⟩, jailed.2⟩
  · intro s after jailed shown
    have later : s.later.Jailed host rootfs := ⟨⟨jailed.1.real, jailed.1.here⟩, jailed.2⟩
    exact showing_isolates later shown _

section Whole

variable [∀ (tree : Tree) (loc : Loc), Decidable (tree.Empty loc)]

theorem ends_rmdir :
    Ends (Process.Uncovered host rootfs) (rmdir (slash :: oldRootDir)) (fun _ => Process.Jailed host rootfs)
      (Process.Failed host rootfs) := by
  apply ends_call
  · exact fun s error uncovered => uncovered.1.refused (by decide) error
  · intro s after uncovered removed
    have later : s.later.Uncovered host rootfs := ⟨⟨uncovered.1.unrooted, uncovered.1.here, uncovered.1.pivoted⟩, uncovered.2⟩
    exact removed_jails later removed _

theorem ends_enterRootWithPivotRoot (absolute : isAbsolute rootfs = true) (rounds : Nat) :
    Ends (Process.Outside host rootfs) (enterRootWithPivotRoot rounds rootfs) (fun _ => Process.Jailed host rootfs)
      (Process.Failed host rootfs) := by
  apply Ends.bind (ends_bindMount absolute)
  intro _
  unfold pathJoin
  simp only
  split
  · rename_i error joined
    exact ends_refuse fun s pre => .inl pre.1
  rename_i path joined
  split at joined
  · cases joined
  cases joined
  apply Ends.bind (ends_mkdirP absolute rounds)
  intro _
  apply Ends.bind ((ends_chdir_rootfs absolute).conseq (fun _ pre => pre) (fun _ _ post => post) fun _ _ outside => .inl outside)
  intro _
  apply Ends.bind (Ends.exists_ ends_pivotRoot)
  intro _
  apply Ends.bind (Q := fun _ => Process.Swapped host rootfs)
  · apply ends_chdir_root
    · exact fun s swapped => .unrooted swapped.1.unrooted swapped.1.here
    · exact fun s swapped => swapped.later (List.prefix_append _ _)
    · exact fun s error swapped => swapped.1.refused (by decide) error
  intro _
  apply Ends.bind ends_umount2
  intro _
  exact ends_rmdir

theorem ends_filesystemIsolateRootfs (absolute : isAbsolute rootfs = true) (proc : Tree) (rounds : Nat) :
    Ends (Process.Outside host rootfs) (filesystemIsolateRootfs proc rounds (some rootfs))
      (fun _ s => s.Isolated host rootfs proc ∨ s.Stranded) fun _ _ => True := by
  have refused {P : Process → Prop} {Q : Unit → Process → Prop} (error : Errno) :
      Ends P (refuse error) Q fun _ _ => True := ends_refuse fun _ _ => trivial
  unfold filesystemIsolateRootfs
  split
  · exact refused _
  · exact refused _
  rename_i path _ same
  cases same
  apply Ends.bind (Q := fun _ => Process.Outside host rootfs)
  · apply Ends.recover (E := fun _ => Process.Outside host rootfs)
    · apply ends_call
      · exact fun s error outside => ⟨outside.unrooted, outside.prepared, outside.found⟩
      · intro s after outside private_
        cases private_
        exact ⟨outside.unrooted, outside.prepared, outside.found⟩
    · intro error
      split
      · exact Ends.pure fun _ outside => outside
      · exact refused _
  intro _
  apply Ends.bind (Q := fun _ s => s.Jailed host rootfs ∨ s.Stranded)
  · apply Ends.recover ((ends_enterRootWithPivotRoot absolute rounds).post fun _ _ jailed => .inl jailed)
    intro error
    split
    · rename_i tolerated
      apply ((ends_enterRootWithChroot absolute).or ends_enterRootWithChroot_stranded).conseq
      · exact fun s failed => failed.imp id fun refused => ⟨error, by simpa using tolerated, refused⟩
      · exact fun _ _ post => post
      · exact fun _ _ _ => trivial
    · exact refused _
  intro _
  apply Ends.recover (ends_mountProc proc)
  intro error
  split
  · refine Ends.pure fun s pre => pre.imp (fun jailed => ?_) id
    obtain ⟨enclosed, root, looked, jail⟩ := jailed
    exact ⟨enclosed, root, s.view, looked, jail, .inl rfl⟩
  · exact refused _

/-- Whatever calls fail: the process sees the rootfs, with the proc file system on it, and its paths lead nowhere else,
unless a call behind `pivot_root` was refused with an error that the source takes for one of `pivot_root`. -/
theorem isolated_sees_rootfs (absolute : isAbsolute rootfs = true) (proc : Tree) (rounds : Nat) (cwd : Loc)
    (mounts : Mounts) (faults : Nat → Fault) {after : Process}
    (isolated : filesystemIsolateRootfs proc rounds (some rootfs) (.start host cwd mounts faults) = (.done (.ok ()), after)) :
    after.Stranded ∨ ∃ root inside, lookup host [] true rootfs = .ok (root, .dir) ∧ Jail host root inside ∧
      (after.view = inside ∨
        ∃ point, lookup inside [] true (lit "/proc") = .ok (point, .dir) ∧ after.view = inside.graft point proc) ∧
      ∀ last path, after.resolve last path = (resolve after.view [] last path).map (Spot.under after.root) := by
  have start : (Process.start host cwd mounts faults).Outside host rootfs := ⟨rfl, .refl host rootfs, .inl rfl⟩
  rcases (ends_filesystemIsolateRootfs absolute proc rounds).returns _ _ _ start isolated with seen | stranded
  · obtain ⟨enclosed, root, inside, looked, jail, shown⟩ := seen
    exact .inr ⟨root, inside, looked, jail, shown, enclosed.resolve_eq⟩
  · exact .inl stranded

end Whole

end Pivot

/-- A rootfs with a link in it that has the name of the rootfs path, and a file beside the rootfs. -/
def baitedHost : Tree :=
  [([lit "proc"], .dir), ([lit "secret"], .file 384 []), ([lit "r"], .dir), ([lit "r", lit "proc"], .dir),
    ([lit "r", lit "r"], .link (lit "/.old_root"))].foldl (fun tree (loc, entry) => tree.set loc (some entry)) .bare

/-- One call fails. -/
def failing (n : Nat) (error : Errno) : Nat → Fault := fun k => ⟨if k = n then some error else none, 0⟩

section Runs

-- No directory is removed in these runs.
noncomputable local instance (tree : Tree) (loc : Loc) : Decidable (tree.Empty loc) := Classical.propDecidable _

noncomputable def baitedRun (n : Nat) (error : Errno) : Outcome (Except Errno Unit) × Process :=
  filesystemIsolateRootfs .bare 1 (some (lit "/r")) (.start baitedHost [] [] (failing n error))

/-- Where the first mount is refused. -/
theorem denied_mount_sees_rootfs : ∃ root inside,
    lookup baitedHost [] true (lit "/r") = .ok (root, .dir) ∧ Jail baitedHost root inside ∧
    ((baitedRun 1 Errno.EPERM).2.view = inside ∨ ∃ point, lookup inside [] true (lit "/proc") = .ok (point, .dir) ∧
      (baitedRun 1 Errno.EPERM).2.view = inside.graft point .bare) ∧
    ∀ last path, (baitedRun 1 Errno.EPERM).2.resolve last path =
      (resolve (baitedRun 1 Errno.EPERM).2.view [] last path).map (Spot.under (baitedRun 1 Errno.EPERM).2.root) := by
  have returns : (baitedRun 1 Errno.EPERM).1 = .done (.ok ()) := by decide +kernel
  have whole : ¬ (baitedRun 1 Errno.EPERM).2.Stranded := by decide +kernel
  exact (isolated_sees_rootfs (by decide) .bare 1 [] [] (failing 1 Errno.EPERM) (Prod.ext returns rfl)).resolve_left whole

/-- Where the old root cannot be unmounted, the process can come to see it. -/
example : (baitedRun 8 Errno.EINVAL).1 = .done (.ok ()) ∧
    (baitedRun 8 Errno.EINVAL).2.view.node [lit "secret"] = some (.file 384 []) := by
  decide +kernel

end Runs

end ContainerRuntime.Filesystem
