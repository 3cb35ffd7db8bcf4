import ContainerRuntime.Filesystem.Tree

/-! The tree as a process sees it whose root is one of its directories.

Such a process takes no `..` at its root, and an absolute path or link starts
there. Its walks are the walks of the tree below the root, so that nothing else
can be reached. A tree that is mounted on a directory hides what was below it.
-/

set_option autoImplicit false

namespace ContainerRuntime.Filesystem

open CString

namespace Tree

/-! ## Parts of a tree -/

/-- What stands below a directory. -/
def below (tree : Tree) (root : Loc) : Tree :=
  if real : tree.node root = some .dir then
    { node := fun loc => tree.node (root ++ loc)
      root := by rw [List.append_nil]; exact real
      parents := fun loc name there => by
        rw [← List.append_assoc] at there
        exact tree.parents (root ++ loc) name there }
  else tree

theorem node_below {tree : Tree} {root : Loc} (real : tree.node root = some .dir) (loc : Loc) :
    (tree.below root).node loc = tree.node (root ++ loc) := by
  unfold below
  rw [dif_pos real]

/-- Another tree is shown from a directory on. -/
def graft (tree : Tree) (point : Loc) (other : Tree) : Tree :=
  if real : tree.node point = some .dir then
    { node := fun loc => if point <+: loc then other.node (loc.drop point.length) else tree.node loc
      root := by
        split
        · rw [List.drop_nil]
          exact other.root
        · exact tree.root
      parents := by
        intro loc name there
        by_cases under : point <+: loc
        · have longer : point <+: loc ++ [name] := under.trans (List.prefix_append _ _)
          rw [if_pos longer, List.drop_append_of_le_length under.length_le] at there
          rw [if_pos under]
          exact other.parents _ name there
        · rw [if_neg under]
          split at there
          · -- The new name is the last one of the point itself, which stands where it stood.
            rename_i longer
            obtain rfl : point = loc ++ [name] := by
              rcases List.prefix_concat_iff.mp longer with same | shorter
              · exact same
              · exact absurd shorter under
            exact tree.parents loc name (by rw [real]; simp)
          · exact tree.parents loc name there }
  else tree

theorem node_graft {tree other : Tree} {point : Loc} (real : tree.node point = some .dir) (loc : Loc) :
    (tree.graft point other).node loc = if point <+: loc then other.node (loc.drop point.length) else tree.node loc := by
  unfold graft
  rw [dif_pos real]

theorem node_graft_under {tree other : Tree} {point : Loc} (real : tree.node point = some .dir) (loc : Loc) :
    (tree.graft point other).node (point ++ loc) = other.node loc := by
  rw [node_graft real, if_pos (List.prefix_append _ _), List.drop_left]

theorem node_graft_beside {tree other : Tree} {point loc : Loc} (beside : ¬ point <+: loc) :
    (tree.graft point other).node loc = tree.node loc := by
  unfold graft
  split
  · exact if_neg beside
  · rfl

/-- It is shown in every tree that the directory is in. -/
theorem node_graft_below {tree other : Tree} {root point : Loc} (real : tree.node root = some .dir)
    (dir : tree.node (root ++ point) = some .dir) (loc : Loc) :
    (tree.graft (root ++ point) other).node (root ++ loc) = ((tree.below root).graft point other).node loc := by
  have inner : (tree.below root).node point = some .dir := (node_below real point).trans dir
  by_cases under : point <+: loc
  · obtain ⟨rest, rfl⟩ := under
    rw [← List.append_assoc, node_graft_under dir, node_graft_under inner]
  · rw [node_graft_beside fun longer => under ((List.prefix_append_right_inj root).mp longer), node_graft_beside under,
      node_below real]

/-- Nothing stands in the directory. -/
def Empty (tree : Tree) (loc : Loc) : Prop := ∀ name, tree.node (loc ++ [name]) = none

theorem Empty.under {tree : Tree} {loc : Loc} (empty : tree.Empty loc) (name : Name) (rest : Loc) :
    tree.node (loc ++ name :: rest) = none := by
  by_contra there
  rw [List.append_cons] at there
  by_cases done : rest = []
  · rw [done, List.append_nil] at there
    exact there (empty name)
  · have dir := dir_of_prefix there done
    cases (empty name).symm.trans dir

/-- An empty directory is taken away. -/
def removed (tree : Tree) (loc : Loc) (inner : loc ≠ []) (empty : tree.Empty loc) : Tree where
  node := Function.update tree.node loc none
  root := by
    rw [Function.update_of_ne inner.symm]
    exact tree.root
  parents := by
    intro dir name there
    have elsewhere : dir ++ [name] ≠ loc := by
      rintro rfl
      rw [Function.update_self] at there
      exact there rfl
    rw [Function.update_of_ne elsewhere] at there
    have other : dir ≠ loc := by
      rintro rfl
      exact there (empty name)
    rw [Function.update_of_ne other]
    exact tree.parents dir name there

end Tree

/-! ## Walks of a process with its own root -/

section Rooted

variable (tree : Tree) (root : Loc) (last : Bool)

/-- `follow`, for a process with this root. -/
def followFrom (again : Loc → List Name → Except Errno Spot) : Loc → List Name → Except Errno Spot
  | here, [] => .ok (.there here)
  | here, name :: rest =>
    if tree.node here ≠ some .dir then .error Errno.ENOTDIR
    else if name = dot then followFrom again here rest
    else if name = dotDot then followFrom again (if here = root then root else here.dropLast) rest
    else
      match tree.node (here ++ [name]) with
      | none => if rest = [] then .ok (.missing (here ++ [name])) else .error Errno.ENOENT
      | some (.link target) =>
        if rest = [] ∧ last = false then .ok (.there (here ++ [name]))
        else again (if isAbsolute target then root else here) (components target ++ rest)
      | some _ => followFrom again (here ++ [name]) rest

def walkFrom : Nat → Loc → List Name → Except Errno Spot
  | 0 => followFrom tree root last fun _ _ => .error Errno.ELOOP
  | links + 1 => followFrom tree root last (walkFrom links)

end Rooted

/-- `resolve`, for a process with this root. -/
def resolveFrom (tree : Tree) (root cwd : Loc) (last : Bool) (path : Text) : Except Errno Spot :=
  if path = [] then .error Errno.ENOENT
  else walkFrom tree root last maxLinks (if isAbsolute path then root else cwd) (components path)

/-- The same place, seen from further up. -/
def Spot.under (root : Loc) : Spot → Spot
  | .there loc => .there (root ++ loc)
  | .missing loc => .missing (root ++ loc)

section Below

variable {tree : Tree} {root : Loc}

/-- The root of the host has nothing above it. -/
theorem walkFrom_nil (tree : Tree) (last : Bool) (links : Nat) : walkFrom tree [] last links = walk tree last links := by
  have same : ∀ again, followFrom tree [] last again = follow tree last again := by
    intro again
    funext here rest
    induction rest generalizing here with
    | nil => rfl
    | cons name rest ih =>
      have up : (if here = [] then [] else here.dropLast) = here.dropLast := by
        split
        · rename_i top
          rw [top]
          rfl
        · rfl
      cases entry : tree.node (here ++ [name]) with
      | none => simp only [followFrom, follow, entry, ih, up]
      | some node => cases node <;> simp only [followFrom, follow, entry, ih, up]
  induction links with
  | zero => exact same _
  | succ links ih => rw [walkFrom, walk, ih, same]

theorem resolveFrom_nil (tree : Tree) (cwd : Loc) : resolveFrom tree [] cwd = resolve tree cwd := by
  funext last path
  unfold resolveFrom resolve
  rw [walkFrom_nil]

section Follow

variable {last : Bool}

/-- A process with a root of its own walks in the tree below the root. -/
theorem followFrom_below (real : tree.node root = some .dir) {again inner : Loc → List Name → Except Errno Spot}
    (later : ∀ here rest, again (root ++ here) rest = (inner here rest).map (Spot.under root)) (here : Loc)
    (rest : List Name) :
    followFrom tree root last again (root ++ here) rest =
      (follow (tree.below root) last inner here rest).map (Spot.under root) := by
  -- The two agree name by name: by induction on what is left of the path.
  induction rest generalizing here with
  | nil => rfl
  | cons name rest ih =>
    have up : (if root ++ here = root then root else (root ++ here).dropLast) = root ++ here.dropLast := by
      by_cases top : here = []
      · simp [top]
      · rw [if_neg (by simp [top]), List.dropLast_append_of_ne_nil top]
    have absolute : ∀ target : Text, (if isAbsolute target then root else root ++ here) =
        root ++ (if isAbsolute target then [] else here) := by
      intro target
      split
      · rw [List.append_nil]
      · rfl
    have further : root ++ here ++ [name] = root ++ (here ++ [name]) := List.append_assoc _ _ _
    rw [followFrom, follow, up, Tree.node_below real, Tree.node_below real, further, ih, ih, ih]
    split
    · rfl
    split
    · rfl
    split
    · rfl
    cases tree.node (root ++ (here ++ [name])) with
    | none =>
      simp only
      split
      · rfl
      · rfl
    | some entry =>
      cases entry with
      | link target =>
        simp only [absolute, later]
        split
        · rfl
        · rfl
      | dir | file | special => rfl

theorem walkFrom_below (real : tree.node root = some .dir) (links : Nat) (here : Loc) (rest : List Name) :
    walkFrom tree root last links (root ++ here) rest =
      (walk (tree.below root) last links here rest).map (Spot.under root) := by
  induction links generalizing here rest with
  | zero => exact followFrom_below real (fun _ _ => rfl) here rest
  | succ links ih => exact followFrom_below real ih here rest

end Follow

/-- A path of such a process leads where it leads in the tree below its root. -/
theorem resolveFrom_below (real : tree.node root = some .dir) (cwd : Loc) (last : Bool) (path : Text) :
    resolveFrom tree root (root ++ cwd) last path =
      (resolve (tree.below root) cwd last path).map (Spot.under root) := by
  have start : (if isAbsolute path then root else root ++ cwd) = root ++ (if isAbsolute path then [] else cwd) := by
    split
    · rw [List.append_nil]
    · rfl
  unfold resolveFrom resolve
  split
  · rfl
  · rw [start, walkFrom_below real]

end Below

end ContainerRuntime.Filesystem
