import ContainerRuntime.Host.Basic
import Mathlib.Data.List.Induction

/-! Directory trees with symbolic links, and how a path is walked in one.

A location is the list of names from the root of the host to an entry, with no
link on the way. A path is walked component by component; a link in the way is
replaced by its target, which starts at the root when it is absolute.
-/

set_option autoImplicit false

namespace ContainerRuntime.Filesystem

open CString

abbrev Name := Text
abbrev Loc := List Name

inductive Node where
  | dir
  | file (mode : Nat) (content : Text)
  | link (target : Text)
  /-- A device, a pipe or a socket. -/
  | special
  deriving DecidableEq

def slash : Char := '/'
def dot : Name := ['.']
def dotDot : Name := ['.', '.']

/-- A name that an entry of a directory can have. -/
def Proper (name : Name) : Prop := name ≠ [] ∧ slash ∉ name ∧ name ≠ dot ∧ name ≠ dotDot

instance (name : Name) : Decidable (Proper name) :=
  inferInstanceAs (Decidable (name ≠ [] ∧ slash ∉ name ∧ name ≠ dot ∧ name ≠ dotDot))

/-- Every entry stands in a directory. -/
structure Tree where
  node : Loc → Option Node
  root : node [] = some .dir
  parents : ∀ loc name, node (loc ++ [name]) ≠ none → node loc = some .dir ∧ Proper name

namespace Tree

/-- The entry may be put there: it replaces no directory, and a new one stands in a directory. -/
def Settable (tree : Tree) (loc : Loc) (entry : Option Node) : Prop :=
  tree.node loc ≠ some .dir ∧ (entry ≠ none → tree.node loc.dropLast = some .dir ∧ Proper (loc.getLastD []))

instance (tree : Tree) (loc : Loc) (entry : Option Node) : Decidable (tree.Settable loc entry) :=
  inferInstanceAs (Decidable (_ ∧ (_ → _ ∧ _)))

/-- The tree with another entry at a location where no directory is; elsewhere it is as before. -/
def set (tree : Tree) (loc : Loc) (entry : Option Node) : Tree :=
  if ready : tree.Settable loc entry then
    { node := Function.update tree.node loc entry
      root := by
        have other : ([] : Loc) ≠ loc := fun same => ready.1 (same ▸ tree.root)
        rw [Function.update_of_ne other]
        exact tree.root
      parents := by
        intro dir name there
        by_cases here : dir ++ [name] = loc
        · subst here
          rw [Function.update_self] at there
          obtain ⟨parent, proper⟩ := ready.2 there
          simp only [List.dropLast_concat, List.getLastD_concat] at parent proper
          have other : dir ≠ dir ++ [name] := by simp
          rw [Function.update_of_ne other]
          exact ⟨parent, proper⟩
        · rw [Function.update_of_ne here] at there
          obtain ⟨parent, proper⟩ := tree.parents dir name there
          have other : dir ≠ loc := fun same => ready.1 (same ▸ parent)
          rw [Function.update_of_ne other]
          exact ⟨parent, proper⟩ }
  else tree

/-- A directory stays where it is. -/
theorem dir_set {tree : Tree} {loc dir : Loc} {entry : Option Node} (here : tree.node dir = some .dir) :
    (tree.set loc entry).node dir = some .dir := by
  unfold set
  split
  · rename_i ready
    have other : dir ≠ loc := fun same => ready.1 (same ▸ here)
    exact (Function.update_of_ne other _ _).trans here
  · exact here

/-- What an entry's location leads through. -/
theorem dir_of_prefix {tree : Tree} {front back : Loc} (there : tree.node (front ++ back) ≠ none) (further : back ≠ []) :
    tree.node front = some .dir := by
  induction back using List.reverseRecOn with
  | nil => exact absurd rfl further
  | append_singleton back name ih =>
    rw [← List.append_assoc] at there
    have parent := (tree.parents _ _ there).1
    by_cases done : back = []
    · rw [done, List.append_nil] at parent
      exact parent
    · exact ih (by rw [parent]; simp) done

theorem proper_of_mem {tree : Tree} {loc : Loc} (there : tree.node loc ≠ none) : ∀ name ∈ loc, Proper name := by
  induction loc using List.reverseRecOn with
  | nil => exact fun _ member => by cases member
  | append_singleton loc last ih =>
    obtain ⟨parent, proper⟩ := tree.parents _ _ there
    intro name member
    rcases List.mem_append.mp member with early | late
    · exact ih (by rw [parent]; simp) name early
    · rw [List.mem_singleton.mp late]
      exact proper

end Tree

/-! ## Paths -/

def isAbsolute (path : Text) : Bool := path.head? = some slash

/-- The components of a path; a slash at the end asks for a directory. -/
def components (path : Text) : List Name :=
  let names := strtok slash path
  if path.getLast? = some slash ∧ names ≠ [] then names ++ [dot] else names

/-- The absolute path of a location, as `realpath` prints it. -/
def Loc.text (loc : Loc) : Text := if loc = [] then [slash] else loc.flatMap (slash :: ·)

/-- Where a walk ends: at an entry, or at the place of a last component that is not there. -/
inductive Spot where
  | there (loc : Loc)
  | missing (loc : Loc)
  deriving DecidableEq

def Spot.loc : Spot → Loc
  | .there loc | .missing loc => loc

section Walk

variable (tree : Tree) (last : Bool)

/-- The walk up to the next link; `again` goes on from there. A link in the last place is followed if `last`. -/
def follow (again : Loc → List Name → Except Errno Spot) : Loc → List Name → Except Errno Spot
  | here, [] => .ok (.there here)
  | here, name :: rest =>
    if tree.node here ≠ some .dir then .error Errno.ENOTDIR
    else if name = dot then follow again here rest
    else if name = dotDot then follow again here.dropLast rest
    else
      match tree.node (here ++ [name]) with
      | none => if rest = [] then .ok (.missing (here ++ [name])) else .error Errno.ENOENT
      | some (.link target) =>
        if rest = [] ∧ last = false then .ok (.there (here ++ [name]))
        else again (if isAbsolute target then [] else here) (components target ++ rest)
      | some _ => follow again (here ++ [name]) rest

/-- The walk with at most this many links on the way. -/
def walk : Nat → Loc → List Name → Except Errno Spot
  | 0 => follow tree last fun _ _ => .error Errno.ELOOP
  | links + 1 => follow tree last (walk links)

end Walk

/-- The links Linux follows in one walk. -/
def maxLinks : Nat := 40

def resolve (tree : Tree) (cwd : Loc) (last : Bool) (path : Text) : Except Errno Spot :=
  if path = [] then .error Errno.ENOENT
  else walk tree last maxLinks (if isAbsolute path then [] else cwd) (components path)

/-! ## What a walk can do -/

/-- A walk that is not refused, step by step. -/
inductive Walks (tree : Tree) (last : Bool) : Nat → Loc → List Name → Spot → Prop where
  | done (links : Nat) (here : Loc) : Walks tree last links here [] (.there here)
  | dot (links : Nat) (here : Loc) (rest : List Name) (spot : Spot) (dir : tree.node here = some .dir)
      (later : Walks tree last links here rest spot) : Walks tree last links here (dot :: rest) spot
  | up (links : Nat) (here : Loc) (rest : List Name) (spot : Spot) (dir : tree.node here = some .dir)
      (later : Walks tree last links here.dropLast rest spot) : Walks tree last links here (dotDot :: rest) spot
  | missing (links : Nat) (here : Loc) (name : Name) (dir : tree.node here = some .dir)
      (plain : name ≠ Filesystem.dot ∧ name ≠ dotDot) (absent : tree.node (here ++ [name]) = none) :
      Walks tree last links here [name] (.missing (here ++ [name]))
  /-- A link in the last place is not followed. -/
  | stop (links : Nat) (here : Loc) (name : Name) (target : Text) (dir : tree.node here = some .dir)
      (plain : name ≠ Filesystem.dot ∧ name ≠ dotDot) (link : tree.node (here ++ [name]) = some (.link target))
      (stops : last = false) : Walks tree last links here [name] (.there (here ++ [name]))
  | link (links : Nat) (here : Loc) (name : Name) (rest : List Name) (target : Text) (spot : Spot)
      (dir : tree.node here = some .dir) (plain : name ≠ Filesystem.dot ∧ name ≠ dotDot)
      (link : tree.node (here ++ [name]) = some (.link target)) (goes : ¬ (rest = [] ∧ last = false))
      (later : Walks tree last links (if isAbsolute target then [] else here) (components target ++ rest) spot) :
      Walks tree last (links + 1) here (name :: rest) spot
  | enter (links : Nat) (here : Loc) (name : Name) (rest : List Name) (entry : Node) (spot : Spot)
      (dir : tree.node here = some .dir) (plain : name ≠ Filesystem.dot ∧ name ≠ dotDot)
      (there : tree.node (here ++ [name]) = some entry) (solid : ∀ target, entry ≠ .link target)
      (later : Walks tree last links (here ++ [name]) rest spot) : Walks tree last links here (name :: rest) spot

section Walks

variable {tree : Tree} {last : Bool} {links : Nat} {here : Loc} {rest : List Name} {spot : Spot}

theorem Walks.of_follow {again : Loc → List Name → Except Errno Spot}
    (later : ∀ here rest, again here rest = .ok spot → ∃ fewer, links = fewer + 1 ∧ Walks tree last fewer here rest spot)
    (found : follow tree last again here rest = .ok spot) : Walks tree last links here rest spot := by
  induction rest generalizing here with
  | nil =>
    cases found
    exact .done links here
  | cons name rest ih =>
    simp only [follow] at found
    split at found
    · cases found
    rename_i dir
    simp only [ne_eq, not_not] at dir
    split at found
    · rename_i same
      subst same
      exact .dot links here rest spot dir (ih found)
    split at found
    · rename_i same
      subst same
      exact .up links here rest spot dir (ih found)
    rename_i noDot noDots
    split at found
    · rename_i absent
      split at found
      · rename_i final
        cases found
        subst final
        exact .missing links here name dir ⟨noDot, noDots⟩ absent
      · cases found
    · rename_i target link
      split at found
      · rename_i final
        cases found
        obtain ⟨rfl, stops⟩ := final
        exact .stop links here name target dir ⟨noDot, noDots⟩ link stops
      · rename_i goes
        obtain ⟨fewer, rfl, walks⟩ := later _ _ found
        exact .link fewer here name rest target spot dir ⟨noDot, noDots⟩ link goes walks
    · rename_i entry solid there
      refine .enter links here name rest entry spot dir ⟨noDot, noDots⟩ there (fun target same => ?_) (ih found)
      exact solid target same

theorem Walks.of_walk (found : walk tree last links here rest = .ok spot) : Walks tree last links here rest spot := by
  induction links generalizing here rest with
  | zero => exact .of_follow (fun _ _ absurd => by cases absurd) found
  | succ links ih => exact .of_follow (fun _ _ found => ⟨links, rfl, ih found⟩) found

theorem Walks.walk (walks : Walks tree last links here rest spot) : walk tree last links here rest = .ok spot := by
  induction walks with
  | done links here => cases links <;> rfl
  | dot links here rest spot dir _ ih => cases links <;> simpa [Filesystem.walk, follow, dir] using ih
  | up links here rest spot dir _ ih =>
    have other : dotDot ≠ Filesystem.dot := by decide
    cases links <;> simpa [Filesystem.walk, follow, dir, other] using ih
  | missing links here name dir plain absent => cases links <;> simp [Filesystem.walk, follow, dir, plain, absent]
  | stop links here name target dir plain link stops =>
    cases links <;> simp [Filesystem.walk, follow, dir, plain, link, stops]
  | link links here name rest target spot dir plain link goes _ ih =>
    simp only [Filesystem.walk, follow, dir, ne_eq, not_true_eq_false, if_false, if_neg plain.1, if_neg plain.2, link,
      if_neg goes]
    exact ih
  | enter links here name rest entry spot dir plain there solid _ ih =>
    cases entry with
    | link target => exact absurd rfl (solid target)
    | dir | file | special => cases links <;> simpa [Filesystem.walk, follow, dir, plain, there] using ih

theorem walks_cons_of_dir {name : Name} (dir : tree.node here = some .dir) (next : tree.node (here ++ [name]) = some .dir) :
    Walks tree last links here (name :: rest) spot ↔ Walks tree last links (here ++ [name]) rest spot := by
  have proper := (tree.parents here name (by rw [next]; simp)).2
  constructor
  · intro walks
    cases walks with
    | dot => exact absurd rfl proper.2.2.1
    | up => exact absurd rfl proper.2.2.2
    | missing _ _ _ _ _ absent => cases next.symm.trans absent
    | stop _ _ _ target _ _ link => cases next.symm.trans link
    | link _ _ _ _ target _ _ _ link => cases next.symm.trans link
    | enter _ _ _ _ entry _ _ _ there solid later => exact later
  · exact .enter links here name rest .dir spot dir proper.2.2 next (by simp)

/-- A walk passes through the directories of a real location. -/
theorem walks_through (here : Loc) {names : Loc} (real : tree.node (here ++ names) = some .dir) :
    Walks tree last links here (names ++ rest) spot ↔ Walks tree last links (here ++ names) rest spot := by
  induction names generalizing here with
  | nil => simp
  | cons name names ih =>
    have dir : tree.node here = some .dir := Tree.dir_of_prefix (by rw [real]; simp) (by simp)
    rw [List.append_cons] at real ⊢
    have next : tree.node (here ++ [name]) = some .dir := by
      by_cases done : names = []
      · simpa [done] using real
      · exact Tree.dir_of_prefix (by rw [real]; simp) done
    rw [List.cons_append, walks_cons_of_dir dir next]
    exact ih _ real

/-- Names that a path can be split into. -/
def Split (names : List Name) : Prop := ∀ name ∈ names, name ≠ [] ∧ slash ∉ name

theorem split_components (path : Text) : Split (components path) := by
  have tokens : Split (strtok slash path) := fun _ member => strtok_token member
  unfold components
  simp only
  split
  · intro name member
    rcases List.mem_append.mp member with token | last
    · exact tokens name token
    · rw [List.mem_singleton.mp last]
      decide
  · exact tokens

/-- Where an entry is missing, one can be put. -/
theorem Walks.free {loc : Loc} (walks : Walks tree last links here rest spot) (split : Split rest)
    (ends : spot = .missing loc) : tree.node loc = none ∧ ∀ entry, tree.Settable loc entry := by
  induction walks with
  | done | stop => cases ends
  | dot _ _ _ _ _ _ ih | up _ _ _ _ _ _ ih | enter _ _ _ _ _ _ _ _ _ _ _ ih =>
    exact ih (fun name member => split name (List.mem_cons_of_mem _ member)) ends
  | link _ _ _ rest target _ _ _ _ _ _ ih =>
    refine ih (fun name member => ?_) ends
    rcases List.mem_append.mp member with inside | later
    · exact split_components target name inside
    · exact split name (List.mem_cons_of_mem _ later)
  | missing _ here name dir plain absent =>
    cases ends
    obtain ⟨given, whole⟩ := split name List.mem_cons_self
    refine ⟨absent, fun entry => ⟨by rw [absent]; simp, fun _ => ?_⟩⟩
    simp only [List.dropLast_concat, List.getLastD_concat]
    exact ⟨dir, given, whole, plain⟩

theorem Tree.node_set {loc other : Loc} {entry : Option Node} (ready : tree.Settable loc entry) :
    (tree.set loc entry).node other = if other = loc then entry else tree.node other := by
  unfold Tree.set
  rw [dif_pos ready]
  exact Function.update_apply _ _ _ _

/-- The directory that was missing is found, once it is there. -/
theorem Walks.made {loc : Loc} (walks : Walks tree last links here rest spot) (ends : spot = .missing loc)
    (absent : tree.node loc = none) (ready : tree.Settable loc (some .dir)) :
    Walks (tree.set loc (some .dir)) true links here rest (.there loc) := by
  have kept : ∀ {other : Loc} {entry : Node}, tree.node other = some entry →
      (tree.set loc (some .dir)).node other = some entry := by
    intro other entry there
    have elsewhere : other ≠ loc := by
      rintro rfl
      cases absent.symm.trans there
    rw [Tree.node_set ready, if_neg elsewhere, there]
  induction walks with
  | done | stop => cases ends
  | dot links here rest spot dir _ ih => exact .dot links here rest _ (kept dir) (ih ends)
  | up links here rest spot dir _ ih => exact .up links here rest _ (kept dir) (ih ends)
  | link links here name rest target spot dir plain link goes _ ih =>
    exact .link links here name rest target _ (kept dir) plain (kept link) (by simp) (ih ends)
  | enter links here name rest entry spot dir plain there solid _ ih =>
    exact .enter links here name rest entry _ (kept dir) plain (kept there) solid (ih ends)
  | missing links here name dir plain _ =>
    cases ends
    refine .enter links here name [] .dir _ (kept dir) plain ?_ (by simp) (.done links _)
    rw [Tree.node_set ready, if_pos rfl]

/-- A directory is found with a slash behind its path, too. -/
theorem Walks.slashed {loc : Loc} (walks : Walks tree true links here rest spot) (ends : spot = .there loc)
    (dir : tree.node loc = some .dir) : Walks tree true links here (rest ++ [Filesystem.dot]) (.there loc) := by
  induction walks with
  | done links here =>
    cases ends
    exact .dot links _ [] _ dir (.done links _)
  | missing => cases ends
  | stop _ _ _ _ _ _ _ stops => cases stops
  | dot links here rest spot dir _ ih => exact .dot links here _ _ dir (ih ends)
  | up links here rest spot dir _ ih => exact .up links here _ _ dir (ih ends)
  | link links here name rest target spot dir plain link goes _ ih =>
    refine .link links here name (rest ++ [Filesystem.dot]) target _ dir plain link (by simp) ?_
    rw [← List.append_assoc]
    exact ih ends
  | enter links here name rest entry spot dir plain there solid _ ih =>
    exact .enter links here name _ entry _ dir plain there solid (ih ends)

end Walks

/-! ## Walks that stay below a directory -/

section Below

variable (tree : Tree) (root : Loc) (last : Bool)

/-- No absolute link is followed on the way, and `..` is not applied to `root` itself. -/
def followBelow (again : Loc → List Name → Bool) : Loc → List Name → Bool
  | _, [] => true
  | here, name :: rest =>
    if name = dot then followBelow again here rest
    else if name = dotDot then here ≠ root && followBelow again here.dropLast rest
    else
      match tree.node (here ++ [name]) with
      | none => true
      | some (.link target) =>
        if rest = [] ∧ last = false then true else !isAbsolute target && again here (components target ++ rest)
      | some _ => followBelow again (here ++ [name]) rest

def walkBelow : Nat → Loc → List Name → Bool
  | 0 => followBelow tree root last fun _ _ => true
  | links + 1 => followBelow tree root last (walkBelow links)

variable {tree root last}

theorem prefix_dropLast {here : Loc} (inside : root <+: here) (other : here ≠ root) : root <+: here.dropLast := by
  obtain ⟨rest, rfl⟩ := inside
  have further : rest ≠ [] := fun done => other (by rw [done, List.append_nil])
  rw [List.dropLast_append_of_ne_nil further]
  exact List.prefix_append root _

/-- A walk that stays below `root` ends inside it. -/
theorem Walks.inside {links : Nat} {here : Loc} {rest : List Name} {spot : Spot}
    (walks : Walks tree last links here rest spot) (inside : root <+: here)
    (below : walkBelow tree root last links here rest = true) : root <+: spot.loc := by
  induction walks with
  | done => exact inside
  | missing | stop => exact inside.trans (List.prefix_append _ _)
  | dot links here rest spot dir _ ih =>
    apply ih inside
    cases links <;> simpa [walkBelow, followBelow] using below
  | up links here rest spot dir _ ih =>
    have other : dotDot ≠ Filesystem.dot := by decide
    have stays : here ≠ root ∧ walkBelow tree root last links here.dropLast rest = true := by
      cases links <;> simpa [walkBelow, followBelow, other] using below
    exact ih (prefix_dropLast inside stays.1) stays.2
  | link links here name rest target spot dir plain link goes _ ih =>
    simp only [walkBelow, followBelow, if_neg plain.1, if_neg plain.2, link, if_neg goes, Bool.and_eq_true,
      Bool.not_eq_true'] at below
    simp only [below.1, Bool.false_eq_true, if_false] at ih
    exact ih inside below.2
  | enter links here name rest entry spot dir plain there solid _ ih =>
    apply ih (inside.trans (List.prefix_append _ _))
    cases entry with
    | link target => exact absurd rfl (solid target)
    | dir | file | special => cases links <;> simpa [walkBelow, followBelow, plain, there] using below

end Below

end ContainerRuntime.Filesystem
