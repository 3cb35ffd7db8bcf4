import ContainerRuntime.Filesystem.Lexical
import ContainerRuntime.Filesystem.Links

/-! The copies in the rootfs against their originals on the host.

`copy_path_into_rootfs` puts a link or a file of the host at the same path behind
the rootfs, and goes on with the text of the link's target. While it runs, every
link in the rootfs is one that the host has under the same names. A path that has
been copied then leads a process in the rootfs to the content that the host's
kernel finds.
-/

set_option autoImplicit false

namespace ContainerRuntime.Filesystem

open CString Program

/-! ## Texts of paths -/

section Texts

variable {path dir front body target next : Text} {root : Loc} {names : List Name} {name : Name}

theorem pathDirname_parts (parent : pathDirname path = .ok dir) :
    ∃ body last, path = body ++ slash :: last ∧ slash ∉ last ∧ dir = if body = [] then [slash] else body := by
  unfold pathDirname at parent
  split at parent
  · cases parent
  rename_i c front found
  have cut := List.takeWhile_append_dropWhile (p := (· ≠ slash)) (l := path.reverse)
  have whole : slash ∉ path.reverse.takeWhile (· ≠ slash) := fun member => by simpa using List.mem_takeWhile_imp member
  have isSlash : c = slash := by
    have head := List.head?_dropWhile_not (· ≠ slash) path.reverse
    rw [found] at head
    simpa using head
  rw [found] at cut
  generalize path.reverse.takeWhile (· ≠ slash) = tail at cut whole
  obtain ⟨rfl, -⟩ := of_fits parent
  refine ⟨front.reverse, tail.reverse, ?_, by simpa using whole, by simp⟩
  rw [← List.reverse_reverse path, ← cut, isSlash]
  simp

/-- A path whose last component is a name does not end with a slash. -/
theorem strtok_of_components (parts : components path = names ++ [name]) (plain : name ≠ dot) :
    strtok slash path = names ++ [name] ∧ path.getLast? ≠ some slash := by
  unfold components at parts
  simp only at parts
  split at parts
  · rename_i slashed
    obtain ⟨-, last⟩ := List.append_inj' parts rfl
    exact absurd (List.cons.inj last).1.symm plain
  · rename_i whole
    refine ⟨parts, fun ends => whole ⟨ends, ?_⟩⟩
    rw [parts]
    simp

theorem components_of_strtok (ends : path.getLast? ≠ some slash) : components path = strtok slash path := by
  unfold components
  rw [if_neg fun both => ends both.1]

/-- What stands in front of the last name. -/
theorem strtok_parts {last : Text} (whole : slash ∉ last) (parts : components (body ++ slash :: last) = names ++ [name])
    (plain : name ≠ dot) : strtok slash body = names ∧ last = name := by
  obtain ⟨tokens, ends⟩ := strtok_of_components parts plain
  have given : last ≠ [] := by
    rintro rfl
    exact ends (by simp)
  rw [strtok_append_cons, strtok_singleton given whole] at tokens
  obtain ⟨same, last_eq⟩ := List.append_inj' tokens rfl
  exact ⟨same, (List.cons.inj last_eq).1⟩

/-- The copy of a path stands in the directory that its names lead to, behind the rootfs. -/
theorem destinationDir_parts (inner : root ≠ []) (proper : ∀ name ∈ root, Proper name) (parts : components path = names ++ [name])
    (plain : name ≠ dot) (parent : destinationDir (Loc.text root) path = .ok dir) :
    isAbsolute path = true ∧ Extends root dir ∧ strtok slash dir = root ++ names := by
  unfold destinationDir at parent
  split at parent
  · cases parent
  rename_i absolute
  simp only [Bool.not_eq_false] at absolute
  split at parent
  · cases parent
  have behind := extends_pathDirname absolute parent
  obtain ⟨front, last, whole_path, whole, dir_eq⟩ := pathDirname_parts parent
  refine ⟨absolute, behind, ?_⟩
  have tokens := strtok_text proper path (.inr absolute)
  obtain ⟨own, ends⟩ := strtok_of_components parts plain
  have ends_path : (Loc.text root ++ path).getLast? ≠ some slash := by
    obtain ⟨more, rfl⟩ := isAbsolute_iff.mp absolute
    rwa [List.getLast?_append_of_ne_nil _ (by simp)]
  have all : components (front ++ slash :: last) = (root ++ names) ++ [name] := by
    rw [← whole_path, components_of_strtok ends_path, tokens, own, List.append_assoc]
  have front_names := (strtok_parts whole all plain).1
  rw [dir_eq]
  split
  · rename_i nothing
    rw [nothing] at front_names
    have top : strtok slash ([] : Text) = [] := by simp [strtok]
    rw [top] at front_names
    exact absurd (List.append_eq_nil_iff.mp front_names.symm).1 inner
  · exact front_names

theorem components_destination (proper : ∀ name ∈ root, Proper name) (absolute : isAbsolute path = true)
    (parts : components path = names ++ [name]) (plain : name ≠ dot) :
    components (Loc.text root ++ path) = root ++ (names ++ [name]) := by
  obtain ⟨own, ends⟩ := strtok_of_components parts plain
  have ends_path : (Loc.text root ++ path).getLast? ≠ some slash := by
    obtain ⟨more, rfl⟩ := isAbsolute_iff.mp absolute
    rwa [List.getLast?_append_of_ne_nil _ (by simp)]
  rw [components_of_strtok ends_path, strtok_text proper path (.inr absolute), own]

/-- A text that does not end with a slash has a name at its end. -/
theorem strtok_ne_nil (given : path ≠ []) (ends : path.getLast? ≠ some slash) : strtok slash path ≠ [] := by
  intro none_there
  have last_char : path.getLast given ∈ [slash].intercalate (path.splitOn slash) := by
    rw [List.intercalate_splitOn]
    exact List.getLast_mem given
  rw [List.getLast?_eq_some_getLast given] at ends
  rcases mem_intercalate last_char with same | ⟨part, member, inside⟩
  · exact ends (congrArg some same)
  · have token : part ∈ strtok slash path := by
      rw [strtok, List.mem_filter]
      exact ⟨member, decide_eq_true (List.ne_nil_of_mem inside)⟩
    rw [none_there] at token
    cases token

/-- The target of a link starts at the directory of the link, or at the root. -/
theorem components_resolved {front : List Name} {last : Name} (parts : components path = names ++ [name]) (plain : name ≠ dot)
    (resolved : resolveSymlinkTarget path target = .ok next) (onward : components next = front ++ [last])
    (further : last ≠ dot) :
    components target ≠ [] ∧ components next = (if isAbsolute target then [] else names) ++ components target := by
  unfold resolveSymlinkTarget at resolved
  split at resolved
  · rename_i start
    obtain ⟨rfl, -⟩ := of_fits resolved
    rw [if_pos start, onward]
    simp
  rename_i start
  split at resolved
  · cases resolved
  rename_i parent found
  obtain ⟨same, -⟩ := of_fits resolved
  rw [if_neg start]
  obtain ⟨body, rest, rfl, whole, dir_eq⟩ := pathDirname_parts found
  obtain ⟨body_names, -⟩ := strtok_parts whole parts plain
  -- Whatever slash is put between, the names are those of the directory and of the target.
  obtain ⟨dir, shape, dir_names⟩ : ∃ dir, next = dir ++ slash :: target ∧ strtok slash dir = names := by
    by_cases top : parent = [slash]
    · refine ⟨[], ?_, ?_⟩
      · rw [← same, top]
        simp
      · rw [top] at dir_eq
        split at dir_eq
        · rename_i nothing
          rw [← body_names, nothing]
        · rw [← body_names, ← dir_eq]
          exact (strtok_cons_self slash []).symm
    · refine ⟨parent, ?_, ?_⟩
      · rw [← same, if_neg top]
        simp
      · rw [dir_eq] at top ⊢
        split at top
        · exact absurd rfl top
        · rename_i given
          rw [if_neg given, body_names]
  obtain ⟨tokens, ends⟩ := strtok_of_components onward further
  have given : target ≠ [] := by
    rintro rfl
    exact ends (by rw [shape]; simp)
  have target_ends : target.getLast? ≠ some slash := by
    rw [shape] at ends
    rwa [List.getLast?_append_of_ne_nil _ (by simp), List.getLast?_cons_of_ne_nil given] at ends
  rw [components_of_strtok target_ends, onward, ← tokens, shape, strtok_append_cons, dir_names]
  exact ⟨strtok_ne_nil given target_ends, rfl⟩

end Texts

/-! ## What the rootfs has in common with the host -/

/-- The host has this link under these names, and it does not lead to a directory. -/
structure Tree.LinkAt (host : Tree) (names : Loc) (target : Text) : Prop where
  found : ∃ place, walk host false maxLinks [] names = .ok (.there place) ∧ host.node place = some (.link target)
  bounded : ∀ links place, Walks host true links [] names (.there place) → host.node place ≠ some .dir

/-- The host has a regular file with this content under these names. -/
def Tree.FileAt (host : Tree) (names : Loc) (content : Text) : Prop :=
  ∃ place mode, walk host false maxLinks [] names = .ok (.there place) ∧ host.node place = some (.file mode content)

def Tree.Holds (tree : Tree) (loc : Loc) (content : Text) : Prop := ∃ mode, tree.node loc = some (.file mode content)

/-- Outside the rootfs nothing has changed, and every link in it is one of the host. -/
structure Mirrored (host : Tree) (root : Loc) (tree : Tree) : Prop where
  agree : host.Agree root tree
  real : tree.node root = some .dir
  ordinary : ∀ loc, tree.node (root ++ loc) ≠ some .special
  links : ∀ loc target, tree.node (root ++ loc) = some (.link target) → host.LinkAt loc target

/-- The files that do not come from the same path of the host; it has nothing where they are put. -/
structure Additions (host : Tree) where
  content : Loc → Option Text
  apart : ∀ names, content names ≠ none → ∀ place, walk host false maxLinks [] names ≠ .ok (.there place)

/-- The content that is to be put under these names. -/
def Additions.Due {host : Tree} (additions : Additions host) (names : Loc) (content : Text) : Prop :=
  host.FileAt names content ∨ additions.content names = some content

/-- What has been copied is still there. -/
structure Renewed {host : Tree} (additions : Additions host) (root : Loc) (tree after : Tree) : Prop where
  dirs : ∀ loc, tree.node loc = some .dir → after.node loc = some .dir
  links : ∀ loc target, tree.node (root ++ loc) = some (.link target) → after.node (root ++ loc) = some (.link target)
  files : ∀ loc content, additions.Due loc content → tree.Holds (root ++ loc) content → after.Holds (root ++ loc) content

/-- What the text of a path says of the host: it takes nothing back that is not there, and the host finds under the
names that are left what it finds under the path, outside the rootfs. -/
structure Lexical (host : Tree) (root : Loc) (names : List Name) : Prop where
  apart : walkApart host root false maxLinks [] names = true
  deep : Deep [] names
  passes : ∀ front back, names = front ++ back → back ≠ [] →
    ∃ links place, Walks host true links [] (reduced front) (.there place) ∧ host.node place = some .dir
  same : ∀ place, walk host false maxLinks [] names = .ok (.there place) →
    walk host false maxLinks [] (reduced names) = .ok (.there place)

namespace Additions.Due

variable {host : Tree} {additions : Additions host} {names : Loc} {content other target : Text}

theorem unique (due : additions.Due names content) (again : additions.Due names other) : content = other := by
  rcases due with ⟨place, mode, found, file⟩ | added
  · rcases again with ⟨place', mode', found', file'⟩ | added
    · cases found.symm.trans found'
      cases file.symm.trans file'
      rfl
    · exact absurd found (additions.apart names (by simp [added]) place)
  · rcases again with ⟨place, mode, found, -⟩ | again
    · exact absurd found (additions.apart names (by simp [added]) place)
    · exact Option.some.inj (added.symm.trans again)

theorem no_link (due : additions.Due names content) (link : host.LinkAt names target) : False := by
  obtain ⟨place, found, there⟩ := link.found
  rcases due with ⟨place', mode, found', file⟩ | added
  · cases found.symm.trans found'
    cases there.symm.trans file
  · exact additions.apart names (by simp [added]) place found

end Additions.Due

namespace Renewed

variable {host : Tree} {additions : Additions host} {root : Loc} {tree middle after : Tree}

theorem refl : Renewed additions root tree tree := ⟨fun _ there => there, fun _ _ there => there, fun _ _ _ there => there⟩

theorem trans (first : Renewed additions root tree middle) (next : Renewed additions root middle after) :
    Renewed additions root tree after where
  dirs loc there := next.dirs loc (first.dirs loc there)
  links loc target there := next.links loc target (first.links loc target there)
  files loc content known there := next.files loc content known (first.files loc content known there)

end Renewed

section Directories

variable {host tree after : Tree} {additions : Additions host} {root cwd : Loc} {path dir : Text} {front : List Name} {name : Name}

/-- The directories of a copy are new ones in the rootfs, or old ones. -/
theorem Mirrored.grown (mirrored : Mirrored host root tree) (kept : tree.Kept after)
    (made : ∀ loc node, after.node loc = some node → tree.node loc = none → node = .dir ∧ root <+: loc) :
    Mirrored host root after ∧ Renewed additions root tree after := by
  have before : ∀ {loc node}, after.node loc = some node → node ≠ .dir → tree.node loc = some node := by
    intro loc node there other
    cases old : tree.node loc with
    | none => exact absurd (made loc node there old).1 other
    | some entry => rw [← there, kept loc entry old]
  refine ⟨⟨?_, kept _ _ mirrored.real, ?_, ?_⟩, ⟨fun loc => kept loc _, fun loc target => kept _ _, ?_⟩⟩
  · intro loc outside
    rw [← mirrored.agree loc outside]
    cases old : tree.node loc with
    | some entry => exact kept loc entry old
    | none =>
      cases new : after.node loc with
      | none => rfl
      | some entry => exact absurd (made loc entry new old).2 outside
  · intro loc there
    exact mirrored.ordinary loc (before there (by simp))
  · intro loc target there
    exact mirrored.links loc target (before there (by simp))
  · rintro loc content - ⟨mode, there⟩
    exact ⟨mode, kept _ _ there⟩

/-- No link of the rootfs stands under the names of a path. -/
def Unlinked (root : Loc) (tree : Tree) (names : List Name) : Prop :=
  ∀ before name behind, names = before ++ name :: behind → name ≠ dot ∧ name ≠ dotDot →
    tree.Solid (root ++ (reduced before ++ [name]))

/-- The host finds directories where the path goes, and no copied link leads to one. -/
theorem Mirrored.unlinked (mirrored : Mirrored host root tree) (lexical : Lexical host root (front ++ [name])) :
    Unlinked root tree front := by
  intro before name' behind parts plain target link
  have cut : front ++ [name] = (before ++ [name']) ++ (behind ++ [name]) := by
    rw [parts]
    simp
  obtain ⟨budget, place, leads, dir⟩ := lexical.passes _ _ cut (by simp)
  rw [reduced, reducedFrom_concat plain] at leads
  exact (mirrored.links _ target link).bounded budget place leads dir

/-- A walk in the rootfs that meets no link goes where its text goes. -/
theorem Unlinked.textual (clear : Unlinked root tree front) (real : tree.node root = some .dir) (deep : Deep [] front)
    {part more : List Name} (parts : front = part ++ more) {budget : Nat} {loc : Loc}
    (walks : Walks tree true budget [] (root ++ part) (.there loc)) : loc = root ++ reduced part := by
  have inside : Walks tree true budget (root ++ []) part (.there loc) := by
    have through : Walks tree true budget ([] ++ root) part (.there loc) := (walks_through [] real).mp walks
    rwa [List.append_nil]
  have shorter : part <+: front := by
    rw [parts]
    exact List.prefix_append part more
  apply inside.textual rfl rfl (deep.initial shorter)
  intro before name behind same plain
  exact clear before name (behind ++ more) (by rw [parts, same]; simp) plain

theorem Walks.real {last : Bool} {budget : Nat} {loc : Loc} (walks : Walks tree last budget [] root (.there loc)) (real : tree.node root = some .dir) :
    loc = root := by
  have through : Walks tree last budget ([] ++ root) [] (.there loc) := by
    rw [← List.append_nil root] at walks
    exact (walks_through [] real).mp walks
  cases through
  rfl

/-- `mkdir_p` in the rootfs. -/
theorem Mirrored.ensured (mirrored : Mirrored host root tree) (deep : Deep [] front) (clear : Unlinked root tree front)
    (behind : Extends root dir) (tokens : strtok slash dir = root ++ front)
    (returns : ensuredAll cwd tree (prefixes dir) = some (.ok (), after)) :
    Mirrored host root after ∧ Renewed additions root tree after ∧
      (∀ part, part <+: front → after.node (root ++ reduced part) = some .dir) ∧
      ∀ loc, tree.Solid loc → after.Solid loc := by
  have grown := Grown.of_ensuredAll returns
  have given : dir ≠ [] := by
    obtain ⟨rest, rfl, -⟩ := behind
    simp [text_ne_nil]
  have real := grown.kept _ _ mirrored.real
  have solid : ∀ loc, tree.Solid loc → after.Solid loc := by
    intro loc before target link
    cases old : tree.node loc with
    | none => cases (grown.made _ _ link old).1
    | some entry =>
      cases (grown.kept _ _ old).symm.trans link
      exact before target old
  have clear' : Unlinked root after front := fun before name behind parts plain => solid _ (clear before name behind parts plain)
  have absolute : ∀ {text}, Leading dir text → isAbsolute text = true := by
    intro text leading
    obtain ⟨rest, dir_eq, -⟩ := behind
    have start : isAbsolute dir = true := dir_eq ▸ isAbsolute_text root rest
    rcases leading.2 with rfl | ⟨back, rfl⟩
    · exact start
    · rwa [← resolve_start leading.1 (slash :: back)]
  have fresh : ∀ loc node, after.node loc = some node → tree.node loc = none → node = .dir ∧ root <+: loc := by
    intro loc node there absent
    obtain ⟨isDir, text, member, found⟩ := grown.made loc node there absent
    refine ⟨isDir, ?_⟩
    have leading := leading_of_mem given member
    rw [resolve, if_neg leading.1, if_pos (absolute leading)] at found
    have walks := walks_tokens (.of_walk found)
    have shorter : strtok slash text <+: root ++ front := by
      rw [← tokens]
      rcases leading.2 with same | ⟨back, same⟩
      · rw [same]
      · rw [same, strtok_append_cons]
        exact List.prefix_append _ _
    rcases List.prefix_or_prefix_of_prefix shorter (List.prefix_append root front) with above | ⟨part, below⟩
    · -- On the way to the rootfs everything was there.
      obtain ⟨more, rest⟩ := above
      have way : ∀ {t : Tree}, t.node root = some .dir → t.node (strtok slash text) = some .dir := by
        intro t dir
        rw [← rest] at dir
        by_cases done : more = []
        · rwa [done, List.append_nil] at dir
        · exact Tree.dir_of_prefix (by rw [dir]; simp) done
      rw [walks.real (way real)] at absent
      cases absent.symm.trans (way mirrored.real)
    · rw [← below] at walks shorter
      obtain ⟨more, rest⟩ := (List.prefix_append_right_inj root).mp shorter
      rw [clear'.textual real deep rest.symm walks]
      exact List.prefix_append _ _
  obtain ⟨mirrored', renewed⟩ := mirrored.grown grown.kept fresh
  refine ⟨mirrored', renewed, fun part shorter => ?_, solid⟩
  obtain ⟨more, rest⟩ := shorter
  obtain ⟨loc, looked⟩ := isDirectory_of_strip (grown.directories (stripSlash dir) (by simp [prefixes]))
  obtain ⟨found, dir_there⟩ := lookup_iff.mp looked
  rw [resolve, if_neg given, if_pos (absolute ⟨given, .inl rfl⟩)] at found
  have walks := walks_tokens (.of_walk found)
  rw [tokens, ← rest, ← List.append_assoc] at walks
  -- The walk of the whole path has come through the directory.
  obtain ⟨middle, budget, leads, dir⟩ : ∃ middle budget, Walks after true budget [] (root ++ part) (.there middle) ∧
      after.node middle = some .dir := by
    by_cases done : more = []
    · rw [done, List.append_nil] at walks
      exact ⟨loc, _, walks, dir_there⟩
    · obtain ⟨middle, -, -, leads, dir, -⟩ := walks.split rfl done
      exact ⟨middle, _, leads, dir⟩
  rwa [clear'.textual real deep rest.symm leads] at dir

end Directories

/-- The directories that the names of a path lead through are in the rootfs. -/
structure Passed (root : Loc) (tree : Tree) (path : Text) (front : List Name) (name : Name) : Prop where
  absolute : isAbsolute path = true
  parts : components path = front ++ [name]
  plain : name ≠ dot ∧ name ≠ dotDot
  deep : Deep [] front
  dirs : ∀ part, part <+: front → tree.node (root ++ reduced part) = some .dir

namespace Passed

variable {host tree after bare : Tree} {root cwd : Loc} {path target : Text} {front : List Name} {name : Name} {last : Bool}
  {links : Nat} {spot : Spot}

theorem reduced_eq (passed : Passed root tree path front name) : reduced (components path) = reduced front ++ [name] := by
  rw [passed.parts]
  exact reducedFrom_concat passed.plain [] front

theorem renewed (passed : Passed root tree path front name) (kept : ∀ loc, tree.node loc = some .dir → after.node loc = some .dir) :
    Passed root after path front name :=
  { passed with dirs := fun part shorter => kept _ (passed.dirs part shorter) }

/-- The copy of the path is looked up in its directory. -/
theorem resolve_iff (passed : Passed root tree path front name) (proper : ∀ name ∈ root, Proper name) :
    resolve tree cwd last (Loc.text root ++ path) = .ok spot ↔ Walks tree last maxLinks (root ++ reduced front) [name] spot := by
  have real : tree.node root = some .dir := by
    have top := passed.dirs [] List.nil_prefix
    exact List.append_nil root ▸ top
  rw [resolve, if_neg (by simp [text_ne_nil]), if_pos (isAbsolute_text root path),
    components_destination proper passed.absolute passed.parts passed.plain.1]
  have through : Walks tree last maxLinks [] (root ++ (front ++ [name])) spot ↔
      Walks tree last maxLinks (root ++ reduced front) [name] spot := by
    rw [walks_through [] real, List.nil_append, ← walks_reduced passed.deep passed.dirs, List.append_nil]
  rw [← through]
  exact ⟨fun found => .of_walk found, fun walks => walks.walk⟩

/-- Where the copy is, or is to be put. -/
theorem found (passed : Passed root tree path front name) (proper : ∀ name ∈ root, Proper name)
    (leads : resolve tree cwd false (Loc.text root ++ path) = .ok spot) :
    spot = .missing (root ++ (reduced front ++ [name])) ∧ tree.node (root ++ (reduced front ++ [name])) = none ∨
      spot = .there (root ++ (reduced front ++ [name])) := by
  have walks := (passed.resolve_iff proper).mp leads
  rw [← List.append_assoc]
  rcases walks_name passed.plain walks with missing | ⟨there, -⟩
  · exact .inl missing
  · exact .inr there

/-- A call that follows links finds the same where no link is. -/
theorem opened (passed : Passed root tree path front name) (proper : ∀ name ∈ root, Proper name)
    (solid : tree.Solid (root ++ (reduced front ++ [name]))) (leads : resolve tree cwd true (Loc.text root ++ path) = .ok spot) :
    spot.loc = root ++ (reduced front ++ [name]) := by
  have walks := (passed.resolve_iff proper).mp leads
  rw [← List.append_assoc] at solid ⊢
  cases walks with
  | dot => exact absurd rfl passed.plain.1
  | up => exact absurd rfl passed.plain.2
  | missing => rfl
  | stop _ _ _ _ _ _ _ stops => cases stops
  | link _ _ _ _ target _ _ _ link => exact absurd link (solid target)
  | enter _ _ _ _ _ _ _ _ _ _ later =>
    cases later
    rfl

theorem settable (passed : Passed root tree path front name) (plain : tree.node (root ++ (reduced front ++ [name])) ≠ some .dir)
    (entry : Option Node) : tree.Settable (root ++ (reduced front ++ [name])) entry := by
  refine ⟨plain, fun _ => ?_⟩
  rw [← List.append_assoc, List.dropLast_concat, List.getLastD_concat]
  obtain ⟨given, whole⟩ := split_components path name (by rw [passed.parts]; simp)
  exact ⟨passed.dirs front (List.prefix_refl front), given, whole, passed.plain⟩

/-- `copy_symlink` puts the link there, and nothing else has changed. -/
theorem relinked_node (passed : Passed root tree path front name) (proper : ∀ name ∈ root, Proper name)
    (copied : relinked tree cwd target (Loc.text root ++ path) = .ok after) :
    tree.node (root ++ (reduced front ++ [name])) ≠ some .dir ∧
      ∀ loc, after.node loc = if loc = root ++ (reduced front ++ [name]) then some (.link target) else tree.node loc := by
  unfold relinked at copied
  split at copied
  · cases copied
  rename_i bare free
  split at copied
  · cases copied
  · cases copied
  rename_i here missing
  cases copied
  -- Nothing stands there once `unlink` has been called.
  obtain ⟨plain, clear, dirs⟩ : tree.node (root ++ (reduced front ++ [name])) ≠ some .dir ∧
      (∀ loc, loc ≠ root ++ (reduced front ++ [name]) → bare.node loc = tree.node loc) ∧
      ∀ loc, tree.node loc = some .dir → bare.node loc = some .dir := by
    unfold cleared at free
    split at free
    · split at free
      · cases free
        rcases passed.found proper missing with ⟨-, absent⟩ | ends
        · exact ⟨by simp [absent], fun _ _ => rfl, fun _ dir => dir⟩
        · cases ends
      · cases free
    · cases free
    · rename_i old node other looked
      cases free
      obtain ⟨leads, there⟩ := lookup_iff.mp looked
      rcases passed.found proper leads with ⟨ends, -⟩ | ends
      · cases ends
      · cases ends
        have plain : tree.node (root ++ (reduced front ++ [name])) ≠ some .dir := by
          rw [there]
          intro dir
          exact other (Option.some.inj dir)
        refine ⟨plain, fun loc elsewhere => ?_, fun loc dir => Tree.dir_set dir⟩
        rw [Tree.node_set (passed.settable plain none), if_neg elsewhere]
  refine ⟨plain, fun loc => ?_⟩
  rcases (passed.renewed dirs).found proper missing with ⟨ends, absent⟩ | ends
  · cases ends
    rw [Tree.node_set ((passed.renewed dirs).settable (by simp [absent]) _)]
    split
    · rfl
    · rename_i elsewhere
      exact clear loc elsewhere
  · cases ends

end Passed

/-! ## One more copy -/

/-- What is to be put under these names. -/
def Additions.Original {host : Tree} (additions : Additions host) (names : Loc) : Node → Prop
  | .link target => host.LinkAt names target
  | .file _ content => additions.Due names content
  | .dir | .special => False

section Put

variable {host tree after : Tree} {additions : Additions host} {root names : Loc} {entry : Node}

theorem Mirrored.put (mirrored : Mirrored host root tree) (original : additions.Original names entry)
    (plain : tree.node (root ++ names) ≠ some .dir)
    (node : ∀ loc, after.node loc = if loc = root ++ names then some entry else tree.node loc) :
    Mirrored host root after ∧ Renewed additions root tree after := by
  have inside {loc : Loc} : root ++ loc = root ++ names ↔ loc = names := List.append_right_inj root
  have kept : ∀ loc, tree.node loc = some .dir → after.node loc = some .dir := by
    intro loc dir
    have elsewhere : loc ≠ root ++ names := by
      rintro rfl
      exact plain dir
    rw [node, if_neg elsewhere, dir]
  refine ⟨⟨?_, kept root mirrored.real, ?_, ?_⟩, ⟨kept, ?_, ?_⟩⟩
  · intro loc outside
    have elsewhere : loc ≠ root ++ names := by
      rintro rfl
      exact outside (List.prefix_append root names)
    rw [node, if_neg elsewhere, mirrored.agree loc outside]
  · intro loc
    rw [node]
    split
    · cases entry with
      | special => cases original
      | dir | file | link => simp
    · exact mirrored.ordinary loc
  · intro loc target there
    rw [node] at there
    split at there
    · rename_i same
      cases there
      rw [inside.mp same]
      exact original
    · exact mirrored.links loc target there
  · intro loc target there
    rw [node]
    split
    · rename_i same
      have known := mirrored.links loc target there
      rw [inside.mp same] at known
      cases entry with
      | link other =>
        obtain ⟨place, found, link⟩ := known.found
        obtain ⟨place', found', link'⟩ := original.found
        cases found.symm.trans found'
        cases link.symm.trans link'
        rfl
      | file mode content => exact absurd known (original.no_link ·)
      | dir | special => cases original
    · exact there
  · intro loc content due there
    unfold Tree.Holds
    rw [node]
    split
    · rename_i same
      rw [inside.mp same] at due
      cases entry with
      | link other => exact absurd original (due.no_link ·)
      | file mode other =>
        rw [due.unique original]
        exact ⟨mode, rfl⟩
      | dir | special => cases original
    · exact there

end Put

end ContainerRuntime.Filesystem
