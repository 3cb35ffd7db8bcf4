import ContainerRuntime.Filesystem.Directories

/-! `mkdir_p` against what `mkdir -p` is for.

A tree grows by directories at places where nothing was. What was found before
is found at the same place afterwards, so the prefixes that have been made stay
directories while the later ones are made.
-/

set_option autoImplicit false

namespace ContainerRuntime.Filesystem

open CString Program

/-! ## Growing trees -/

/-- All entries of the first tree are in the second one. -/
def Tree.Kept (tree after : Tree) : Prop := ∀ loc node, tree.node loc = some node → after.node loc = some node

/-- A walk to an entry meets no place where something can be added. -/
theorem Walks.kept {tree after : Tree} {last : Bool} {links : Nat} {here loc : Loc} {rest : List Name} {spot : Spot}
    (walks : Walks tree last links here rest spot) (ends : spot = .there loc) (kept : tree.Kept after) :
    Walks after last links here rest (.there loc) := by
  induction walks with
  | done links here =>
    cases ends
    exact .done links _
  | dot links here rest spot dir _ ih => exact .dot links here rest _ (kept _ _ dir) (ih ends)
  | up links here rest spot dir _ ih => exact .up links here rest _ (kept _ _ dir) (ih ends)
  | missing => cases ends
  | stop links here name target dir plain link stops =>
    cases ends
    exact .stop links here name target (kept _ _ dir) plain (kept _ _ link) stops
  | link links here name rest target spot dir plain link goes _ ih =>
    exact .link links here name rest target _ (kept _ _ dir) plain (kept _ _ link) goes (ih ends)
  | enter links here name rest entry spot dir plain there solid _ ih =>
    exact .enter links here name rest entry _ (kept _ _ dir) plain (kept _ _ there) solid (ih ends)

theorem resolve_kept {tree after : Tree} {cwd loc : Loc} {last : Bool} {path : Text} (kept : tree.Kept after)
    (found : resolve tree cwd last path = .ok (.there loc)) : resolve after cwd last path = .ok (.there loc) := by
  unfold resolve at found ⊢
  split at found
  · cases found
  · rename_i given
    rw [if_neg given]
    exact ((Walks.of_walk found).kept rfl kept).walk

theorem lookup_iff {tree : Tree} {cwd loc : Loc} {last : Bool} {path : Text} {node : Node} :
    lookup tree cwd last path = .ok (loc, node) ↔
      resolve tree cwd last path = .ok (.there loc) ∧ tree.node loc = some node := by
  unfold lookup
  constructor
  · intro looked
    split at looked
    · cases looked
    · cases looked
    · rename_i found
      split at looked
      · rename_i here
        cases looked
        exact ⟨found, here⟩
      · cases looked
  · rintro ⟨found, here⟩
    simp only [found, here]

theorem lookup_kept {tree after : Tree} {cwd loc : Loc} {last : Bool} {path : Text} {node : Node} (kept : tree.Kept after)
    (looked : lookup tree cwd last path = .ok (loc, node)) : lookup after cwd last path = .ok (loc, node) := by
  obtain ⟨found, here⟩ := lookup_iff.mp looked
  exact lookup_iff.mpr ⟨resolve_kept kept found, kept _ _ here⟩

/-- The path leads to a directory. -/
def IsDirectory (tree : Tree) (cwd : Loc) (path : Text) : Prop := ∃ loc, lookup tree cwd true path = .ok (loc, .dir)

/-- A tree has grown by directories that these paths lead to. -/
structure Grown (cwd : Loc) (paths : List Text) (tree after : Tree) : Prop where
  kept : tree.Kept after
  made : ∀ loc node, after.node loc = some node → tree.node loc = none →
    node = .dir ∧ ∃ path ∈ paths, resolve after cwd true path = .ok (.there loc)
  directories : ∀ path ∈ paths, IsDirectory after cwd path

namespace Grown

variable {cwd : Loc} {tree middle after : Tree} {paths more : List Text} {path : Text}

/-- Nothing has been made. -/
theorem same (directories : ∀ path ∈ paths, IsDirectory tree cwd path) : Grown cwd paths tree tree := by
  refine ⟨fun _ _ there => there, fun loc node there absent => ?_, directories⟩
  cases there.symm.trans absent

theorem nil : Grown cwd [] tree tree := same fun _ absent => by cases absent

theorem append (first : Grown cwd paths tree middle) (next : Grown cwd more middle after) :
    Grown cwd (paths ++ more) tree after := by
  refine ⟨fun loc node there => next.kept loc node (first.kept loc node there), fun loc node there absent => ?_,
    fun path member => ?_⟩
  · cases early : middle.node loc with
    | none =>
      obtain ⟨dir, path, member, found⟩ := next.made loc node there early
      exact ⟨dir, path, List.mem_append_right _ member, found⟩
    | some entry =>
      cases (next.kept loc entry early).symm.trans there
      obtain ⟨dir, path, member, found⟩ := first.made loc _ early absent
      exact ⟨dir, path, List.mem_append_left _ member, resolve_kept next.kept found⟩
  · rcases List.mem_append.mp member with early | late
    · obtain ⟨loc, looked⟩ := first.directories path early
      exact ⟨loc, lookup_kept next.kept looked⟩
    · exact next.directories path late

/-- One round of the loop that returns 0. -/
theorem of_ensured (returns : ensured tree cwd path = some (.ok (), after)) : Grown cwd [path] tree after := by
  have spec := standing_spec tree cwd path
  unfold ensured at returns
  cases stands : standing tree cwd path with
  | directory =>
    rw [stands] at returns spec
    cases returns
    exact same (List.forall_mem_singleton.mpr spec)
  | missing loc =>
    rw [stands] at returns spec
    cases returns
    obtain ⟨-, free⟩ := spec
    unfold resolve at free
    split at free
    · cases free
    rename_i given
    -- The walk that found nothing finds the directory now.
    have walks := Walks.of_walk free
    obtain ⟨absent, ready⟩ := walks.free (split_components path) rfl
    have found : resolve (tree.set loc (some .dir)) cwd true path = .ok (.there loc) := by
      rw [resolve, if_neg given]
      exact (walks.made rfl absent (ready _)).walk
    have here : (tree.set loc (some .dir)).node loc = some .dir := by rw [Tree.node_set (ready _), if_pos rfl]
    refine ⟨fun other node there => ?_, fun other node there before => ?_, ?_⟩
    · have elsewhere : other ≠ loc := by
        rintro rfl
        cases absent.symm.trans there
      rw [Tree.node_set (ready _), if_neg elsewhere, there]
    · rw [Tree.node_set (ready _)] at there
      split at there
      · rename_i same
        cases there
        subst same
        exact ⟨rfl, path, List.mem_singleton_self path, found⟩
      · cases there.symm.trans before
    · intro other member
      cases List.mem_singleton.mp member
      exact ⟨loc, lookup_iff.mpr ⟨found, here⟩⟩
  | obstacle | dangling | barred => simp [stands] at returns

theorem of_ensuredAll (returns : ensuredAll cwd tree paths = some (.ok (), after)) : Grown cwd paths tree after := by
  induction paths generalizing tree with
  | nil =>
    cases returns
    exact nil
  | cons path rest ih =>
    rw [ensuredAll] at returns
    split at returns
    · cases returns
    · cases returns
    · rename_i middle first
      exact (of_ensured first).append (ih returns)

end Grown

/-- Where the loop stops: the paths in front are directories, and this one is not made one. -/
theorem stopped_at {cwd : Loc} {tree after : Tree} {paths : List Text} {error : Errno}
    (returns : ensuredAll cwd tree paths = some (.error error, after)) :
    ∃ before path rest, paths = before ++ path :: rest ∧ Grown cwd before tree after ∧
      (standing after cwd path = .obstacle ∧ error = Errno.ENOTDIR ∨ standing after cwd path = .barred error) := by
  -- By induction on the paths: the first one stops the loop, or leaves a tree that has grown.
  induction paths generalizing tree with
  | nil => cases returns
  | cons path rest ih =>
    rw [ensuredAll] at returns
    split at returns
    · cases returns
    · rename_i other middle first
      cases returns
      refine ⟨[], path, rest, rfl, ?_⟩
      unfold ensured at first
      cases stands : standing tree cwd path with
      | obstacle =>
        rw [stands] at first
        cases first
        exact ⟨.nil, .inl ⟨stands, rfl⟩⟩
      | barred other =>
        rw [stands] at first
        cases first
        exact ⟨.nil, .inr stands⟩
      | directory | missing | dangling => simp [stands] at first
    · rename_i middle first
      obtain ⟨before, stop, behind, rfl, grown, why⟩ := ih returns
      exact ⟨path :: before, stop, behind, rfl, (Grown.of_ensured first).append grown, why⟩

/-- Once every path leads to a directory, nothing is left to do. -/
theorem ensuredAll_of_directories {cwd : Loc} {tree : Tree} {paths : List Text}
    (directories : ∀ path ∈ paths, IsDirectory tree cwd path) : ensuredAll cwd tree paths = some (.ok (), tree) := by
  induction paths with
  | nil => rfl
  | cons path rest ih =>
    obtain ⟨⟨loc, looked⟩, later⟩ := List.forall_mem_cons.mp directories
    have stands : standing tree cwd path = .directory := by simp only [standing, looked]
    rw [ensuredAll, ensured, stands]
    exact ih later

/-! ## The next prefix is never out of reach -/

section Reach

variable {tree : Tree} {last : Bool} {links : Nat} {here loc : Loc} {names rest : List Name} {spot : Spot}

/-- A walk goes on from the entry that its first part leads to. -/
theorem Walks.onward (walks : Walks tree true links here names spot) (ends : spot = .there loc) {end_ : Spot}
    (further : ∀ left, Walks tree last left loc rest end_) (more : rest ≠ []) :
    Walks tree last links here (names ++ rest) end_ := by
  induction walks with
  | done links here =>
    cases ends
    exact further links
  | dot links here names spot dir _ ih => exact .dot links here _ _ dir (ih ends)
  | up links here names spot dir _ ih => exact .up links here _ _ dir (ih ends)
  | missing => cases ends
  | stop _ _ _ _ _ _ _ stops => cases stops
  | link links here name names target spot dir plain link goes _ ih =>
    refine .link links here name (names ++ rest) target _ dir plain link (by simp [more]) ?_
    rw [← List.append_assoc]
    exact ih ends
  | enter links here name names entry spot dir plain there solid _ ih =>
    exact .enter links here name _ entry _ dir plain there solid (ih ends)

/-- The slash at the end of a path is of no use to the walk. -/
theorem Walks.undot (walks : Walks tree true links here rest spot) (ends : spot = .there loc)
    (dotted : rest = names ++ [Filesystem.dot]) : Walks tree true links here names (.there loc) := by
  induction walks generalizing names with
  | done => simp at dotted
  | missing => cases ends
  | stop _ _ _ _ _ _ _ stops => cases stops
  | dot links here rest spot dir later ih =>
    cases names with
    | nil =>
      obtain rfl : rest = [] := by simpa using dotted
      rw [← ends]
      exact later
    | cons name names =>
      obtain ⟨rfl, tail⟩ := List.cons.inj dotted
      exact .dot links here names _ dir (ih ends tail)
  | up links here rest spot dir _ ih =>
    cases names with
    | nil => simp [Filesystem.dot, dotDot] at dotted
    | cons name names =>
      obtain ⟨rfl, tail⟩ := List.cons.inj dotted
      exact .up links here names _ dir (ih ends tail)
  | link links here name rest target spot dir plain link goes _ ih =>
    cases names with
    | nil =>
      obtain ⟨rfl, -⟩ := List.cons.inj dotted
      exact absurd rfl plain.1
    | cons first names =>
      obtain ⟨rfl, tail⟩ := List.cons.inj dotted
      refine .link links here name names target _ dir plain link (by simp) (ih ends ?_)
      rw [tail, List.append_assoc]
      rfl
  | enter links here name rest entry spot dir plain there solid _ ih =>
    cases names with
    | nil =>
      obtain ⟨rfl, -⟩ := List.cons.inj dotted
      exact absurd rfl plain.1
    | cons first names =>
      obtain ⟨rfl, tail⟩ := List.cons.inj dotted
      exact .enter links here name names entry _ dir plain there solid (ih ends tail)

/-- From a directory, one name leads somewhere if no link is followed. -/
theorem one_step (dir : tree.node here = some .dir) (name : Name) : ∃ spot, ∀ left, Walks tree false left here [name] spot := by
  by_cases isDot : name = Filesystem.dot
  · subst isDot
    exact ⟨.there here, fun left => .dot left here [] _ dir (.done left here)⟩
  by_cases isDotDot : name = dotDot
  · subst isDotDot
    exact ⟨.there here.dropLast, fun left => .up left here [] _ dir (.done left _)⟩
  cases entry : tree.node (here ++ [name]) with
  | none => exact ⟨.missing _, fun left => .missing left here name dir ⟨isDot, isDotDot⟩ entry⟩
  | some node =>
    refine ⟨.there (here ++ [name]), fun left => ?_⟩
    by_cases solid : ∀ target, node ≠ .link target
    · exact .enter left here name [] node _ dir ⟨isDot, isDotDot⟩ entry solid (.done left _)
    · obtain ⟨target, rfl⟩ : ∃ target, node = .link target := by simpa using solid
      exact .stop left here name target dir ⟨isDot, isDotDot⟩ entry rfl

end Reach

/-- The components of a path with one more part. -/
theorem components_behind (front : Text) {body : Text} (whole : slash ∉ body) :
    components (front ++ slash :: body) = strtok slash front ++ [if body = [] then dot else body] ∨
      components (front ++ slash :: body) = [] := by
  unfold components
  rw [strtok_append_cons]
  by_cases nothing : body = []
  · subst nothing
    have tokens : strtok slash [] = ([] : List Text) := by simp [strtok]
    rw [tokens, List.append_nil]
    by_cases none_there : strtok slash front = []
    · exact .inr (by simp [none_there])
    · exact .inl (by simp [none_there])
  · have ends : (front ++ slash :: body).getLast? ≠ some slash := by
      intro same
      rw [List.getLast?_append_of_ne_nil _ (by simp), List.getLast?_cons_of_ne_nil nothing] at same
      exact whole (List.mem_of_getLast? same)
    rw [strtok_singleton nothing whole]
    exact .inl (by rw [if_neg fun both => ends both.1, if_neg nothing])

section Behind

variable {tree : Tree} {cwd : Loc} {body : Text}

/-- Behind a directory. -/
theorem resolve_behind {front : Text} (directory : IsDirectory tree cwd front) (whole : slash ∉ body) :
    ∃ spot, resolve tree cwd false (front ++ slash :: body) = .ok spot := by
  obtain ⟨loc, looked⟩ := directory
  obtain ⟨found, dir⟩ := lookup_iff.mp looked
  unfold resolve at found
  split at found
  · cases found
  rename_i given
  have start : isAbsolute (front ++ slash :: body) = isAbsolute front := by
    cases front with
    | nil => exact absurd rfl given
    | cons => rfl
  rw [resolve, if_neg (by simp), start]
  rcases components_behind front whole with parts | parts
  · obtain ⟨spot, step⟩ := one_step dir (if body = [] then dot else body)
    have walks := Walks.of_walk found
    have tokens : Walks tree true maxLinks (if isAbsolute front then [] else cwd) (strtok slash front) (.there loc) := by
      have given_parts : components front = strtok slash front ++ [dot] ∨ components front = strtok slash front := by
        unfold components
        simp only
        split
        · exact .inl rfl
        · exact .inr rfl
      rcases given_parts with same | same <;> rw [same] at walks
      · exact walks.undot rfl rfl
      · exact walks
    rw [parts]
    exact ⟨spot, (tokens.onward rfl step (by simp)).walk⟩
  · rw [parts]
    exact ⟨_, (Walks.done _ _).walk⟩

/-- The first part of a path. -/
theorem resolve_first {c : Char} (here : tree.node cwd = some .dir) (whole : slash ∉ body) :
    ∃ spot, resolve tree cwd false (c :: body) = .ok spot := by
  have start : tree.node (if isAbsolute (c :: body) then [] else cwd) = some .dir := by
    split
    · exact tree.root
    · exact here
  have few : components (c :: body) = [] ∨ ∃ name, components (c :: body) = [name] := by
    by_cases absolute : c = slash
    · subst absolute
      rcases components_behind [] whole with parts | parts
      · exact .inr ⟨_, parts⟩
      · exact .inl parts
    · have whole : slash ∉ c :: body := by simp [whole, Ne.symm absolute]
      have ends : (c :: body).getLast? ≠ some slash := fun same => whole (List.mem_of_getLast? same)
      refine .inr ⟨c :: body, ?_⟩
      unfold components
      rw [strtok_singleton (by simp) whole]
      simp [ends]
  rw [resolve, if_neg (by simp)]
  rcases few with parts | ⟨name, parts⟩
  · rw [parts]
    exact ⟨_, (Walks.done _ _).walk⟩
  · obtain ⟨spot, step⟩ := one_step start name
    rw [parts]
    exact ⟨spot, (step maxLinks).walk⟩

end Behind

/-! ## The prefixes of a path -/

/-- The path itself, or a part of it that ends in front of a slash. -/
def Leading (path front : Text) : Prop := front ≠ [] ∧ (front = path ∨ ∃ back, path = front ++ slash :: back)

theorem mem_cutsFrom_of (done front back : Text) : done ++ front ∈ cutsFrom done (front ++ slash :: back) := by
  induction front generalizing done with
  | nil => simp [cutsFrom]
  | cons c front ih =>
    have later : done ++ c :: front ∈ cutsFrom (done ++ [c]) (front ++ slash :: back) := by
      simpa using ih (done ++ [c])
    rw [List.cons_append, cutsFrom]
    split
    · exact List.mem_cons_of_mem _ later
    · exact later

/-- Each text of the loop is one part longer than one in front of it, but for the first. -/
theorem cutsFrom_parts (done rest : Text) {before behind : List Text} {text : Text}
    (split : cutsFrom done rest ++ [done ++ rest] = before ++ text :: behind) :
    (before = [] ∧ ∃ body, text = done ++ body ∧ slash ∉ body) ∨
      ∃ front ∈ before, ∃ body, text = front ++ slash :: body ∧ slash ∉ body := by
  -- The next text is one part longer if a slash is cut, and else it takes one more character.
  induction rest generalizing done before with
  | nil =>
    cases before with
    | nil =>
      obtain ⟨same, -⟩ := List.cons.inj split
      exact .inl ⟨rfl, [], same.symm, by simp⟩
    | cons first before => simp [cutsFrom] at split
  | cons c rest ih =>
    rw [cutsFrom, List.append_cons done c rest] at split
    by_cases cut : c = slash
    · subst cut
      rw [if_pos rfl, List.cons_append] at split
      cases before with
      | nil =>
        obtain ⟨same, -⟩ := List.cons.inj split
        exact .inl ⟨rfl, [], by simp [same], by simp⟩
      | cons first before =>
        obtain ⟨rfl, rest_split⟩ := List.cons.inj split
        rcases ih _ rest_split with ⟨-, body, rfl, whole⟩ | ⟨front, member, body, same, whole⟩
        · exact .inr ⟨done, List.mem_cons_self, body, by simp, whole⟩
        · exact .inr ⟨front, List.mem_cons_of_mem _ member, body, same, whole⟩
    · rw [if_neg cut] at split
      rcases ih _ split with ⟨empty, body, rfl, whole⟩ | later
      · exact .inl ⟨empty, c :: body, by simp, by simp [whole, Ne.symm cut]⟩
      · exact .inr later

theorem cutsFrom_increasing (done rest : Text) :
    (cutsFrom done rest ++ [done ++ rest]).Pairwise fun a b => a.length < b.length := by
  have longer : ∀ (rest done : Text), ∀ text ∈ cutsFrom done rest ++ [done ++ rest], done.length ≤ text.length := by
    intro rest done text member
    rcases List.mem_append.mp member with cut | whole
    · obtain ⟨front, back, -, rfl⟩ := mem_cutsFrom cut
      simp
    · rw [List.mem_singleton.mp whole]
      simp
  induction rest generalizing done with
  | nil => simp [cutsFrom]
  | cons c rest ih =>
    have later := ih (done ++ [c])
    rw [cutsFrom, List.append_cons done c rest]
    split
    · rw [List.cons_append, List.pairwise_cons]
      refine ⟨fun text member => ?_, later⟩
      have more := longer rest (done ++ [c]) text member
      rw [List.length_append, List.length_singleton] at more
      omega
    · exact later

section Path

variable {path : Text}

theorem strip_cases (path : Text) : stripSlash path = path ∨ stripSlash path ≠ [] ∧ path = stripSlash path ++ [slash] := by
  unfold stripSlash
  split
  · rename_i ends
    have whole := List.dropLast_append_getLast? slash ends.2
    refine .inr ⟨fun nothing => ?_, whole.symm⟩
    rw [nothing] at whole
    rw [← whole] at ends
    exact absurd ends.1 (by decide)
  · exact .inl rfl

theorem strip_ne_nil (given : path ≠ []) : stripSlash path ≠ [] := by
  rcases strip_cases path with same | ⟨given, -⟩
  · rw [same]
    exact given
  · exact given

/-- The first character is never cut. -/
theorem prefixes_eq (given : path ≠ []) :
    ∃ c rest, stripSlash path = [c] ++ rest ∧ prefixes path = cutsFrom [c] rest ++ [[c] ++ rest] := by
  obtain ⟨c, rest, same⟩ := List.exists_cons_of_ne_nil (strip_ne_nil given)
  exact ⟨c, rest, same, by simp [prefixes, cuts, same]⟩

theorem leading_of_mem (given : path ≠ []) {front : Text} (member : front ∈ prefixes path) : Leading path front := by
  obtain ⟨c, rest, same, list⟩ := prefixes_eq given
  have nonempty : front ≠ [] ∧ (front = stripSlash path ∨ ∃ back, stripSlash path = front ++ slash :: back) := by
    rw [list] at member
    rcases List.mem_append.mp member with cut | whole
    · obtain ⟨part, back, rfl, rfl⟩ := mem_cutsFrom cut
      exact ⟨by simp, .inr ⟨back, by rw [same, List.append_assoc]⟩⟩
    · rw [List.mem_singleton.mp whole, same]
      exact ⟨by simp, .inl rfl⟩
  refine ⟨nonempty.1, ?_⟩
  rcases strip_cases path with stripped | ⟨-, stripped⟩
  · rw [stripped] at nonempty
    exact nonempty.2
  · rcases nonempty.2 with rfl | ⟨back, cut⟩
    · exact .inr ⟨[], stripped⟩
    · exact .inr ⟨back ++ [slash], by rw [stripped, cut, List.append_assoc, List.cons_append]⟩

theorem mem_prefixes {front : Text} (leading : Leading path front) (shorter : front ≠ path) : front ∈ prefixes path := by
  obtain ⟨given, same | ⟨back, path_eq⟩⟩ := leading
  · exact absurd same shorter
  have nonempty : path ≠ [] := by
    rw [path_eq]
    simp
  obtain ⟨c, rest, buffer, list⟩ := prefixes_eq nonempty
  have cut {back : Text} (inside : stripSlash path = front ++ slash :: back) : front ∈ prefixes path := by
    obtain ⟨first, front, rfl⟩ := List.exists_cons_of_ne_nil given
    rw [buffer] at inside
    obtain ⟨rfl, rfl⟩ := List.cons.inj inside
    rw [list]
    exact List.mem_append_left _ (mem_cutsFrom_of [c] front back)
  rcases strip_cases path with stripped | ⟨-, stripped⟩
  · exact cut (stripped.trans path_eq)
  · rcases List.eq_nil_or_concat back with rfl | ⟨back, last, rfl⟩
    · have whole : stripSlash path = front := (List.append_inj' (stripped.symm.trans path_eq) rfl).1
      rw [list, ← buffer, whole]
      simp
    · rw [List.concat_eq_append, ← List.cons_append, ← List.append_assoc] at path_eq
      exact cut (List.append_inj' (stripped.symm.trans path_eq) rfl).1

end Path

/-! ## The result -/

/-- No prefix is out of reach once those in front of it are directories. -/
theorem not_barred {fs : FileSystem} {path : Text} (given : path ≠ []) {tree : Tree} {before behind : List Text} {text : Text}
    (split : prefixes path = before ++ text :: behind) (grown : Grown fs.cwd before fs.tree tree) (error : Errno) :
    standing tree fs.cwd text ≠ .barred error := by
  obtain ⟨c, rest, -, list⟩ := prefixes_eq given
  -- The text has one more component than one that is a directory by now.
  have reached : ∃ spot, resolve tree fs.cwd false text = .ok spot := by
    rcases cutsFrom_parts [c] rest (list.symm.trans split) with ⟨-, body, rfl, whole⟩ | ⟨front, member, body, rfl, whole⟩
    · exact resolve_first (grown.kept _ _ fs.here) whole
    · exact resolve_behind (grown.directories front member) whole
  intro barred
  have spec := standing_spec tree fs.cwd text
  rw [barred] at spec
  obtain ⟨spot, found⟩ := reached
  cases found.symm.trans spec.2

theorem isDirectory_of_strip {tree : Tree} {cwd : Loc} {path : Text} (directory : IsDirectory tree cwd (stripSlash path)) :
    IsDirectory tree cwd path := isDir_of_strip (m := .start tree cwd unfaulted) directory

/-- A program that completes has done what is known of it on this tree. -/
theorem Yields.done {α : Type} {cwd : Loc} {p : Sys α} {tree after : Tree} {result : Except Errno α}
    (yields : Yields cwd p tree result after) {m m' : Machine} (calm : m.Calm tree cwd) {value : Except Errno α}
    (completes : p m = (.done value, m')) : value = result ∧ m'.Calm after cwd := by
  obtain ⟨m'', done, calm'⟩ := yields m calm
  cases completes.symm.trans done
  exact ⟨rfl, calm'⟩

theorem Stuck.not_done {α : Type} {cwd : Loc} {p : Sys α} {tree : Tree} (stuck : Stuck cwd p tree) {m m' : Machine}
    (calm : m.Calm tree cwd) {value : Except Errno α} (completes : p m = (.done value, m')) : False := by
  obtain ⟨m'', cut⟩ := stuck m calm
  cases completes.symm.trans cut

/-- What `mkdir_p` did when it returned. -/
theorem mkdirP_done {fs : FileSystem} {path : Text} (given : path ≠ []) (short : path.length < pathMax) {rounds : Nat}
    {result : Except Errno Unit} {after : Machine} (done : mkdirP rounds path fs.machine = (.done result, after)) :
    ensuredAll fs.cwd fs.tree (prefixes path) = some (result, after.tree) ∧ after.Calm after.tree fs.cwd := by
  cases rounds with
  | zero => exact absurd done fun done => (mkdirP_zero given short).not_done fs.calm done
  | succ rounds =>
    cases returns : ensuredAll fs.cwd fs.tree (prefixes path) with
    | none => exact absurd done fun done => (mkdirP_stuck given short returns _).not_done fs.calm done
    | some pair =>
      obtain ⟨result', tree⟩ := pair
      obtain ⟨rfl, calm⟩ := (mkdirP_yields given short returns rounds).done fs.calm done
      rw [calm.tree]
      exact ⟨rfl, calm⟩

/-- Every part of the path is a directory, and nothing is new but directories on the path. -/
structure Made (fs : FileSystem) (path : Text) (tree : Tree) : Prop where
  directories : ∀ front, Leading path front → IsDirectory tree fs.cwd front
  new : ∀ loc node, tree.node loc = some node → fs.tree.node loc = none →
    node = .dir ∧ ∃ front, Leading path front ∧ resolve tree fs.cwd true front = .ok (.there loc)

/-- A part of the path is not a directory: it and what would be behind it are untouched, and nothing is new but
directories on the path in front of it. -/
structure Blocked (fs : FileSystem) (path : Text) (tree : Tree) (obstacle : Text) : Prop where
  leading : Leading path obstacle
  untouched : ∃ loc node, lookup tree fs.cwd true obstacle = .ok (loc, node) ∧ node ≠ .dir ∧
    ∀ names, tree.node (loc ++ names) = fs.tree.node (loc ++ names)
  new : ∀ loc node, tree.node loc = some node → fs.tree.node loc = none →
    node = .dir ∧ ∃ front, Leading path front ∧ front.length < obstacle.length ∧
      resolve tree fs.cwd true front = .ok (.there loc)

section Result

variable {fs : FileSystem} {path : Text} {tree : Tree}

theorem Grown.all_made (given : path ≠ []) (grown : Grown fs.cwd (prefixes path) fs.tree tree) : Made fs path tree := by
  refine ⟨fun front leading => ?_, fun loc node there absent => ?_⟩
  · by_cases whole : front = path
    · subst whole
      exact isDirectory_of_strip (grown.directories _ (by simp [prefixes]))
    · exact grown.directories front (mem_prefixes leading whole)
  · obtain ⟨dir, front, member, found⟩ := grown.made loc node there absent
    exact ⟨dir, front, leading_of_mem given member, found⟩

/-- What is not a directory was there before, and has nothing behind it. -/
theorem Grown.untouched {paths : List Text} {loc : Loc} {node : Node} (grown : Grown fs.cwd paths fs.tree tree)
    (here : tree.node loc = some node) (other : node ≠ .dir) (names : Loc) :
    tree.node (loc ++ names) = fs.tree.node (loc ++ names) := by
  -- Only directories are new, so this entry is an old one.
  have before : fs.tree.node loc = some node := by
    cases entry : fs.tree.node loc with
    | none => exact absurd (grown.made loc node here entry).1 other
    | some old => rw [← here, grown.kept loc old entry]
  by_cases there : names = []
  · rw [there, List.append_nil, here, before]
  · have nothing (t : Tree) (entry : t.node loc = some node) : t.node (loc ++ names) = none := by
      by_contra present
      have dir := Tree.dir_of_prefix present there
      exact other (Option.some.inj (entry.symm.trans dir))
    rw [nothing tree here, nothing fs.tree before]

theorem Grown.blocked (given : path ≠ []) {before behind : List Text} {text : Text}
    (split : prefixes path = before ++ text :: behind) (grown : Grown fs.cwd before fs.tree tree)
    (obstacle : standing tree fs.cwd text = .obstacle) : Blocked fs path tree text := by
  have member : text ∈ prefixes path := by
    rw [split]
    simp
  have spec := standing_spec tree fs.cwd text
  rw [obstacle] at spec
  obtain ⟨loc, node, looked, other⟩ := spec
  refine ⟨leading_of_mem given member, ⟨loc, node, looked, other, ?_⟩, fun loc node there absent => ?_⟩
  · exact grown.untouched (lookup_iff.mp looked).2 other
  · obtain ⟨dir, front, early, found⟩ := grown.made loc node there absent
    -- The new directories are on prefixes that were tried before, and those are shorter.
    obtain ⟨c, rest, -, list⟩ := prefixes_eq given
    have increasing := cutsFrom_increasing [c] rest
    rw [← list, split, List.pairwise_append] at increasing
    have early_member : front ∈ prefixes path := by
      rw [split]
      exact List.mem_append_left _ early
    exact ⟨dir, front, leading_of_mem given early_member, increasing.2.2 front early text List.mem_cons_self, found⟩

end Result

/-- `mkdir_p` does what `mkdir -p` does, whatever the tree and the slashes in the path. -/
theorem mkdirP_makes_path (fs : FileSystem) {path : Text} (given : path ≠ []) (short : path.length < pathMax) {rounds : Nat}
    {result : Except Errno Unit} {after : Machine} (done : mkdirP rounds path fs.machine = (.done result, after)) :
    fs.tree.Kept after.tree ∧
    (result = .ok () → Made fs path after.tree ∧
      ∃ more again, mkdirP more path after = (.done (.ok ()), again) ∧ again.tree = after.tree) ∧
    ∀ error, result = .error error → error = Errno.ENOTDIR ∧ ∃ obstacle, Blocked fs path after.tree obstacle := by
  obtain ⟨returns, calm⟩ := mkdirP_done given short done
  cases result with
  | error error =>
    obtain ⟨before, text, behind, split, grown, why⟩ := stopped_at returns
    obtain ⟨stands, same⟩ := why.resolve_right (not_barred given split grown error)
    subst same
    refine ⟨grown.kept, (fun absurd => by cases absurd), fun other same => ?_⟩
    cases same
    exact ⟨rfl, text, grown.blocked given split stands⟩
  | ok value =>
    have grown := Grown.of_ensuredAll returns
    refine ⟨grown.kept, fun _ => ⟨grown.all_made given, ?_⟩, fun error absurd => by cases absurd⟩
    have settled := ensuredAll_of_directories grown.directories
    obtain ⟨again, repeated, calm'⟩ := mkdirP_yields given short settled 0 after calm
    exact ⟨1, again, repeated, calm'.tree⟩

/-- A relative path with a doubled slash and one at its end. -/
theorem mkdirP_makes_path_ab : ∃ after, mkdirP 1 (lit "a//b/") bareHost.machine = (.done (.ok ()), after) ∧
    Made bareHost (lit "a//b/") after.tree := by
  have done : mkdirP 1 (lit "a//b/") bareHost.machine = (.done (.ok ()), (mkdirP 1 (lit "a//b/") bareHost.machine).2) := rfl
  exact ⟨_, done, ((mkdirP_makes_path bareHost (by decide) (by decide) done).2.1 rfl).1⟩

end ContainerRuntime.Filesystem
