import ContainerRuntime.Filesystem.Growth

/-! How walks are cut and put together.

Between two parts of a path stands a directory, where the walk of the second
part starts. A walk that stops at a link and one that goes on from its target are
together the walk that follows the link.
-/

set_option autoImplicit false

namespace ContainerRuntime.Filesystem

open CString

variable {tree : Tree} {last : Bool} {links most : Nat} {here loc place : Loc} {front back rest : List Name} {target : Text}
  {spot : Spot}

/-- A walk that ends does so with more links allowed, too. -/
theorem Walks.more (walks : Walks tree last links here rest spot) (enough : links ≤ most) :
    Walks tree last most here rest spot := by
  induction walks generalizing most with
  | done links here => exact .done most here
  | dot links here rest spot dir _ ih => exact .dot most here rest spot dir (ih enough)
  | up links here rest spot dir _ ih => exact .up most here rest spot dir (ih enough)
  | missing links here name dir plain absent => exact .missing most here name dir plain absent
  | stop links here name target dir plain link stops => exact .stop most here name target dir plain link stops
  | link links here name rest target spot dir plain link goes _ ih =>
    obtain ⟨fewer, rfl⟩ : ∃ fewer, most = fewer + 1 := ⟨most - 1, by omega⟩
    exact .link fewer here name rest target spot dir plain link goes (ih (by omega))
  | enter links here name rest entry spot dir plain there solid _ ih =>
    exact .enter most here name rest entry spot dir plain there solid (ih enough)

theorem Walks.unique {other : Spot} (walks : Walks tree last links here rest spot)
    (again : Walks tree last most here rest other) : spot = other := by
  have first := (walks.more (Nat.le_max_left links most)).walk
  have second := (again.more (Nat.le_max_right links most)).walk
  exact Except.ok.inj (first.symm.trans second)

/-! ## Parts of a path -/

theorem Walks.dir (walks : Walks tree last links here rest spot) (given : rest ≠ []) : tree.node here = some .dir := by
  cases walks with
  | done => exact absurd rfl given
  | dot _ _ _ _ dir | up _ _ _ _ dir | missing _ _ _ dir | stop _ _ _ _ dir | link _ _ _ _ _ _ dir | enter _ _ _ _ _ _ dir =>
    exact dir

/-- A walk has come to a directory in front of a part of its path, with this many links left. -/
def Comes (tree : Tree) (last : Bool) (links : Nat) (here : Loc) (front back : List Name) (spot : Spot) : Prop :=
  ∃ middle fewer, fewer ≤ links ∧ Walks tree true links here front (.there middle) ∧ tree.node middle = some .dir ∧
    Walks tree last fewer middle back spot

theorem Walks.comes (walks : Walks tree last links here rest spot) (given : rest ≠ []) :
    Comes tree last links here [] rest spot :=
  ⟨here, links, Nat.le_refl links, .done links here, walks.dir given, walks⟩

theorem Walks.split (walks : Walks tree last links here rest spot) (parts : rest = front ++ back) (further : back ≠ []) :
    Comes tree last links here front back spot := by
  -- By induction on the walk: the front is used up, or its first name is the one that is walked.
  induction walks generalizing front with
  | done =>
    rw [eq_comm, List.append_eq_nil_iff] at parts
    exact absurd parts.2 further
  | missing links here name dir plain absent =>
    cases front with
    | nil =>
      obtain rfl : [name] = back := parts
      exact (Walks.missing links here name dir plain absent).comes further
    | cons first front =>
      obtain ⟨-, tail⟩ := List.cons.inj parts
      exact absurd (List.append_eq_nil_iff.mp tail.symm).2 further
  | stop links here name target dir plain link stops =>
    cases front with
    | nil =>
      obtain rfl : [name] = back := parts
      exact (Walks.stop links here name target dir plain link stops).comes further
    | cons first front =>
      obtain ⟨-, tail⟩ := List.cons.inj parts
      exact absurd (List.append_eq_nil_iff.mp tail.symm).2 further
  | dot links here rest spot dir later ih =>
    cases front with
    | nil =>
      obtain rfl : Filesystem.dot :: rest = back := parts
      exact (Walks.dot links here rest spot dir later).comes further
    | cons name front =>
      obtain ⟨rfl, tail⟩ := List.cons.inj parts
      obtain ⟨middle, fewer, fits, walks, real, onward⟩ := ih tail
      exact ⟨middle, fewer, fits, .dot links here front _ dir walks, real, onward⟩
  | up links here rest spot dir later ih =>
    cases front with
    | nil =>
      obtain rfl : dotDot :: rest = back := parts
      exact (Walks.up links here rest spot dir later).comes further
    | cons name front =>
      obtain ⟨rfl, tail⟩ := List.cons.inj parts
      obtain ⟨middle, fewer, fits, walks, real, onward⟩ := ih tail
      exact ⟨middle, fewer, fits, .up links here front _ dir walks, real, onward⟩
  | link links here name rest target spot dir plain link goes later ih =>
    cases front with
    | nil =>
      obtain rfl : name :: rest = back := parts
      exact (Walks.link links here name rest target spot dir plain link goes later).comes further
    | cons first front =>
      obtain ⟨rfl, tail⟩ := List.cons.inj parts
      have longer : components target ++ rest = components target ++ front ++ back := by
        rw [tail, List.append_assoc]
        rfl
      obtain ⟨middle, fewer, fits, walks, real, onward⟩ := ih longer
      have here_on := Walks.link links here name front target _ dir plain link (by simp) walks
      exact ⟨middle, fewer, Nat.le_succ_of_le fits, here_on, real, onward⟩
  | enter links here name rest entry spot dir plain there solid later ih =>
    cases front with
    | nil =>
      obtain rfl : name :: rest = back := parts
      exact (Walks.enter links here name rest entry spot dir plain there solid later).comes further
    | cons first front =>
      obtain ⟨rfl, tail⟩ := List.cons.inj parts
      obtain ⟨middle, fewer, fits, walks, real, onward⟩ := ih tail
      exact ⟨middle, fewer, fits, .enter links here name front entry _ dir plain there solid walks, real, onward⟩

/-- The walk of the front, and the walk of the back from where it has come to. -/
theorem Walks.append (walks : Walks tree true links here front spot) (ends : spot = .there loc) {end_ : Spot}
    (onward : Walks tree last most loc back end_) (further : back ≠ []) :
    Walks tree last (links + most) here (front ++ back) end_ := by
  induction walks with
  | done links here =>
    cases ends
    exact onward.more (Nat.le_add_left most links)
  | dot links here names spot dir _ ih => exact .dot _ here _ _ dir (ih ends)
  | up links here names spot dir _ ih => exact .up _ here _ _ dir (ih ends)
  | missing => cases ends
  | stop _ _ _ _ _ _ _ stops => cases stops
  | link links here name names target spot dir plain link goes _ ih =>
    rw [Nat.succ_add]
    apply Walks.link _ here name (names ++ back) target _ dir plain link (by simp [further])
    rw [← List.append_assoc]
    exact ih ends
  | enter links here name names entry spot dir plain there solid _ ih =>
    exact .enter _ here name _ entry _ dir plain there solid (ih ends)

/-! ## The link in the last place -/

theorem Tree.dir_dropLast (dir : tree.node here = some .dir) : tree.node here.dropLast = some .dir := by
  rcases List.eq_nil_or_concat here with rfl | ⟨loc, name, rfl⟩
  · exact dir
  · rw [List.concat_eq_append] at dir ⊢
    rw [List.dropLast_concat]
    exact (tree.parents loc name (by rw [dir]; simp)).1

/-- The walk does not start at a link. -/
def Tree.Solid (tree : Tree) (loc : Loc) : Prop := ∀ target, tree.node loc ≠ some (.link target)

theorem Tree.solid_of_dir (dir : tree.node loc = some .dir) : tree.Solid loc := by
  intro target link
  cases dir.symm.trans link

theorem Tree.solid_start (dir : tree.node here = some .dir) (target : Text) :
    tree.Solid (if isAbsolute target then [] else here) := by
  split
  · exact solid_of_dir tree.root
  · exact solid_of_dir dir

/-- A walk that follows the link goes on from its target. -/
theorem Walks.through (walks : Walks tree false links here rest spot) (ends : spot = .there place)
    (link : tree.node place = some (.link target)) (solid : tree.Solid here) {end_ : Spot}
    (follows : Walks tree true most here rest end_) :
    ∃ fewer, fewer < most ∧
      Walks tree true fewer (if isAbsolute target then [] else place.dropLast) (components target) end_ := by
  -- The two walks go the same way up to the link.
  induction walks generalizing most with
  | done =>
    cases ends
    exact absurd link (solid target)
  | missing => cases ends
  | dot links here rest spot dir _ ih =>
    cases follows with
    | dot _ _ _ _ _ later => exact ih ends solid later
    | stop _ _ _ _ _ _ _ stops => cases stops
    | missing _ _ _ _ plain => exact absurd rfl plain.1
    | link _ _ _ _ _ _ _ plain => exact absurd rfl plain.1
    | enter _ _ _ _ _ _ _ plain => exact absurd rfl plain.1
  | up links here rest spot dir _ ih =>
    cases follows with
    | up _ _ _ _ _ later => exact ih ends (Tree.solid_of_dir (Tree.dir_dropLast dir)) later
    | stop _ _ _ _ _ _ _ stops => cases stops
    | missing _ _ _ _ plain => exact absurd rfl plain.2
    | link _ _ _ _ _ _ _ plain => exact absurd rfl plain.2
    | enter _ _ _ _ _ _ _ plain => exact absurd rfl plain.2
  | stop links here name other dir plain stopped _ =>
    cases ends
    cases stopped.symm.trans link
    cases follows with
    | dot => exact absurd rfl plain.1
    | up => exact absurd rfl plain.2
    | missing _ _ _ _ _ absent => cases link.symm.trans absent
    | stop _ _ _ _ _ _ _ stops => cases stops
    | enter _ _ _ _ entry _ _ _ there plain_ => exact absurd (Option.some.inj (there.symm.trans link)) (plain_ target)
    | link fewer _ _ _ other _ _ _ same _ later =>
      cases same.symm.trans link
      rw [List.append_nil] at later
      rw [List.dropLast_concat]
      exact ⟨fewer, Nat.lt_succ_self fewer, later⟩
  | link links here name rest other spot dir plain met goes _ ih =>
    cases follows with
    | dot => exact absurd rfl plain.1
    | up => exact absurd rfl plain.2
    | missing _ _ _ _ _ absent => cases met.symm.trans absent
    | stop _ _ _ _ _ _ _ stops => cases stops
    | enter _ _ _ _ entry _ _ _ there plain_ => exact absurd (Option.some.inj (there.symm.trans met)) (plain_ other)
    | link fewer _ _ _ again _ _ _ same _ later =>
      cases same.symm.trans met
      obtain ⟨left, fits, onward⟩ := ih ends (Tree.solid_start dir other) later
      exact ⟨left, Nat.lt_succ_of_lt fits, onward⟩
  | enter links here name rest entry spot dir plain there plain_ _ ih =>
    cases follows with
    | dot => exact absurd rfl plain.1
    | up => exact absurd rfl plain.2
    | missing _ _ _ _ _ absent => cases there.symm.trans absent
    | stop _ _ _ _ _ _ _ stops => cases stops
    | link _ _ _ _ other _ _ _ met => exact absurd (Option.some.inj (there.symm.trans met)) (plain_ other)
    | enter _ _ _ _ _ _ _ _ _ _ later =>
      apply ih ends _ later
      intro other met
      exact plain_ other (Option.some.inj (there.symm.trans met))

/-- What is no link is found by both kinds of walks. -/
theorem Walks.whole (walks : Walks tree false links here rest spot) (ends : spot = .there place) (solid : tree.Solid place) :
    Walks tree true links here rest (.there place) := by
  induction walks with
  | done links here =>
    cases ends
    exact .done links _
  | missing => cases ends
  | stop links here name target dir plain link _ =>
    cases ends
    exact absurd link (solid target)
  | dot links here rest spot dir _ ih => exact .dot links here rest _ dir (ih ends)
  | up links here rest spot dir _ ih => exact .up links here rest _ dir (ih ends)
  | link links here name rest target spot dir plain link goes _ ih =>
    exact .link links here name rest target _ dir plain link (by simp) (ih ends)
  | enter links here name rest entry spot dir plain there plain_ _ ih =>
    exact .enter links here name rest entry _ dir plain there plain_ (ih ends)

/-- A walk that follows links ends at no link. -/
theorem Walks.solid (walks : Walks tree true links here rest spot) (ends : spot = .there loc) (start : tree.Solid here) :
    tree.Solid loc := by
  induction walks with
  | done =>
    cases ends
    exact start
  | missing => cases ends
  | stop _ _ _ _ _ _ _ stops => cases stops
  | dot _ _ _ _ _ _ ih => exact ih ends start
  | up _ _ _ _ dir _ ih => exact ih ends (Tree.solid_of_dir (Tree.dir_dropLast dir))
  | link _ _ _ _ target _ dir _ _ _ _ ih => exact ih ends (Tree.solid_start dir target)
  | enter _ _ _ _ _ _ _ _ there solid _ ih =>
    apply ih ends
    intro target link
    exact solid target (Option.some.inj (there.symm.trans link))

/-- One name, which is neither `.` nor `..`. -/
theorem walks_name {name : Name} (plain : name ≠ dot ∧ name ≠ dotDot) (walks : Walks tree false links here [name] spot) :
    spot = .missing (here ++ [name]) ∧ tree.node (here ++ [name]) = none ∨
      spot = .there (here ++ [name]) ∧ tree.node (here ++ [name]) ≠ none := by
  cases walks with
  | dot => exact absurd rfl plain.1
  | up => exact absurd rfl plain.2
  | missing _ _ _ _ _ absent => exact .inl ⟨rfl, absent⟩
  | stop _ _ _ _ _ _ link => exact .inr ⟨rfl, by simp [link]⟩
  | link _ _ _ _ _ _ _ _ _ goes => exact absurd ⟨rfl, rfl⟩ goes
  | enter _ _ _ _ entry _ _ _ there _ later =>
    cases later
    exact .inr ⟨rfl, by simp [there]⟩

theorem resolve_absolute {path : Text} (absolute : isAbsolute path = true) (tree : Tree) (cwd : Loc) (last : Bool) :
    resolve tree cwd last path = resolve tree [] last path := by
  simp only [resolve, absolute, if_true]

theorem lookup_absolute {path : Text} (absolute : isAbsolute path = true) (tree : Tree) (cwd : Loc) (last : Bool) :
    lookup tree cwd last path = lookup tree [] last path := by
  rw [lookup, resolve_absolute absolute, ← lookup]

theorem resolve_start {front : Text} (given : front ≠ []) (body : Text) : isAbsolute (front ++ body) = isAbsolute front := by
  cases front with
  | nil => exact absurd rfl given
  | cons => rfl

/-! ## The directories on the way to one -/

section Leading

variable {tree : Tree} {cwd : Loc} {links : Nat} {here loc : Loc} {rest : List Name} {spot : Spot}

/-- What is found through a link in the last place is there for a call that does not follow it. -/
theorem Walks.unfollowed (walks : Walks tree true links here rest spot) (ends : spot = .there loc) :
    ∃ other, Walks tree false links here rest (.there other) := by
  induction walks with
  | done links here => exact ⟨here, .done links here⟩
  | missing => cases ends
  | stop _ _ _ _ _ _ _ stops => cases stops
  | dot links here rest spot dir _ ih => exact (ih ends).imp fun _ walks => .dot links here rest _ dir walks
  | up links here rest spot dir _ ih => exact (ih ends).imp fun _ walks => .up links here rest _ dir walks
  | link links here name rest target spot dir plain link _ _ ih =>
    by_cases final : rest = []
    · subst final
      exact ⟨_, .stop (links + 1) here name target dir plain link rfl⟩
    · exact (ih ends).imp fun _ walks => .link links here name rest target _ dir plain link (by simp [final]) walks
  | enter links here name rest entry spot dir plain there solid _ ih =>
    exact (ih ends).imp fun _ walks => .enter links here name rest entry _ dir plain there solid walks

theorem resolve_unfollowed {path : Text} (found : resolve tree cwd true path = .ok (.there loc)) :
    ∃ other, resolve tree cwd false path = .ok (.there other) := by
  unfold resolve at found ⊢
  split at found
  · cases found
  · rename_i given
    rw [if_neg given]
    exact ((Walks.of_walk found).unfollowed rfl).imp fun _ walks => walks.walk

/-- A directory is found with and without a slash behind it. -/
theorem walks_components {path : Text} (walks : Walks tree true links here (strtok slash path) (.there loc))
    (dir : tree.node loc = some .dir) : Walks tree true links here (components path) (.there loc) := by
  unfold components
  simp only
  split
  · exact walks.slashed rfl dir
  · exact walks

theorem walks_tokens {path : Text} (walks : Walks tree true links here (components path) (.there loc)) :
    Walks tree true links here (strtok slash path) (.there loc) := by
  unfold components at walks
  generalize strtok slash path = names at walks ⊢
  simp only at walks
  split at walks
  · exact walks.undot rfl rfl
  · exact walks

theorem components_nil {path : Text} : components path = [] ↔ strtok slash path = [] := by
  unfold components
  simp only
  split
  · rename_i slashed
    simp [slashed.2]
  · rfl

/-- The part of a directory's path in front of its last slash leads to a directory. -/
theorem isDirectory_front {front body : Text} (given : front ≠ []) (whole : slash ∉ body)
    (directory : IsDirectory tree cwd (front ++ slash :: body)) : IsDirectory tree cwd front := by
  obtain ⟨loc, looked⟩ := directory
  obtain ⟨found, dir⟩ := lookup_iff.mp looked
  have start : isAbsolute (front ++ slash :: body) = isAbsolute front := by
    cases front with
    | nil => exact absurd rfl given
    | cons => rfl
  rw [resolve, if_neg (by simp), start] at found
  have walks := Walks.of_walk found
  obtain ⟨middle, tokens, real⟩ : ∃ middle,
      Walks tree true maxLinks (if isAbsolute front then [] else cwd) (strtok slash front) (.there middle) ∧
        tree.node middle = some .dir := by
    rcases components_behind front whole with parts | parts
    · obtain ⟨middle, -, -, tokens, real, -⟩ := walks.split parts (by simp)
      exact ⟨middle, tokens, real⟩
    · -- There are slashes only.
      have none_there : strtok slash front = [] := by
        have all := components_nil.mp parts
        rw [strtok_append_cons] at all
        exact (List.append_eq_nil_iff.mp all).1
      rw [parts] at walks
      rw [none_there]
      exact ⟨loc, walks, dir⟩
  refine ⟨middle, lookup_iff.mpr ⟨?_, real⟩⟩
  rw [resolve, if_neg given]
  exact (walks_components tokens real).walk

/-- So does every part of it that ends in front of a slash. -/
theorem isDirectory_leading {path front : Text} (directory : IsDirectory tree cwd path) (leading : Leading path front) :
    IsDirectory tree cwd front := by
  obtain ⟨given, rfl | ⟨back, rfl⟩⟩ := leading
  · exact directory
  -- What stands behind is taken off from its end: `body` is what has been passed since the last slash.
  have behind : ∀ back body : Text, slash ∉ body → IsDirectory tree cwd (front ++ slash :: (back ++ body)) →
      IsDirectory tree cwd front := by
    intro back
    induction back using List.reverseRecOn with
    | nil => exact fun body whole directory => isDirectory_front given whole directory
    | append_singleton back c ih =>
      intro body whole directory
      by_cases cut : c = slash
      · subst cut
        have shape : front ++ slash :: (back ++ [slash] ++ body) = front ++ slash :: back ++ slash :: body := by simp
        rw [shape] at directory
        apply ih [] (by simp)
        rw [List.append_nil]
        exact isDirectory_front (by simp) whole directory
      · rw [List.append_assoc] at directory
        exact ih (c :: body) (by simp [whole, Ne.symm cut]) directory
  apply behind back [] (by simp)
  rw [List.append_nil]
  exact directory

end Leading

end ContainerRuntime.Filesystem
