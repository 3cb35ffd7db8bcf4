import ContainerRuntime.Filesystem.Walks
import ContainerRuntime.Filesystem.Rooted

/-! Paths that are taken by their text.

A `..` in a path takes back the name in front of it, whatever that name leads to.
Where no link stands on the way, a walk goes where the text of the path goes. A
walk that stays apart from a directory is the same in every tree that differs
below this directory only.
-/

set_option autoImplicit false

namespace ContainerRuntime.Filesystem

open CString

/-! ## The names that are left of a path -/

/-- What stands after one more component. -/
def reducedStep (loc : Loc) (name : Name) : Loc :=
  if name = dot then loc else if name = dotDot then loc.dropLast else loc ++ [name]

/-- The names without `.`, each `..` having taken back the name in front of it. -/
def reducedFrom (start : Loc) (names : List Name) : Loc := names.foldl reducedStep start

abbrev reduced (names : List Name) : Loc := reducedFrom [] names

theorem reducedFrom_append (start : Loc) (front back : List Name) :
    reducedFrom start (front ++ back) = reducedFrom (reducedFrom start front) back := List.foldl_append

theorem reducedStep_plain {name : Name} (plain : name ≠ dot ∧ name ≠ dotDot) (loc : Loc) :
    reducedStep loc name = loc ++ [name] := by
  rw [reducedStep, if_neg plain.1, if_neg plain.2]

theorem reducedFrom_concat {name : Name} (plain : name ≠ dot ∧ name ≠ dotDot) (start : Loc) (front : List Name) :
    reducedFrom start (front ++ [name]) = reducedFrom start front ++ [name] := by
  rw [reducedFrom_append]
  exact reducedStep_plain plain _

/-- No name is left that was not there. -/
theorem mem_reduced {names : List Name} {name : Name} (member : name ∈ reduced names) : name ∈ names := by
  induction names using List.reverseRecOn with
  | nil => exact member
  | append_singleton front last ih =>
    have step : name ∈ reducedStep (reduced front) last := by
      rw [reduced, reducedFrom_append] at member
      exact member
    rw [List.mem_append, List.mem_singleton]
    unfold reducedStep at step
    split at step
    · exact .inl (ih step)
    split at step
    · exact .inl (ih ((List.dropLast_prefix _).subset step))
    · exact (List.mem_append.mp step).imp ih List.mem_singleton.mp

/-- Nothing is left out where there is no `.` and no `..`. -/
theorem reduced_eq {names : List Name} (plain : ∀ name ∈ names, name ≠ dot ∧ name ≠ dotDot) : reduced names = names := by
  induction names using List.reverseRecOn with
  | nil => rfl
  | append_singleton names last ih =>
    rw [reduced, reducedFrom_concat (plain last (by simp))]
    congr 1
    exact ih fun name member => plain name (List.mem_append_left _ member)

/-! ## Walks through directories -/

section Walks

variable {tree : Tree} {last : Bool} {links : Nat} {here base start loc : Loc} {names rest : List Name} {spot : Spot}

theorem walks_dot (dir : tree.node here = some .dir) :
    Walks tree last links here (dot :: rest) spot ↔ Walks tree last links here rest spot := by
  constructor
  · intro walks
    cases walks with
    | dot _ _ _ _ _ later => exact later
    | missing _ _ _ _ plain | stop _ _ _ _ _ plain | link _ _ _ _ _ _ _ plain | enter _ _ _ _ _ _ _ plain =>
      exact absurd rfl plain.1
  · exact .dot links here rest spot dir

theorem walks_up (dir : tree.node here = some .dir) :
    Walks tree last links here (dotDot :: rest) spot ↔ Walks tree last links here.dropLast rest spot := by
  constructor
  · intro walks
    cases walks with
    | up _ _ _ _ _ later => exact later
    | missing _ _ _ _ plain | stop _ _ _ _ _ plain | link _ _ _ _ _ _ _ plain | enter _ _ _ _ _ _ _ plain =>
      exact absurd rfl plain.2
  · exact .up links here rest spot dir

/-- No `..` takes back more than there is. -/
def Deep (start : Loc) (names : List Name) : Prop := ∀ front, front ++ [dotDot] <+: names → reducedFrom start front ≠ []

theorem Deep.tail {name : Name} (deep : Deep start (name :: names)) : Deep (reducedStep start name) names :=
  fun front shorter => deep (name :: front) (List.cons_prefix_cons.mpr ⟨rfl, shorter⟩)

theorem Deep.initial {front : List Name} (deep : Deep start names) (shorter : front <+: names) : Deep start front :=
  fun more inside => deep more (inside.trans shorter)

theorem dropLast_base (given : loc ≠ []) : (base ++ loc).dropLast = base ++ loc.dropLast :=
  List.dropLast_append_of_ne_nil given

/-- Where directories stand in all the places that a path names, its walk goes where its text goes. -/
theorem walks_reduced (deep : Deep start names)
    (dirs : ∀ front, front <+: names → tree.node (base ++ reducedFrom start front) = some .dir) :
    Walks tree last links (base ++ start) (names ++ rest) spot ↔
      Walks tree last links (base ++ reducedFrom start names) rest spot := by
  induction names generalizing start with
  | nil => rfl
  | cons name names ih =>
    have dir : tree.node (base ++ start) = some .dir := dirs [] List.nil_prefix
    have later := ih deep.tail fun front shorter => dirs (name :: front) (List.cons_prefix_cons.mpr ⟨rfl, shorter⟩)
    rw [List.cons_append]
    refine Iff.trans ?_ later
    by_cases isDot : name = dot
    · subst isDot
      exact walks_dot dir
    by_cases isDotDot : name = dotDot
    · subst isDotDot
      have given : start ≠ [] := deep [] (List.cons_prefix_cons.mpr ⟨rfl, List.nil_prefix⟩)
      rw [walks_up dir, dropLast_base given]
      rfl
    · have next : tree.node (base ++ start ++ [name]) = some .dir := by
        have there := dirs [name] (List.cons_prefix_cons.mpr ⟨rfl, List.nil_prefix⟩)
        rw [reducedFrom, List.foldl_cons, List.foldl_nil, reducedStep_plain ⟨isDot, isDotDot⟩] at there
        rwa [List.append_assoc]
      rw [walks_cons_of_dir dir next, reducedStep_plain ⟨isDot, isDotDot⟩, List.append_assoc]

/-- A walk that meets no link goes where its text goes. -/
theorem Walks.textual (walks : Walks tree true links here names spot) (ends : spot = .there loc)
    (place : here = base ++ start) (deep : Deep start names)
    (solid : ∀ front name back, names = front ++ name :: back → name ≠ Filesystem.dot ∧ name ≠ dotDot →
      tree.Solid (base ++ (reducedFrom start front ++ [name]))) :
    loc = base ++ reducedFrom start names := by
  induction walks generalizing start with
  | done =>
    cases ends
    exact place
  | missing => cases ends
  | stop _ _ _ _ _ _ _ stops => cases stops
  | dot links here rest spot dir _ ih =>
    exact ih ends place deep.tail fun front name back parts => solid (Filesystem.dot :: front) name back (by rw [parts]; rfl)
  | up links here rest spot dir _ ih =>
    have given : start ≠ [] := deep [] (List.cons_prefix_cons.mpr ⟨rfl, List.nil_prefix⟩)
    apply ih ends _ deep.tail fun front name back parts => solid (dotDot :: front) name back (by rw [parts]; rfl)
    rw [place, dropLast_base given]
    rfl
  | link links here name rest target spot dir plain link _ _ _ =>
    have clear := solid [] name rest rfl plain target
    rw [← List.append_assoc] at clear
    rw [place] at link
    exact absurd link clear
  | enter links here name rest entry spot dir plain there _ _ ih =>
    have step : reducedStep start name = start ++ [name] := reducedStep_plain plain start
    rw [reducedFrom, List.foldl_cons, step]
    have later := deep.tail
    rw [step] at later
    apply ih ends (by rw [place, List.append_assoc]) later
    intro front other back parts
    have clear := solid (name :: front) other back (by rw [parts]; rfl)
    rwa [reducedFrom, List.foldl_cons, step] at clear

end Walks

/-! ## Walks apart from a directory -/

section Apart

variable (tree : Tree) (root : Loc) (last : Bool)

/-- The walk up to the next link does not come to `root` or below it. -/
def followApart (again : Loc → List Name → Bool) : Loc → List Name → Bool
  | _, [] => true
  | here, name :: rest =>
    if name = dot then followApart again here rest
    else if name = dotDot then followApart again here.dropLast rest
    else if root <+: here ++ [name] then false
    else
      match tree.node (here ++ [name]) with
      | none => true
      | some (.link target) =>
        if rest = [] ∧ last = false then true
        else again (if isAbsolute target then [] else here) (components target ++ rest)
      | some _ => followApart again (here ++ [name]) rest

def walkApart : Nat → Loc → List Name → Bool
  | 0 => followApart tree root last fun _ _ => true
  | links + 1 => followApart tree root last (walkApart links)

variable {tree root last} {other : Tree} {links : Nat} {here : Loc} {rest : List Name} {spot : Spot}

/-- The trees differ below `root` only. -/
def Tree.Agree (root : Loc) (tree other : Tree) : Prop := ∀ loc, ¬ root <+: loc → other.node loc = tree.node loc

theorem outside_dropLast (outside : ¬ root <+: here) : ¬ root <+: here.dropLast :=
  fun inside => outside (inside.trans (List.dropLast_prefix here))

theorem outside_start (inner : root ≠ []) (outside : ¬ root <+: here) (target : Text) :
    ¬ root <+: (if isAbsolute target then [] else here) := by
  split
  · exact fun inside => inner (List.prefix_nil.mp inside)
  · exact outside

theorem follow_apart (inner : root ≠ []) (agree : tree.Agree root other) {clear : Loc → List Name → Bool}
    {again more : Loc → List Name → Except Errno Spot}
    (later : ∀ here rest, ¬ root <+: here → clear here rest = true → more here rest = again here rest)
    (outside : ¬ root <+: here) (apart : followApart tree root last clear here rest = true) :
    follow other last more here rest = follow tree last again here rest := by
  induction rest generalizing here with
  | nil => rfl
  | cons name rest ih =>
    rw [followApart] at apart
    rw [follow, follow, agree here outside]
    by_cases isDot : name = dot
    · rw [if_pos isDot] at apart
      rw [if_pos isDot, if_pos isDot, ih outside apart]
    rw [if_neg isDot] at apart
    rw [if_neg isDot, if_neg isDot]
    by_cases isDotDot : name = dotDot
    · rw [if_pos isDotDot] at apart
      rw [if_pos isDotDot, if_pos isDotDot, ih (outside_dropLast outside) apart]
    rw [if_neg isDotDot] at apart
    rw [if_neg isDotDot, if_neg isDotDot]
    by_cases inside : root <+: here ++ [name]
    · rw [if_pos inside] at apart
      cases apart
    rw [if_neg inside] at apart
    rw [agree _ inside]
    cases entry : tree.node (here ++ [name]) with
    | none => rfl
    | some node =>
      cases node with
      | link target =>
        simp only [entry] at apart ⊢
        by_cases final : rest = [] ∧ last = false
        · rw [if_pos final, if_pos final]
        · rw [if_neg final] at apart
          rw [if_neg final, if_neg final, later _ _ (outside_start inner outside target) apart]
      | dir | file | special =>
        simp only [entry] at apart ⊢
        rw [ih inside apart]

/-- A walk apart from a directory does not depend on what is below it. -/
theorem walk_apart (inner : root ≠ []) (agree : tree.Agree root other) (outside : ¬ root <+: here)
    (apart : walkApart tree root last links here rest = true) :
    walk other last links here rest = walk tree last links here rest := by
  induction links generalizing here rest with
  | zero => exact follow_apart inner agree (fun _ _ _ _ => rfl) outside apart
  | succ links ih => exact follow_apart inner agree (fun _ _ outside clear => ih outside clear) outside apart

/-- It does not end there. -/
theorem Walks.apart (walks : Walks tree last links here rest spot) (inner : root ≠ []) (outside : ¬ root <+: here)
    (apart : walkApart tree root last links here rest = true) : ¬ root <+: spot.loc := by
  induction walks with
  | done => exact outside
  | dot links here rest spot dir _ ih =>
    apply ih outside
    cases links <;> simpa [walkApart, followApart] using apart
  | up links here rest spot dir _ ih =>
    have other : dotDot ≠ Filesystem.dot := by decide
    apply ih (outside_dropLast outside)
    cases links <;> simpa [walkApart, followApart, other] using apart
  | missing links here name dir plain absent =>
    cases links <;> simpa [walkApart, followApart, plain, absent, Spot.loc] using apart
  | stop links here name target dir plain link stops =>
    cases links <;> simpa [walkApart, followApart, plain, link, stops, Spot.loc] using apart
  | link links here name rest target spot dir plain link goes _ ih =>
    have clear : ¬ root <+: here ++ [name] ∧
        walkApart tree root last links (if isAbsolute target then [] else here) (components target ++ rest) = true := by
      simp only [walkApart, followApart, if_neg plain.1, if_neg plain.2, link, if_neg goes] at apart
      split at apart
      · cases apart
      · rename_i inside
        exact ⟨inside, apart⟩
    exact ih (outside_start inner outside target) clear.2
  | enter links here name rest entry spot dir plain there solid _ ih =>
    have clear : ¬ root <+: here ++ [name] ∧ walkApart tree root last links (here ++ [name]) rest = true := by
      cases entry with
      | link target => exact absurd rfl (solid target)
      | dir | file | special => cases links <;> simpa [walkApart, followApart, plain, there] using apart
    exact ih clear.1 clear.2

end Apart

end ContainerRuntime.Filesystem
