import ContainerRuntime.Filesystem.Growth
import ContainerRuntime.Logic.Orbits
import Mathlib.Data.Set.Finite.List

/-! Where a path of bounded length can lead, whatever short links and directories
have been put at the ends of such paths.

A link may have any short target, or the one it had at first. These are finitely
many for one location, so a walk has finitely many ends, and the trees that
differ from the first one at such ends are finitely many, too.
-/

set_option autoImplicit false

namespace ContainerRuntime.Filesystem

open CString Program

/-- The texts that fit into a buffer. -/
def Short : Set Text := {text | text.length < pathMax}

theorem finite_short : Short.Finite := by
  have chars : Finite Char := Finite.of_injective Char.ordinal Char.ordinal_injective
  exact List.finite_length_lt Char pathMax

section Reach

variable (origin : Tree)

/-- What a link at a location may say. -/
def targets (loc : Loc) : Set Text := Short ∪ {target | origin.node loc = some (.link target)}

/-- Where a walk may end, if any name may be a link or none; `again` goes on behind a link. -/
def reaching (again : Loc → List Name → Set Loc) : Loc → List Name → Set Loc
  | here, [] => {here}
  | here, name :: rest =>
    {here ++ [name]} ∪ reaching again here rest ∪ reaching again here.dropLast rest ∪ reaching again (here ++ [name]) rest ∪
      ⋃ target ∈ targets origin (here ++ [name]), again (if isAbsolute target then [] else here) (components target ++ rest)

/-- Where a walk with at most this many links may end. -/
def reach : Nat → Loc → List Name → Set Loc
  | 0 => reaching origin fun _ _ => ∅
  | links + 1 => reaching origin (reach links)

/-- Where a path of a buffer may lead. -/
def ends (cwd : Loc) : Set Loc :=
  ⋃ text ∈ Short, reach origin maxLinks (if isAbsolute text then [] else cwd) (components text)

/-- What a call puts at the end of a path, or leaves there. -/
def entries : Set (Option Node) := {none, some .dir} ∪ (fun target => some (.link target)) '' Short

/-- A tree that differs from the first one at the ends of paths only. -/
def Varies (cwd : Loc) (tree : Tree) : Prop :=
  ∀ loc, tree.node loc = origin.node loc ∨ loc ∈ ends origin cwd ∧ tree.node loc ∈ entries

variable {origin}

/-! ## These are finitely many -/

theorem finite_targets (loc : Loc) : (targets origin loc).Finite := by
  refine finite_short.union (Set.Subsingleton.finite fun a first b second => ?_)
  cases first.symm.trans second
  rfl

theorem finite_reaching {again : Loc → List Name → Set Loc} (later : ∀ here rest, (again here rest).Finite) (here : Loc)
    (rest : List Name) : (reaching origin again here rest).Finite := by
  -- A name leads to finitely many walks that are shorter, and finitely many behind links.
  induction rest generalizing here with
  | nil => exact Set.finite_singleton here
  | cons name rest ih =>
    rw [reaching]
    have behind := (@finite_targets origin (here ++ [name])).biUnion fun target _ =>
      later (if isAbsolute target then [] else here) (components target ++ rest)
    exact ((((Set.finite_singleton _).union (ih here)).union (ih here.dropLast)).union (ih (here ++ [name]))).union behind

theorem finite_reach (links : Nat) (here : Loc) (rest : List Name) : (reach origin links here rest).Finite := by
  induction links generalizing here rest with
  | zero => exact finite_reaching (fun _ _ => Set.finite_empty) here rest
  | succ links ih => exact finite_reaching ih here rest

theorem finite_ends (cwd : Loc) : (ends origin cwd).Finite := finite_short.biUnion fun _ _ => finite_reach _ _ _

theorem finite_entries : entries.Finite := ((Set.finite_singleton _).insert none).union (finite_short.image _)

theorem Tree.node_injective : Function.Injective Tree.node := by
  rintro ⟨node, _, _⟩ ⟨other, _, _⟩ same
  cases same
  rfl

theorem finite_varies (cwd : Loc) : {tree | Varies origin cwd tree}.Finite :=
  (Orbit.finite_variants origin.node (finite_ends cwd) finite_entries).preimage Tree.node_injective.injOn

/-! ## What a walk finds in such a tree -/

section Walk

variable {cwd : Loc} {tree : Tree}

theorem Varies.same : Varies origin cwd origin := fun _ => .inl rfl

theorem Varies.target {loc : Loc} {target : Text} (varies : Varies origin cwd tree)
    (link : tree.node loc = some (.link target)) : target ∈ targets origin loc := by
  rcases varies loc with same | ⟨-, known⟩
  · exact .inr (same.symm.trans link)
  · rw [link] at known
    rcases known with plain | ⟨short, member, same⟩
    · simp at plain
    · cases same
      exact .inl member

/-- A walk ends where it may end. -/
theorem Walks.reach {last : Bool} {links : Nat} {here : Loc} {rest : List Name} {spot : Spot} (varies : Varies origin cwd tree)
    (walks : Walks tree last links here rest spot) : spot.loc ∈ reach origin links here rest := by
  -- Every step of the walk is one of the choices that were counted.
  induction walks with
  | done links here => cases links <;> exact Set.mem_singleton _
  | missing links here name dir plain absent => cases links <;> exact .inl (.inl (.inl (.inl rfl)))
  | stop links here name target dir plain link stops => cases links <;> exact .inl (.inl (.inl (.inl rfl)))
  | dot links here rest spot dir _ ih => cases links <;> exact .inl (.inl (.inl (.inr ih)))
  | up links here rest spot dir _ ih => cases links <;> exact .inl (.inl (.inr ih))
  | enter links here name rest entry spot dir plain there solid _ ih => cases links <;> exact .inl (.inr ih)
  | link links here name rest target spot dir plain link goes _ ih =>
    exact .inr (Set.mem_biUnion (varies.target link) ih)

theorem Varies.resolves {last : Bool} {text : Text} {spot : Spot} (varies : Varies origin cwd tree) (short : text ∈ Short)
    (found : resolve tree cwd last text = .ok spot) : spot.loc ∈ ends origin cwd := by
  unfold resolve at found
  split at found
  · cases found
  · exact Set.mem_biUnion short ((Walks.of_walk found).reach varies)

/-! ## Changes at the ends of paths -/

theorem Varies.set {loc : Loc} {entry : Option Node} (varies : Varies origin cwd tree) (place : loc ∈ ends origin cwd)
    (known : entry ∈ entries) : Varies origin cwd (tree.set loc entry) := by
  intro other
  by_cases ready : tree.Settable loc entry
  · rw [Tree.node_set ready]
    split
    · rename_i same
      subst same
      exact .inr ⟨place, known⟩
    · exact varies other
  · rw [Tree.set, dif_neg ready]
    exact varies other

theorem Varies.ensured {path : Text} {result : Except Errno Unit} {after : Tree} (varies : Varies origin cwd tree)
    (short : path ∈ Short) (returns : ensured tree cwd path = some (result, after)) : Varies origin cwd after := by
  have spec := standing_spec tree cwd path
  unfold Filesystem.ensured at returns
  cases stands : standing tree cwd path with
  | missing loc =>
    rw [stands] at returns spec
    cases returns
    exact varies.set (varies.resolves short spec.2) (.inl (.inr rfl))
  | directory | obstacle | barred =>
    rw [stands] at returns
    cases returns
    exact varies
  | dangling => simp [stands] at returns

theorem Varies.ensuredAll {paths : List Text} {result : Except Errno Unit} {after : Tree} (varies : Varies origin cwd tree)
    (short : ∀ path ∈ paths, path ∈ Short) (returns : ensuredAll cwd tree paths = some (result, after)) :
    Varies origin cwd after := by
  induction paths generalizing tree with
  | nil =>
    cases returns
    exact varies
  | cons path rest ih =>
    obtain ⟨first, later⟩ := List.forall_mem_cons.mp short
    rw [Filesystem.ensuredAll] at returns
    split at returns
    · cases returns
    · rename_i error middle stops
      cases returns
      exact varies.ensured first stops
    · rename_i middle makes
      exact ih (varies.ensured first makes) later returns

/-- The paths that `mkdir_p` tries are no longer than its own. -/
theorem short_of_prefix {path front : Text} (given : path ≠ []) (short : path.length < pathMax) (member : front ∈ prefixes path) :
    front ∈ Short := by
  have fits : front.length ≤ path.length := by
    rcases (leading_of_mem given member).2 with rfl | ⟨back, rfl⟩
    · exact Nat.le_refl _
    · simp
  exact Nat.lt_of_le_of_lt fits short

end Walk

end Reach

end ContainerRuntime.Filesystem
