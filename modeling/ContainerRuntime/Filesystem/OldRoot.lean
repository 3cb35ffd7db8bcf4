import ContainerRuntime.Filesystem.Walks
import ContainerRuntime.Filesystem.Isolate

/-! What `mkdir_p` does to a host where calls may fail.

The directory for the old root is made behind the path of the rootfs, whose parts
lead to directories already. Whatever calls fail, nothing else is added.
-/

set_option autoImplicit false

namespace ContainerRuntime.Filesystem

open CString Program

/-! ## The directory for the old root -/

/-- The tree of the host, to which the directory for the old root may have been added. -/
structure Prepared (host : Tree) (rootfs : Text) (tree : Tree) : Prop where
  kept : host.Kept tree
  new : ∀ root, lookup host [] true rootfs = .ok (root, .dir) → ∀ loc node, tree.node loc = some node →
    host.node loc = some node ∨ loc = root ++ [oldRootDir] ∧ node = .dir

theorem Prepared.refl (host : Tree) (rootfs : Text) : Prepared host rootfs host :=
  ⟨fun _ _ there => there, fun _ _ _ _ there => .inl there⟩

/-- A path on the way to the directory, or the directory itself. -/
theorem leading_cases {rootfs front : Text} (leading : Leading (rootfs ++ slash :: oldRootDir) front) :
    front = rootfs ++ slash :: oldRootDir ∨ Leading rootfs front := by
  obtain ⟨given, same | ⟨back, same⟩⟩ := leading
  · exact .inl same
  right
  refine ⟨given, ?_⟩
  -- The slash behind the front is the one that was put there, or one of the rootfs path.
  rcases List.append_eq_append_iff.mp same with ⟨more, rfl, rest⟩ | ⟨more, rfl, rest⟩
  · cases more with
    | nil => exact .inl (by simp)
    | cons c more =>
      obtain ⟨-, tail⟩ := List.cons.inj rest
      have inside : slash ∈ oldRootDir := by
        rw [tail]
        simp
      exact absurd inside (by decide)
  · cases more with
    | nil => exact .inl (by simp)
    | cons c more =>
      obtain ⟨rfl, -⟩ := List.cons.inj rest
      exact .inr ⟨more, rfl⟩

section Place

variable {tree : Tree} {cwd loc root : Loc} {front : Text} {last : Bool} {name : Name}

/-- A name behind the path of a directory is looked up in the directory. -/
theorem resolve_in_directory {spot : Spot} (looked : lookup tree cwd true front = .ok (root, .dir)) (proper : Proper name)
    (step : ∀ left, Walks tree last left root [name] spot) :
    resolve tree cwd last (front ++ slash :: name) = .ok spot := by
  obtain ⟨found, dir⟩ := lookup_iff.mp looked
  unfold resolve at found
  split at found
  · cases found
  rename_i given
  have parts : components (front ++ slash :: name) = strtok slash front ++ [name] := by
    rcases components_behind front proper.2.1 with parts | parts
    · rwa [if_neg proper.1] at parts
    · rw [components_nil, strtok_append_cons, strtok_singleton proper.1 proper.2.1] at parts
      simp at parts
  have tokens : Walks tree true maxLinks (if isAbsolute front then [] else cwd) (strtok slash front) (.there root) :=
    walks_tokens (.of_walk found)
  rw [resolve, if_neg (by simp), resolve_start given, parts]
  exact (tokens.onward rfl step (by simp)).walk

/-- Where a new entry of a directory comes to stand. -/
theorem missing_in_directory (looked : lookup tree cwd true front = .ok (root, .dir)) (proper : Proper name)
    (free : resolve tree cwd false (front ++ slash :: name) = .ok (.missing loc)) :
    tree.node (root ++ [name]) = none ∧ loc = root ++ [name] := by
  obtain ⟨-, dir⟩ := lookup_iff.mp looked
  obtain ⟨spot, step⟩ := one_step dir name
  cases (resolve_in_directory looked proper step).symm.trans free
  cases step 0 with
  | dot => exact absurd rfl proper.2.2.1
  | up => exact absurd rfl proper.2.2.2
  | missing _ _ _ _ _ absent => exact ⟨absent, rfl⟩
  | enter _ _ _ _ _ _ _ _ _ _ later => cases later

end Place

theorem proper_oldRootDir : Proper oldRootDir := by decide

section Prepared

variable {host tree : Tree} {rootfs : Text} {cwd loc : Loc}

/-- `mkdir` adds nothing but that directory. -/
theorem Prepared.set (prepared : Prepared host rootfs tree) (absolute : isAbsolute rootfs = true) {path : Text}
    (leading : Leading (rootfs ++ slash :: oldRootDir) path) (free : resolve tree cwd false path = .ok (.missing loc)) :
    Prepared host rootfs (tree.set loc (some .dir)) := by
  have walks := free
  unfold resolve at walks
  split at walks
  · cases walks
  obtain ⟨absent, ready⟩ := (Walks.of_walk walks).free (split_components path) rfl
  refine ⟨fun other node there => ?_, fun root looked other node there => ?_⟩
  · have before := prepared.kept other node there
    have elsewhere : other ≠ loc := by
      rintro rfl
      cases absent.symm.trans before
    rw [Tree.node_set (ready _), if_neg elsewhere, before]
  · rw [Tree.node_set (ready _)] at there
    split at there
    · rename_i same
      cases there
      subst same
      right
      refine ⟨?_, rfl⟩
      have directory := lookup_kept prepared.kept looked
      rw [← lookup_absolute absolute tree cwd] at directory
      rcases leading_cases leading with rfl | shorter
      · exact (missing_in_directory directory proper_oldRootDir free).2
      · -- A path on the way leads to a directory already.
        obtain ⟨there, found⟩ := isDirectory_leading ⟨root, directory⟩ shorter
        obtain ⟨entry, unfollowed⟩ := resolve_unfollowed (lookup_iff.mp found).1
        cases unfollowed.symm.trans free
    · exact prepared.new root looked other node there

end Prepared

/-! ## `mkdir_p`, where calls may fail -/

section Ends

variable {α : Type} {I : Machine → Prop}

/-- The program keeps an invariant of the machine. -/
def Upholds (I : Machine → Prop) (p : Sys α) : Prop := Ends I p (fun _ => I) fun _ => I

theorem upholds_syscall {effect : Machine → Except Errno (Machine × α)} (steady : ∀ m, I m → I m.later)
    (acts : ∀ m after value, I m → effect m = .ok (after, value) → I after) : Upholds I (syscall effect) := by
  constructor
  all_goals
    intro m result after pre done
    unfold syscall at done
    split at done
    · cases done <;> exact steady m pre
    split at done
    · cases done <;> exact steady m pre
    · rename_i effected
      cases done <;> exact acts _ _ _ (steady m pre) effected

theorem upholds_attempt {p : Sys α} (upholds : Upholds I p) : Upholds I (attempt p) where
  returns m result after pre done := by
    unfold attempt at done
    split at done
    · rename_i tried middle completes
      cases done
      cases result with
      | ok a => exact upholds.returns m a after pre completes
      | error error => exact upholds.fails m error after pre completes
    · cases done
  fails m error after pre done := by
    unfold attempt at done
    split at done <;> cases done

theorem upholds_throw (error : Errno) : Upholds I (throw error : Sys α) where
  returns m a after pre done := by cases done
  fails m other after pre done := by
    cases done
    exact pre

theorem upholds_look {β : Type} {look : Machine → Except Errno β} {part : β → α} (steady : ∀ m, I m → I m.later) :
    Upholds I (syscall fun m => (look m).map fun found => (m, part found)) := by
  apply upholds_syscall steady
  intro m after value pre effected
  cases found : look m <;> rw [found] at effected <;> cases effected
  exact pre

theorem upholds_ensureDirectory {path : Text} (steady : ∀ m, I m → I m.later)
    (makes : ∀ m after, I m → m.added path .dir = .ok (after, ()) → I after) (rounds : Nat) :
    Upholds I (ensureDirectory rounds path) := by
  induction rounds with
  | zero => exact ⟨fun _ _ _ _ done => (by cases done), fun _ _ _ _ done => (by cases done)⟩
  | succ rounds ih =>
    unfold ensureDirectory
    apply Ends.bind (upholds_attempt (upholds_look steady))
    intro found
    split
    · exact Ends.pure fun _ pre => pre
    · exact upholds_throw _
    · apply Ends.bind (upholds_attempt (upholds_syscall steady fun m after _ => makes m after))
      intro made
      split
      · exact Ends.pure fun _ pre => pre
      · split
        · exact ih
        · exact upholds_throw _

theorem upholds_eachOf {β : Type} {body : β → Sys Unit} {items : List β} (round : ∀ item ∈ items, Upholds I (body item)) :
    Upholds I (eachOf body items) := by
  induction items with
  | nil => exact Ends.pure fun _ pre => pre
  | cons first rest ih =>
    apply Ends.bind (round first List.mem_cons_self)
    intro _
    exact ih fun item member => round item (List.mem_cons_of_mem first member)

/-- `mkdir_p` keeps what `mkdir` keeps at the parts of the path. -/
theorem upholds_mkdirP {path : Text} (steady : ∀ m, I m → I m.later)
    (makes : ∀ m after front, Leading path front → I m → m.added front .dir = .ok (after, ()) → I after) (rounds : Nat) :
    Upholds I (mkdirP rounds path) := by
  by_cases given : path = []
  · unfold mkdirP
    rw [if_pos given]
    exact upholds_throw _
  by_cases short : path.length < pathMax
  · have each : ∀ front ∈ prefixes path, Upholds I (ensureDirectory rounds front) := fun front member =>
      upholds_ensureDirectory steady (fun m after => makes m after front (leading_of_mem given member)) rounds
    rw [mkdirP_body given short]
    unfold prefixes at each
    apply Ends.bind (upholds_eachOf fun front member => each front (List.mem_append_left _ member))
    intro _
    exact each _ (List.mem_append_right _ List.mem_cons_self)
  · unfold mkdirP
    rw [if_neg given, if_pos (Nat.le_of_not_lt short)]
    exact upholds_throw _

end Ends

/-- So the directory for the old root is all that it can add. -/
theorem upholds_prepared (host : Tree) {rootfs : Text} (absolute : isAbsolute rootfs = true) (rounds : Nat) :
    Upholds (fun m => Prepared host rootfs m.tree) (mkdirP rounds (rootfs ++ slash :: oldRootDir)) := by
  apply upholds_mkdirP (fun _ prepared => prepared)
  intro m after front leading prepared added
  unfold Machine.added at added
  split at added
  · cases added
  · cases added
  · rename_i loc free
    cases added
    exact prepared.set absolute leading free

end ContainerRuntime.Filesystem
