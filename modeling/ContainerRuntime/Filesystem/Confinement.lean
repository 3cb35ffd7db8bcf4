import ContainerRuntime.Filesystem.Prepare

/-! Where the changes of `filesystem_prepare_rootfs` go.

Every path it changes something at is the rootfs path, and then a text the
code has put behind it. The way to the rootfs itself is real and stays so. What
stands behind it is walked like any path of the host: a link in the rootfs, or
a `..` in the text, can lead out of it, and nothing else can.
-/

set_option autoImplicit false

namespace ContainerRuntime.Filesystem

open CString Program

/-- Behind the rootfs, the walk follows no absolute link and takes no `..` at the rootfs itself. -/
def Touch.Below (touch : Touch) : Prop :=
  ∀ root, touch.rootfs = some root → root = [] ∨
    walkBelow touch.tree root touch.last maxLinks root ((components touch.path).drop root.length) = true

/-- The change is made in the rootfs. -/
def Touch.Inside (touch : Touch) : Prop := ∀ root, touch.rootfs = some root → root <+: touch.loc

instance (touch : Touch) : Decidable touch.Below :=
  inferInstanceAs (Decidable (∀ root ∈ touch.rootfs, root = [] ∨
    walkBelow touch.tree root touch.last maxLinks root ((components touch.path).drop root.length) = true))

instance (touch : Touch) : Decidable touch.Inside :=
  inferInstanceAs (Decidable (∀ root ∈ touch.rootfs, root <+: touch.loc))

/-- The path leads to the rootfs first. -/
def Aimed (root : Loc) (path : Text) : Prop := isAbsolute path = true ∧ ∃ rest, components path = root ++ rest

/-- What the calls do to the machine. -/
inductive Act : Machine → Machine → Prop where
  | later (m : Machine) : Act m m.later
  | touch (m : Machine) (last : Bool) (path : Text) (spot : Spot) (entry : Option Node)
      (found : resolve m.tree m.cwd last path = .ok spot) (aimed : ∀ root, m.rootfs = some root → Aimed root path) :
      Act m (m.touched (m.touch last path spot.loc) entry)
  /-- A file that was opened is written to. -/
  | write (m : Machine) (touch : Touch) (opened : touch ∈ m.trace) (entry : Option Node) : Act m (m.touched touch entry)
  | populate (m : Machine) (root : Loc) (real : m.tree.node root = some .dir) : Act m { m with rootfs := some root }

/-! ## The action system -/

structure Machine.Confined (m : Machine) : Prop where
  real : ∀ root, m.rootfs = some root → m.tree.node root = some .dir
  inside : ∀ touch ∈ m.trace, touch.Below → touch.Inside

theorem touch_inside {m : Machine} {last : Bool} {path : Text} {spot : Spot}
    (found : resolve m.tree m.cwd last path = .ok spot) (aimed : ∀ root, m.rootfs = some root → Aimed root path)
    (real : ∀ root, m.rootfs = some root → m.tree.node root = some .dir) (below : (m.touch last path spot.loc).Below) :
    (m.touch last path spot.loc).Inside := by
  intro root populated
  obtain ⟨absolute, rest, parts⟩ := aimed root populated
  have given : path ≠ [] := by
    rintro rfl
    cases absolute
  rcases below root populated with rfl | below
  · exact List.nil_prefix
  · simp only [Machine.touch, parts, List.drop_left] at below
    simp only [resolve, if_neg given, absolute, if_true, parts] at found
    have walks := (walks_through [] (real root populated)).mp (.of_walk found)
    exact walks.inside (List.prefix_refl root) below

theorem Act.confined {m m' : Machine} (act : Act m m') (confined : m.Confined) : m'.Confined := by
  have touched : ∀ {touch : Touch} {entry : Option Node}, (touch.Below → touch.Inside) →
      (m.touched touch entry).Confined := by
    intro touch entry new
    refine ⟨fun root populated => Tree.dir_set (confined.real root populated), fun other member => ?_⟩
    rcases List.mem_append.mp member with old | last
    · exact confined.inside other old
    · rw [List.mem_singleton.mp last]
      exact new
  cases act with
  | later => exact ⟨confined.real, confined.inside⟩
  | touch last path spot entry found aimed => exact touched fun below => touch_inside found aimed confined.real below
  | write touch opened entry => exact touched (confined.inside touch opened)
  | populate root real =>
    refine ⟨fun other populated => ?_, confined.inside⟩
    cases populated
    exact real

/-! ## Texts behind the rootfs path -/

/-- The rootfs path, and then nothing or a text that starts with a slash. -/
def Extends (root : Loc) (path : Text) : Prop := ∃ rest, path = Loc.text root ++ rest ∧ (rest = [] ∨ isAbsolute rest = true)

/-- A path of a directory on the way to the rootfs. -/
def Above (root : Loc) (path : Text) : Prop :=
  isAbsolute path = true ∧ ∃ names, names <+: root ∧ (components path = names ∨ components path = names ++ [dot])

theorem isAbsolute_iff {path : Text} : isAbsolute path = true ↔ ∃ rest, path = slash :: rest := by
  cases path with
  | nil => simp [isAbsolute]
  | cons c rest => simp [isAbsolute]

/-- A text that starts with a slash, cut short. -/
theorem absolute_of_append {front back : Text} (absolute : isAbsolute (front ++ back) = true) :
    front = [] ∨ isAbsolute front = true := by
  cases front with
  | nil => exact .inl rfl
  | cons c rest => exact .inr absolute

section Texts

variable {root : Loc} (proper : ∀ name ∈ root, Proper name)

theorem isAbsolute_text (root : Loc) (rest : Text) : isAbsolute (Loc.text root ++ rest) = true := by
  unfold Loc.text
  split
  · rfl
  · cases root with
    | nil => contradiction
    | cons name names => rfl

include proper

theorem strtok_text (rest : Text) (joint : rest = [] ∨ isAbsolute rest = true) :
    strtok slash (Loc.text root ++ rest) = root ++ strtok slash rest := by
  have names : ∀ {names : Loc}, (∀ name ∈ names, Proper name) →
      strtok slash (names.flatMap (slash :: ·) ++ rest) = names ++ strtok slash rest := by
    intro names
    induction names with
    | nil => simp
    | cons name names ih =>
      intro proper
      obtain ⟨given, whole, -⟩ := proper name List.mem_cons_self
      have later := ih fun other member => proper other (List.mem_cons_of_mem name member)
      generalize more_eq : names.flatMap (slash :: ·) ++ rest = more at later
      have shape : (name :: names).flatMap (slash :: ·) ++ rest = slash :: (name ++ more) := by simp [← more_eq]
      rw [shape, strtok_cons_self, List.cons_append, ← later]
      have boundary : more = [] ∨ ∃ tail, more = slash :: tail := by
        cases names with
        | nil => exact joint.imp more_eq.symm.trans fun absolute => isAbsolute_iff.mp (more_eq ▸ absolute)
        | cons next names => exact .inr ⟨_, more_eq.symm⟩
      rcases boundary with rfl | ⟨tail, rfl⟩
      · rw [List.append_nil, strtok_singleton given whole]
        rfl
      · rw [strtok_append_cons, strtok_singleton given whole, strtok_cons_self]
        rfl
  unfold Loc.text
  split
  · rename_i top
    rw [top]
    exact strtok_cons_self slash rest
  · exact names proper

theorem Extends.aimed {path : Text} (longer : Extends root path) : Aimed root path := by
  obtain ⟨rest, rfl, joint⟩ := longer
  refine ⟨isAbsolute_text root rest, ?_⟩
  have tokens := strtok_text proper rest joint
  unfold components
  simp only [tokens]
  split
  · exact ⟨strtok slash rest ++ [dot], by simp⟩
  · exact ⟨strtok slash rest, rfl⟩

theorem getLast?_text (below : root ≠ []) : (Loc.text root).getLast? ≠ some slash := by
  obtain ⟨names, last, rfl⟩ := List.eq_nil_or_concat root |>.resolve_left below
  obtain ⟨given, whole, -⟩ := proper last (by simp)
  have shape : Loc.text (names.concat last) = names.flatMap (slash :: ·) ++ slash :: last := by simp [Loc.text]
  rw [shape, List.getLast?_append_of_ne_nil _ (by simp), List.getLast?_cons]
  intro same
  cases tail : last.getLast? with
  | none => exact given (List.getLast?_eq_none_iff.mp tail)
  | some c =>
    rw [tail, Option.getD_some] at same
    cases same
    exact whole (List.mem_of_getLast? tail)

theorem Extends.stripSlash {path : Text} (longer : Extends root path) : Extends root (stripSlash path) := by
  unfold Filesystem.stripSlash
  split
  · rename_i ends
    obtain ⟨rest, rfl, joint⟩ := longer
    by_cases nothing : rest = []
    · subst nothing
      rw [List.append_nil] at ends
      by_cases top : root = []
      · subst top
        exact absurd ends.1 (by decide)
      · exact absurd ends.2 (getLast?_text proper top)
    · refine ⟨rest.dropLast, by rw [List.dropLast_append_of_ne_nil nothing], ?_⟩
      have whole : rest = rest.dropLast ++ [rest.getLast nothing] := (List.dropLast_concat_getLast nothing).symm
      exact absolute_of_append (whole ▸ joint.resolve_left nothing)
  · exact longer

omit proper

/-- A prefix of a path behind the rootfs path that is at least as long as that. -/
theorem extends_of_append {path rest back : Text} (joint : rest = [] ∨ isAbsolute rest = true)
    (same : Loc.text root ++ rest = path ++ back) (longer : Loc.text root <+: path) : Extends root path := by
  obtain ⟨more, rfl⟩ := longer
  rw [List.append_assoc] at same
  have split := List.append_cancel_left same
  refine ⟨more, rfl, ?_⟩
  rcases joint with rfl | absolute
  · exact .inl (List.append_eq_nil_iff.mp split.symm).1
  · exact absolute_of_append (split ▸ absolute)

theorem text_ne_nil (root : Loc) : Loc.text root ≠ [] := by
  intro empty
  have absolute := isAbsolute_text root []
  rw [empty] at absolute
  cases absolute

/-- The directory of a path behind the rootfs is behind it as well, or the rootfs. -/
theorem extends_pathDirname {rest dir : Text} (absolute : isAbsolute rest = true)
    (named : pathDirname (Loc.text root ++ rest) = .ok dir) : Extends root dir := by
  unfold pathDirname at named
  split at named
  · cases named
  rename_i c front found
  -- The last slash, and no other behind it.
  have shape := List.takeWhile_append_dropWhile (p := (· ≠ slash)) (l := (Loc.text root ++ rest).reverse)
  rw [found] at shape
  have whole : slash ∉ (Loc.text root ++ rest).reverse.takeWhile (· ≠ slash) := fun member => by
    simpa using List.mem_takeWhile_imp member
  generalize (Loc.text root ++ rest).reverse.takeWhile (· ≠ slash) = tail at shape whole
  have path : Loc.text root ++ rest = front.reverse ++ (c :: tail.reverse) := by
    rw [← List.reverse_reverse (Loc.text root ++ rest), ← shape]
    simp
  have longer : Loc.text root <+: front.reverse := by
    rcases List.append_eq_append_iff.mp path with ⟨more, same, -⟩ | ⟨more, same, later⟩
    · exact ⟨more, same.symm⟩
    · cases more with
      | nil => exact ⟨[], by simpa using same⟩
      | cons d more =>
        obtain ⟨-, tail_eq⟩ := List.cons.inj later
        obtain ⟨more', rfl⟩ := isAbsolute_iff.mp absolute
        refine absurd ?_ whole
        rw [← List.mem_reverse, tail_eq]
        simp
  have given : front ≠ [] := by
    rintro rfl
    exact text_ne_nil root (List.prefix_nil.mp longer)
  simp only [if_neg given] at named
  split at named
  · cases named
  · cases named
    exact extends_of_append (.inr absolute) path longer

theorem mem_cutsFrom {done rest cut : Text} (member : cut ∈ cutsFrom done rest) :
    ∃ front back, rest = front ++ slash :: back ∧ cut = done ++ front := by
  induction rest generalizing done with
  | nil => cases member
  | cons c rest ih =>
    simp only [cutsFrom] at member
    have later : cut ∈ cutsFrom (done ++ [c]) rest → ∃ front back, c :: rest = front ++ slash :: back ∧
        cut = done ++ front := fun inside => by
      obtain ⟨front, back, rfl, rfl⟩ := ih inside
      exact ⟨c :: front, back, rfl, by simp⟩
    split at member
    · rename_i same
      rcases List.mem_cons.mp member with rfl | inside
      · exact ⟨[], rest, by rw [same]; rfl, by simp⟩
      · exact later inside
    · exact later member

include proper

/-- What `mkdir_p` cuts off leads up to the rootfs, or behind it. -/
theorem Extends.cuts {buffer cut : Text} (longer : Extends root buffer) (member : cut ∈ cuts buffer) :
    Extends root cut ∨ Above root cut := by
  obtain ⟨front, back, split, cut_eq⟩ := mem_cutsFrom member
  have path : buffer = cut ++ slash :: back := by
    rw [cut_eq, List.append_assoc, ← split, List.take_append_drop]
  obtain ⟨rest, rfl, joint⟩ := longer
  rcases List.append_eq_append_iff.mp path with ⟨more, same, -⟩ | ⟨more, same, later⟩
  · exact .inl (extends_of_append joint path ⟨more, same.symm⟩)
  · cases more with
    | nil => exact .inl (extends_of_append joint path ⟨[], by simpa using same⟩)
    | cons d more =>
      obtain ⟨rfl, -⟩ := List.cons.inj later
      have tokens : strtok slash cut ++ strtok slash more = root := by
        have names := strtok_text proper [] (.inl rfl)
        rw [List.append_nil, same, strtok_append_cons] at names
        simpa [strtok] using names
      refine .inr ⟨?_, strtok slash cut, ⟨_, tokens⟩, ?_⟩
      · have started : cut ≠ [] := by
          rw [cut_eq]
          cases buffer : Loc.text root ++ rest with
          | nil => exact absurd (List.append_eq_nil_iff.mp buffer).1 (text_ne_nil root)
          | cons c tail => simp
        have absolute := isAbsolute_text root []
        rw [List.append_nil, same] at absolute
        exact (absolute_of_append absolute).resolve_left started
      · unfold components
        simp only
        split
        · exact .inr rfl
        · exact .inl rfl

end Texts

/-! ## The operations are chains of these actions -/

/-- The rootfs that is being populated is a directory. -/
structure Populating (rootfs : Option Loc) (m : Machine) : Prop where
  aim : m.rootfs = rootfs
  real : ∀ root, rootfs = some root → m.tree.node root = some .dir

/-- Wherever it stops, the program has acted on the machine and left the rootfs what it is. -/
def Keeps (rootfs : Option Loc) {α : Type} (p : Sys α) : Prop :=
  Spec Act (Populating rootfs) p fun _ => Populating rootfs

theorem Act.populating {m m' : Machine} {rootfs : Option Loc} (act : Act m m') (same : m'.rootfs = m.rootfs)
    (here : Populating rootfs m) : Populating rootfs m' := by
  refine ⟨same.trans here.aim, fun root populated => ?_⟩
  cases act with
  | later => exact here.real root populated
  | touch | write => exact Tree.dir_set (here.real root populated)
  | populate => exact here.real root populated

section Keeping

variable {rootfs : Option Loc} {α β : Type}

/-- An error ends the program. -/
theorem bind_spec {P : Machine → Prop} {Q : Except Errno α → Machine → Prop} {S : Except Errno β → Machine → Prop}
    {p : Sys α} {f : α → Sys β} (first : Spec Act P p Q) (next : ∀ a, Spec Act (Q (.ok a)) (f a) S)
    (fails : ∀ error m, Q (.error error) m → S (.error error) m) : Spec Act P (p >>= f : Sys β) S := by
  apply Spec.bind first
  intro result
  cases result with
  | ok a => exact next a
  | error error => exact Spec.pure fun m here => fails error m here

theorem attempt_spec {P : Machine → Prop} {Q : Except Errno α → Machine → Prop} {p : Sys α} (spec : Spec Act P p Q) :
    Spec Act P (attempt p) fun result m => ∃ tried, result = .ok tried ∧ Q tried m := by
  intro m here
  obtain ⟨chain, post⟩ := spec m here
  unfold attempt
  rcases result : p m with ⟨outcome, after⟩
  rw [result] at chain post
  cases outcome with
  | cut => exact ⟨chain, fun _ done => by cases done⟩
  | done tried => exact ⟨chain, fun _ done => by cases done; exact ⟨tried, rfl, post tried rfl⟩⟩

/-- A call that has an effect has the effect of an action. -/
theorem syscall_spec {P : Machine → Prop} {Q : Except Errno α → Machine → Prop}
    {effect : Machine → Except Errno (Machine × α)} (passes : ∀ m, P m → P m.later)
    (fails : ∀ m error, P m → Q (.error error) m)
    (acts : ∀ m after value, P m → effect m = .ok (after, value) → (after = m ∨ Act m after) ∧ Q (.ok value) after) :
    Spec Act P (syscall effect) Q := by
  intro m here
  have failed : ∀ error : Errno, Relation.ReflTransGen Act m m.later ∧
      ∀ result, Outcome.done (Except.error error) = .done result → Q result m.later := fun error =>
    ⟨.single (.later m), fun result done => by cases done; exact fails _ error (passes m here)⟩
  unfold syscall
  split
  · exact failed _
  split
  · exact failed _
  · rename_i after value effected
    obtain ⟨step, post⟩ := acts _ _ _ (passes m here) effected
    refine ⟨?_, fun result done => by cases done; exact post⟩
    rcases step with rfl | act
    · exact .single (.later m)
    · exact .tail (.single (.later m)) act

theorem Populating.later {m : Machine} (here : Populating rootfs m) : Populating rootfs m.later := ⟨here.aim, here.real⟩

namespace Keeps

theorem ofResult (result : Except Errno α) : Keeps rootfs (ofResult result) := fun m here =>
  ⟨.refl, fun _ done => by cases done; exact here⟩

/-- A result is known where it is used. -/
theorem ofExcept {result : Except Errno α} {f : α → Sys β} (next : ∀ a, result = .ok a → Keeps rootfs (f a)) :
    Keeps rootfs (Filesystem.ofResult result >>= f) := by
  cases result with
  | ok a => exact next a rfl
  | error error => exact ofResult (.error error)

theorem pure (value : α) : Keeps rootfs (Pure.pure value : Sys α) := ofResult (.ok value)

theorem throw (error : Errno) : Keeps rootfs (throw error : Sys α) := ofResult (.error error)

theorem diverge : Keeps rootfs (diverge : Sys α) := fun _ _ => ⟨.refl, fun _ done => by cases done⟩

theorem bind {p : Sys α} {f : α → Sys β} (first : Keeps rootfs p) (next : ∀ a, Keeps rootfs (f a)) :
    Keeps rootfs (p >>= f) := bind_spec first next fun _ _ here => here

theorem attempt {p : Sys α} (keeps : Keeps rootfs p) : Keeps rootfs (attempt p) :=
  (attempt_spec keeps).post fun _ _ ⟨_, _, here⟩ => here

theorem eachOf {body : α → Sys Unit} {items : List α} (keeps : ∀ item ∈ items, Keeps rootfs (body item)) :
    Keeps rootfs (eachOf body items) := by
  induction items with
  | nil => exact pure ()
  | cons first rest ih =>
    exact bind (keeps first List.mem_cons_self) fun _ => ih fun item member => keeps item (List.mem_cons_of_mem first member)

end Keeps

theorem syscall_keeps {effect : Machine → Except Errno (Machine × α)}
    (acts : ∀ m after value, Populating rootfs m → effect m = .ok (after, value) →
      after = m ∨ Act m after ∧ after.rootfs = m.rootfs) : Keeps rootfs (syscall effect) := by
  apply syscall_spec (fun _ here => here.later) (fun _ _ here => here)
  intro m after value here effected
  rcases acts m after value here effected with rfl | ⟨act, same⟩
  · exact ⟨.inl rfl, here⟩
  · exact ⟨.inr act, act.populating same here⟩

/-- A call that only looks. -/
theorem look_keeps {look : Machine → Except Errno β} {part : β → α} :
    Keeps rootfs (syscall fun m => (look m).map fun found => (m, part found)) := by
  refine syscall_keeps fun m after value _ effected => .inl ?_
  cases found : look m with
  | error error =>
    rw [found] at effected
    cases effected
  | ok value =>
    rw [found] at effected
    cases effected
    rfl

/-- On the way to the rootfs nothing is missing. -/
theorem Above.there {root : Loc} {path : Text} (above : Above root path) {m : Machine}
    (real : m.tree.node root = some .dir) (last : Bool) : ∃ loc, resolve m.tree m.cwd last path = .ok (.there loc) := by
  obtain ⟨absolute, names, ⟨more, rfl⟩, parts⟩ := above
  have given : path ≠ [] := by
    rintro rfl
    cases absolute
  have dir : m.tree.node names = some .dir := by
    by_cases whole : more = []
    · simpa [whole] using real
    · exact Tree.dir_of_prefix (by rw [real]; simp) whole
  refine ⟨names, ?_⟩
  simp only [resolve, if_neg given, absolute, if_true]
  rcases parts with parts | parts
  · have walks : Walks m.tree last maxLinks [] (names ++ []) (.there names) := (walks_through [] dir).mpr (.done _ names)
    rw [parts, ← List.append_nil names]
    simpa using walks.walk
  · rw [parts]
    exact ((walks_through [] dir).mpr (.dot _ _ [] _ dir (.done _ _))).walk

/-- Paths to which something may be added. -/
def Near (rootfs : Option Loc) (path : Text) : Prop :=
  ∀ root, rootfs = some root → Aimed root path ∨ Above root path

theorem added_acts {m after : Machine} {path : Text} {node : Node} {value : Unit} (here : Populating rootfs m)
    (near : Near rootfs path) (effected : m.added path node = .ok (after, value)) :
    Act m after ∧ after.rootfs = m.rootfs := by
  unfold Machine.added at effected
  split at effected
  · cases effected
  · cases effected
  rename_i loc found
  cases effected
  refine ⟨.touch m false path (.missing loc) (some node) found fun root populated => ?_, rfl⟩
  have aim := here.aim.symm.trans populated
  rcases near root aim with aimed | above
  · exact aimed
  · obtain ⟨there, present⟩ := above.there (here.real root aim) false
    rw [present] at found
    cases found

/-- `stat` finds a directory. -/
def Machine.IsDir (m : Machine) (path : Text) : Prop := ∃ loc, m.entry true path = .ok (loc, .dir)

theorem entry_of_resolve {m : Machine} {last : Bool} {path : Text} {loc : Loc} {node : Node}
    (found : resolve m.tree m.cwd last path = .ok (.there loc)) (here : m.tree.node loc = some node) :
    m.entry last path = .ok (loc, node) := by
  simp only [Machine.entry, found, here]

/-- `stat` finds what `mkdir` has made. -/
theorem isDir_of_added {m after : Machine} {path : Text} {value : Unit}
    (effected : m.added path .dir = .ok (after, value)) : after.IsDir path := by
  unfold Machine.added at effected
  split at effected
  · cases effected
  · cases effected
  rename_i loc found
  cases effected
  unfold resolve at found
  split at found
  · cases found
  rename_i given
  have walks := Walks.of_walk found
  obtain ⟨absent, ready⟩ := walks.free (split_components path) rfl
  have made := (walks.made rfl absent (ready _)).walk
  refine ⟨loc, entry_of_resolve ?_ ?_⟩
  · simp only [resolve, if_neg given]
    exact made
  · simp only [Machine.touched, Machine.touch, Tree.node_set (ready _), if_true]

theorem ensureDirectory_spec (rounds : Nat) {path : Text} (near : Near rootfs path) :
    Spec Act (Populating rootfs) (ensureDirectory rounds path) fun result m =>
      Populating rootfs m ∧ (result = .ok () → m.IsDir path) := by
  induction rounds with
  | zero => exact fun _ _ => ⟨.refl, fun _ done => by cases done⟩
  | succ rounds ih =>
    have stated : Spec Act (Populating rootfs) (stat path) fun result m =>
        Populating rootfs m ∧ ∀ found, result = .ok found → m.entry true path = .ok found := by
      refine syscall_spec (fun _ here => here.later) (fun _ _ here => ⟨here, fun _ absurd => by cases absurd⟩)
        fun m after found here effected => ?_
      cases looked : m.entry true path with
      | error error =>
        rw [looked] at effected
        cases effected
      | ok value =>
        rw [looked] at effected
        cases effected
        exact ⟨.inl rfl, here, fun _ same => by cases same; exact looked⟩
    have made : Spec Act (Populating rootfs) (mkdir path) fun result m =>
        Populating rootfs m ∧ (result = .ok () → m.IsDir path) := by
      refine syscall_spec (fun _ here => here.later) (fun _ _ here => ⟨here, fun absurd => by cases absurd⟩)
        fun m after value here effected => ?_
      obtain ⟨act, same⟩ := added_acts here near effected
      exact ⟨.inr act, act.populating same here, fun _ => isDir_of_added effected⟩
    have failed : ∀ error : Errno, Spec Act (Populating rootfs) (throw error : Sys Unit) fun result m =>
        Populating rootfs m ∧ (result = .ok () → m.IsDir path) := fun error =>
      .pure fun _ here => ⟨here, fun absurd => by cases absurd⟩
    refine bind_spec (attempt_spec stated) (fun found => ?_) fun error m ⟨_, absurd, _⟩ => by cases absurd
    split
    · apply Spec.pure
      intro m here
      obtain ⟨_, same, here, known⟩ := here
      cases same
      exact ⟨here, fun _ => ⟨_, known _ rfl⟩⟩
    · exact (failed _).pre fun m ⟨_, _, here⟩ => here.1
    · refine .pre ?_ fun m (here : ∃ _, _) => here.choose_spec.2.1
      refine bind_spec (attempt_spec made) (fun tried => ?_) fun error m ⟨_, absurd, _⟩ => by cases absurd
      split
      · apply Spec.pure
        intro m here
        obtain ⟨_, same, here⟩ := here
        cases same
        exact here
      · refine .pre ?_ fun m (here : ∃ _, _) => here.choose_spec.2.1
        split
        · exact ih
        · exact failed _

theorem ensureDirectory_keeps (rounds : Nat) {path : Text} (near : Near rootfs path) :
    Keeps rootfs (ensureDirectory rounds path) := (ensureDirectory_spec rounds near).post fun _ _ here => here.1

/-- The paths of the source behind the rootfs. -/
def Behind (rootfs : Option Loc) (path : Text) : Prop :=
  ∀ root, rootfs = some root → (∀ name ∈ root, Proper name) ∧ Extends root path

theorem mkdirP_spec (rounds : Nat) {path : Text} (behind : Behind rootfs path) :
    Spec Act (Populating rootfs) (mkdirP rounds path) fun result m =>
      Populating rootfs m ∧ (result = .ok () → m.IsDir (stripSlash path)) := by
  have failed : ∀ error : Errno, Spec Act (Populating rootfs) (throw error : Sys Unit) fun result m =>
      Populating rootfs m ∧ (result = .ok () → m.IsDir (stripSlash path)) := fun error =>
    .pure fun _ here => ⟨here, fun absurd => by cases absurd⟩
  unfold mkdirP
  split
  · exact failed _
  split
  · exact failed _
  have parents : Keeps rootfs (eachOf (ensureDirectory rounds) (cuts (stripSlash path))) := by
    refine .eachOf fun cut member => ensureDirectory_keeps rounds fun root populated => ?_
    obtain ⟨proper, longer⟩ := behind root populated
    exact ((longer.stripSlash proper).cuts proper member).imp_left (Extends.aimed proper)
  refine bind_spec parents (fun _ => ensureDirectory_spec rounds fun root populated => ?_) fun error m here =>
    ⟨here, fun absurd => by cases absurd⟩
  obtain ⟨proper, longer⟩ := behind root populated
  exact .inl ((longer.stripSlash proper).aimed proper)

theorem mkdirP_keeps (rounds : Nat) {path : Text} (behind : Behind rootfs path) : Keeps rootfs (mkdirP rounds path) :=
  (mkdirP_spec rounds behind).post fun _ _ here => here.1

theorem Behind.aimed {path : Text} (behind : Behind rootfs path) {m : Machine} (here : Populating rootfs m) :
    ∀ root, m.rootfs = some root → Aimed root path := by
  intro root populated
  obtain ⟨proper, longer⟩ := behind root (here.aim.symm.trans populated)
  exact longer.aimed proper

/-! ## Copies -/

theorem entry_resolves {m : Machine} {last : Bool} {path : Text} {loc : Loc} {node : Node}
    (found : m.entry last path = .ok (loc, node)) :
    resolve m.tree m.cwd last path = .ok (.there loc) ∧ m.tree.node loc = some node := by
  unfold Machine.entry at found
  split at found
  · cases found
  · cases found
  · rename_i there resolved
    split at found
    · rename_i here
      cases found
      exact ⟨resolved, here⟩
    · cases found

theorem unlink_keeps {path : Text} (behind : Behind rootfs path) : Keeps rootfs (unlink path) := by
  refine syscall_keeps fun m after value here effected => .inr ?_
  unfold Machine.unlinked at effected
  split at effected
  · cases effected
  · cases effected
  rename_i loc node other found
  cases effected
  exact ⟨.touch m false path (.there loc) none (entry_resolves found).1 (behind.aimed here), rfl⟩

theorem symlink_keeps (target : Text) {path : Text} (behind : Behind rootfs path) : Keeps rootfs (symlink target path) := by
  refine syscall_keeps fun _ _ _ here effected => .inr (added_acts here (fun root populated => ?_) effected)
  obtain ⟨proper, longer⟩ := behind root populated
  exact .inl (longer.aimed proper)

theorem readlink_keeps (path : Text) : Keeps rootfs (readlink path) := by
  refine syscall_keeps fun m after value _ effected => .inl ?_
  split at effected
  · cases effected
  · cases effected
    rfl
  · cases effected

theorem copySymlink_keeps (src : Text) {dst : Text} (behind : Behind rootfs dst) : Keeps rootfs (copySymlink src dst) := by
  refine .bind (readlink_keeps src) fun target => .bind (unlink_keeps behind).attempt fun removed => ?_
  split
  · exact symlink_keeps target behind
  · split
    · exact symlink_keeps target behind
    · exact .throw _

/-- The file that was opened has been written down. -/
theorem openTruncated_spec (mode : Nat) {path : Text} (behind : Behind rootfs path) :
    Spec Act (Populating rootfs) (openTruncated path mode) fun result m =>
      Populating rootfs m ∧ ∀ touch, result = .ok touch → touch ∈ m.trace := by
  refine syscall_spec (fun _ here => here.later) (fun _ _ here => ⟨here, fun _ absurd => by cases absurd⟩)
    fun m after touch here effected => ?_
  have opened : ∀ {spot : Spot} (entry : Option Node), resolve m.tree m.cwd true path = .ok spot →
      Act m (m.touched (m.touch true path spot.loc) entry) := fun {spot} entry found =>
    .touch m true path spot entry found (behind.aimed here)
  have act : Act m after ∧ after.rootfs = m.rootfs ∧ touch ∈ after.trace := by
    unfold Machine.truncated at effected
    split at effected
    · cases effected
    rename_i spot found
    simp only at effected
    split at effected
    · cases effected
    · cases effected
    all_goals
      cases effected
      exact ⟨opened _ found, rfl, by simp [Machine.touched]⟩
  refine ⟨.inr act.1, act.1.populating act.2.1 here, fun other same => ?_⟩
  cases same
  exact act.2.2

theorem written_acts {m : Machine} {touch : Touch} (opened : touch ∈ m.trace) (content : Text) :
    Act m (m.written touch content) ∧ (m.written touch content).rootfs = m.rootfs := by
  unfold Machine.written
  split
  · exact ⟨.write m touch opened _, rfl⟩
  · exact ⟨.write m touch opened _, rfl⟩

theorem copyFileContents_spec (source : Loc) (target : Touch) :
    Spec Act (fun m => Populating rootfs m ∧ target ∈ m.trace) (copyFileContents source target) fun _ =>
      Populating rootfs := by
  rintro m ⟨here, opened⟩
  have passed : Populating rootfs m.later := ⟨here.aim, here.real⟩
  have wrote : ∀ content, Relation.ReflTransGen Act m (m.later.written target content) ∧
      Populating rootfs (m.later.written target content) := fun content => by
    obtain ⟨act, same⟩ := written_acts (m := m.later) opened content
    exact ⟨.tail (.single (.later m)) act, act.populating same passed⟩
  unfold copyFileContents
  split
  · split
    · exact ⟨(wrote _).1, fun _ _ => (wrote _).2⟩
    · exact ⟨(wrote _).1, fun _ _ => (wrote _).2⟩
  · exact ⟨.single (.later m), fun _ _ => passed⟩

theorem close_keeps : Keeps rootfs close :=
  syscall_keeps fun m after value _ effected => by
    cases effected
    exact .inl rfl

theorem copyRegularFile_keeps (src : Text) {dst : Text} (behind : Behind rootfs dst) :
    Keeps rootfs (copyRegularFile src dst) := by
  apply Keeps.bind look_keeps
  intro found
  obtain ⟨loc, node⟩ := found
  apply Keeps.bind look_keeps
  intro source
  apply Spec.bind (openTruncated_spec (node.mode &&& 0o777) behind)
  intro result
  cases result with
  | error error => exact (Keeps.ofResult (.error error)).pre fun _ here => here.1
  | ok target =>
    have closed : Keeps rootfs (do close; close) := .bind close_keeps fun _ => close_keeps
    apply Spec.bind ((copyFileContents_spec source target).pre fun m here => ⟨here.1, here.2 target rfl⟩)
    intro copied
    cases copied with
    | error error => exact Keeps.ofResult (.error error)
    | ok => exact closed

theorem copyPathIntoRootfs_keeps (rounds hops : Nat) {root : Loc} (proper : ∀ name ∈ root, Proper name) (hostPath : Text) :
    Keeps (some root) (copyPathIntoRootfs rounds (Loc.text root) hops hostPath) := by
  induction hops generalizing hostPath with
  | zero => exact .diverge
  | succ hops ih =>
    unfold copyPathIntoRootfs
    split
    · exact .throw _
    rename_i absolute
    split
    · exact .throw _
    have behind : Behind (some root) (Loc.text root ++ hostPath) := fun other populated => by
      cases populated
      exact ⟨proper, hostPath, rfl, .inr (by simpa using absolute)⟩
    apply Keeps.ofExcept
    intro destinationDir named
    have below : Behind (some root) destinationDir := fun other populated => by
      cases populated
      exact ⟨proper, extends_pathDirname (by simpa using absolute) named⟩
    refine .bind (mkdirP_keeps rounds below) fun _ => .bind look_keeps fun found => ?_
    obtain ⟨loc, node⟩ := found
    cases node with
    | dir => exact .throw _
    | special => exact .throw _
    | file mode content => exact copyRegularFile_keeps hostPath behind
    | link target =>
      refine .bind (readlink_keeps hostPath) fun target => .bind (copySymlink_keeps hostPath behind) fun _ => ?_
      exact .bind (.ofResult _) fun resolved => ih resolved

/-! ## The rootfs as a whole -/

/-- The slash at the end makes no difference for a directory. -/
theorem isDir_of_strip {m : Machine} {path : Text} (dir : m.IsDir (stripSlash path)) : m.IsDir path := by
  unfold stripSlash at dir
  split at dir
  · rename_i ends
    obtain ⟨loc, entered⟩ := dir
    obtain ⟨found, here⟩ := entry_resolves entered
    generalize buffer_eq : path.dropLast = buffer at found
    have whole : path = buffer ++ [slash] := by
      obtain ⟨-, last⟩ := ends
      rw [← buffer_eq]
      exact (List.dropLast_append_getLast? slash last).symm
    have given : buffer ≠ [] := by
      rintro rfl
      rw [whole] at ends
      exact absurd ends.1 (by decide)
    have start : isAbsolute path = isAbsolute buffer := by
      rw [whole]
      cases buffer with
      | nil => exact absurd rfl given
      | cons => rfl
    have tokens : strtok slash path = strtok slash buffer := by
      rw [whole, strtok_append_cons]
      simp [strtok]
    refine ⟨loc, entry_of_resolve ?_ here⟩
    simp only [resolve, if_neg given] at found
    have long : path ≠ [] := by simp [whole]
    simp only [resolve, if_neg long, start]
    -- A slash that is not the first one is read as a dot behind the names.
    have parts : components path = components buffer ∨ components path = components buffer ++ [dot] := by
      unfold components
      simp only [tokens, ends.2, true_and]
      split <;> split <;> simp_all
    rcases parts with parts | parts
    · rw [parts]
      exact found
    · rw [parts]
      exact ((Walks.of_walk found).slashed rfl here).walk
  · exact dir

/-- The location of a directory. -/
theorem realpath_spec (path : Text) :
    Spec Act (fun m => Populating rootfs m ∧ m.IsDir path) (realpath path) fun result m =>
      Populating rootfs m ∧ ∀ loc, result = .ok loc → m.tree.node loc = some .dir := by
  refine syscall_spec (fun m here => ⟨here.1.later, here.2⟩) (fun _ _ here => ⟨here.1, fun _ absurd => by cases absurd⟩)
    fun m after loc here effected => ?_
  obtain ⟨⟨dir, entered⟩, populating⟩ := here.symm
  rw [entered] at effected
  simp only at effected
  split at effected
  · cases effected
  · cases effected
    refine ⟨.inl rfl, populating, fun _ same => ?_⟩
    cases same
    exact (entry_resolves entered).2

theorem realpath_keeps (path : Text) : Keeps rootfs (realpath path) := by
  refine syscall_keeps fun m after value _ effected => .inl ?_
  split at effected
  · cases effected
  · split at effected
    · cases effected
    · cases effected
      rfl

section Rootfs

variable {root : Loc} (proper : ∀ name ∈ root, Proper name) (setting : Setting)

include proper

theorem behind_of_absolute {path : Text} (absolute : isAbsolute path = true) :
    Behind (some root) (Loc.text root ++ path) := by
  intro other populated
  cases populated
  exact ⟨proper, path, rfl, .inr absolute⟩

theorem createLayout_keeps (rounds : Nat) : Keeps (some root) (createLayout rounds (Loc.text root)) := by
  apply Keeps.eachOf
  intro dir _
  have behind : Behind (some root) (Loc.text root ++ [slash] ++ dir) := by
    rw [List.append_assoc]
    exact behind_of_absolute proper rfl
  simp only
  split
  · exact .throw _
  · exact mkdirP_keeps rounds behind

theorem copyBinaryDependencies_keeps (binaryPath : Text) :
    Keeps (some root) (copyBinaryDependencies setting (Loc.text root) binaryPath) := by
  unfold copyBinaryDependencies
  split
  · exact .throw _
  have printed : Keeps (some root) (popenLdd setting binaryPath) := syscall_keeps fun m after value _ effected => by
    cases effected
    exact .inl rfl
  refine .bind printed fun output => .bind (.eachOf fun line _ => ?_) fun _ => close_keeps
  unfold copyDependency
  split
  · exact copyPathIntoRootfs_keeps _ _ proper _
  · split
    · exact .pure ()
    · exact .throw _

theorem bootstrapRootfsTools_keeps : Keeps (some root) (bootstrapRootfsTools setting (Loc.text root)) :=
  .eachOf fun _ _ => .bind (copyPathIntoRootfs_keeps _ _ proper _) fun _ =>
    copyBinaryDependencies_keeps proper setting _

theorem copyHostBinaryToContainerPath_keeps (rounds : Nat) (hostBinary : Text) {containerPath : Text}
    (absolute : isAbsolute containerPath = true) :
    Keeps (some root) (copyHostBinaryToContainerPath rounds (Loc.text root) hostBinary containerPath) := by
  have behind := behind_of_absolute proper absolute
  apply Keeps.bind look_keeps
  intro found
  obtain ⟨loc, node⟩ := found
  have copied : Keeps (some root) (do
      let destinationDir ← ofResult (pathDirname (Loc.text root ++ containerPath))
      mkdirP rounds destinationDir
      copyRegularFile hostBinary (Loc.text root ++ containerPath)) := by
    apply Keeps.ofExcept
    intro destinationDir named
    have below : Behind (some root) destinationDir := fun other populated => by
      cases populated
      exact ⟨proper, extends_pathDirname absolute named⟩
    exact .bind (mkdirP_keeps rounds below) fun _ => copyRegularFile_keeps hostBinary behind
  cases node with
  | file mode content =>
    simp only
    split
    · exact .throw _
    · exact copied
  | dir | link | special => exact .throw _

theorem bootstrapRootfsWorkloads_keeps : Keeps (some root) (bootstrapRootfsWorkloads setting (Loc.text root)) := by
  apply Keeps.eachOf
  intro workload member
  have absolute : isAbsolute workload.2 = true := by
    have each : ∀ workload ∈ bootstrapWorkloads, isAbsolute workload.2 = true := by decide
    exact each workload member
  apply Keeps.bind (realpath_keeps workload.1).attempt
  intro result
  split
  · split
    · exact .pure ()
    · exact .throw _
  · exact .bind (copyHostBinaryToContainerPath_keeps proper setting.rounds _ absolute) fun _ =>
      copyBinaryDependencies_keeps proper setting _

end Rootfs

end Keeping

/-- The whole of it, from a machine on which nothing has been touched yet. -/
theorem filesystemPrepareRootfs_spec (setting : Setting) (requestedRootfs : Text) (size : Nat) :
    Spec Act (Populating none) (filesystemPrepareRootfs setting requestedRootfs size) fun _ _ => True := by
  have failed : ∀ {α : Type} {p : Sys α} {rootfs : Option Loc}, Keeps rootfs p →
      Spec Act (Populating rootfs) p fun _ _ => True := fun keeps => keeps.post fun _ _ _ => trivial
  unfold filesystemPrepareRootfs
  split
  · exact failed (.throw _)
  refine bind_spec (mkdirP_spec setting.rounds fun _ absurd => by cases absurd) (fun _ => ?_) fun _ _ _ => trivial
  refine bind_spec (Q := fun result m => Populating none m ∧ ∀ root, result = .ok root → m.tree.node root = some .dir)
    ((realpath_spec requestedRootfs).pre fun m here => ⟨here.1, isDir_of_strip (here.2 rfl)⟩) (fun root => ?_)
    fun _ _ _ => trivial
  refine .given (∀ name ∈ root, Proper name)
    (fun m here => Tree.proper_of_mem (show m.tree.node root ≠ none by rw [here.2 root rfl]; simp)) fun proper => ?_
  have populated : Spec Act (fun m => Populating none m ∧ m.tree.node root = some .dir) (populating root) fun _ =>
      Populating (some root) := by
    intro m here
    refine ⟨.single (.populate m root here.2), fun _ _ => ⟨rfl, fun other same => ?_⟩⟩
    cases same
    exact here.2
  refine bind_spec (populated.pre fun m here => ⟨here.1, here.2 root rfl⟩) (fun _ => failed ?_) fun _ _ _ => trivial
  apply Keeps.bind (createLayout_keeps proper setting.rounds)
  intro _
  apply Keeps.bind (bootstrapRootfsTools_keeps proper setting)
  intro _
  apply Keeps.bind (bootstrapRootfsWorkloads_keeps proper setting)
  intro _
  simp only
  split
  · exact .bind (.throw _) fun _ => .pure _
  · exact .pure _

/-- A host on which the preparation starts. -/
def Machine.start (tree : Tree) (cwd : Loc) (faults : Nat → Fault) : Machine := ⟨tree, cwd, faults, 0, none, []⟩

/-- Whatever the host, the links in the rootfs and the failures are: a change goes to the rootfs if its
path leads through no absolute link and no `..` out of it. -/
theorem prepare_confined (setting : Setting) (requestedRootfs : Text) (size : Nat) (tree : Tree) (cwd : Loc)
    (faults : Nat → Fault) :
    let after := (filesystemPrepareRootfs setting requestedRootfs size (.start tree cwd faults)).2
    ∀ touch ∈ after.trace, touch.Below → touch.Inside := by
  have start : (Machine.start tree cwd faults).Confined := by
    refine ⟨fun _ absurd => ?_, fun _ member => ?_⟩
    · cases absurd
    · cases member
  have kept := (filesystemPrepareRootfs_spec setting requestedRootfs size).invariant (I := Machine.Confined)
    (fun _ _ act confined => act.confined confined) (s := .start tree cwd faults)
    ⟨rfl, fun _ absurd => by cases absurd⟩ start
  exact kept.inside

/-! ## Two hosts -/

def Tree.bare : Tree where
  node loc := if loc = [] then some .dir else none
  root := rfl
  parents := by
    intro loc name present
    simp at present

/-- The shell and the tools in `/bin`, a directory `/etc`, and the rootfs at `/r`. -/
def Tree.stocked : Tree :=
  let tools := ["sh", "echo", "hostname", "ps", "sleep"].map lit
  let places := [([lit "bin"], Node.dir), ([lit "etc"], .dir), ([lit "r"], .dir)] ++
    tools.map fun tool => ([lit "bin", tool], .file 0o755 tool)
  places.foldl (fun tree place => tree.set place.1 (some place.2)) .bare

/-- `ldd` prints nothing, as for a binary that is linked statically. -/
def quiet : Setting := ⟨3, 5, fun _ _ => []⟩

/-- No call fails of itself. -/
def unfaulted : Nat → Fault := fun _ => ⟨none, 0⟩

def prepared (tree : Tree) : Machine :=
  (filesystemPrepareRootfs quiet (lit "/r") 512 (.start tree [] unfaulted)).2

theorem stocked_below : (∃ touch ∈ (prepared .stocked).trace, touch.loc = [lit "r", lit "bin", lit "sh"]) ∧
    ∀ touch ∈ (prepared .stocked).trace, touch.Below := by
  decide +kernel

theorem plain_rootfs_confined :
    (∃ touch ∈ (prepared .stocked).trace, touch.loc = [lit "r", lit "bin", lit "sh"]) ∧
      ∀ touch ∈ (prepared .stocked).trace, touch.Inside := by
  refine ⟨stocked_below.1, fun touch member => ?_⟩
  have below := stocked_below.2 touch member
  unfold prepared at member
  exact prepare_confined quiet (lit "/r") 512 .stocked [] unfaulted touch member below

/-- With a link from `/r/bin` to `/etc`, the copied tools are written to `/etc`. -/
theorem linked_rootfs_written_outside :
    ¬ ∀ touch ∈ (prepared (Tree.stocked.set [lit "r", lit "bin"] (some (.link (lit "/etc"))))).trace,
      touch.Inside := by
  decide +kernel

end ContainerRuntime.Filesystem
