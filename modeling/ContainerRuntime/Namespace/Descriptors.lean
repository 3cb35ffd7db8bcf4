import Mathlib.Data.List.Induction
import ContainerRuntime.Namespace.Runs

/-! Who has which end of the handshake pipes open.

`clone` copies the descriptor table, so a child begins with both ends of all
three pipes. The manager closes the ends that are not its own; the child never
does. It keeps the writing end of the pipe on which it waits for the token, and
the reading ends of the pipes it reports on, and hands all of them on to the
program it executes.
-/

set_option autoImplicit false

namespace ContainerRuntime.Namespace

open CString Coroutine

/-- The table after a number of calls. -/
def tableOf (k : Nat) (base : List Held) (h : List Done) : List Held :=
  h.foldl (fun fds d => System.retable k d fds) base

@[simp] theorem tableOf_nil (k : Nat) (base : List Held) : tableOf k base [] = base := rfl

theorem tableOf_concat (k : Nat) (base : List Held) (h : List Done) (d : Done) :
    tableOf k base (h ++ [d]) = System.retable k d (tableOf k base h) := by
  simp [tableOf]

/-- The table a child begins with. -/
def inherited (k : Nat) : List Held :=
  [⟨k, ⟨.status, .reading⟩, false⟩, ⟨k, ⟨.status, .writing⟩, false⟩, ⟨k, ⟨.exec, .reading⟩, false⟩,
    ⟨k, ⟨.exec, .writing⟩, true⟩, ⟨k, ⟨.continue, .reading⟩, false⟩, ⟨k, ⟨.continue, .writing⟩, false⟩]

theorem tableOf_opening (k : Nat) : tableOf k [] opening = inherited k := by
  simp [tableOf, opening, System.retable, inherited]

/-! ## The manager closes everything it has opened -/

/-- A call that changes no descriptor. -/
def Call.Fixed : Call → Prop
  | .pipe _ | .closeOnExec _ | .close _ => False
  | _ => True

theorem retable_fixed {k : Nat} {c : Call} {a : c.Answer} (fixed : c.Fixed) (fds : List Held) :
    System.retable k ⟨c, a⟩ fds = fds := by
  cases c with
  | pipe => exact fixed.elim
  | closeOnExec => exact fixed.elim
  | close => exact fixed.elim
  | _ => rfl

/-- A table without these ends. -/
def without (k : Nat) (closed : List End) (fds : List Held) : List Held :=
  fds.filter fun held => ¬ (held.start = k ∧ held.fd ∈ closed)

section Closing

variable {k : Nat} {h : List Done} {α : Type} {post : α → List Done → Prop}

/-- A pipe is read with its reading end open and its writing end closed. -/
def Sighted (k : Nat) (h : List Done) : Call → Prop
  | .read pipe _ => System.Holds (tableOf k [] h) k ⟨pipe, .reading⟩ ∧ ¬ System.Holds (tableOf k [] h) k ⟨pipe, .writing⟩
  | _ => True

/-- The return comes with this condition. -/
abbrev Ends (k : Nat) (post : α → List Done → Prop) : List Done → Code α → Prop := Code.Obeys (Sighted k) post

theorem attempt_ends {c : Call} {f : Option Int32 → Code α} (fixed : c.Fixed) (sighted : Sighted k h c)
    (next : ∀ h' failure, tableOf k [] h' = tableOf k [] h → Ends k post h' (f failure)) :
    Ends k post h (Code.attempt c >>= f) := by
  refine ignored_rule sighted fun answer failure => next _ failure ?_
  rw [tableOf_concat, retable_fixed fixed]

theorem close_ends {fd : End} {f : Unit → Code α}
    (next : ∀ h', tableOf k [] h' = without k [fd] (tableOf k [] h) → Ends k post h' (f ())) :
    Ends k post h (Code.close fd >>= f) := by
  refine close_rule trivial fun answer => next _ ?_
  rw [tableOf_concat]
  simp [System.retable, without]

theorem closeAll_ends {fds : List End} {f : Unit → Code α}
    (next : ∀ h', tableOf k [] h' = without k fds (tableOf k [] h) → Ends k post h' (f ())) :
    Ends k post h (Code.closeAll fds >>= f) := by
  induction fds generalizing h with
  | nil => exact next h (by simp [without])
  | cons fd rest ih =>
    have later : ∀ answer, Ends k post (h ++ [⟨.close fd, answer⟩]) (Code.closeAll rest >>= f) := by
      refine fun answer => ih fun h' same => next h' ?_
      rw [same, tableOf_concat]
      simp only [System.retable, without, List.filter_filter, List.mem_cons]
      congr 1
      funext held
      by_cases own : held.start = k <;> by_cases first : held.fd = fd <;> simp [own, first]
    refine ⟨trivial, fun answer => ?_⟩
    cases answer with
    | error error => exact later (.error error)
    | ok value => exact later (.ok value)

theorem readStatus_ends (rounds : Nat) (received : List UInt8) (sighted : Sighted k h (.read .status 0)) :
    Ends k (fun _ h' => tableOf k [] h' = tableOf k [] h) h (readStatus rounds received) := by
  induction rounds generalizing h received with
  | zero => rfl
  | succ rounds ih =>
    unfold readStatus
    split
    · rfl
    · refine ⟨sighted, fun answer => ?_⟩
      have same : tableOf k [] (h ++ [⟨.read .status (NamespaceStatus.size - received.length), answer⟩]) = tableOf k [] h := by
        rw [tableOf_concat, retable_fixed (c := .read _ _) trivial]
      rcases answer with error | (_ | ⟨first, more⟩)
      · exact same
      · exact same
      · exact (ih (received ++ first :: more) (by rwa [Sighted, same])).post fun _ _ after => after.trans same

theorem abandon_ends {pid : Pid} {error : Int32} (empty : tableOf k [] h = []) :
    Ends k (fun _ h' => tableOf k [] h' = []) h (abandon pid error) :=
  attempt_ends (k := k) trivial trivial fun _ _ killed => attempt_ends (k := k) trivial trivial fun _ _ reaped =>
    reaped.trans (killed.trans empty)

theorem readExecStatus_ends (sighted : Sighted k h (.read .exec 0)) :
    Ends k (fun _ h' => tableOf k [] h' = without k [⟨.exec, .reading⟩] (tableOf k [] h)) h readExecStatus := by
  refine ⟨sighted, fun answer => ?_⟩
  have same : tableOf k [] (h ++ [⟨.read .exec 4, answer⟩]) = tableOf k [] h := by
    rw [tableOf_concat, retable_fixed (c := .read _ _) trivial]
  rcases answer with error | bytes
  · exact close_ends (k := k) fun h' closed => closed.trans (by rw [same])
  · apply close_ends (k := k)
    intro h' closed
    split
    · exact closed.trans (by rw [same])
    · split <;> exact closed.trans (by rw [same])

theorem configureUserNamespace_ends : Ends k (fun _ h' => tableOf k [] h' = tableOf k [] h) h configureUserNamespace := by
  refine attempt_ends (k := k) trivial trivial fun h₁ setgroups first => ?_
  split
  · exact first
  · refine attempt_ends (k := k) trivial trivial fun h₂ uid second => ?_
    cases uid with
    | some error => exact second.trans first
    | none =>
      refine ⟨trivial, fun answer => ?_⟩
      have third : tableOf k [] (h₂ ++ [⟨.writeTextFile .gidMap, answer⟩]) = tableOf k [] h₂ := by
        rw [tableOf_concat, retable_fixed (c := .writeTextFile _) trivial]
      cases answer <;> exact third.trans (second.trans first)

theorem awaitExec_ends {pid : Pid} {status : NamespaceStatus} (table : tableOf k [] h = [⟨k, ⟨.exec, .reading⟩, false⟩]) :
    Ends k (fun _ h' => tableOf k [] h' = []) h (awaitExec pid status) := by
  refine .bind (readExecStatus_ends (k := k) (by simp [Sighted, System.Holds, table])) fun result h' closed => ?_
  have empty : tableOf k [] h' = [] := by simp [closed, table, without]
  cases result with
  | some error => exact abandon_ends empty
  | none => exact empty

theorem awaitStatus_ends {pid : Pid}
    (table : tableOf k [] h = [⟨k, ⟨.status, .reading⟩, false⟩, ⟨k, ⟨.exec, .reading⟩, false⟩]) :
    Ends k (fun _ h' => tableOf k [] h' = []) h (awaitStatus pid) := by
  refine .bind (readStatus_ends (k := k) _ _ (by simp [Sighted, System.Holds, table])) fun received h' same => ?_
  simp only
  split
  · refine closeAll_ends (k := k) fun h' closed => attempt_ends (k := k) trivial trivial fun h'' _ reaped => ?_
    exact reaped.trans (by simp [closed, same, table, without])
  · exact close_ends (k := k) fun h' closed => awaitExec_ends (by simp [closed, same, table, without])

theorem guide_ends {pid : Pid} (table : tableOf k [] h = inherited k) :
    Ends k (fun _ h' => tableOf k [] h' = []) h (guide pid) := by
  apply closeAll_ends (k := k)
  intro h₁ closed
  have left : tableOf k [] h₁ = [⟨k, ⟨.status, .reading⟩, false⟩, ⟨k, ⟨.exec, .reading⟩, false⟩,
      ⟨k, ⟨.continue, .writing⟩, false⟩] := by simp [closed, table, without, inherited]
  have withdrawn : ∀ (h' : List Done) (error : Int32), tableOf k [] h' = tableOf k [] h₁ →
      Ends k (fun _ h' => tableOf k [] h' = []) h' (Code.closeAll [⟨.continue, .writing⟩, ⟨.status, .reading⟩, ⟨.exec, .reading⟩] >>=
        fun _ => abandon pid error) := fun h' error same =>
    closeAll_ends (k := k) fun h'' closed => abandon_ends (by simp [closed, same, left, without])
  refine .bind (configureUserNamespace_ends (k := k)) fun failure h₂ same => ?_
  cases failure with
  | some error => exact withdrawn h₂ error same
  | none =>
    refine attempt_ends (k := k) trivial trivial fun h₃ failure written => ?_
    cases failure with
    | some error => exact withdrawn h₃ error (written.trans same)
    | none =>
      refine close_ends (k := k) fun h₄ closed => awaitStatus_ends ?_
      simp [closed, written, same, left, without]

theorem namespaceStartContainer_ends (k : Nat) (config : NamespaceConfig) :
    Ends k (fun _ h => tableOf k [] h = []) [] (namespaceStartContainer config) := by
  have retreat : ∀ (h : List Done) (fds : List End) (error : Int32), without k fds (tableOf k [] h) = [] →
      Ends k (fun _ h => tableOf k [] h = []) h
        (Code.closeAll fds >>= fun _ => pure (.error error) : Code (Except Int32 NamespaceStartResult)) :=
    fun h fds error empty => closeAll_ends (k := k) fun h' closed => closed.trans empty
  unfold namespaceStartContainer
  split
  · rfl
  refine attempt_rule trivial (fun error => rfl) fun _ => ?_
  refine attempt_rule trivial (fun error => retreat _ _ _ ?_) fun _ => ?_
  · simp [tableOf, System.retable, without, bothEnds]
  refine attempt_rule trivial (fun error => retreat _ _ _ ?_) fun _ => ?_
  · simp [tableOf, System.retable, without, bothEnds]
  refine attempt_rule trivial (fun error => retreat _ _ _ ?_) fun _ => ?_
  · simp [tableOf, System.retable, without, bothEnds]
  refine ⟨trivial, fun answer => ?_⟩
  cases answer with
  | error error =>
    apply retreat _ _ _
    simp [tableOf, System.retable, without, bothEnds]
  | ok pid =>
    apply guide_ends
    rw [tableOf_concat, retable_fixed (c := .clone) trivial]
    exact tableOf_opening k

end Closing

/-! ## The tables of all processes -/

/-- The table of a child that has made these calls. -/
def childTable (k : Nat) (h : List Done) : List Held := tableOf k (inherited k) h

structure System.Wired (s : System) : Prop where
  sound : s.Sound
  closing : ∀ k start, s.starts k = some start →
    Ends k (fun _ h => tableOf k [] h = []) (history s.trace k .parent) start.code
  down : s.up = false → s.fds = []
  /-- The manager has the ends open that the start under way has opened and not closed. -/
  parent : s.up = true → s.fds = tableOf (s.count - 1) [] (history s.trace (s.count - 1) .parent)
  running : ∀ k start code fds, s.starts k = some start → start.child = some ⟨.running code, fds⟩ →
    fds = childTable k (history s.trace k .child)
  executed : ∀ k start fds, s.starts k = some start → start.child = some ⟨.executed, fds⟩ →
    fds = (childTable k (history s.trace k .child)).filter fun held => ¬ held.closeOnExec
  dead : ∀ k start fds, s.starts k = some start → start.child = some ⟨.dead, fds⟩ → fds = []

namespace System.Wired

variable {s : System}

theorem initial : System.initial.Wired where
  sound := .initial
  closing _ _ here := nomatch here
  down := nofun
  parent _ := rfl
  running _ _ _ _ here := nomatch here
  executed _ _ _ here := nomatch here
  dead _ _ _ here := nomatch here

/-- Between two starts the manager has no end of a handshake pipe open. -/
theorem idle_table (wired : s.Wired) (up : s.up = true) (idle : s.idle = true) : s.fds = [] := by
  rw [wired.parent up]
  unfold System.idle at idle
  split at idle
  · cases idle
  · rename_i here
    exact wired.closing _ _ here
  · rename_i missing
    rw [wired.sound.history_missing missing]
    rfl

theorem begun (wired : s.Wired) (up : s.up = true) (idle : s.idle = true) (config : NamespaceConfig) :
    (s.begun config).Wired := by
  have nothing := wired.sound.history_missing wired.sound.missing_new
  refine ⟨wired.sound.begun config, fun j other there => ?_, fun down => ?_, fun _ => ?_, fun j other code fds there child => ?_,
    fun j other fds there child => ?_, fun j other fds there child => ?_⟩
  · rcases Sound.lookup_update there with ⟨rfl, rfl⟩ | ⟨-, there⟩
    · simp only [System.begun, nothing]
      exact namespaceStartContainer_ends s.count config
    · exact wired.closing j other there
  · exact absurd (up.symm.trans down) (by decide)
  · simp only [System.begun, Nat.add_sub_cancel, nothing]
    exact wired.idle_table up idle
  · rcases Sound.lookup_update there with ⟨rfl, rfl⟩ | ⟨-, there⟩
    · cases child
    · exact wired.running j other code fds there child
  · rcases Sound.lookup_update there with ⟨rfl, rfl⟩ | ⟨-, there⟩
    · cases child
    · exact wired.executed j other fds there child
  · rcases Sound.lookup_update there with ⟨rfl, rfl⟩ | ⟨-, there⟩
    · cases child
    · exact wired.dead j other fds there child

theorem parentMade (wired : s.Wired) {start : Start} {c : Call} {answer : c.Answer}
    {next : c.Answer → Code (Except Int32 NamespaceStartResult)} (up : s.up = true)
    (here : s.starts (s.count - 1) = some start) (code : start.code = .call c next)
    (sound : (s.parentMade (s.count - 1) ⟨c, answer⟩ (next answer)).Sound) :
    (s.parentMade (s.count - 1) ⟨c, answer⟩ (next answer)).Wired := by
  have obeys := wired.closing _ start here
  rw [code] at obeys
  have starts := System.parentMade_starts here ⟨c, answer⟩ (next answer)
  have others : ∀ j, history (s.trace ++ [⟨s.count - 1, .parent, ⟨c, answer⟩⟩]) j .child = history s.trace j .child :=
    fun j => history_other (by simp)
  refine ⟨sound, fun j other there => ?_, fun down => ?_, fun _ => ?_, fun j other held fds there child => ?_,
    fun j other fds there child => ?_, fun j other fds there child => ?_⟩
  · rcases Sound.lookup_update (starts ▸ there) with ⟨rfl, rfl⟩ | ⟨different, there⟩
    · rw [System.parentMade, System.record, history_self]
      exact obeys.2 answer
    · have apart : history (s.trace ++ [⟨s.count - 1, .parent, ⟨c, answer⟩⟩]) j .parent = history s.trace j .parent :=
        history_other (by simp [Ne.symm different])
      exact apart.symm ▸ wired.closing j other there
  · exact absurd (up.symm.trans down) (by decide)
  · have after : (s.parentMade (s.count - 1) ⟨c, answer⟩ (next answer)).fds = System.retable (s.count - 1) ⟨c, answer⟩ s.fds := rfl
    rw [after, wired.parent up, ← tableOf_concat]
    simp only [System.parentMade, System.record, System.change, history_self]
  · refine (others j).symm ▸ ?_
    rcases Sound.lookup_update (starts ▸ there) with ⟨rfl, rfl⟩ | ⟨-, there⟩
    · rcases System.rechild_cases child with before | ⟨-, gone⟩ | ⟨cloned, new⟩
      · exact wired.running _ start held fds here before
      · cases gone
      · cases new
        obtain rfl : c = .clone := cloned
        obtain ⟨opened, unborn⟩ := wired.sound.clone_first here code
        rw [wired.sound.unborn _ start here unborn, wired.parent up, opened]
        exact tableOf_opening _
    · exact wired.running j other held fds there child
  · refine (others j).symm ▸ ?_
    rcases Sound.lookup_update (starts ▸ there) with ⟨rfl, rfl⟩ | ⟨-, there⟩
    · rcases System.rechild_cases child with before | ⟨-, gone⟩ | ⟨-, new⟩
      · exact wired.executed _ start fds here before
      · cases gone
      · cases new
    · exact wired.executed j other fds there child
  · rcases Sound.lookup_update (starts ▸ there) with ⟨rfl, rfl⟩ | ⟨-, there⟩
    · rcases System.rechild_cases child with before | ⟨-, gone⟩ | ⟨-, new⟩
      · exact wired.dead _ start fds here before
      · cases gone
        rfl
      · cases new
    · exact wired.dead j other fds there child

theorem childMade (wired : s.Wired) {k : Nat} {start : Start} {c : Call} {answer : c.Answer} {fds : List Held}
    {next : c.Answer → Code Nat} (here : s.starts k = some start) (child : start.child = some ⟨.running (.call c next), fds⟩)
    (sound : (s.childMade k ⟨c, answer⟩ (next answer)).Sound) : (s.childMade k ⟨c, answer⟩ (next answer)).Wired := by
  have starts := System.childMade_starts here child ⟨c, answer⟩ (next answer)
  have others : ∀ j, history (s.trace ++ [⟨k, .child, ⟨c, answer⟩⟩]) j .parent = history s.trace j .parent :=
    fun j => history_other (by simp)
  have apart : ∀ j, j ≠ k → history (s.trace ++ [⟨k, .child, ⟨c, answer⟩⟩]) j .child = history s.trace j .child :=
    fun j other => history_other (by simp [Ne.symm other])
  have table : System.retable k ⟨c, answer⟩ fds = childTable k (history (s.trace ++ [⟨k, .child, ⟨c, answer⟩⟩]) k .child) := by
    rw [history_self, childTable, tableOf_concat, wired.running k start _ fds here child]
    rfl
  have stages := System.restage_cases (next answer) ⟨c, answer⟩ (System.retable k ⟨c, answer⟩ fds)
  refine ⟨sound, fun j other there => ?_, wired.down, fun up => ?_, fun j other code held there now => ?_,
    fun j other held there now => ?_, fun j other held there now => ?_⟩
  · refine (others j).symm ▸ ?_
    rcases Sound.lookup_update (starts ▸ there) with ⟨rfl, rfl⟩ | ⟨-, there⟩
    · exact wired.closing j start here
    · exact wired.closing j other there
  · exact (others _).symm ▸ wired.parent up
  · rcases Sound.lookup_update (starts ▸ there) with ⟨rfl, rfl⟩ | ⟨different, there⟩
    · rcases stages with same | ⟨-, same⟩
      · cases same.symm.trans (Option.some.inj now)
        exact table
      · cases same.symm.trans (Option.some.inj now)
    · exact (apart j different).symm ▸ wired.running j other code held there now
  · rcases Sound.lookup_update (starts ▸ there) with ⟨rfl, rfl⟩ | ⟨different, there⟩
    · rcases stages with same | ⟨-, same⟩
      · cases same.symm.trans (Option.some.inj now)
      · cases same.symm.trans (Option.some.inj now)
        exact table ▸ rfl
    · exact (apart j different).symm ▸ wired.executed j other held there now
  · rcases Sound.lookup_update (starts ▸ there) with ⟨rfl, rfl⟩ | ⟨different, there⟩
    · rcases stages with same | ⟨-, same⟩ <;> cases same.symm.trans (Option.some.inj now)
    · exact wired.dead j other held there now

theorem childGone (wired : s.Wired) (k : Nat) : (s.childGone k).Wired := by
  cases here : s.starts k with
  | none => rwa [System.childGone_of_none here]
  | some start =>
    have starts := System.childGone_starts here
    refine ⟨wired.sound.childGone k, fun j other there => ?_, wired.down, wired.parent, fun j other code held there now => ?_,
      fun j other held there now => ?_, fun j other held there now => ?_⟩
    · rcases Sound.lookup_update (starts ▸ there) with ⟨rfl, rfl⟩ | ⟨-, there⟩
      · exact wired.closing j start here
      · exact wired.closing j other there
    · rcases Sound.lookup_update (starts ▸ there) with ⟨rfl, rfl⟩ | ⟨-, there⟩
      · obtain ⟨-, -, gone⟩ := Option.map_eq_some_iff.mp now
        cases gone
      · exact wired.running j other code held there now
    · rcases Sound.lookup_update (starts ▸ there) with ⟨rfl, rfl⟩ | ⟨-, there⟩
      · obtain ⟨-, -, gone⟩ := Option.map_eq_some_iff.mp now
        cases gone
      · exact wired.executed j other held there now
    · rcases Sound.lookup_update (starts ▸ there) with ⟨rfl, rfl⟩ | ⟨-, there⟩
      · obtain ⟨-, -, gone⟩ := Option.map_eq_some_iff.mp now
        cases gone
        rfl
      · exact wired.dead j other held there now

theorem step (wired : s.Wired) (turn : Turn) : (s.step turn).Wired := by
  have sound := wired.sound.step turn
  have taken := s.step_cases turn
  generalize s.step turn = after at taken sound
  cases taken with
  | nothing => exact wired
  | start config up idle => exact wired.begun up idle config
  | parent fate start c next answer up here code answered => exact wired.parentMade up here code sound
  | child k fate start c next fds answer here child answered => exact wired.childMade here child sound
  | exits k => exact wired.childGone k
  | childDies k => exact wired.childGone k
  | parentDies => exact ⟨sound, wired.closing, fun _ => rfl, nofun, wired.running, wired.executed, wired.dead⟩

theorem run (wired : s.Wired) (turns : List Turn) : (s.run turns).Wired := by
  induction turns generalizing s with
  | nil => exact wired
  | cons first rest ih => exact ih (wired.step first)

end System.Wired

/-! ## The ends a child keeps -/

/-- What has not been closed is still open. -/
theorem mem_childTable {k : Nat} {h : List Done} {held : Held}
    (kept : ∀ c ∈ calls h, (∀ pipe, c ≠ .pipe pipe) ∧ ∀ fd, c ≠ .closeOnExec fd) :
    held ∈ childTable k h ↔ held ∈ inherited k ∧ Call.close held.fd ∉ calls h := by
  induction h using List.reverseRecOn with
  | nil => simp [childTable]
  | append_singleton h d ih =>
    have before := ih fun c member => kept c (by simp [member])
    have last := kept d.call (by simp)
    rw [childTable, tableOf_concat, calls_append, List.mem_append, not_or]
    obtain ⟨c, answer⟩ := d
    have own : ∀ held ∈ inherited k, held.start = k := by simp [inherited]
    cases c with
    | pipe pipe => exact absurd rfl (last.1 pipe)
    | closeOnExec fd => exact absurd rfl (last.2 fd)
    | close fd =>
      simp only [System.retable, List.mem_filter, decide_eq_true_eq, not_and]
      rw [← childTable, before]
      constructor
      · rintro ⟨⟨listed, opened⟩, other⟩
        exact ⟨listed, opened, fun same => other (own held listed) (Call.close.inj (List.mem_singleton.mp same))⟩
      · rintro ⟨listed, opened, other⟩
        exact ⟨⟨listed, opened⟩, fun _ same => other (by simp [same])⟩
    | _ =>
      rw [retable_fixed (by trivial)]
      exact before.trans (by simp)

namespace System.Wired

variable {s : System}

theorem child_calls (wired : s.Wired) {k : Nat} {c : Call} (made : c ∈ calls (history s.trace k .child)) :
    ∃ config h, childGuard config h c := by
  obtain ⟨d, member, rfl⟩ := List.mem_map.mp made
  obtain ⟨before, after, parts⟩ := List.append_of_mem (mem_history.mp member)
  obtain ⟨start, -, kept, -⟩ := wired.sound.guarded _ _ _ parts
  exact ⟨start.config, _, kept⟩

theorem mem_table (wired : s.Wired) {k : Nat} {held : Held} :
    held ∈ childTable k (history s.trace k .child) ↔
      held ∈ inherited k ∧ Call.close held.fd ∉ calls (history s.trace k .child) := by
  apply mem_childTable
  intro c made
  obtain ⟨config, h, kept⟩ := wired.child_calls made
  constructor
  · rintro pipe rfl
    exact kept
  · rintro fd rfl
    exact kept

/-- The child never closes the manager's ends. -/
theorem keeps (wired : s.Wired) {k : Nat} {held : Held}
    (listed : held ∈ [(⟨k, ⟨.status, .reading⟩, false⟩ : Held), ⟨k, ⟨.exec, .reading⟩, false⟩, ⟨k, ⟨.continue, .writing⟩, false⟩]) :
    held ∈ childTable k (history s.trace k .child) := by
  refine wired.mem_table.mpr ⟨?_, fun closed => ?_⟩
  · simp only [List.mem_cons, List.not_mem_nil, or_false] at listed
    rcases listed with rfl | rfl | rfl <;> simp [inherited]
  · obtain ⟨config, h, kept⟩ := wired.child_calls closed
    simp only [List.mem_cons, List.not_mem_nil, or_false] at listed
    rcases listed with rfl | rfl | rfl <;> rcases kept with same | ⟨same, -⟩ | ⟨same, -⟩ <;> cases same

/-- So the program it executes has them open. -/
theorem program_holds (wired : s.Wired) {k : Nat} {start : Start} {fds : List Held} (here : s.starts k = some start)
    (child : start.child = some ⟨.executed, fds⟩) :
    [(⟨k, ⟨.status, .reading⟩, false⟩ : Held), ⟨k, ⟨.exec, .reading⟩, false⟩, ⟨k, ⟨.continue, .writing⟩, false⟩] ⊆ fds := by
  intro held listed
  rw [wired.executed k start fds here child]
  refine List.mem_filter.mpr ⟨wired.keeps listed, ?_⟩
  simp only [List.mem_cons, List.not_mem_nil, or_false] at listed
  rcases listed with rfl | rfl | rfl <;> rfl

end System.Wired

/-! ## The claim of ownership -/

/-- A child has its own ends open and no others; its wait for the token ends when the manager cannot send it any more;
and a program has no end of a handshake pipe open. -/
structure System.EndsOwned (s : System) : Prop where
  own : ∀ k start code fds, s.starts k = some start → start.child = some ⟨.running code, fds⟩ →
    ∀ held ∈ fds, held.fd ∈ [(⟨.status, .writing⟩ : End), ⟨.continue, .reading⟩, ⟨.exec, .writing⟩]
  released : ∀ k start next fds, s.starts k = some start →
    start.child = some ⟨.running (.call (.read .continue 1) next), fds⟩ → NoToken (history s.trace k .parent) →
    s.up = false ∨ Call.close ⟨.continue, .writing⟩ ∈ calls (history s.trace k .parent) →
    ∀ fate : Fate, fate.fail = none → s.reply k .child fate (.read .continue 1) = some (.ok [])
  program : ∀ k start fds, s.starts k = some start → start.child = some ⟨.executed, fds⟩ → fds = []

theorem System.Wired.not_owned {s : System} (wired : s.Wired) {k : Nat} (alive : s.childAlive k = true) : ¬ s.EndsOwned := by
  intro owned
  unfold System.childAlive at alive
  split at alive
  · rename_i code fds there
    obtain ⟨start, here, child⟩ := Option.bind_eq_some_iff.mp there
    have kept : (⟨k, ⟨.status, .reading⟩, false⟩ : Held) ∈ fds := by
      rw [wired.running k start code fds here child]
      exact wired.keeps (by simp)
    have absurd := owned.own k start code fds here child _ kept
    simp at absurd
  · rename_i fds there
    obtain ⟨start, here, child⟩ := Option.bind_eq_some_iff.mp there
    have kept := wired.program_holds here child List.mem_cons_self
    rw [owned.program k start fds here child] at kept
    cases kept
  · cases alive
  · cases alive

/-- A turn brings a child into being by `clone` only, and then it runs. -/
theorem System.first_child {s : System} (childless : ∀ k, s.child k = none) {turn : Turn} {k : Nat}
    {child : Child} (born : (s.step turn).child k = some child) :
    (s.step turn).childAlive k = true := by
  have none_of : ∀ {j : Nat} {start : Start}, s.starts j = some start → start.child = none := by
    intro j start here
    have nobody := childless j
    simpa [System.child, here] using nobody
  obtain ⟨start, here, there⟩ := Option.bind_eq_some_iff.mp born
  have taken := s.step_cases turn
  generalize s.step turn = after at taken here born
  cases taken with
  | nothing => cases (none_of here).symm.trans there
  | start config up idle =>
    rcases Sound.lookup_update here with ⟨rfl, rfl⟩ | ⟨-, here⟩
    · cases there
    · cases (none_of here).symm.trans there
  | parent fate before c next answer up known code answered =>
    rw [System.parentMade_starts known] at here
    rcases Sound.lookup_update here with ⟨rfl, rfl⟩ | ⟨-, here⟩
    · rcases System.rechild_cases there with same | ⟨some, -⟩ | ⟨-, new⟩
      · cases (none_of known).symm.trans same
      · exact absurd (none_of known) some.1
      · rw [System.childAlive, born, new]
    · cases (none_of here).symm.trans there
  | child j fate before c next fds answer known running answered => cases (none_of known).symm.trans running
  | exits j fate before value fds known running => cases (none_of known).symm.trans running
  | childDies j =>
    cases known : s.starts j with
    | none =>
      rw [System.childGone_of_none known] at here
      cases (none_of here).symm.trans there
    | some before =>
      rw [System.childGone_starts known] at here
      rcases Sound.lookup_update here with ⟨rfl, rfl⟩ | ⟨-, here⟩
      · simp [none_of known] at there
      · cases (none_of here).symm.trans there
  | parentDies => cases (none_of here).symm.trans there

/-- No child is forgotten. -/
theorem System.Sound.childless_before {s : System} (sound : s.Sound) {turn : Turn} {k : Nat} (childless : (s.step turn).child k = none) :
    s.child k = none := by
  cases here : s.starts k with
  | none => simp [System.child, here]
  | some start =>
    obtain ⟨after, there, stepped⟩ := sound.step_start here turn
    rw [System.child, there] at childless
    rw [System.child, here]
    cases stepped with
    | same => exact childless
    | parent fate c next answer made code => exact System.rechild_none childless
    | child fate c next answer fds made running => cases childless
    | gone => exact Option.map_eq_none_iff.mp childless

theorem System.Sound.childless_run {s : System} (sound : s.Sound) {turns : List Turn} {k : Nat} (childless : (s.run turns).child k = none) :
    s.child k = none := by
  induction turns generalizing s with
  | nil => exact childless
  | cons first rest ih => exact sound.childless_before (ih (sound.step first) childless)

/-- The ends are owned throughout a run exactly when it clones no child. -/
theorem ends_owned_iff (turns : List Turn) :
    (∀ n, (System.initial.run (turns.take n)).EndsOwned) ↔ ∀ k, (System.initial.run turns).child k = none := by
  constructor
  · intro owned
    induction turns using List.reverseRecOn with
    | nil => exact fun _ => rfl
    | append_singleton before turn ih =>
      have childless := ih fun n => by
        have early := owned (min n before.length)
        rwa [List.take_append_of_le_length (Nat.min_le_right _ _), ← List.take_eq_take_min] at early
      intro k
      have last := owned (before ++ [turn]).length
      rw [List.take_length] at last
      have stepped : System.initial.run (before ++ [turn]) = (System.initial.run before).step turn := List.foldl_append
      rw [stepped] at last ⊢
      cases born : ((System.initial.run before).step turn).child k with
      | none => rfl
      | some child =>
        have wired := (System.Wired.initial.run before).step turn
        exact absurd last (wired.not_owned (System.first_child childless born))
  · intro childless n
    have whole : System.initial.run turns = (System.initial.run (turns.take n)).run (turns.drop n) := by
      rw [System.run, System.run, System.run, ← List.foldl_append, List.take_append_drop]
    have none_of : ∀ {k : Nat} {start : Start}, (System.initial.run (turns.take n)).starts k = some start → start.child = none := by
      intro k start here
      have nobody := (System.Sound.initial.run (turns.take n)).childless_run (whole ▸ childless k)
      simpa [System.child, here] using nobody
    refine ⟨fun k start code fds here child => ?_, fun k start next fds here child => ?_, fun k start fds here child => ?_⟩
    all_goals cases (none_of here).symm.trans child

/-- The manager dies right after `clone`: the child has all six ends open, and waits for a token that nobody
but itself could write. -/
theorem orphan_keeps_waiting :
    let config : NamespaceConfig := ⟨some (lit "web"), lit "/srv/web", lit "sleep 9", .unlimited⟩
    let calm : Fate := ⟨none, 1, 7⟩
    let turns := [.start config, .parent calm, .parent calm, .parent calm, .parent calm, .parent calm, .parentDies]
    let s := System.initial.run turns
    s.childFds 0 = inherited 0 ∧ s.up = false ∧ s.reply 0 .child calm (.read .continue 1) = none ∧ ¬ s.EndsOwned := by
  intro config calm turns s
  have wired : s.Wired := System.Wired.initial.run turns
  exact ⟨by decide +kernel, by decide +kernel, by decide +kernel, wired.not_owned (k := 0) (by decide +kernel)⟩

end ContainerRuntime.Namespace
