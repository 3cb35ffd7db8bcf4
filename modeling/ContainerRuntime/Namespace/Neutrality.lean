import Mathlib.Data.Finset.Basic
import ContainerRuntime.Namespace.Protocol

/-! The manager's descriptors and its child over one `namespace_start_container`.

`Plays` runs the manager's code against a table of descriptor numbers: `pipe`
stores two numbers in its array, `close` takes the number that the array holds
at that time, and a `close` of a number that is not open is remembered. The
proof is about a ledger of pipe ends, which says of every call whether it is in
order; the table follows the ledger.
-/

set_option autoImplicit false

namespace ContainerRuntime.Namespace

open CString Coroutine

/-! ## Descriptor numbers -/

structure Parent where
  openFds : Finset Nat
  /-- `status_pipe`, `exec_pipe` and `continue_pipe`. -/
  arrays : End → Nat
  /-- Some `close` was of a descriptor that was not open. -/
  misclosed : Bool
  /-- The child that was cloned and not waited for. -/
  child : Option Pid

namespace Parent

def opens (p : Parent) (fd : Nat) : Parent := { p with openFds := insert fd p.openFds }

/-- A descriptor is gone even if `close` reports an error. -/
def closes (p : Parent) (fd : Nat) : Parent :=
  { p with openFds := p.openFds.erase fd, misclosed := p.misclosed || decide (fd ∉ p.openFds) }

/-- `pipe(array)`. -/
def piped (p : Parent) (pipe : Pipe) (reading writing : Nat) : Parent :=
  { (p.opens reading).opens writing with
    arrays := Function.update (Function.update p.arrays ⟨pipe, .reading⟩ reading) ⟨pipe, .writing⟩ writing }

/-- `write_text_file`, given the stream's descriptor and the errors of `fputs` and `fclose`. -/
def writeTextFile (p : Parent) (fopen : Except Int32 Nat) (fputs fclose : Option Int32) : Except Int32 Unit × Parent :=
  match fopen with
  | .error error => (.error error, p)
  | .ok fd =>
    let opened := p.opens fd
    match fputs with
    | some error => (.error error, opened.closes fd)
    | none =>
      match fclose with
      | some error => (.error error, opened.closes fd)
      | none => (.ok (), opened.closes fd)

end Parent

/-- The calls that leave the descriptors and the child alone. -/
def Call.Neutral : Call → Prop
  | .pipe _ | .close _ | .writeTextFile _ | .clone | .waitpid _ => False
  | _ => True

/-- What a call of the manager can do, whatever its outcome; `waitpid` is taken to succeed. -/
inductive Serves : Parent → Done → Parent → Prop where
  | pipe (p : Parent) (pipe : Pipe) (reading writing : Nat) (newReading : reading ∉ p.openFds) (newWriting : writing ∉ p.openFds)
      (two : reading ≠ writing) : Serves p ⟨.pipe pipe, .ok ()⟩ (p.piped pipe reading writing)
  | noPipe (p : Parent) (pipe : Pipe) (error : Int32) : Serves p ⟨.pipe pipe, .error error⟩ p
  | close (p : Parent) (fd : End) (answer : (Call.close fd).Answer) : Serves p ⟨.close fd, answer⟩ (p.closes (p.arrays fd))
  | writeTextFile (p : Parent) (file : ProcFile) (fopen : Except Int32 Nat) (fputs fclose : Option Int32)
      (new : ∀ fd, fopen = .ok fd → fd ∉ p.openFds) :
      Serves p ⟨.writeTextFile file, (p.writeTextFile fopen fputs fclose).1⟩ (p.writeTextFile fopen fputs fclose).2
  | clone (p : Parent) (pid : Pid) : Serves p ⟨.clone, .ok pid⟩ { p with child := some pid }
  | noClone (p : Parent) (error : Int32) : Serves p ⟨.clone, .error error⟩ p
  | waitpid (p : Parent) (pid : Pid) : Serves p ⟨.waitpid pid, .ok ()⟩ { p with child := if p.child = some pid then none else p.child }
  | neutral (p : Parent) (c : Call) (answer : c.Answer) (neutral : c.Neutral) : Serves p ⟨c, answer⟩ p

/-- The manager runs a code to its end. A `read` that is interrupted is made again. -/
inductive Plays {α : Type} : Parent → Code α → α → Parent → Prop where
  | ret (p : Parent) (value : α) : Plays p (.ret value) value p
  | call {p next last : Parent} {c : Call} {rest : c.Answer → Code α} {answer : c.Answer} {value : α} :
      Serves p ⟨c, answer⟩ next → Plays next (rest answer) value last → Plays p (.call c rest) value last
  | interrupted {p last : Parent} {pipe : Pipe} {count : Nat} {rest : (Call.read pipe count).Answer → Code α} {value : α} :
      Plays p (.call (.read pipe count) rest) value last → Plays p (.call (.read pipe count) rest) value last

/-! ## The ledger -/

structure Ledger where
  ends : List End
  child : Option Pid
  deriving DecidableEq

def Ledger.enter (l : Ledger) : Done → Ledger
  | ⟨.pipe pipe, .ok _⟩ => { l with ends := l.ends ++ bothEnds pipe }
  | ⟨.close fd, _⟩ => { l with ends := l.ends.erase fd }
  | ⟨.clone, .ok pid⟩ => { l with child := some pid }
  | ⟨.waitpid _, _⟩ => { l with child := none }
  | _ => l

/-- The pipe ends that are open after some calls, and the child that is not waited for. -/
def ledger (h : List Done) : Ledger := h.foldl Ledger.enter ⟨[], none⟩

@[simp] theorem ledger_concat (h : List Done) (d : Done) : ledger (h ++ [d]) = (ledger h).enter d := by
  simp [ledger]

/-- The call is in order: only an open end is closed, only a new pipe is opened, and there is one child. -/
def InOrder (h : List Done) : Call → Prop
  | .close fd => fd ∈ (ledger h).ends
  | .pipe pipe => ∀ fd ∈ (ledger h).ends, fd.pipe ≠ pipe
  | .clone => (ledger h).child = none
  | .waitpid pid => (ledger h).child = some pid
  | _ => True

/-- Everything is closed, and a child is left only where it is returned. -/
def Cleared (value : Except Int32 NamespaceStartResult) (h : List Done) : Prop :=
  ledger h = ⟨[], value.toOption.map (·.hostPid)⟩

abbrev Tidy {α : Type} (post : α → List Done → Prop) : List Done → Code α → Prop := Code.Obeys InOrder post

/-- The ends can be closed one after the other. -/
def Closable : List End → List End → Prop
  | [], _ => True
  | fd :: rest, ends => fd ∈ ends ∧ Closable rest (ends.erase fd)

instance decidableClosable : (fds ends : List End) → Decidable (Closable fds ends)
  | [], _ => inferInstanceAs (Decidable True)
  | fd :: rest, ends =>
    have := decidableClosable rest (ends.erase fd)
    inferInstanceAs (Decidable (_ ∧ _))

section

variable {α : Type} {post : α → List Done → Prop} {h : List Done} {ends : List End} {child : Option Pid}

theorem closeAll_tidy {fds : List End} {f : Unit → Code α} (known : ledger h = ⟨ends, child⟩) (closable : Closable fds ends)
    (next : ∀ h', ledger h' = ⟨fds.foldl List.erase ends, child⟩ → Tidy post h' (f ())) :
    Tidy post h (Code.closeAll fds >>= f) := by
  induction fds generalizing h ends with
  | nil => exact next h known
  | cons fd rest ih =>
    have later : ∀ answer, Tidy post (h ++ [⟨.close fd, answer⟩]) (Code.closeAll rest >>= f) := by
      intro answer
      refine ih ?_ closable.2 next
      rw [ledger_concat, known]
      rfl
    have here : fd ∈ (ledger h).ends := by
      rw [known]
      exact closable.1
    refine ⟨here, fun answer => ?_⟩
    cases answer with
    | error error => exact later (.error error)
    | ok value => exact later (.ok value)

theorem close_tidy {fd : End} {f : Unit → Code α} (known : ledger h = ⟨ends, child⟩) (inside : fd ∈ ends)
    (next : ∀ h', ledger h' = ⟨ends.erase fd, child⟩ → Tidy post h' (f ())) :
    Tidy post h (Code.close fd >>= f) := by
  have here : fd ∈ (ledger h).ends := by rwa [known]
  refine close_rule here fun answer => next _ ?_
  rw [ledger_concat, known]
  rfl

/-- The ledger has no entry for the call. -/
def Call.Unentered : Call → Prop
  | .pipe _ | .close _ | .clone | .waitpid _ => False
  | _ => True

theorem enter_unentered {c : Call} (unentered : c.Unentered) (answer : c.Answer) (l : Ledger) : l.enter ⟨c, answer⟩ = l := by
  cases c with
  | pipe => exact unentered.elim
  | close => exact unentered.elim
  | clone => exact unentered.elim
  | waitpid => exact unentered.elim
  | _ => rfl

theorem inOrder_unentered {c : Call} (unentered : c.Unentered) : InOrder h c := by
  cases c with
  | pipe => exact unentered.elim
  | close => exact unentered.elim
  | clone => exact unentered.elim
  | waitpid => exact unentered.elim
  | _ => trivial

theorem attempt_tidy {c : Call} {f : Option Int32 → Code α} (unentered : c.Unentered)
    (next : ∀ h' failure, ledger h' = ledger h → Tidy post h' (f failure)) : Tidy post h (Code.attempt c >>= f) := by
  refine ignored_rule (inOrder_unentered unentered) fun answer failure => next _ failure ?_
  rw [ledger_concat, enter_unentered unentered]

theorem readStatus_tidy (rounds : Nat) (received : List UInt8) :
    Tidy (fun _ h' => ledger h' = ledger h) h (readStatus rounds received) := by
  -- Every round reads once and leaves the ledger alone.
  induction rounds generalizing h received with
  | zero => rfl
  | succ rounds ih =>
    unfold readStatus
    split
    · rfl
    · refine ⟨trivial, fun answer => ?_⟩
      have same : ledger (h ++ [⟨.read .status (NamespaceStatus.size - received.length), answer⟩]) = ledger h := by
        rw [ledger_concat, enter_unentered (c := .read _ _) trivial]
      rcases answer with error | (_ | ⟨first, more⟩)
      · exact same
      · exact same
      · exact (ih (received ++ first :: more)).post fun _ _ after => after.trans same

/-- The child is waited for, and the start fails. -/
theorem waited_tidy {pid : Pid} {f : Option Int32 → Code (Except Int32 NamespaceStartResult)} {error : Int32}
    (known : ledger h = ⟨[], some pid⟩) (returns : ∀ failure, f failure = pure (.error error)) :
    Tidy Cleared h (Code.attempt (.waitpid pid) >>= f) := by
  have here : (ledger h).child = some pid := by rw [known]
  apply ignored_rule here
  intro answer failure
  rw [returns]
  show ledger _ = _
  rw [ledger_concat, known]
  rfl

theorem abandon_tidy {pid : Pid} {error : Int32} (known : ledger h = ⟨[], some pid⟩) : Tidy Cleared h (abandon pid error) := by
  refine attempt_tidy trivial fun h' _ same => ?_
  exact waited_tidy (same.trans known) fun _ => rfl

theorem readExecStatus_tidy (known : ledger h = ⟨[⟨.exec, .reading⟩], child⟩) :
    Tidy (fun _ h' => ledger h' = ⟨[], child⟩) h readExecStatus := by
  refine ⟨trivial, fun answer => ?_⟩
  have same : ledger (h ++ [⟨.read .exec 4, answer⟩]) = ⟨[⟨.exec, .reading⟩], child⟩ := by
    rw [ledger_concat, enter_unentered (c := .read _ _) trivial, known]
  rcases answer with error | bytes
  · exact close_tidy same (by decide) fun h' closed => closed
  · apply close_tidy same (by decide)
    intro h' closed
    split
    · exact closed
    · split <;> exact closed

theorem awaitExec_tidy {pid : Pid} {status : NamespaceStatus} (known : ledger h = ⟨[⟨.exec, .reading⟩], some pid⟩) :
    Tidy Cleared h (awaitExec pid status) := by
  refine .bind (readExecStatus_tidy known) fun result h' closed => ?_
  cases result with
  | some error => exact abandon_tidy closed
  | none => exact closed

theorem awaitStatus_tidy {pid : Pid} (known : ledger h = ⟨[⟨.status, .reading⟩, ⟨.exec, .reading⟩], some pid⟩) :
    Tidy Cleared h (awaitStatus pid) := by
  refine .bind (readStatus_tidy _ _) fun received h' same => ?_
  have left := same.trans known
  simp only
  split
  · exact closeAll_tidy left (by decide) fun h'' closed => waited_tidy closed fun _ => rfl
  · exact close_tidy left (by decide) fun h'' closed => awaitExec_tidy closed

theorem configureUserNamespace_tidy : Tidy (fun _ h' => ledger h' = ledger h) h configureUserNamespace := by
  refine attempt_tidy trivial fun h₁ setgroups first => ?_
  split
  · exact first
  · refine attempt_tidy trivial fun h₂ uid second => ?_
    cases uid with
    | some error => exact second.trans first
    | none =>
      refine ⟨trivial, fun answer => ?_⟩
      have third : ledger (h₂ ++ [⟨.writeTextFile .gidMap, answer⟩]) = ledger h₂ := by
        rw [ledger_concat, enter_unentered (c := .writeTextFile _) trivial]
      cases answer <;> exact third.trans (second.trans first)

/-- The ends of all three pipes, in the order they were opened. -/
def allEnds : List End := bothEnds .status ++ bothEnds .exec ++ bothEnds .continue

theorem guide_tidy {pid : Pid} (known : ledger h = ⟨allEnds, some pid⟩) : Tidy Cleared h (guide pid) := by
  apply closeAll_tidy known (by decide)
  intro h₁ closed
  have withdrawn : ∀ (h' : List Done) (error : Int32), ledger h' = ledger h₁ →
      Tidy Cleared h' (Code.closeAll [⟨.continue, .writing⟩, ⟨.status, .reading⟩, ⟨.exec, .reading⟩] >>= fun _ => abandon pid error) :=
    fun h' error same => closeAll_tidy (same.trans closed) (by decide) fun h'' empty => abandon_tidy empty
  refine .bind configureUserNamespace_tidy fun failure h₂ same => ?_
  cases failure with
  | some error => exact withdrawn h₂ error same
  | none =>
    refine attempt_tidy trivial fun h₃ failure written => ?_
    cases failure with
    | some error => exact withdrawn h₃ error (written.trans same)
    | none => exact close_tidy (written.trans (same.trans closed)) (by decide) fun h₄ last => awaitStatus_tidy last

/-- A way out before there is a child. -/
theorem retreat_tidy {fds : List End} {error : Int32} (known : ledger h = ⟨ends, none⟩) (closable : Closable fds ends)
    (all : fds.foldl List.erase ends = []) :
    Tidy Cleared h (Code.closeAll fds >>= fun _ => pure (.error error) : Code (Except Int32 NamespaceStartResult)) := by
  apply closeAll_tidy known closable
  intro h' closed
  rw [all] at closed
  exact closed

theorem pipe_tidy {pipe : Pipe} {f : Option Int32 → Code α} (known : ledger h = ⟨ends, child⟩) (new : ∀ fd ∈ ends, fd.pipe ≠ pipe)
    (failure : ∀ h' error, ledger h' = ⟨ends, child⟩ → Tidy post h' (f (some error)))
    (success : ∀ h', ledger h' = ⟨ends ++ bothEnds pipe, child⟩ → Tidy post h' (f none)) :
    Tidy post h (Code.attempt (.pipe pipe) >>= f) := by
  have fresh : InOrder h (.pipe pipe) := by
    rw [InOrder, known]
    exact new
  refine attempt_rule fresh (fun error => failure _ error ?_) fun value => success _ ?_
  · rw [ledger_concat, known]
    rfl
  · rw [ledger_concat, known]
    rfl

theorem namespaceStartContainer_tidy (config : NamespaceConfig) : Tidy Cleared [] (namespaceStartContainer config) := by
  unfold namespaceStartContainer
  split
  · rfl
  refine pipe_tidy rfl (by decide) (fun h₁ error same => same) fun h₁ status => ?_
  apply pipe_tidy status (by decide) (fun h₂ error same => retreat_tidy same (by decide) rfl)
  intro h₂ exec
  refine attempt_tidy trivial fun h₃ failure marked => ?_
  have two := marked.trans exec
  cases failure with
  | some error => exact retreat_tidy two (by decide) rfl
  | none =>
    refine pipe_tidy two (by decide) (fun h₄ error same => retreat_tidy same (by decide) rfl) fun h₄ three => ?_
    have childless : (ledger h₄).child = none := by rw [three]
    refine ⟨childless, fun answer => ?_⟩
    cases answer with
    | error error =>
      have known : ledger (h₄ ++ [⟨.clone, .error error⟩]) = ⟨allEnds, none⟩ := by
        rw [ledger_concat, three]
        rfl
      exact retreat_tidy known (by decide) rfl
    | ok pid =>
      apply guide_tidy
      rw [ledger_concat, three]
      rfl

end

/-! ## The table follows the ledger -/

/-- The numbers of the open ends come on top of the descriptors the manager had. -/
structure Follows (base : Finset Nat) (l : Ledger) (p : Parent) : Prop where
  open_iff : ∀ n, n ∈ p.openFds ↔ n ∈ base ∨ ∃ fd ∈ l.ends, p.arrays fd = n
  once : l.ends.Nodup
  distinct : ∀ fd ∈ l.ends, ∀ other ∈ l.ends, p.arrays fd = p.arrays other → fd = other
  outside : ∀ fd ∈ l.ends, p.arrays fd ∉ base
  child : p.child = l.child
  closes : p.misclosed = false

namespace Follows

variable {base : Finset Nat} {l : Ledger} {p : Parent}

theorem close (follows : Follows base l p) {fd : End} (here : fd ∈ l.ends) (answer : (Call.close fd).Answer) :
    Follows base (l.enter ⟨.close fd, answer⟩) (p.closes (p.arrays fd)) := by
  have left : ∀ other, other ∈ l.ends.erase fd ↔ other ≠ fd ∧ other ∈ l.ends := fun other => follows.once.mem_erase_iff
  have inside : p.arrays fd ∈ p.openFds := (follows.open_iff _).mpr (Or.inr ⟨fd, here, rfl⟩)
  refine ⟨?_, follows.once.erase fd, ?_, ?_, follows.child, ?_⟩
  · intro n
    simp only [Parent.closes, Ledger.enter, Finset.mem_erase, follows.open_iff, left]
    constructor
    · rintro ⟨other, old | ⟨e, member, rfl⟩⟩
      · exact Or.inl old
      · refine Or.inr ⟨e, ⟨?_, member⟩, rfl⟩
        rintro rfl
        exact other rfl
    · rintro (old | ⟨e, ⟨other, member⟩, rfl⟩)
      · refine ⟨?_, Or.inl old⟩
        rintro rfl
        exact follows.outside fd here old
      · exact ⟨fun same => other (follows.distinct e member fd here same), Or.inr ⟨e, member, rfl⟩⟩
  · intro e first other second same
    exact follows.distinct e ((left e).mp first).2 other ((left other).mp second).2 same
  · intro e member
    exact follows.outside e ((left e).mp member).2
  · simp [Parent.closes, follows.closes, inside]

theorem pipe (follows : Follows base l p) {pipe : Pipe} {reading writing : Nat} (fresh : ∀ fd ∈ l.ends, fd.pipe ≠ pipe)
    (newReading : reading ∉ p.openFds) (newWriting : writing ∉ p.openFds) (two : reading ≠ writing) :
    Follows base (l.enter ⟨.pipe pipe, .ok ()⟩) (p.piped pipe reading writing) := by
  have kept : ∀ fd ∈ l.ends, (p.piped pipe reading writing).arrays fd = p.arrays fd := by
    intro fd member
    have other : ∀ side, fd ≠ ⟨pipe, side⟩ := by
      rintro side rfl
      exact fresh _ member rfl
    simp [Parent.piped, Function.update_of_ne (other _)]
  have first : (p.piped pipe reading writing).arrays ⟨pipe, .reading⟩ = reading := by simp [Parent.piped]
  have second : (p.piped pipe reading writing).arrays ⟨pipe, .writing⟩ = writing := by simp [Parent.piped]
  have members : ∀ fd, fd ∈ (l.enter ⟨.pipe pipe, .ok ()⟩).ends ↔ fd ∈ l.ends ∨ fd = ⟨pipe, .reading⟩ ∨ fd = ⟨pipe, .writing⟩ := by
    intro fd
    simp [Ledger.enter, bothEnds]
  have old : ∀ fd ∈ l.ends, ∀ new, new ∉ p.openFds → p.arrays fd ≠ new := by
    rintro fd member new outside rfl
    exact outside ((follows.open_iff _).mpr (Or.inr ⟨fd, member, rfl⟩))
  have unused : ∀ new, new ∉ p.openFds → new ∉ base := fun new outside inside => outside ((follows.open_iff new).mpr (Or.inl inside))
  refine ⟨?_, ?_, ?_, ?_, follows.child, follows.closes⟩
  · intro n
    have opened : n ∈ (p.piped pipe reading writing).openFds ↔ n = writing ∨ n = reading ∨ n ∈ p.openFds := by
      simp [Parent.piped, Parent.opens]
    rw [opened, follows.open_iff]
    constructor
    · rintro (rfl | rfl | base | ⟨fd, member, rfl⟩)
      · exact Or.inr ⟨_, (members _).mpr (Or.inr (Or.inr rfl)), second⟩
      · exact Or.inr ⟨_, (members _).mpr (Or.inr (Or.inl rfl)), first⟩
      · exact Or.inl base
      · exact Or.inr ⟨fd, (members fd).mpr (Or.inl member), kept fd member⟩
    · rintro (base | ⟨fd, member, rfl⟩)
      · exact Or.inr (Or.inr (Or.inl base))
      · rcases (members fd).mp member with old | rfl | rfl
        · rw [kept fd old]
          exact Or.inr (Or.inr (Or.inr ⟨fd, old, rfl⟩))
        · exact Or.inr (Or.inl first)
        · exact Or.inl second
  · refine List.nodup_append.mpr ⟨follows.once, by simp [bothEnds], ?_⟩
    rintro fd member other inside rfl
    have own : fd.pipe = pipe := by
      simp only [bothEnds, List.mem_cons, List.not_mem_nil, or_false] at inside
      rcases inside with rfl | rfl <;> rfl
    exact fresh fd member own
  · intro fd here other there same
    rcases (members fd).mp here with before | rfl | rfl <;> rcases (members other).mp there with earlier | rfl | rfl
    · rw [kept fd before, kept other earlier] at same
      exact follows.distinct fd before other earlier same
    · rw [kept fd before, first] at same
      exact absurd same (old fd before _ newReading)
    · rw [kept fd before, second] at same
      exact absurd same (old fd before _ newWriting)
    · rw [kept other earlier, first] at same
      exact absurd same.symm (old other earlier _ newReading)
    · rfl
    · rw [first, second] at same
      exact absurd same two
    · rw [kept other earlier, second] at same
      exact absurd same.symm (old other earlier _ newWriting)
    · rw [first, second] at same
      exact absurd same.symm two
    · rfl
  · intro fd member
    rcases (members fd).mp member with before | rfl | rfl
    · rw [kept fd before]
      exact follows.outside fd before
    · rw [first]
      exact unused reading newReading
    · rw [second]
      exact unused writing newWriting

/-- The stream of a `/proc` file is closed on every way through `write_text_file`. -/
theorem writeTextFile (follows : Follows base l p) {fopen : Except Int32 Nat} (fputs fclose : Option Int32)
    (new : ∀ fd, fopen = .ok fd → fd ∉ p.openFds) : Follows base l (p.writeTextFile fopen fputs fclose).2 := by
  have kept : ∀ fd, fopen = .ok fd → (p.opens fd).closes fd = p := by
    intro fd opened
    simp [Parent.opens, Parent.closes, Finset.erase_insert (new fd opened)]
  unfold Parent.writeTextFile
  split
  · exact follows
  · rename_i fd
    simp only
    split
    · rw [kept fd rfl]
      exact follows
    · split <;> (rw [kept fd rfl]; exact follows)

/-- A call in order, whatever its outcome, is entered in the ledger as it changes the table. -/
theorem serve {h : List Done} (follows : Follows base (ledger h) p) {d : Done} {next : Parent} (inOrder : InOrder h d.call)
    (served : Serves p d next) : Follows base (ledger (h ++ [d])) next := by
  rw [ledger_concat]
  cases served with
  | pipe pipe reading writing newReading newWriting two => exact follows.pipe inOrder newReading newWriting two
  | noPipe pipe error => exact follows
  | close fd answer => exact follows.close inOrder answer
  | writeTextFile file fopen fputs fclose new => exact follows.writeTextFile fputs fclose new
  | clone pid => exact ⟨follows.open_iff, follows.once, follows.distinct, follows.outside, rfl, follows.closes⟩
  | noClone error => exact follows
  | waitpid pid =>
    have waited : p.child = some pid := follows.child.trans inOrder
    exact ⟨follows.open_iff, follows.once, follows.distinct, follows.outside, if_pos waited, follows.closes⟩
  | neutral c answer neutral =>
    have unentered : c.Unentered := by
      cases c <;> first | exact neutral.elim | trivial
    rw [enter_unentered unentered]
    exact follows

/-- A code whose calls are in order leaves a table that its ledger accounts for. -/
theorem play {α : Type} {post : α → List Done → Prop} {h : List Done} {code : Code α} {value : α} {last : Parent}
    (follows : Follows base (ledger h) p) (tidy : Tidy post h code) (played : Plays p code value last) :
    ∃ h', post value h' ∧ Follows base (ledger h') last := by
  -- By induction on the play: the ledger follows every answer that the table gives.
  induction played generalizing h with
  | ret p value => exact ⟨h, tidy, follows⟩
  | call served played ih => exact ih (follows.serve tidy.1 served) (tidy.2 _)
  | interrupted played ih => exact ih follows tidy

end Follows

/-- Before the call, nothing of it is open. -/
def Parent.entering (base : Finset Nat) (arrays : End → Nat) : Parent := ⟨base, arrays, false, none⟩

theorem follows_entering (base : Finset Nat) (arrays : End → Nat) : Follows base (ledger []) (.entering base arrays) := by
  refine ⟨?_, List.nodup_nil, ?_, ?_, rfl, rfl⟩ <;> simp [ledger, Parent.entering]

/-- Whatever the outcomes of its calls, `namespace_start_container` returns with the descriptors it was called with and
has closed none twice; if it fails, no child is left that was not waited for. -/
theorem start_neutral (config : NamespaceConfig) (base : Finset Nat) (arrays : End → Nat)
    (value : Except Int32 NamespaceStartResult) (last : Parent)
    (played : Plays (.entering base arrays) (namespaceStartContainer config) value last) :
    last.openFds = base ∧ last.misclosed = false ∧
      ((∃ error, value = .error error) → last.child = none) ∧ ∀ result, value = .ok result → last.child = some result.hostPid := by
  obtain ⟨h, cleared, follows⟩ := (follows_entering base arrays).play (namespaceStartContainer_tidy config) played
  have child := follows.child
  rw [cleared] at follows child
  refine ⟨?_, follows.closes, ?_, ?_⟩
  · ext n
    simpa using follows.open_iff n
  · rintro ⟨error, rfl⟩
    exact child
  · rintro result rfl
    exact child

def sampleConfig : NamespaceConfig := ⟨some (lit "web"), lit "/srv/web", lit "sleep 9", .unlimited⟩

/-- A start in which `setgroups` does not exist, and the status comes in two parts after an interruption. -/
theorem sample_plays : ∃ last, Plays (.entering {0, 1, 2} fun _ => 0) (namespaceStartContainer sampleConfig) (.ok ⟨42, 1⟩) last := by
  apply Exists.intro
  apply Plays.call (Serves.pipe _ .status 3 4 (by decide) (by decide) (by decide))
  apply Plays.call (Serves.pipe _ .exec 5 6 (by decide) (by decide) (by decide))
  apply Plays.call (Serves.neutral _ (.closeOnExec ⟨.exec, .writing⟩) (.ok ()) trivial)
  apply Plays.call (Serves.pipe _ .continue 7 8 (by decide) (by decide) (by decide))
  apply Plays.call (Serves.clone _ 42)
  apply Plays.call (Serves.close _ _ (.ok ()))
  apply Plays.call (Serves.close _ _ (.ok ()))
  apply Plays.call (Serves.close _ _ (.ok ()))
  apply Plays.call (Serves.writeTextFile _ _ (.error (.ofNat Errno.ENOENT)) none none (by simp))
  apply Plays.call (Serves.writeTextFile _ _ (.ok 9) none none (by rintro _ ⟨⟩; decide))
  apply Plays.call (Serves.writeTextFile _ _ (.ok 9) none none (by rintro _ ⟨⟩; decide))
  apply Plays.call (Serves.neutral _ (.write .continue [token]) (.ok ()) trivial)
  apply Plays.call (Serves.close _ _ (.ok ()))
  apply Plays.interrupted
  apply Plays.call (Serves.neutral _ (.read .status 12) (.ok ((NamespaceStatus.prepared 1).bytes.take 5)) trivial)
  apply Plays.call (Serves.neutral _ (.read .status 7) (.ok ((NamespaceStatus.prepared 1).bytes.drop 5)) trivial)
  apply Plays.call (Serves.close _ _ (.ok ()))
  apply Plays.call (Serves.neutral _ (.read .exec 4) (.ok []) trivial)
  apply Plays.call (Serves.close _ _ (.ok ()))
  exact Plays.ret _ _

theorem sample_neutral : ∃ last, Plays (.entering {0, 1, 2} fun _ => 0) (namespaceStartContainer sampleConfig) (.ok ⟨42, 1⟩) last ∧
    last.openFds = {0, 1, 2} ∧ last.misclosed = false ∧ last.child = some 42 := by
  obtain ⟨last, played⟩ := sample_plays
  obtain ⟨same, closed, -, child⟩ := start_neutral sampleConfig {0, 1, 2} _ _ last played
  exact ⟨last, played, same, closed, child _ rfl⟩

end ContainerRuntime.Namespace
