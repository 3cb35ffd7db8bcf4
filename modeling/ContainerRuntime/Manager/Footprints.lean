import ContainerRuntime.Manager.Refinement

/-! What the calls of an operation leave alone.

The moves of the action system do not tell in which order an operation logs,
saves and tells the scheduler. Here the programs in between are given by what
they leave alone, so that the order of the rest can be followed.
-/

set_option autoImplicit false

namespace ContainerRuntime

open CString Cli Program
open Prog (read modify forEach)

/-- What the manager has noted of its own calls. -/
def World.notes (w : World) : List Note := w.trace.filterMap fun
  | .noted note => some note
  | _ => none

theorem World.notes_observe {w : World} {obs : Obs} (other : ∀ note, obs ≠ .noted note) :
    (w.observe obs).notes = w.notes := by
  have silent : ([obs].filterMap fun
      | .noted note => some note
      | _ => none : List Note) = [] := by
    cases obs with
    | noted note => exact absurd rfl (other note)
    | _ => rfl
  rw [notes, observe_trace, List.filterMap_append, silent, List.append_nil]
  rfl

@[simp] theorem World.notes_noted (w : World) (note : Note) : (w.observe (.noted note)).notes = w.notes ++ [note] := by
  simp [notes]

/-- Notes are taken one after the other. -/
theorem World.notes_grow {w w' : World} (grows : w.trace <+: w'.trace) : w.notes <+: w'.notes := grows.filterMap _

/-- The numbers of the processes that have appeared. -/
def appearances (trace : List Obs) : List Pid := trace.filterMap fun
  | .appeared pid _ _ _ _ => some pid
  | _ => none

theorem appearances_subset {trace trace' : List Obs} (more : trace ⊆ trace') : appearances trace ⊆ appearances trace' :=
  List.filterMap_subset _ more

/-- A number that was free is free, or has been seen to be taken. -/
def Vacant (procs : Procs) (seen : List Obs) (procs' : Procs) : Prop :=
  ∀ pid, procs pid = none → procs' pid = none ∨ pid ∈ appearances seen

/-- The list, the file and the log are as they were, and the table may have lost some targets; the host may have seen something. -/
structure Aside (w w' : World) : Prop where
  registry : w'.memory.registry = w.memory.registry
  sequence : w'.memory.nextSequence = w.memory.nextSequence
  draft : w'.memory.draft = w.memory.draft
  targets : w'.sched.targets ⊆ w.sched.targets
  nodup : w.sched.targets.Nodup → w'.sched.targets.Nodup
  disk : w'.disk = w.disk
  log : w'.log = w.log
  notes : w'.notes = w.notes
  trace : w.trace <+: w'.trace
  vacant : Vacant w.procs (w'.trace.drop w.trace.length) w'.procs

namespace Aside

variable {w w' : World}

theorem observe {obs : Obs} (other : ∀ note, obs ≠ .noted note) (aside : Aside w w') : Aside w (w'.observe obs) :=
  { aside with
    notes := (World.notes_observe other).trans aside.notes
    trace := aside.trace.trans (List.prefix_append _ _)
    vacant := fun pid free => (aside.vacant pid free).imp id fun taken =>
      appearances_subset (List.IsPrefix.drop_subset (List.prefix_append _ _) _) taken }

/-- Only the processes, the thread and the local variables of the manager change. -/
theorem of_eq (registry : w'.memory.registry = w.memory.registry)
    (sequence : w'.memory.nextSequence = w.memory.nextSequence) (draft : w'.memory.draft = w.memory.draft) (targets : w'.sched.targets = w.sched.targets)
    (disk : w'.disk = w.disk) (log : w'.log = w.log) (trace : w'.trace = w.trace)
    (vacant : ∀ pid, w.procs pid = none → w'.procs pid = none) : Aside w w' :=
  ⟨registry, sequence, draft, by rw [targets]; exact List.Subset.refl _, by rw [targets]; exact id, disk, log,
    by rw [World.notes, World.notes, trace], trace ▸ List.prefix_refl _, fun pid free => .inl (vacant pid free)⟩

/-- The table loses some targets. -/
theorem scheduled (w : World) {f : Scheduler → Scheduler} (fewer : (f w.sched).targets ⊆ w.sched.targets)
    (nodup : w.sched.targets.Nodup → (f w.sched).targets.Nodup) : Aside w (w.scheduled f) :=
  ⟨rfl, rfl, rfl, fewer, nodup, rfl, rfl, rfl, List.prefix_refl _, fun _ => .inl⟩

theorem killed (w : World) (who : Text) (pid : Pid) : Aside w (w.killed who pid) :=
  observe (fun _ same => by cases same) (of_eq rfl rfl rfl rfl rfl rfl rfl (Procs.kill_vacant pid .SIGKILL))

theorem waited (w : World) (pid : Pid) : Aside w (w.waited pid) :=
  observe (fun _ same => by cases same) (of_eq rfl rfl rfl rfl rfl rfl rfl fun _ => id)

theorem reaped (w : World) (pid : Pid) : Aside w (w.reaped pid) :=
  observe (fun _ same => by cases same) (of_eq rfl rfl rfl rfl rfl rfl rfl (Procs.update_vacant fun _ => rfl))

theorem reapedInflight (w : World) (pid : Pid) : Aside w (w.reapedInflight pid) :=
  observe (fun _ same => by cases same) (of_eq rfl rfl rfl rfl rfl rfl rfl (Procs.update_vacant fun _ => rfl))

theorem appear (w : World) (pid : Pid) (origin : Option Text) (child : Bool) : Aside w (w.appear pid origin child) := by
  have seen : Aside w (w.observe (.appeared pid origin w.memory.held w.disk w.sched.targets)) :=
    observe (fun _ same => by cases same) (of_eq rfl rfl rfl rfl rfl rfl rfl fun _ => id)
  refine { seen with vacant := fun other free => ?_ }
  by_cases same : other = pid
  · right
    simp [World.appear, appearances, same]
  · left
    exact (Function.update_of_ne same _ _).trans free

theorem cloned (w : World) (pid : Pid) (owner : Text) : Aside w (w.cloned pid owner) := by
  have there := appear w pid (some owner) true
  exact { there with }

end Aside

theorem Idle.aside {w w' : World} (idle : Idle w w') : Aside w w' := by
  cases idle with
  | clock => exact .of_eq rfl rfl rfl rfl rfl rfl rfl fun _ => id
  | drift _ drift =>
    cases drift with
    | nothing => exact .of_eq rfl rfl rfl rfl rfl rfl rfl fun _ => id
    | exits pid proc status here =>
      exact .of_eq rfl rfl rfl rfl rfl rfl rfl (Procs.update_vacant fun gone => by rw [here] at gone; cases gone)
    | vanishes => exact .of_eq rfl rfl rfl rfl rfl rfl rfl (Procs.update_vacant fun _ => rfl)
    | selects sched thread idle enabled picked fewer live =>
      exact ⟨rfl, rfl, rfl, fewer.subset, fun nodup => nodup.sublist fewer, rfl, rfl, rfl, List.prefix_refl _, fun _ => .inl⟩
    | spawns pid => exact .appear w pid none false
    | pauses current | resumes next =>
      exact .observe (fun _ same => by cases same) (.of_eq rfl rfl rfl rfl rfl rfl rfl (Procs.kill_vacant _ _))

/-- Nothing is asked of the states in between. -/
def Anyhow (_ _ : World) : Prop := True

theorem anyhow {α : Type} {P : World → Prop} {p : Prog World α} : Spec Anyhow P p fun _ _ => True := fun _ _ =>
  ⟨.single trivial, fun _ _ => trivial⟩

/-- The answer to the next call. -/
theorem tick_now (now : Tick) : Spec Anyhow (fun w => w.oracle w.clock = now) tick fun answer _ => answer = now := by
  intro w called
  refine ⟨.single trivial, fun answer done => ?_⟩
  simp only [tick, called] at done
  split at done
  · cases done
  · exact (Outcome.done.inj done).symm

/-- Whatever leaves the list, the file and the log alone goes by `R`, and leaves `P` alone. -/
def Sided (R : World → World → Prop) (P : World → Prop) : Prop := ∀ w w', Aside w w' → P w → R w w' ∧ P w'

namespace Sided

variable {R : World → World → Prop} {P : World → Prop} {α : Type} {Q : α → World → Prop}

theorem registry (sided : Sided R P) (S : List Container → Prop) : Sided R fun w => P w ∧ S w.memory.registry := by
  intro w w' aside pre
  obtain ⟨step, next⟩ := sided w w' aside pre.1
  exact ⟨step, next, aside.registry ▸ pre.2⟩

theorem still (sided : Sided R P) : Still R P := fun w w' idle => sided w w' idle.aside

theorem bind_tick {next : Tick → Prog World α} (sided : Sided R P) (rest : ∀ now, Spec R P (next now) Q) :
    Spec R P (tick >>= next) Q := sided.still.bind_tick rest

/-- One such effect. -/
theorem modify (sided : Sided R P) {f : World → World} (aside : ∀ w, Aside w (f w)) :
    Spec R P (Prog.modify f) fun _ => P :=
  .modify_step fun w => sided w _ (aside w)

theorem isPidAlive (sided : Sided R P) (pid : Pid) : Spec R P (isPidAlive pid) fun _ => P := sided.still.isPidAlive pid

theorem kill (sided : Sided R P) (who : Text) (pid : Pid) : Spec R P (kill who pid) fun _ => P := by
  apply sided.bind_tick
  intro now
  cases now.fail with
  | some error => exact .pure fun _ holds => holds
  | none =>
    refine .bind_read_any fun found => .bind (sided.modify fun w => .killed w who pid) fun _ => ?_
    exact .pure fun _ holds => holds

theorem waitpid (sided : Sided R P) (pid : Pid) : Spec R P (waitpid pid) fun _ => P :=
  sided.still.waitpid (fun w => sided w _ (.waited w pid)) fun w => sided w _ (.reaped w pid)

theorem waitpidNoHang (sided : Sided R P) (pid : Pid) : Spec R P (waitpidNoHang pid) fun _ => P :=
  sided.still.waitpidNoHang (fun w => sided w _ (.waited w pid)) fun w => sided w _ (.reaped w pid)

theorem moveTerminalForeground (sided : Sided R P) : Spec R P moveTerminalForeground fun _ => P := by
  apply sided.bind_tick
  intro terminal
  split
  · exact .pure fun _ holds => holds
  · apply sided.bind_tick
    intro moved
    cases moved.fail <;> exact .pure fun _ holds => holds

theorem restoreTerminal (sided : Sided R P) (moved : Bool) (errno : Errno) :
    Spec R P (restoreTerminal moved errno) fun _ => P := by
  unfold ContainerRuntime.restoreTerminal
  split
  · exact .bind sided.moveTerminalForeground fun _ => .pure fun _ holds => holds
  · exact .pure fun _ holds => holds

/-- A function of `scheduler.c` that takes targets out of the table, or leaves it alone. -/
theorem underMutex (sided : Sided R P) {f : Scheduler → Scheduler} (fewer : ∀ s, (f s).targets ⊆ s.targets)
    (nodup : ∀ s, s.targets.Nodup → (f s).targets.Nodup) : Spec R P (underMutex f) fun _ => P :=
  sided.bind_tick fun _ => sided.modify fun w => .scheduled w (fewer w.sched) (nodup w.sched)

theorem onStopped (sided : Sided R P) (pid : Pid) : Spec R P (containerSchedulerOnStopped pid) fun _ => P :=
  sided.underMutex (Scheduler.schedulerRemoveTarget_subset pid) fun _ => Scheduler.schedulerRemoveTarget_nodup

theorem firstFailure (sided : Sided R P) (calls : Nat) : Spec R P (firstFailure calls) fun _ => P := by
  induction calls with
  | zero => exact .pure fun _ holds => holds
  | succ calls ih =>
    apply sided.bind_tick
    intro now
    cases now.fail with
    | some error => exact .pure fun _ holds => holds
    | none => exact ih

theorem configureUserNamespace (sided : Sided R P) : Spec R P configureUserNamespace fun _ => P := by
  apply sided.bind_tick
  intro setgroups
  split
  · exact .pure fun _ holds => holds
  · exact sided.firstFailure 2

theorem killChild (sided : Sided R P) (who : Text) (pid : Pid) : Spec R P (killChild who pid) fun _ => P :=
  sided.bind_tick fun _ => sided.modify fun w => .killed w who pid

theorem reapChild (sided : Sided R P) (pid : Pid) : Spec R P (reapChild pid) fun _ => P := by
  apply sided.bind_tick
  intro now
  cases now.reapFail with
  | none => exact .bind (sided.modify fun w => .waited w pid) fun _ => sided.modify fun w => .reapedInflight w pid
  | some error => exact sided.modify fun w => .of_eq rfl rfl rfl rfl rfl rfl rfl fun _ => id

/-- The pid it returns is the one `clone` has given. -/
theorem handshake (sided : Sided R P) (c : Container) (pid : Pid) :
    Spec R P (namespaceStartContainer.handshake c pid) fun result w => P w ∧ ∀ other, result = .ok other → other = pid := by
  have refused : ∀ error : Errno, Spec R P (pure (.error error) : Prog World (Except Errno Pid)) fun result w =>
      P w ∧ ∀ other, result = .ok other → other = pid := fun error =>
    .pure fun _ holds => ⟨holds, fun _ same => by cases same⟩
  have aborted : ∀ error : Errno, Spec R P
      (do ContainerRuntime.killChild c.id.text pid; ContainerRuntime.reapChild pid; pure (.error error) :
        Prog World (Except Errno Pid)) fun result w => P w ∧ ∀ other, result = .ok other → other = pid := fun error =>
    .bind (sided.killChild c.id.text pid) fun _ => .bind (sided.reapChild pid) fun _ => refused error
  apply Spec.bind sided.configureUserNamespace
  intro configured
  cases configured with
  | some error => exact aborted error
  | none =>
    apply sided.bind_tick
    intro token
    cases token.fail with
    | some error => exact aborted error
    | none =>
      apply sided.bind_tick
      intro status
      cases status.fail with
      | some error => exact .bind (sided.reapChild pid) fun _ => refused _
      | none =>
        apply sided.bind_tick
        intro executed
        cases executed.fail with
        | some error => exact aborted error
        | none => exact .pure fun _ holds => ⟨holds, fun _ same => (Except.ok.inj same).symm⟩

theorem namespaceStartContainer (sided : Sided R P) (c : Container) :
    Spec R P (namespaceStartContainer c) fun result w => P w ∧ ∀ pid, result = .ok pid → 0 < pid := by
  have refused : ∀ error : Errno, Spec R P (pure (.error error) : Prog World (Except Errno Pid)) fun result w =>
      P w ∧ ∀ pid, result = .ok pid → 0 < pid := fun error =>
    .pure fun _ holds => ⟨holds, fun _ same => by cases same⟩
  unfold ContainerRuntime.namespaceStartContainer
  split
  · exact refused _
  apply Spec.bind (sided.firstFailure 4)
  intro failure
  cases failure with
  | some error => exact refused error
  | none =>
    refine sided.bind_tick fun now => .bind_read_any fun taken => ?_
    split
    · exact refused _
    rename_i granted
    simp only [not_or, not_not] at granted
    apply Spec.bind (sided.modify fun w => .cloned w now.pid c.id.text)
    intro _
    exact (sided.handshake c now.pid).post fun _ w holds => ⟨holds.1, fun pid same => holds.2 pid same ▸ granted.2.2⟩

end Sided

end ContainerRuntime
