import ContainerRuntime.Manager.Upkeep

/-! The scheduler's table follows the registry.

The pids of the table are those of RUNNING containers, at every rest of the
manager. A container that leaves RUNNING is taken out of the table in all ways
but one: the recovery check of `sync_container_state` does not tell the
scheduler. In the runs where it has nothing to tell, the table is in step.
-/

set_option autoImplicit false

namespace ContainerRuntime

open CString Cli Program
open Prog (read modify forEach)

/-- A process that the recovery check gives up is not in the table. -/
def Note.Spared : Note → Prop
  | .givenUp pid targets => pid ∉ targets
  | _ => True

instance : DecidablePred Note.Spared
  | .givenUp pid targets => inferInstanceAs (Decidable (pid ∉ targets))
  | .unlogged _ | .saved _ _ | .checked _ _ _ | .issued _ _ | .died _ _ _ => isTrue trivial

/-- Every target is among these pids, provided that every note so far was good. -/
def World.Tabled (w : World) (pids : List Pid) : Prop :=
  (∀ note ∈ w.notes, note.Spared) → w.sched.targets.Nodup ∧ w.sched.targets ⊆ pids

namespace World.Tabled

variable {w w' : World} {pids more : List Pid}

theorem mono (tabled : w.Tabled pids) (subset : pids ⊆ more) : w.Tabled more := fun spared =>
  ⟨(tabled spared).1, List.Subset.trans (tabled spared).2 subset⟩

theorem aside (tabled : w.Tabled pids) (aside : Aside w w') : w'.Tabled pids := fun spared =>
  have before := tabled (aside.notes ▸ spared)
  ⟨aside.nodup before.1, List.Subset.trans aside.targets before.2⟩

/-- The table is as it was, and no note is taken back. -/
theorem later (tabled : w.Tabled pids) (sched : w'.sched = w.sched) (notes : w.notes ⊆ w'.notes) : w'.Tabled pids := by
  intro spared
  rw [sched]
  exact tabled fun note member => spared note (notes member)

theorem observe (tabled : w.Tabled pids) (note : Note) : (w.observe (.noted note)).Tabled pids :=
  tabled.later rfl (by rw [notes_noted]; exact List.subset_append_left _ _)

theorem givenUp (tabled : w.Tabled pids) (pid : Pid) : (w.givenUp pid).Tabled (pids.filter (· ≠ pid)) := by
  intro spared
  have absent : pid ∉ w.sched.targets := spared (.givenUp pid w.sched.targets) (by simp [World.givenUp])
  obtain ⟨nodup, listed⟩ := tabled.observe _ spared
  refine ⟨nodup, fun target member => List.mem_filter.mpr ⟨listed member, ?_⟩⟩
  exact decide_eq_true fun same => absent (same ▸ member)

theorem remove (tabled : w.Tabled pids) (pid : Pid) :
    (w.scheduled (Scheduler.schedulerRemoveTarget pid)).Tabled (pids.filter (· ≠ pid)) := by
  intro spared
  obtain ⟨nodup, listed⟩ := tabled spared
  refine ⟨Scheduler.schedulerRemoveTarget_nodup nodup, fun target member => ?_⟩
  have kept : target ∈ w.sched.targets.erase pid := (Scheduler.schedulerRemoveTarget_targets pid w.sched).mem_iff.mp member
  obtain ⟨other, before⟩ := nodup.mem_erase_iff.mp kept
  exact List.mem_filter.mpr ⟨listed before, decide_eq_true other⟩

theorem add (tabled : w.Tabled pids) {pid : Pid} (member : pid ∈ pids) (alloc : Bool) :
    (w.scheduled (Scheduler.schedulerAddTarget alloc pid)).Tabled pids := by
  intro spared
  obtain ⟨nodup, listed⟩ := tabled spared
  refine ⟨Scheduler.schedulerAddTarget_nodup nodup, fun target present => ?_⟩
  rcases Scheduler.of_mem_schedulerAddTarget present with known | rfl
  · exact listed known
  · exact member

end World.Tabled

/-! ## The pids of a list that changes at one position -/

section

variable {registry : List Container} {i : Nat} {c : Container}

theorem pidsOf_subset {fewer : List Container} (sublist : fewer.Sublist registry) : pidsOf fewer ⊆ pidsOf registry :=
  ((sublist.filter _).map _).subset

/-- A container that is not RUNNING has no pid in the list. -/
theorem pidsOf_eraseIdx_of_down (here : registry[i]? = some c) (down : c.running = false) :
    pidsOf (registry.eraseIdx i) = pidsOf registry := by
  obtain ⟨front, back, rfl, -, -, erased⟩ := List.split_at here
  rw [erased, pidsOf_append, pidsOf_append, pidsOf_cons_of_down down]

/-- Changing one container leaves the others their pids. -/
theorem pidsOf_eraseIdx_subset_modify (here : registry[i]? = some c) (f : Container → Container) :
    pidsOf (registry.eraseIdx i) ⊆ pidsOf (registry.modify i f) := by
  obtain ⟨front, back, rfl, -, modified, erased⟩ := List.split_at here
  rw [erased, modified]
  exact pidsOf_subset ((List.Sublist.refl front).append (List.sublist_cons_self _ back))

theorem pidsOf_filter_subset_eraseIdx (here : registry[i]? = some c) :
    (pidsOf registry).filter (· ≠ c.pid) ⊆ pidsOf (registry.eraseIdx i) := by
  obtain ⟨front, back, rfl, -, -, erased⟩ := List.split_at here
  intro pid member
  obtain ⟨listed, other⟩ := List.mem_filter.mp member
  have other : pid ≠ c.pid := of_decide_eq_true other
  rw [erased, pidsOf_append, List.mem_append]
  rw [pidsOf_append, List.mem_append] at listed
  rcases listed with early | late
  · exact .inl early
  · refine .inr ?_
    cases running : c.running with
    | true =>
      rw [pidsOf_cons_of_running running] at late
      exact (List.mem_cons.mp late).resolve_left other
    | false => rwa [pidsOf_cons_of_down running] at late

end

/-! ## The fragments of the operations -/

/-- The list is in this condition, and the table holds pids of this part of it only. -/
structure Seated (S : List Container → Prop) (part : List Container → List Pid) (w : World) : Prop where
  list : S w.memory.registry
  table : w.Tabled (part w.memory.registry)

namespace Seated

variable {S T : List Container → Prop} {part other : List Container → List Pid}

theorem sided : Sided Anyhow (Seated S part) := by
  intro w w' aside seated
  exact ⟨trivial, aside.registry ▸ seated.list, aside.registry ▸ seated.table.aside aside⟩

theorem log (entry : LogEvent) : Spec Anyhow (Seated S part) (logEventType entry) fun _ => Seated S part :=
  sided.still.logEventType (fun _ seated => ⟨trivial, seated.list, seated.table.later rfl (List.Subset.refl _)⟩)
    fun _ seated => ⟨trivial, seated.list, seated.table.observe _⟩

theorem save : Spec Anyhow (Seated S part) saveMetadata fun _ => Seated S part := by
  refine saveMetadata_rule (fun w w' filing seated => ⟨trivial, ?_⟩)
    (fun w written seated _ => ⟨trivial, seated.list, ?_⟩) fun w seated => ⟨trivial, seated.list, seated.table.observe _⟩
  · cases filing with
    | idle _ idle => exact (sided w w' idle.aside seated).2
    | log entry => exact ⟨seated.list, seated.table.later rfl (List.Subset.refl _)⟩
    | miss entry => exact ⟨seated.list, seated.table.observe _⟩
  · refine seated.table.later rfl ?_
    rw [World.published, World.notes_noted]
    exact List.subset_append_left _ _

/-- One action on the manager's memory. -/
theorem remember {f : Memory → Memory}
    (list : ∀ m : Memory, S m.registry → T (f m).registry ∧ part m.registry ⊆ other (f m).registry) :
    Spec Anyhow (Seated S part) (modify (·.remember f)) fun _ => Seated T other := by
  apply Spec.modify (fun _ _ => trivial)
  intro w seated
  obtain ⟨next, subset⟩ := list w.memory seated.list
  exact ⟨next, (seated.table.later rfl (List.Subset.refl _)).mono subset⟩

theorem stopped (pid : Pid) :
    Spec Anyhow (Seated S part) (containerSchedulerOnStopped pid) fun _ =>
      Seated S fun registry => (part registry).filter (· ≠ pid) :=
  sided.bind_tick fun _ => .modify (fun _ _ => trivial) fun _ seated => ⟨seated.list, seated.table.remove pid⟩

theorem post {α : Type} {P : World → Prop} {p : Prog World α} (spec : Spec Anyhow P p fun _ => Seated S part)
    (weaker : ∀ registry, S registry → T registry ∧ part registry ⊆ other registry) :
    Spec Anyhow P p fun _ => Seated T other := by
  apply Spec.post spec
  intro _ w seated
  obtain ⟨next, subset⟩ := weaker w.memory.registry seated.list
  exact ⟨next, seated.table.mono subset⟩

end Seated

section

variable {i : Nat} {c : Container}

/-- The table holds pids of RUNNING containers. -/
abbrev InStep : World → Prop := Seated (fun _ => True) pidsOf

/-- And the container at this position is known. -/
abbrev InStepAt (i : Nat) (c : Container) : World → Prop := Seated (·[i]? = some c) pidsOf

/-- The table holds pids of RUNNING containers other than the one at this position. -/
abbrev Apart (i : Nat) (c : Container) : World → Prop := Seated (·[i]? = some c) fun registry => pidsOf (registry.eraseIdx i)

theorem InStep.at {w : World} (here : InStep w ∧ w.Here i c) : InStepAt i c w := ⟨here.2, here.1.table⟩

/-- The record at the position leaves RUNNING when the table holds pids of the others only. -/
theorem retire_inStep : Spec Anyhow (Apart i c) (modify (·.remember (·.retire i))) fun _ => InStep :=
  Seated.remember fun _ here => ⟨trivial, pidsOf_eraseIdx_subset_modify here _⟩

/-- The pid of the container at the position is taken out. -/
theorem stopped_apart :
    Spec Anyhow (InStepAt i c) (containerSchedulerOnStopped c.pid) fun _ => Apart i c :=
  Seated.post (Seated.stopped c.pid) fun _ here => ⟨here, pidsOf_filter_subset_eraseIdx here⟩

theorem reaped_inStep (status : WaitStatus) : Spec Anyhow (InStepAt i c) (do
    modify (·.remember (·.retire i))
    containerSchedulerOnStopped c.pid
    logEventType (.exited c.id.text (lit "reaped by manager") status)
    pure true) fun _ => InStep := by
  -- The record is retired first: until the scheduler is told, the table is that of the list before.
  refine .fix (·.memory.registry) fun before => .given (before[i]? = some c) (fun w holds => holds.2 ▸ holds.1.list) fun here => ?_
  let after := before.modify i fun c => { c with state := .STOPPED, pid := -1, stack := false }
  refine .bind_modify (M := Seated (· = after) fun _ => pidsOf before) (fun _ _ => trivial) (fun w holds => ?_) ?_
  · exact ⟨congrArg (List.modify · i _) holds.2, holds.2 ▸ holds.1.table.later rfl (List.Subset.refl _)⟩
  refine .bind (Seated.stopped c.pid) fun _ => .bind (Seated.log _) fun _ => .pure fun w seated => ⟨trivial, ?_⟩
  apply seated.table.mono
  rw [seated.list]
  exact List.Subset.trans (pidsOf_filter_subset_eraseIdx here) (pidsOf_eraseIdx_subset_modify here _)

theorem recovered_inStep : Spec Anyhow (InStepAt i c) (do
    modify (·.givenUp c.pid)
    modify (·.remember (·.retire i))
    logEventType (.recovered c.id.text)
    pure true) fun _ => InStep := by
  refine .bind_modify (M := Apart i c) (fun _ _ => trivial) (fun w seated => ⟨seated.list, ?_⟩) ?_
  · exact (seated.table.givenUp c.pid).mono (pidsOf_filter_subset_eraseIdx seated.list)
  · exact .bind retire_inStep fun _ => .bind (Seated.log _) fun _ => .pure fun _ seated => seated

theorem marked_inStep : Spec Anyhow (InStepAt i c) (stopContainerProcess.markStopped i c) fun _ => InStep :=
  .bind (Seated.log _) fun _ => .bind stopped_apart fun _ => .bind retire_inStep fun _ => .bind Seated.save fun _ =>
    .pure fun _ seated => seated

theorem finished_inStep (moved : Bool) (status : WaitStatus) :
    Spec Anyhow (Apart i c) (waitForContainerProcess.finish i c moved status) fun _ => InStep :=
  .bind (Seated.sided.restoreTerminal moved 0) fun _ => .bind (Seated.log _) fun _ => .bind retire_inStep fun _ =>
    Seated.save

theorem running_of_ne {c : Container} (down : c.state ≠ .RUNNING) : c.running = false :=
  Bool.eq_false_iff.mpr fun running => down (of_decide_eq_true running).1

/-- Neither the state nor the pid of a record changes with its stack. -/
theorem pidsOf_stack (registry : List Container) (i : Nat) (stack : Bool) :
    pidsOf (registry.modify i fun c => { c with stack := stack }) = pidsOf registry := by
  cases here : registry[i]? with
  | none => rw [List.modify_eq_self (List.getElem?_eq_none_iff.mp here)]
  | some c =>
    obtain ⟨front, back, rfl, -, modified, -⟩ := List.split_at here
    rw [modified, pidsOf_append, pidsOf_append]
    cases running : c.running with
    | true => rw [pidsOf_cons_of_running running, pidsOf_cons_of_running (c := ⟨c.toRecord, stack⟩) running]
    | false => rw [pidsOf_cons_of_down running, pidsOf_cons_of_down (c := ⟨c.toRecord, stack⟩) running]

theorem Seated.at_rest {w : World} (apart : Apart i c w) : InStep w :=
  ⟨trivial, apart.table.mono (pidsOf_subset (List.eraseIdx_sublist _ i))⟩

theorem enroll_drafted (record : Record) :
    Spec Anyhow InStep (modify (·.enrolled record)) fun _ => Seated (fun _ => True) fun registry => pidsOf registry.dropLast := by
  refine .modify (fun _ _ => trivial) fun w seated => ⟨trivial, ?_⟩
  have same : (w.enrolled record).notes = w.notes := World.notes_observe fun _ same => by cases same
  have unchanged : (w.enrolled record).memory.registry.dropLast = w.memory.registry := List.dropLast_concat
  rw [unchanged]
  exact seated.table.later rfl (by rw [same]; exact List.Subset.refl _)

theorem adopt_apart (pid : Pid) (down : c.state ≠ .RUNNING) :
    Spec Anyhow (InStepAt i c) (modify (·.remember (·.adopt i pid))) fun _ =>
      Apart i { c with state := .RUNNING, pid := pid } := by
  refine Seated.remember fun m here => ⟨?_, ?_⟩
  · simp [Memory.adopt, List.getElem?_modify_eq, here]
  · rw [← pidsOf_eraseIdx_of_down here (running_of_ne down)]
    obtain ⟨front, back, parts, rfl, modified, erased⟩ := List.split_at here
    simp only [Memory.adopt, modified, erased]
    simp [List.eraseIdx_append_of_length_le]

end

/-- The table, as the operations of the manager keep it. -/
def tableUpkeep : Upkeep Anyhow where
  rest := InStep
  adopted := Apart
  filed := Apart
  foreground := Apart
  enrolled _ _ := Seated (fun _ => True) fun registry => pidsOf registry.dropLast
  listed _ _ := InStep
  chronicled _ _ := InStep
  detached _ := InStep
  removed _ := InStep
  sided := Seated.sided
  sided_foreground _ _ := Seated.sided
  at_rest _ _ _ := Seated.at_rest
  save := Seated.save
  remark entry _ := Seated.log entry
  target pid := by
    refine .fix (·.memory.registry) fun registry => .given (pid ∈ pidsOf registry) (fun w holds => holds.2 ▸ holds.1.2) fun listed => ?_
    refine .pre (P := Seated (· = registry) fun _ => pidsOf registry) ?_ fun w holds => ⟨holds.2, holds.2 ▸ holds.1.1.table⟩
    refine Seated.sided.bind_tick fun now => .modify (fun _ _ => trivial) fun w seated => ⟨trivial, ?_⟩
    exact (seated.table.add listed _).mono (by rw [← seated.list]; exact List.Subset.refl _)
  reaped _ _ status _ := (reaped_inStep status).pre fun _ => InStep.at
  recovered _ _ _ := recovered_inStep.pre fun _ => InStep.at
  marked _ _ _ := marked_inStep.pre fun _ => InStep.at
  finished _ _ moved status _ := (finished_inStep moved status).pre fun _ holds => holds.1
  begun i _ _ := .pre (Seated.remember fun m _ => ⟨trivial, (pidsOf_stack m.registry i true).symm ▸ List.Subset.refl _⟩)
    fun _ holds => holds.1
  aborted i _ _ := .pre (Seated.remember fun m _ => ⟨trivial, (pidsOf_stack m.registry i false).symm ▸ List.Subset.refl _⟩)
    fun _ holds => holds.1
  adopt _ _ pid down _ := (adopt_apart pid down).pre fun _ => InStep.at
  adopted_save _ _ := Spec.post Seated.save fun saved _ apart => by
    cases saved with
    | true => exact apart
    | false => exact apart.at_rest
  started _ _ _ := Seated.log _
  draw := Seated.remember fun _ _ => ⟨trivial, List.Subset.refl _⟩
  abandon := Seated.remember fun _ _ => ⟨trivial, List.Subset.refl _⟩
  enroll _ _ _ := (enroll_drafted _).pre fun _ holds => holds.1
  enrolled_save _ _ := Spec.post Seated.save fun saved w drafted => by
    cases saved with
    | true => exact ⟨trivial, drafted.table.mono (pidsOf_subset (List.dropLast_sublist _))⟩
    | false => exact drafted
  created _ _ := Seated.log _
  issue _ _ := .modify (fun _ _ => trivial) fun _ seated => ⟨trivial, seated.table.observe _⟩
  unenroll _ _ := Seated.remember fun _ _ => ⟨trivial, List.Subset.refl _⟩
  detach i c down := by
    refine .pre (Seated.remember fun m here => ⟨trivial, ?_⟩) fun _ => InStep.at
    exact (pidsOf_eraseIdx_of_down here (running_of_ne down)).symm ▸ List.Subset.refl _
  detached_save _ := Spec.post Seated.save fun saved _ inStep => by cases saved <;> exact inStep
  deleted _ := Seated.log _
  discard _ := Seated.remember fun _ _ => ⟨trivial, List.Subset.refl _⟩
  reattach c _ := Seated.remember fun m _ => ⟨trivial, pidsOf_subset (List.sublist_append_left _ _)⟩

/-! ## Runs -/

theorem inStep_of_empty {w : World} (empty : w.sched.targets = []) : InStep w :=
  ⟨trivial, fun _ => by rw [empty]; exact ⟨List.nodup_nil, List.nil_subset _⟩⟩

theorem restoreRecords_inStep (records : List Record) : Spec Anyhow InStep (restoreRecords records) fun _ => InStep := by
  induction records with
  | nil => exact tableUpkeep.refuse
  | cons record rest ih =>
    have appended : Spec Anyhow InStep (do modify (·.restored record rest); restoreRecords rest) fun _ => InStep := by
      refine .bind_modify (M := InStep) (fun _ _ => trivial) (fun w seated => ⟨trivial, ?_⟩) ih
      exact (seated.table.later rfl (List.Subset.refl _)).mono (pidsOf_subset (List.sublist_append_left _ _)) |>.observe _
    apply Seated.sided.bind_tick
    intro allocated
    split
    · exact tableUpkeep.refuse
    simp only
    split
    · exact Seated.sided.bind_tick fun _ => appended
    · exact appended

theorem containerManagerInit_inStep : Spec Anyhow InStep containerManagerInit fun _ => InStep := by
  refine Seated.sided.bind_tick fun opened => .bind_read_any fun disk => ?_
  cases disk with
  | none => exact tableUpkeep.refuse
  | some file =>
    simp only
    split
    · exact tableUpkeep.refuse
    refine .bind (Q := fun _ => InStep) (Seated.remember fun _ _ => ⟨trivial, List.Subset.refl _⟩) fun _ => ?_
    apply Spec.bind (restoreRecords_inStep _)
    intro done
    split
    · apply Spec.bind tableUpkeep.pollStates
      intro _
      split
      · exact .bind (Seated.log _) fun _ => tableUpkeep.refuse
      · exact tableUpkeep.refuse
    · exact tableUpkeep.refuse

theorem step_inStep {w : World} (inStep : InStep w) (step : Step) : InStep (w.step step) := by
  have crashed : ∀ v : World, InStep v.crash := fun v => inStep_of_empty rfl
  apply World.step_rule step inStep
  case booted =>
    intro _ _ v result
    have booted := containerManagerInit_inStep w.launched (inStep_of_empty rfl)
    rw [result] at booted
    exact ⟨trivial, (booted.2 true rfl).table⟩
  case failed => exact fun _ _ _ v _ => crashed v
  case served =>
    intro _ command value v result
    have served := tableUpkeep.command command w inStep
    rw [result] at served
    exact served.2 value rfl
  case cut => exact fun _ _ v _ => crashed v
  case exited => exact fun _ => crashed _

/-- Every pid in the scheduler's table is the pid of a container that is RUNNING in the registry. -/
def World.TargetsRunning (w : World) : Prop := ∀ pid ∈ w.sched.targets, pid ∈ w.memory.runningPids

instance (w : World) : Decidable w.TargetsRunning :=
  inferInstanceAs (Decidable (∀ pid ∈ w.sched.targets, pid ∈ w.memory.runningPids))

/-- In every run in which the recovery check never gives up a process that is in the table, every
target is, after every operation, the pid of a RUNNING container. -/
theorem targets_follow_registry (oracle : Nat → Tick) (procs : Procs) (steps : List Step)
    (spared : ∀ note ∈ ((World.initial oracle procs).run steps).notes, note.Spared) :
    ((World.initial oracle procs).run steps).TargetsRunning := by
  have inStep : InStep ((World.initial oracle procs).run steps) := World.run_rule (fun _ => step_inStep) (inStep_of_empty rfl) steps
  exact (inStep.table spared).2

/-- Two containers under the scheduler, one of which ends and is reaped by the next poll. -/
theorem targets_follow_reaped :
    let script := [(40, { Tick.calm with pid := 2 }), (64, { Tick.calm with events := [.exits 1 (.exited 0)] })]
    let spec : ContainerSpec := ⟨some (lit "web"), none, none, some (lit "sleep 9"), .unlimited⟩
    let steps := [.boot, .command (.runbg spec), .command (.runbg spec), .command .schedOn, .command .poll]
    let after := (World.initial (scripted script) fun _ => none).run steps
    after.sched.targets = [2] ∧ after.TargetsRunning := by
  intro script spec steps after
  refine ⟨by decide +kernel, targets_follow_registry _ _ steps ?_⟩
  decide +kernel

/-- A restored container is put into the table by `sched on`; its process ends, the poll finds it gone, and the
table keeps its pid. -/
theorem recovered_pid_stays_target :
    let script := [(26, { Tick.calm with cut := true }),
      (41, { Tick.calm with events := [.exits 1 (.exited 0), .vanishes 1] })]
    let spec : ContainerSpec := ⟨some (lit "web"), none, none, some (lit "sleep 9"), .unlimited⟩
    let steps := [.boot, .command (.runbg spec), .command .poll, .boot, .command .schedOn, .command .poll]
    let after := (World.initial (scripted script) fun _ => none).run steps
    after.sched.targets = [1] ∧ after.memory.runningPids = [] ∧ ¬ after.TargetsRunning := by
  decide +kernel

end ContainerRuntime
