import ContainerRuntime.Manager.Refinement

/-! Commands and sessions.

A run is a list of commands, start-ups of the manager among them. A manager
that is cut in the middle of a command is gone, and so is one that has
executed `exit`; the next thing to happen to it is another start-up.
-/

set_option autoImplicit false

namespace ContainerRuntime

open CString Cli Program
open Prog (read modify forEach)

inductive Command where
  | create (spec : ContainerSpec)
  | run (spec : ContainerSpec)
  | runbg (spec : ContainerSpec)
  | start (id : Text)
  | stop (id : Text)
  | delete (id : Text)
  /-- `list`, `stats` and whatever else only polls. -/
  | poll
  | schedOn
  | schedOff
  | schedSlice (ms : UInt32)
  /-- A word that is no command. -/
  | unknown (word : Text)
  deriving DecidableEq

def Command.program : Command → Prog World Unit
  | .create spec => do let _ ← containerCreate spec
  | .run spec => do let _ ← containerRun spec
  | .runbg spec => do let _ ← containerRunBackground spec
  | .start id => do let _ ← containerStart id
  | .stop id => do let _ ← containerStop id
  | .delete id => do let _ ← containerDelete id
  | .poll => pollStates
  | .schedOn => ContainerRuntime.schedOn
  | .schedOff => ContainerRuntime.schedOff
  | .schedSlice ms => do let _ ← schedulerSetTimeSliceMs ms
  | .unknown word => logEventType (.unknownCommand word)

inductive Step where
  /-- A manager is started. -/
  | boot
  | command (command : Command)
  | exit
  deriving DecidableEq

namespace World

/-- A manager that was cut is gone. -/
def settle {α : Type} (result : Outcome α × World) : World :=
  match result with
  | (.done _, w) => w
  | (.cut, w) => w.crash

def step (w : World) : Step → World
  | .boot =>
    if w.up then w
    else
      match containerManagerInit w.launched with
      | (.done true, w) => { w with up := true }
      | (_, w) => w.crash
  | .command command => if w.up then settle (command.program w) else w
  | .exit => if w.up then (cleanupAllContainers w).2.crash else w

def run (w : World) (steps : List Step) : World := steps.foldl step w

/-- What a step of a run can lead to: start-up succeeds or fails, a command is served or cut, or the manager leaves. -/
theorem step_rule {K : World → Prop} {w : World} (step : Step) (stays : K w)
    (booted : step = .boot → w.up = false → ∀ v, containerManagerInit w.launched = (.done true, v) → K { v with up := true })
    (failed : step = .boot → w.up = false → ∀ outcome v, containerManagerInit w.launched = (outcome, v) → K v.crash)
    (served : w.up = true → ∀ (command : Command) value v, command.program w = (.done value, v) → K v)
    (cut : w.up = true → ∀ (command : Command) v, command.program w = (.cut, v) → K v.crash)
    (exited : w.up = true → K (cleanupAllContainers w).2.crash) : K (w.step step) := by
  cases step with
  | boot =>
    cases up : w.up with
    | true => simpa only [World.step, up, if_true] using stays
    | false =>
      simp only [World.step, up]
      rcases result : containerManagerInit w.launched with ⟨(- | -) | -, v⟩
      · exact failed rfl up _ v result
      · exact booted rfl up v result
      · exact failed rfl up _ v result
  | command command =>
    cases up : w.up with
    | false => simpa only [World.step, up, Bool.false_eq_true, if_false] using stays
    | true =>
      simp only [World.step, up, if_true]
      rcases result : command.program w with ⟨value | -, v⟩
      · exact served up command value v result
      · exact cut up command v result
  | exit =>
    cases up : w.up with
    | false => simpa only [World.step, up, Bool.false_eq_true, if_false] using stays
    | true => simpa only [World.step, up, if_true] using exited up

/-- What every step keeps holds after every run. -/
theorem run_rule {K : World → Prop} (kept : ∀ w, K w → ∀ step, K (w.step step)) {w : World} (holds : K w) (steps : List Step) :
    K (w.run steps) := by
  induction steps generalizing w with
  | nil => exact holds
  | cons first rest ih => exact ih (kept w holds first)

end World

/-! ## Every command is a chain of moves -/

theorem containerCreate_spec (spec : ContainerSpec) :
    Spec Move (fun w => w.memory.Settled) (containerCreate spec) fun _ w => w.memory.Settled := by
  refine of_settled fun m settled => bind_tick (.at m) fun allocated => ?_
  split
  · exact refused settled
  apply Spec.bind_read m.nextSequence (fun w same => by rw [same])
  refine .bind_modify (M := fun w => w.memory = m.draw) (fun w same => .draw w (same.symm ▸ settled))
    (fun w same => by simp only [World.remember, same]) ?_
  apply bind_tick (.at _)
  intro prepared
  split
  · refine .bind_modify (M := fun w => w.memory = { m.draw with draft := none }) (fun w _ => .abandon w)
      (fun w same => by simp only [World.remember, same]) ?_
    exact .pure fun w same => same ▸ { settled with draft := rfl }
  simp only
  generalize record_eq : createdRecord spec m.nextSequence prepared.path.1 = record
  have settled' : (m.draw.enroll record).Settled := { settled with draft := rfl }
  refine .bind_modify (M := fun w => w.memory = m.draw.enroll record) (fun w same => ?_)
    (fun w same => by simp only [World.enrolled, World.observe, World.remember, same]) ?_
  · rw [← record_eq]
    exact .enroll w spec m.nextSequence prepared.path (by rw [same]; rfl) (by rw [same]; exact settled.inflight)
  apply Spec.bind (saveMetadata_spec (.at _))
  intro saved
  cases saved with
  | true =>
    refine .bind (logEventType_spec (.at _) _) fun _ => .bind (quiet_spec (.at _) fun w _ => .note w _) fun _ => ?_
    exact refused settled'
  | false =>
    refine .bind_modify (M := fun w => w.memory = (m.draw.enroll record).unenroll) (fun w same => ?_)
      (fun w same => by simp only [World.remember, same]) ?_
    · refine .unenroll w ⟨record, false⟩ (by rw [same]; simp [Memory.enroll]) ?_ (by rw [same]; exact settled')
      rw [← record_eq]
      rfl
    · exact .pure fun w same => same ▸ { settled' with }

theorem containerRun_spec (spec : ContainerSpec) :
    Spec Move (fun w => w.memory.Settled) (containerRun spec) fun _ w => w.memory.Settled := by
  apply Spec.bind (containerCreate_spec spec)
  intro created
  cases created with
  | none => exact .pure fun _ settled => settled
  | some id =>
    apply Spec.bind (startContainerById_spec id false)
    intro started
    cases started with
    | false => exact .pure fun _ settled => settled
    | true =>
      apply Spec.bind_read_any
      intro found
      cases found with
      | none => exact .pure fun _ settled => settled
      | some i => exact waitForContainerProcess_spec i

theorem containerRunBackground_spec (spec : ContainerSpec) :
    Spec Move (fun w => w.memory.Settled) (containerRunBackground spec) fun _ w => w.memory.Settled := by
  apply Spec.bind (containerCreate_spec spec)
  intro created
  cases created with
  | none => exact .pure fun _ settled => settled
  | some id => exact startContainerById_spec id true

theorem containerStop_spec (id : Text) :
    Spec Move (fun w => w.memory.Settled) (containerStop id) fun _ w => w.memory.Settled := by
  unfold containerStop
  split
  · exact .pure fun _ settled => settled
  refine .bind pollStates_spec fun _ => .bind_read_any fun found => ?_
  cases found with
  | none => exact .pure fun _ settled => settled
  | some i => exact stopContainerProcess_spec i

theorem containerDelete_spec (id : Text) :
    Spec Move (fun w => w.memory.Settled) (containerDelete id) fun _ w => w.memory.Settled := by
  unfold containerDelete
  split
  · exact .pure fun _ settled => settled
  refine .bind pollStates_spec fun _ => of_settled fun m settled => ?_
  apply Spec.bind_read _ (fun w same => by rw [same])
  split
  · exact refused settled
  rename_i i c found
  split
  · exact refused settled
  rename_i down
  refine .bind_modify (M := fun w => w.memory = m.detach i c) (fun w same => ?_)
    (fun w same => by simp only [World.remember, same]) ?_
  · exact .detach w i c (by rw [same]; exact findContainer_at found) down (by rw [same]; exact settled)
  apply Spec.bind (saveMetadata_spec (.at _))
  intro saved
  cases saved with
  | true =>
    apply Spec.bind (logEventType_spec (.at _) _)
    intro _
    refine .bind_modify (M := fun w => w.memory = { m.detach i c with detached := none }) (fun w _ => .discard w)
      (fun w same => by simp only [World.remember, same]) ?_
    exact .pure fun w same => same ▸ { settled with detached := rfl }
  | false =>
    refine .bind_modify (M := fun w => w.memory = (m.detach i c).reattach c) (fun w same => ?_)
      (fun w same => by simp only [World.remember, same]) ?_
    · exact .reattach w c (by rw [same]; rfl) (by rw [same]; exact settled.inflight)
    · exact .pure fun w same => same ▸ { settled with detached := rfl }

/-! ## The `sched` commands -/

theorem TableCall.enabled {f : Scheduler → Scheduler} (call : TableCall f) (s : Scheduler) :
    (f s).enabled = s.enabled := by
  cases call with
  | add alloc pid => exact Scheduler.schedulerAddTarget_enabled alloc pid s
  | remove pid => exact Scheduler.schedulerRemoveTarget_enabled pid s
  | _ => rfl

theorem Quiet.sched {w w' : World} (quiet : Quiet w w') :
    w'.sweep = w.sweep ∧ w'.sched.enabled = w.sched.enabled := by
  cases quiet with
  | idle _ idle =>
    cases idle with
    | clock => exact ⟨rfl, rfl⟩
    | drift _ drift =>
      cases drift with
      | selects _ _ _ enabled => exact ⟨rfl, enabled⟩
      | _ => exact ⟨rfl, rfl⟩
  | table f call => exact ⟨rfl, call.enabled w.sched⟩
  | _ => exact ⟨rfl, rfl⟩

/-- A `sched` command is at work on this registry. -/
structure Scheduling (m : Memory) (sweep : Sweep) (enabled : Bool) (w : World) : Prop where
  memory : w.memory = m
  sweep : w.sweep = sweep
  enabled : w.sched.enabled = enabled

theorem Stable.scheduling (m : Memory) (sweep : Sweep) (enabled : Bool) : Stable (Scheduling m sweep enabled) := by
  intro w w' quiet here
  exact ⟨quiet.memory.trans here.memory, quiet.sched.1.trans here.sweep, quiet.sched.2.trans here.enabled⟩

theorem resumeFirst_spec {m : Memory} {pids : List Pid} (running : ∀ pid ∈ pids, pid ∈ m.runningPids) :
    Spec Move (Scheduling m .on true) (resumeFirst pids) fun _ => Scheduling m .on true := by
  have signalled : ∀ pid signal, pid ∈ m.runningPids → Spec Move (Scheduling m .on true)
      (do let _ ← tick; modify (·.signalled pid signal)) fun _ => Scheduling m .on true := by
    intro pid signal member
    refine bind_tick (.scheduling m .on true) fun _ => .modify (fun w here => ?_) fun w here => ⟨here.1, here.2, here.3⟩
    exact .signal w pid signal (here.memory.symm ▸ member) here.sweep
  cases pids with
  | nil => exact .pure fun _ here => here
  | cons first rest =>
    refine .bind (.forEach fun pid member => signalled pid .SIGSTOP ?_) fun _ => signalled first .SIGCONT ?_
    · exact running pid (List.mem_cons_of_mem first (List.mem_of_mem_filter member))
    · exact running first List.mem_cons_self

theorem resumeAll_spec (m : Memory) (pids : List Pid) :
    Spec Move (Scheduling m (.visiting pids) false) (resumeAll pids) fun _ => Scheduling m .off false := by
  induction pids with
  | nil => exact .modify (fun w here => .swept w here.sweep) fun w here => ⟨here.memory, rfl, here.enabled⟩
  | cons pid rest ih =>
    apply bind_tick (.scheduling m _ false)
    intro _
    refine .bind_modify (M := Scheduling m (.visiting rest) false) (fun w here => .sweepNext w pid rest here.sweep)
      (fun w here => ⟨here.memory, rfl, here.enabled⟩) ih

theorem refreshTargets_on_spec {m : Memory} (settled : m.Settled) :
    Spec Move (Scheduling m .on true) containerSchedulerRefreshTargets fun _ => Scheduling m .on true := by
  have stable := Stable.scheduling m .on true
  refine bind_tick stable fun _ => .bind_read true (fun w here => here.enabled) ?_
  apply Spec.bind (underMutex_spec stable .clear fun _ => List.nil_subset _)
  intro _
  apply Spec.bind_read m.runningPids (fun w here => by rw [here.memory])
  have added : ∀ pid ∈ m.runningPids, Spec Move (Scheduling m .on true) (containerSchedulerOnStarted pid) fun _ =>
      Scheduling m .on true := fun pid member =>
    onStarted_spec stable fun w here => by rw [here.memory]; exact ⟨member, settled⟩
  exact .bind (.forEach added) fun _ => resumeFirst_spec fun _ member => member

theorem refreshTargets_off_spec {m : Memory} (settled : m.Settled) :
    Spec Move (Scheduling m .ahead false) containerSchedulerRefreshTargets fun _ => Scheduling m .off false := by
  have stable := Stable.scheduling m .ahead false
  refine bind_tick stable fun _ => .bind_read false (fun w here => here.enabled) ?_
  apply Spec.bind (underMutex_spec stable .clear fun _ => List.nil_subset _)
  intro _
  apply Spec.bind_read m.runningPids (fun w here => by rw [here.memory])
  have added : ∀ pid ∈ m.runningPids, Spec Move (Scheduling m .ahead false) (containerSchedulerOnStarted pid) fun _ =>
      Scheduling m .ahead false := fun pid member =>
    onStarted_spec stable fun w here => by rw [here.memory]; exact ⟨member, settled⟩
  apply Spec.bind (.forEach added)
  intro _
  refine .bind_modify (M := Scheduling m (.visiting m.runningPids) false) (fun w here => ?_)
    (fun w here => ⟨here.memory, by rw [World.sweeping, here.memory], here.enabled⟩) (resumeAll_spec m _)
  exact .sweep w here.sweep (here.memory.symm ▸ settled)

theorem schedulerStart_spec {P : World → Prop} (stable : Stable P) (sliceMs : UInt32) :
    Spec Move P (schedulerStart sliceMs) fun _ => P := by
  refine bind_tick stable fun created => .bind (quiet_spec stable fun w _ => .table w _ (.slice sliceMs) fun _ member => .inl member) fun _ => ?_
  apply Spec.bind_read_any
  intro started
  split
  · exact .pure fun _ here => here
  · split
    · exact .bind (quiet_spec stable fun w _ => .table w _ (.thread false false) fun _ member => .inl member) fun _ => .pure fun _ here => here
    · exact .bind (quiet_spec stable fun w _ => .table w _ (.thread true false) fun _ member => .inl member) fun _ => .pure fun _ here => here

theorem schedulerSetTimeSliceMs_spec {P : World → Prop} (stable : Stable P) (timeSliceMs : UInt32) :
    Spec Move P (schedulerSetTimeSliceMs timeSliceMs) fun _ => P := by
  apply bind_tick stable
  intro _
  split
  · exact .pure fun _ here => here
  · apply Spec.bind (quiet_spec stable fun w _ => .table w _ (.slice timeSliceMs) fun _ member => .inl member)
    intro _
    exact .pure fun _ here => here

theorem schedOn_spec : Spec Move (fun w => w.memory.Settled) schedOn fun _ w => w.memory.Settled := by
  refine of_settled fun m settled => bind_tick (.at m) fun _ => .bind_read_any fun slice => ?_
  apply Spec.bind (schedulerStart_spec (.at m) _)
  intro started
  cases started with
  | false => exact refused settled
  | true =>
    apply bind_tick (.at m)
    intro _
    refine .bind_modify (M := Scheduling m .on true) (fun w _ => .enable w) (fun w same => ⟨same, rfl, rfl⟩) ?_
    apply Spec.bind (refreshTargets_on_spec settled)
    intro _
    exact (logEventType_spec (.scheduling m .on true) _).post fun _ w here => here.memory.symm ▸ settled

theorem schedOff_spec :
    Spec Move (fun w => w.memory.Settled) schedOff fun _ w => w.memory.Settled ∧ w.sweep = .off := by
  refine of_settled fun m settled => bind_tick (.at m) fun _ => ?_
  refine .bind_modify (M := Scheduling m .ahead false) (fun w _ => .disable w) (fun w same => ⟨same, rfl, rfl⟩) ?_
  apply Spec.bind (refreshTargets_off_spec settled)
  intro _
  exact (logEventType_spec (.scheduling m .off false) _).post fun _ w here => ⟨here.memory.symm ▸ settled, here.sweep⟩

/-! ## Start-up and shutdown -/

/-- `container_manager_init` has these records still to append. -/
def Memory.Loading (m : Memory) (records : List Record) : Prop :=
  Memory.Settled { m with restoring := [] } ∧ m.restoring = records

theorem restoreRecords_spec (file : Text) (records : List Record) :
    Spec (BootMove file) (fun w => w.memory.Loading records) (restoreRecords records) fun done w =>
      done = true → w.memory.Settled := by
  induction records with
  | nil => exact .pure fun w loading _ => { loading.1 with restoring := loading.2 }
  | cons record rest ih =>
    have stable : Stable fun w => w.memory.Loading (record :: rest) := .memory (·.Loading (record :: rest))
    have ticked : Spec (BootMove file) (fun w => w.memory.Loading (record :: rest)) tick fun _ w =>
        w.memory.Loading (record :: rest) := (stable.tick.post fun _ _ here => here.1).mono .move
    have appended : Spec (BootMove file) (fun w => w.memory.Loading (record :: rest)) (do
        modify (·.restored record rest)
        restoreRecords rest) fun done w => done = true → w.memory.Settled :=
      .bind_modify (M := fun w => w.memory.Loading rest) (fun w loading => .restore w record rest loading.2 loading.1.inflight)
        (fun w loading => ⟨{ loading.1 with }, rfl⟩) ih
    apply Spec.bind ticked
    intro allocated
    split
    · exact .pure fun _ _ absurd => by cases absurd
    simp only
    split
    · exact .bind ticked fun _ => appended
    · exact appended

theorem Memory.fresh_settled : Memory.fresh.Settled := ⟨rfl, rfl, rfl, rfl, rfl, rfl⟩

theorem Idle.disk {w w' : World} (idle : Idle w w') : w'.disk = w.disk := by
  cases idle with
  | clock => rfl
  | drift _ drift => cases drift <;> rfl

/-- A manager that has not read `containers.meta` yet. -/
structure Launched (disk : Option Text) (w : World) : Prop where
  memory : w.memory = .fresh
  disk : w.disk = disk
  never : w.sweep = .never

theorem Launched.idle {disk : Option Text} {w w' : World} (here : Launched disk w) (idle : Idle w w') :
    Launched disk w' :=
  ⟨idle.memory.trans here.memory, idle.disk.trans here.disk, (Quiet.idle w w' idle).sched.1.trans here.never⟩

theorem containerManagerInit_spec (disk : Option Text) :
    Spec (BootMove (disk.getD [])) (Launched disk) containerManagerInit fun done w =>
      done = true → w.memory.Settled := by
  have nothing : Spec (BootMove (disk.getD [])) (Launched disk) (pure true) fun done w =>
      done = true → w.memory.Settled := .pure fun w here _ => here.memory.symm ▸ Memory.fresh_settled
  have opened : Spec Move (Launched disk) tick fun _ => Launched disk :=
    (still_move fun w w' idle here => here.idle idle).tick.post fun _ _ here => here.1
  refine .bind (opened.mono .move) fun opened => .bind_read disk (fun w here => here.disk) ?_
  cases disk with
  | none => exact nothing
  | some file =>
    simp only
    split
    · exact nothing
    refine .bind_modify (M := fun w => w.memory.Loading (decodeRegistry file))
      (fun w here => .load w here.disk here.memory here.never)
      (fun w here => ⟨by simp only [World.remember, here.memory]; exact { Memory.fresh_settled with }, rfl⟩) ?_
    apply Spec.bind (restoreRecords_spec file _)
    intro done
    cases done with
    | false => exact .pure fun _ _ absurd => by cases absurd
    | true =>
      refine .mono (R := Move) ?_ .move
      refine .pre (P := fun w => w.memory.Settled) (.bind pollStates_spec fun _ => ?_) fun w here => here rfl
      split
      · exact .bind (logEventType_spec stable_settled _) fun _ => .pure fun _ settled _ => settled
      · exact .pure fun _ settled _ => settled

theorem schedulerStop_spec {P : World → Prop} (stable : Stable P) : Spec Move P schedulerStop fun _ => P :=
  stable.still.schedulerStop fun started stop w => stable.step (.table w _ (.thread started stop) fun _ member => .inl member)

theorem cleanupAllContainers_spec :
    Spec ExitMove (fun w => w.memory.Settled) cleanupAllContainers fun _ w => w.memory.Settled := by
  have stopped : ∀ count, Spec Move (fun w => w.memory.Settled)
      (forEach (fun i => do let _ ← stopContainerProcess i; pure ()) (List.range count)) fun _ w =>
      w.memory.Settled := fun count =>
    .forEach fun i _ => .bind (stopContainerProcess_spec i) fun _ => .pure fun _ settled => settled
  refine .bind (pollStates_spec.mono .move) fun _ => .bind_read_any fun count => ?_
  refine .bind ((stopped count).mono .move) fun _ => .bind ((saveMetadata_spec stable_settled).mono .move) fun _ => ?_
  apply Spec.bind_modify (M := fun w => w.memory.Settled) (fun w _ => .free w) (fun w settled => { settled with })
  exact (schedulerStop_spec stable_settled).mono .move

theorem Command.program_spec (command : Command) :
    Spec Move (fun w => w.memory.Settled) command.program fun _ w => w.memory.Settled := by
  have plain : ∀ {α : Type} {p : Prog World α}, Spec Move (fun w => w.memory.Settled) p (fun _ w => w.memory.Settled) →
      Spec Move (fun w => w.memory.Settled) (do let _ ← p) fun _ w => w.memory.Settled :=
    fun spec => .bind spec fun _ => .pure fun _ settled => settled
  cases command with
  | create spec => exact plain (containerCreate_spec spec)
  | run spec => exact plain (containerRun_spec spec)
  | runbg spec => exact plain (containerRunBackground_spec spec)
  | start id => exact plain (startContainerById_spec id true)
  | stop id => exact plain (containerStop_spec id)
  | delete id => exact plain (containerDelete_spec id)
  | poll => exact pollStates_spec
  | schedOn => exact schedOn_spec
  | schedOff => exact schedOff_spec.post fun _ _ here => here.1
  | schedSlice ms => exact plain (schedulerSetTimeSliceMs_spec stable_settled ms)
  | unknown word => exact logEventType_spec stable_settled _

/-! ## Steps of a run -/

theorem Move.up {w w' : World} (move : Move w w') : w'.up = w.up := by
  cases move with
  | quiet _ quiet =>
    cases quiet with
    | idle _ idle =>
      cases idle with
      | clock => rfl
      | drift _ drift => cases drift <;> rfl
    | _ => rfl
  | _ => rfl

/-- What was observed stays observed. -/
theorem BootMove.trace_grows {file : Text} {w w' : World} (move : BootMove file w w') : w.trace <+: w'.trace := by
  cases move with
  | move _ move =>
    cases move with
    | quiet _ quiet =>
      cases quiet with
      | idle _ idle =>
        cases idle with
        | clock => exact List.prefix_rfl
        | drift _ drift =>
          cases drift with
          | spawns | pauses | resumes => exact List.prefix_append _ _
          | _ => exact List.prefix_rfl
      | publish | note => exact List.prefix_append _ _
      | _ => exact List.prefix_rfl
    | kill | wait | reap | clone | killInflight | waitInflight | reapInflight | enroll => exact List.prefix_append _ _
    | _ => exact List.prefix_rfl
  | load => exact List.prefix_rfl
  | restore => exact List.prefix_append _ _

theorem BootMove.trace_subset {file : Text} {w w' : World} (move : BootMove file w w') : w.trace ⊆ w'.trace :=
  move.trace_grows.subset

/-- A command is a chain of moves to a settled memory, unless the manager is cut. -/
theorem World.command_cases {w : World} (command : Command) (up : w.up = true) (settled : w.memory.Settled) :
    (Relation.ReflTransGen Move w (w.step (.command command)) ∧ (w.step (.command command)).up = true ∧
      (w.step (.command command)).memory.Settled) ∨
    ∃ v, Relation.ReflTransGen Move w v ∧ w.step (.command command) = v.crash := by
  obtain ⟨chain, done⟩ := command.program_spec w settled
  have stays := command.program_spec.invariant (I := fun v => v.up = true) (fun _ _ move on => move.up.trans on)
    settled up
  simp only [World.step, up, if_true]
  rcases result : command.program w with ⟨outcome, v⟩
  rw [result] at chain done stays
  cases outcome with
  | done value => exact .inl ⟨chain, stays, done value rfl⟩
  | cut => exact .inr ⟨v, chain, rfl⟩

theorem World.run_commands_of_down {w : World} (down : w.up = false) (commands : List Command) :
    w.run (commands.map .command) = w := by
  induction commands with
  | nil => rfl
  | cons first rest ih =>
    have ignored : w.step (.command first) = w := by simp [World.step, down]
    rw [List.map_cons, World.run, List.foldl_cons, ignored]
    exact ih

/-- So is a list of commands. -/
theorem World.commands_cases {w : World} (commands : List Command) (up : w.up = true) (settled : w.memory.Settled) :
    let after := w.run (commands.map .command)
    (Relation.ReflTransGen Move w after ∧ after.up = true ∧ after.memory.Settled) ∨
      ∃ v, Relation.ReflTransGen Move w v ∧ after = v.crash := by
  induction commands generalizing w with
  | nil => exact .inl ⟨.refl, up, settled⟩
  | cons first rest ih =>
    rcases w.command_cases first up settled with ⟨chain, stays, settled⟩ | ⟨v, chain, gone⟩
    · rcases ih stays settled with ⟨later, ready⟩ | ⟨v, later, gone⟩
      · exact .inl ⟨chain.trans later, ready⟩
      · exact .inr ⟨v, chain.trans later, gone⟩
    · refine .inr ⟨v, chain, ?_⟩
      rw [List.map_cons, World.run, List.foldl_cons, gone]
      exact World.run_commands_of_down rfl rest

theorem World.boot_cases {w : World} (down : w.up = false) :
    ∃ v, Relation.ReflTransGen (BootMove (w.disk.getD [])) w.launched v ∧
      (w.step .boot = v.crash ∨ w.step .boot = { v with up := true } ∧ v.memory.Settled) := by
  obtain ⟨chain, done⟩ := containerManagerInit_spec w.disk w.launched ⟨rfl, rfl, rfl⟩
  simp only [World.step, down]
  rcases result : containerManagerInit w.launched with ⟨outcome, v⟩
  rw [result] at chain done
  refine ⟨v, chain, ?_⟩
  rcases outcome with (- | -) | -
  · exact .inl rfl
  · exact .inr ⟨rfl, done true rfl rfl⟩
  · exact .inl rfl

theorem World.exit_cases {w : World} (up : w.up = true) (settled : w.memory.Settled) :
    ∃ v, Relation.ReflTransGen ExitMove w v ∧ w.step .exit = v.crash := by
  refine ⟨_, (cleanupAllContainers_spec w settled).1, ?_⟩
  simp [World.step, up]

theorem ExitMove.trace_subset {w w' : World} (move : ExitMove w w') : w.trace ⊆ w'.trace := by
  cases move with
  | move _ move => exact (BootMove.move w w' move : BootMove [] w w').trace_subset
  | free => exact List.Subset.refl _

/-- A session, from a manager at rest to the next one or to its end. -/
theorem World.session_cases {w : World} (steps : List Step) (session : ∀ step ∈ steps, step ≠ .boot) (up : w.up = true)
    (settled : w.memory.Settled) :
    (Relation.ReflTransGen ExitMove w (w.run steps) ∧ (w.run steps).up = true ∧ (w.run steps).memory.Settled) ∨
      ∃ v, Relation.ReflTransGen ExitMove w v ∧ w.run steps = v.crash := by
  have finished : ∀ {v : World} {rest : List Step}, (∀ step ∈ rest, step ≠ .boot) → v.up = false → v.run rest = v := by
    intro v rest later down
    induction rest with
    | nil => rfl
    | cons first rest ih =>
      have ignored : v.step first = v := by
        cases first with
        | boot => exact absurd rfl (later .boot List.mem_cons_self)
        | command | exit => simp [World.step, down]
      rw [World.run, List.foldl_cons, ignored]
      exact ih fun step member => later step (List.mem_cons_of_mem first member)
  induction steps generalizing w with
  | nil => exact .inl ⟨.refl, up, settled⟩
  | cons first rest ih =>
    have later : ∀ step ∈ rest, step ≠ .boot := fun step member => session step (List.mem_cons_of_mem first member)
    have ended : ∀ v : World, w.step first = v.crash → w.run (first :: rest) = v.crash := by
      intro v gone
      rw [World.run, List.foldl_cons, gone]
      exact finished later rfl
    cases first with
    | boot => exact absurd rfl (session .boot List.mem_cons_self)
    | command command =>
      rcases w.command_cases command up settled with ⟨chain, stays, settled⟩ | ⟨v, chain, gone⟩
      · have chain := Relation.ReflTransGen.mono ExitMove.move _ _ chain
        rcases ih later stays settled with ⟨further, ready⟩ | ⟨v, further, gone⟩
        · exact .inl ⟨chain.trans further, ready⟩
        · exact .inr ⟨v, chain.trans further, gone⟩
      · exact .inr ⟨v, Relation.ReflTransGen.mono ExitMove.move _ _ chain, ended v gone⟩
    | exit =>
      obtain ⟨v, chain, gone⟩ := w.exit_cases up settled
      exact .inr ⟨v, chain, ended v gone⟩

/-- Between two steps of a run: no manager, or one that is at rest. -/
def World.Resting (w : World) : Prop :=
  w.up = false ∧ w.memory = .fresh ∨ w.up = true ∧ w.memory.Settled

theorem closed_of_chain {R : World → World → Prop} {I : World → Prop} (closed : ∀ w w', R w w' → I w → I w')
    {w w' : World} (chain : Relation.ReflTransGen R w w') (holds : I w) : I w' := by
  induction chain with
  | refl => exact holds
  | tail _ move ih => exact closed _ _ move ih

/-- What start-up, commands, shutdown and crashes all keep holds after any run. -/
theorem World.run_invariant {I : World → Prop} (boot : ∀ file w w', BootMove file w w' → I w → I w')
    (free : ∀ w, I w → I w.freed) (launch : ∀ w, I w → I w.launched) (crash : ∀ w, I w → I w.crash) (serve : ∀ w, I w → I { w with up := true })
    {w : World} (resting : w.Resting) (holds : I w) (steps : List Step) : (w.run steps).Resting ∧ I (w.run steps) := by
  have move : ∀ w w', Move w w' → I w → I w' := fun w w' move => boot [] w w' (.move w w' move)
  have exit : ∀ w w', ExitMove w w' → I w → I w' := by
    intro w w' step
    cases step with
    | move _ step => exact move w w' step
    | free => exact free w
  induction steps generalizing w with
  | nil => exact ⟨resting, holds⟩
  | cons first rest ih =>
    rw [World.run, List.foldl_cons]
    suffices next : (w.step first).Resting ∧ I (w.step first) from ih next.1 next.2
    rcases resting with ⟨down, fresh⟩ | ⟨up, settled⟩
    · cases first with
      | boot =>
        obtain ⟨v, chain, gone | ⟨ready, settled⟩⟩ := w.boot_cases down
        · rw [gone]
          exact ⟨.inl ⟨rfl, rfl⟩, crash v (closed_of_chain (boot _) chain (launch w holds))⟩
        · rw [ready]
          exact ⟨.inr ⟨rfl, settled⟩, serve v (closed_of_chain (boot _) chain (launch w holds))⟩
      | command command => simpa [World.step, down, World.Resting, fresh] using holds
      | exit => simpa [World.step, down, World.Resting, fresh] using holds
    · cases first with
      | boot => simpa [World.step, up, World.Resting, settled] using holds
      | command command =>
        rcases w.command_cases command up settled with ⟨chain, stays, settled⟩ | ⟨v, chain, gone⟩
        · exact ⟨.inr ⟨stays, settled⟩, closed_of_chain move chain holds⟩
        · rw [gone]
          exact ⟨.inl ⟨rfl, rfl⟩, crash v (closed_of_chain move chain holds)⟩
      | exit =>
        obtain ⟨v, chain, gone⟩ := w.exit_cases up settled
        rw [gone]
        exact ⟨.inl ⟨rfl, rfl⟩, crash v (closed_of_chain exit chain holds)⟩

/-- An invariant may rest on what is observed in the run. -/
theorem World.run_observed_invariant (Good : Obs → Prop) (I : World → Prop)
    (boot : ∀ file w w', BootMove file w w' → (∀ obs ∈ w'.trace, Good obs) → I w → I w')
    (free : ∀ w, I w → I w.freed) (launch : ∀ w, I w → I w.launched) (crash : ∀ w, I w → I w.crash)
    (serve : ∀ w, I w → I { w with up := true }) {w : World} (resting : w.Resting) (holds : I w) (steps : List Step) :
    (w.run steps).Resting ∧ ((∀ obs ∈ (w.run steps).trace, Good obs) → I (w.run steps)) := by
  refine World.run_invariant (I := fun v => (∀ obs ∈ v.trace, Good obs) → I v) ?_ ?_ ?_ ?_ ?_ resting (fun _ => holds) steps
  · exact fun file v v' move holds good => boot file v v' move good (holds fun obs member => good obs (move.trace_subset member))
  · exact fun v holds good => free v (holds good)
  · exact fun v holds good => launch v (holds good)
  · exact fun v holds good => crash v (holds fun obs member => good obs (List.mem_append_left _ member))
  · exact fun v holds good => serve v (holds good)

end ContainerRuntime
