import ContainerRuntime.Manager.Commands
import ContainerRuntime.Manager.Footprints

/-! What an operation must see to, apart from the registry itself.

The list of containers is kept in step with other things: the table of the
scheduler, the log, the file. An `Upkeep` names the stages an operation goes
through on its way, and says that each fragment between two of them leads from
the one to the next. Then every command leads from rest to rest.
-/

set_option autoImplicit false

namespace ContainerRuntime

open CString Cli Program
open Prog (read modify forEach)

/-- The container and the state its log entry puts it in; no state for the other messages. -/
def LogEvent.transition : LogEvent → Option (Text × ContainerState)
  | .created record => some (record.id.text, .CREATED)
  | .started record _ => some (record.id.text, .RUNNING)
  | .exited id _ _ | .recovered id | .stopped id _ => some (id, .STOPPED)
  | _ => none

/-- The container at this position of the list. -/
def World.Here (w : World) (i : Nat) (c : Container) : Prop := w.memory.registry[i]? = some c

theorem World.here_of {w : World} {registry : List Container} {i : Nat} {c : Container}
    (same : w.memory.registry = registry) (here : registry[i]? = some c) : w.Here i c := by rw [World.Here, same, here]

/-- `sync_container_state`, given what it does once the process has been reaped or found to be gone. -/
theorem syncContainerState_rule {R : World → World → Prop} {P : World → Prop} {i : Nat}
    (waits : ∀ c, Spec R (fun w => P w ∧ w.Here i c) (waitpidNoHang c.pid) fun _ w => P w ∧ w.Here i c)
    (looks : ∀ c, Spec R (fun w => P w ∧ w.Here i c) (isPidAlive c.pid) fun _ w => P w ∧ w.Here i c)
    (reaped : ∀ c status, c.running = true → Spec R (fun w => P w ∧ w.Here i c) (do
      modify (·.remember (·.retire i))
      containerSchedulerOnStopped c.pid
      logEventType (.exited c.id.text (lit "reaped by manager") status)
      pure true) fun _ => P)
    (recovered : ∀ c, c.running = true → Spec R (fun w => P w ∧ w.Here i c) (do
      modify (·.givenUp c.pid)
      modify (·.remember (·.retire i))
      logEventType (.recovered c.id.text)
      pure true) fun _ => P) : Spec R P (syncContainerState i) fun _ => P := by
  refine .fix (·.memory.registry[i]?) fun found => .bind_read found (fun w here => here.2) ?_
  cases found with
  | none => exact .pure fun _ here => here.1
  | some c =>
    simp only
    split
    · exact .pure fun _ here => here.1
    rename_i running
    have running : c.running = true := by simpa using running
    apply Spec.bind (waits c)
    intro result
    rcases result with error | - | status
    · simp only
      split
      · apply Spec.bind (looks c)
        intro alive
        split
        · exact .pure fun _ here => here.1
        · exact recovered c running
      · exact .pure fun _ here => here.1
    · exact .pure fun _ here => here.1
    · exact reaped c status running

structure Upkeep (R : World → World → Prop) where
  /-- Between two operations. -/
  rest : World → Prop
  /-- The container has a process, which is not in the file yet. -/
  adopted : Nat → Container → World → Prop
  /-- It is in the file, but not in the log yet. -/
  filed : Nat → Container → World → Prop
  /-- It is in the log, but the scheduler has not been told. -/
  foreground : Nat → Container → World → Prop
  /-- The new record is in the list only. -/
  enrolled : Nat → Record → World → Prop
  /-- It is in the file, but not in the log yet. -/
  listed : Nat → Record → World → Prop
  /-- It is in the log, and its id is about to be returned. -/
  chronicled : Nat → Record → World → Prop
  /-- The record has left the list only. -/
  detached : Container → World → Prop
  /-- It has left the file. -/
  removed : Container → World → Prop
  sided : Sided R rest
  sided_foreground : ∀ i c, Sided R (foreground i c)
  at_rest : ∀ i c w, foreground i c w → rest w
  save : Spec R rest saveMetadata fun _ => rest
  remark : ∀ entry : LogEvent, entry.transition = none → Spec R rest (logEventType entry) fun _ => rest
  target : ∀ pid, Spec R (fun w => rest w ∧ pid ∈ w.memory.runningPids) (containerSchedulerOnStarted pid) fun _ => rest
  /-- `sync_container_state` has reaped the process. -/
  reaped : ∀ i c status, c.running = true → Spec R (fun w => rest w ∧ w.Here i c) (do
    modify (·.remember (·.retire i))
    containerSchedulerOnStopped c.pid
    logEventType (.exited c.id.text (lit "reaped by manager") status)
    pure true) fun _ => rest
  /-- It has found the process gone. -/
  recovered : ∀ i c, c.running = true → Spec R (fun w => rest w ∧ w.Here i c) (do
    modify (·.givenUp c.pid)
    modify (·.remember (·.retire i))
    logEventType (.recovered c.id.text)
    pure true) fun _ => rest
  marked : ∀ i c, c.running = true →
    Spec R (fun w => rest w ∧ w.Here i c) (stopContainerProcess.markStopped i c) fun _ => rest
  finished : ∀ i c moved status, c.running = true →
    Spec R (fun w => foreground i c w ∧ w.Here i c) (waitForContainerProcess.finish i c moved status) fun _ => rest
  begun : ∀ i c, c.state ≠ .RUNNING →
    Spec R (fun w => rest w ∧ w.Here i c) (modify (·.remember (·.beginStart i))) fun _ => rest
  aborted : ∀ i c, c.state ≠ .RUNNING →
    Spec R (fun w => rest w ∧ w.Here i c) (modify (·.remember (·.abortStart i))) fun _ => rest
  adopt : ∀ i (c : Container) pid, c.state ≠ .RUNNING → 0 < pid →
    Spec R (fun w => rest w ∧ w.Here i c) (modify (·.remember (·.adopt i pid))) fun _ =>
      adopted i { c with state := .RUNNING, pid := pid }
  adopted_save : ∀ i c, Spec R (adopted i c) saveMetadata fun saved w => if saved then filed i c w else rest w
  started : ∀ i c, c.running = true →
    Spec R (filed i c) (logEventType (.started c.toRecord namespacePid)) fun _ => foreground i c
  draw : Spec R rest (modify (·.remember (·.draw))) fun _ => rest
  abandon : Spec R rest (modify (·.remember fun m => { m with draft := none })) fun _ => rest
  enroll : ∀ spec sequence (resolved : ResolvedPath), Spec R (fun w => rest w ∧ w.memory.draft = some sequence)
    (modify (·.enrolled (createdRecord spec sequence resolved.1))) fun _ =>
      enrolled sequence (createdRecord spec sequence resolved.1)
  enrolled_save : ∀ sequence record, Spec R (enrolled sequence record) saveMetadata fun saved =>
    if saved then listed sequence record else enrolled sequence record
  created : ∀ sequence record,
    Spec R (listed sequence record) (logEventType (.created record)) fun _ => chronicled sequence record
  issue : ∀ sequence record,
    Spec R (chronicled sequence record) (modify (·.issued sequence record.id.text)) fun _ => rest
  unenroll : ∀ sequence record, Spec R (enrolled sequence record) (modify (·.remember (·.unenroll))) fun _ => rest
  detach : ∀ i c, c.state ≠ .RUNNING →
    Spec R (fun w => rest w ∧ w.Here i c) (modify (·.remember (·.detach i c))) fun _ => detached c
  detached_save : ∀ c, Spec R (detached c) saveMetadata fun saved => if saved then removed c else detached c
  deleted : ∀ c, Spec R (removed c) (logEventType (.deleted c.id.text)) fun _ => removed c
  discard : ∀ c, Spec R (removed c) (modify (·.remember fun m => { m with detached := none })) fun _ => rest
  reattach : ∀ c, c.state ≠ .RUNNING → Spec R (detached c) (modify (·.remember (·.reattach c))) fun _ => rest

theorem findContainer_modify {id : Text} {registry : List Container} {i j : Nat} {f : Container → Container}
    (named : ∀ c, (f c).id = c.id) (found : findContainer id registry = some i) :
    findContainer id (registry.modify j f) = some i := by
  have same : (registry.modify j f).map (·.id) = registry.map (·.id) := by
    apply List.ext_getElem?
    intro k
    simp only [List.getElem?_map, List.getElem?_modify]
    cases registry[k]? with
    | none => simp
    | some c => split <;> simp [named]
  have byId : ∀ l : List Container, findContainer id l = (l.map (·.id)).findIdx? fun name => name.text = id := by
    intro l
    rw [findContainer, List.findIdx?_map]
    rfl
  rw [byId, same, ← byId, found]

namespace Upkeep

variable {R : World → World → Prop} (keep : Upkeep R)

theorem still : Still R keep.rest := keep.sided.still

/-- The container at a known position stays there while nothing happens to the list. -/
theorem sided_here (i : Nat) (c : Container) : Sided R fun w => keep.rest w ∧ w.Here i c :=
  keep.sided.registry (·[i]? = some c)

theorem refuse {α : Type} {value : α} : Spec R keep.rest (pure value) fun _ => keep.rest := .pure fun _ holds => holds

/-! ## Polling, stopping and waiting -/

theorem syncContainerState (i : Nat) : Spec R keep.rest (syncContainerState i) fun _ => keep.rest :=
  syncContainerState_rule (fun c => (keep.sided_here i c).waitpidNoHang c.pid) (fun c => (keep.sided_here i c).isPidAlive c.pid)
    (keep.reaped i) (keep.recovered i)

theorem pollStates : Spec R keep.rest pollStates fun _ => keep.rest := pollStates_rule keep.syncContainerState keep.save

theorem stopContainerProcess (i : Nat) : Spec R keep.rest (stopContainerProcess i) fun _ => keep.rest := by
  have failed : ∀ entry : LogEvent, entry.transition = none →
      Spec R keep.rest (do logEventType entry; pure false) fun _ => keep.rest :=
    fun entry minor => .bind (keep.remark entry minor) fun _ => keep.refuse
  refine .fix (·.memory.registry[i]?) fun found => .bind_read found (fun w here => here.2) ?_
  cases found with
  | none => exact .pure fun _ here => here.1
  | some c =>
    simp only
    split
    · exact .pure fun _ here => here.1
    rename_i running
    have running : c.running = true := by simpa using running
    apply Spec.bind ((keep.sided_here i c).kill c.id.text c.pid)
    intro killed
    split
    · exact (failed _ rfl).pre fun _ here => here.1
    apply Spec.bind ((keep.sided_here i c).waitpid c.pid)
    intro result
    cases result with
    | error error =>
      simp only
      split
      · exact (failed _ rfl).pre fun _ here => here.1
      · exact keep.marked i c running
    | ok status => exact keep.marked i c running

theorem waitForContainerProcess (i : Nat) (c : Container) (running : c.running = true) :
    Spec R (fun w => keep.foreground i c w ∧ w.Here i c) (waitForContainerProcess i) fun _ => keep.rest := by
  have sided : Sided R fun w => keep.foreground i c w ∧ w.Here i c := (keep.sided_foreground i c).registry (·[i]? = some c)
  have unchanged : Spec R (fun w => keep.foreground i c w ∧ w.Here i c) (pure false) fun _ => keep.rest :=
    .pure fun w here => keep.at_rest i c w here.1
  apply Spec.bind_read (some c) (fun w here => here.2)
  simp only [running, Bool.true_eq_false, if_false]
  refine .bind sided.moveTerminalForeground fun ⟨moved, _⟩ => ?_
  apply Spec.bind (sided.waitpid c.pid)
  intro result
  cases result with
  | error error =>
    apply Spec.bind (sided.restoreTerminal moved error)
    intro errno
    split
    · apply Spec.bind (sided.isPidAlive c.pid)
      intro alive
      split
      · exact unchanged
      · exact keep.finished i c moved _ running
    · exact unchanged
  | ok status => exact keep.finished i c moved status running

/-! ## Starting -/

theorem startContainerById (id : Text) (scheduleTarget : Bool) :
    Spec R keep.rest (startContainerById id scheduleTarget) fun ok w => keep.rest w ∧
      (ok = true → scheduleTarget = false → ∃ i c, findContainer id w.memory.registry = some i ∧ c.running = true ∧
        keep.foreground i c w ∧ w.Here i c) := by
  have refused : ∀ {P : World → Prop}, (∀ w, P w → keep.rest w) →
      Spec R P (pure false) fun ok w => keep.rest w ∧
        (ok = true → scheduleTarget = false → ∃ i c, findContainer id w.memory.registry = some i ∧ c.running = true ∧
          keep.foreground i c w ∧ w.Here i c) := fun resting => .pure fun w holds => ⟨resting w holds, fun ok => by cases ok⟩
  unfold ContainerRuntime.startContainerById
  split
  · exact refused fun _ holds => holds
  refine .bind keep.pollStates fun _ => .fix (·.memory.registry) fun registry => ?_
  apply Spec.bind_read _ (fun w same => by rw [same.2])
  split
  · exact refused fun _ holds => holds.1
  rename_i i c found
  have here : registry[i]? = some c := findContainer_at (m := { Memory.fresh with registry := registry }) found
  have named : findContainer id registry = some i := by
    cases position : findContainer id registry with
    | none => simp [position] at found
    | some j =>
      cases record : registry[j]? with
      | none => simp [position, record] at found
      | some d =>
        simp only [position, Option.bind_some, record, Option.map_some, Option.some.injEq, Prod.mk.injEq] at found
        rw [found.1]
  split
  · exact refused fun _ holds => holds.1
  rename_i down
  apply (keep.sided.registry (· = registry)).bind_tick
  intro stack
  split
  · exact refused fun _ holds => holds.1
  -- From here on the record at position `i` differs from the one that was found.
  let begun := registry.modify i fun c => { c with stack := true }
  have here' : begun[i]? = some { c with stack := true } := by simp [begun, List.getElem?_modify_eq, here]
  refine .bind (.modify_also (T := (·.memory.registry = begun)) ((keep.begun i c down).pre fun w holds => ?_) fun w holds => ?_)
    fun _ => ?_
  · exact ⟨holds.1, World.here_of holds.2 here⟩
  · exact congrArg (List.modify · i _) holds.2
  apply Spec.bind ((keep.sided.registry (· = begun)).namespaceStartContainer c)
  intro result
  cases result with
  | error error =>
    refine .bind (((keep.remark _ rfl).and (logEventType_spec (.memory (·.registry = begun)) _)).pre fun w holds => holds.1)
      fun _ => ?_
    apply Spec.bind ((keep.aborted i { c with stack := true } down).pre fun w holds => ⟨holds.1, World.here_of holds.2 here'⟩)
    intro _
    exact refused fun _ holds => holds
  | ok pid =>
    apply Spec.given (0 < pid) (fun w holds => holds.2 pid rfl)
    intro positive
    let after : Container := { c with stack := true, state := .RUNNING, pid := pid }
    have running : after.running = true := by simp [after, Record.running, positive]
    let adopted := begun.modify i fun c => { c with state := .RUNNING, pid := pid }
    have there : adopted[i]? = some after := by simp [adopted, after, List.getElem?_modify_eq, here']
    have stable : Stable fun w => w.memory.registry = adopted := .memory (·.registry = adopted)
    refine .bind (.modify_also (T := (·.memory.registry = adopted))
      ((keep.adopt i { c with stack := true } pid down positive).pre fun w holds => ?_) fun w holds => ?_) fun _ => ?_
    · exact ⟨holds.1.1, World.here_of holds.1.2 here'⟩
    · exact congrArg (List.modify · i _) holds.1.2
    apply Spec.bind ((keep.adopted_save i after).and (saveMetadata_spec stable))
    intro saved
    cases saved with
    | true =>
      apply Spec.bind ((keep.started i after running).and (logEventType_spec stable _))
      intro _
      simp only
      split
      · rename_i scheduled
        refine .bind ((keep.target pid).pre fun w holds => ⟨keep.at_rest i after w holds.1, ?_⟩) fun _ => ?_
        · exact Memory.mem_runningPids (m := w.memory) (World.here_of holds.2 there) running
        · exact .pure fun w holds => ⟨holds, fun _ off => by rw [scheduled] at off; cases off⟩
      · refine .pure fun w holds => ⟨keep.at_rest i after w holds.1, fun _ _ => ⟨i, after, ?_, running, holds.1, ?_⟩⟩
        · rw [holds.2]
          exact findContainer_modify (fun _ => rfl) (findContainer_modify (fun _ => rfl) named)
        · exact World.here_of holds.2 there
    | false =>
      apply Spec.bind ((keep.stopContainerProcess i).pre fun w holds => holds.1)
      intro _
      exact refused fun _ holds => holds

/-! ## The other commands -/

theorem containerCreate (spec : ContainerSpec) : Spec R keep.rest (containerCreate spec) fun _ => keep.rest := by
  apply keep.sided.bind_tick
  intro allocated
  split
  · exact keep.refuse
  refine .fix (·.memory.nextSequence) fun sequence => .bind_read sequence (fun w same => same.2) ?_
  refine .bind (.modify_also (T := (·.memory.draft = some sequence)) (keep.draw.pre fun w holds => holds.1) fun w holds => ?_)
    fun _ => ?_
  · exact congrArg some holds.2
  apply (keep.still.memory (·.draft = some sequence)).bind_tick
  intro prepared
  split
  · exact .bind (keep.abandon.pre fun w holds => holds.1) fun _ => keep.refuse
  simp only
  refine .bind (keep.enroll spec sequence prepared.path) fun _ => .bind (keep.enrolled_save _ _) fun saved => ?_
  cases saved with
  | true => exact .bind (keep.created _ _) fun _ => .bind (keep.issue _ _) fun _ => keep.refuse
  | false => exact .bind (keep.unenroll _ _) fun _ => keep.refuse

theorem containerRun (spec : ContainerSpec) : Spec R keep.rest (containerRun spec) fun _ => keep.rest := by
  apply Spec.bind (keep.containerCreate spec)
  intro created
  cases created with
  | none => exact keep.refuse
  | some id =>
    apply Spec.bind (keep.startContainerById id false)
    intro started
    cases started with
    | false => exact .pure fun _ holds => holds.1
    | true =>
      intro w holds
      obtain ⟨i, c, found, running, ready, here⟩ := holds.2 rfl rfl
      refine Spec.bind_read (P := fun v => (keep.foreground i c v ∧ v.Here i c) ∧ findContainer id v.memory.registry = some i)
        (some i) (fun v known => known.2) ?_ w ⟨⟨ready, here⟩, found⟩
      exact (keep.waitForContainerProcess i c running).pre fun v known => known.1

theorem containerRunBackground (spec : ContainerSpec) :
    Spec R keep.rest (containerRunBackground spec) fun _ => keep.rest := by
  apply Spec.bind (keep.containerCreate spec)
  intro created
  cases created with
  | none => exact keep.refuse
  | some id => exact (keep.startContainerById id true).post fun _ _ holds => holds.1

theorem containerStop (id : Text) : Spec R keep.rest (containerStop id) fun _ => keep.rest := by
  unfold ContainerRuntime.containerStop
  split
  · exact keep.refuse
  refine .bind keep.pollStates fun _ => .bind_read_any fun found => ?_
  cases found with
  | none => exact keep.refuse
  | some i => exact keep.stopContainerProcess i

theorem containerDelete (id : Text) : Spec R keep.rest (containerDelete id) fun _ => keep.rest := by
  unfold ContainerRuntime.containerDelete
  split
  · exact keep.refuse
  refine .bind keep.pollStates fun _ => .fix (·.memory.registry) fun registry => ?_
  apply Spec.bind_read _ (fun w same => by rw [same.2])
  split
  · exact .pure fun _ holds => holds.1
  rename_i i c found
  have here : registry[i]? = some c := findContainer_at (m := { Memory.fresh with registry := registry }) found
  split
  · exact .pure fun _ holds => holds.1
  rename_i down
  apply Spec.bind ((keep.detach i c down).pre fun w holds => ⟨holds.1, World.here_of holds.2 here⟩)
  intro _
  apply Spec.bind (keep.detached_save c)
  intro saved
  cases saved with
  | true => exact .bind (keep.deleted c) fun _ => .bind (keep.discard c) fun _ => keep.refuse
  | false => exact .bind (keep.reattach c down) fun _ => keep.refuse

/-! ## The `sched` commands -/

theorem signalled (pid : Pid) (signal : Signal) :
    Spec R keep.rest (do let _ ← tick; modify (·.signalled pid signal)) fun _ => keep.rest :=
  keep.sided.bind_tick fun _ => keep.sided.modify fun _ => .of_eq rfl rfl rfl rfl rfl rfl rfl (Procs.kill_vacant pid signal)

theorem resumeFirst (pids : List Pid) : Spec R keep.rest (resumeFirst pids) fun _ => keep.rest := by
  cases pids with
  | nil => exact keep.refuse
  | cons first rest =>
    exact .bind (.forEach fun pid _ => keep.signalled pid .SIGSTOP) fun _ => keep.signalled first .SIGCONT

theorem resumeAll (pids : List Pid) : Spec R keep.rest (resumeAll pids) fun _ => keep.rest := by
  induction pids with
  | nil => exact keep.sided.modify fun _ => .of_eq rfl rfl rfl rfl rfl rfl rfl fun _ => id
  | cons pid rest ih =>
    refine keep.sided.bind_tick fun _ => .bind (keep.sided.modify fun _ => ?_) fun _ => ih
    exact .of_eq rfl rfl rfl rfl rfl rfl rfl (Procs.kill_vacant pid .SIGCONT)

theorem refreshTargets : Spec R keep.rest containerSchedulerRefreshTargets fun _ => keep.rest := by
  refine keep.sided.bind_tick fun _ => .bind_read_any fun enabled => ?_
  apply Spec.bind (keep.sided.underMutex (fun _ => List.nil_subset _) fun _ _ => List.nodup_nil)
  intro _
  refine .fix (·.memory.registry) fun registry => .bind_read (pidsOf registry) (fun w same => congrArg pidsOf same.2) ?_
  refine .bind (Q := fun _ => keep.rest) ?_ fun _ => ?_
  · refine (Spec.forEach (I := fun w => keep.rest w ∧ w.memory.registry = registry) fun pid member => ?_).post
      fun _ _ holds => holds.1
    have stays : Spec (fun _ _ => True) (fun w => w.memory.registry = registry) (containerSchedulerOnStarted pid) fun _ w =>
        w.memory.registry = registry :=
      Still.bind_tick (fun w w' idle same => ⟨trivial, idle.memory ▸ same⟩) fun _ =>
        .modify (fun _ _ => trivial) fun _ same => same
    refine ((keep.target pid).and stays).pre fun w holds => ⟨⟨holds.1, ?_⟩, holds.2⟩
    rw [Memory.runningPids, holds.2]
    exact member
  · split
    · exact keep.resumeFirst _
    · refine .bind (keep.sided.modify fun _ => ?_) fun _ => keep.resumeAll _
      exact .of_eq rfl rfl rfl rfl rfl rfl rfl fun _ => id

theorem schedulerStart (sliceMs : UInt32) : Spec R keep.rest (schedulerStart sliceMs) fun _ => keep.rest := by
  have flags : ∀ started stop, Spec R keep.rest
      (modify (·.scheduled fun s => { s with threadStarted := started, stopRequested := stop })) fun _ => keep.rest :=
    fun _ _ => keep.sided.modify fun _ => .of_eq rfl rfl rfl rfl rfl rfl rfl fun _ => id
  refine keep.sided.bind_tick fun created => .bind (keep.sided.modify fun _ => .of_eq rfl rfl rfl rfl rfl rfl rfl fun _ => id) fun _ => ?_
  apply Spec.bind_read_any
  intro started
  split
  · exact keep.refuse
  · split
    · exact .bind (flags false false) fun _ => keep.refuse
    · exact .bind (flags true false) fun _ => keep.refuse

theorem schedOn : Spec R keep.rest schedOn fun _ => keep.rest := by
  refine keep.sided.bind_tick fun _ => .bind_read_any fun slice => .bind (keep.schedulerStart _) fun started => ?_
  split
  · refine keep.sided.bind_tick fun _ => .bind (keep.sided.modify fun _ => .of_eq rfl rfl rfl rfl rfl rfl rfl fun _ => id) fun _ => ?_
    exact .bind keep.refreshTargets fun _ => keep.remark _ rfl
  · exact keep.refuse

theorem schedOff : Spec R keep.rest schedOff fun _ => keep.rest := by
  refine keep.sided.bind_tick fun _ => .bind (keep.sided.modify fun _ => .of_eq rfl rfl rfl rfl rfl rfl rfl fun _ => id) fun _ => ?_
  exact .bind keep.refreshTargets fun _ => keep.remark _ rfl

theorem schedulerSetTimeSliceMs (timeSliceMs : UInt32) :
    Spec R keep.rest (schedulerSetTimeSliceMs timeSliceMs) fun _ => keep.rest := by
  apply keep.sided.bind_tick
  intro _
  split
  · exact keep.refuse
  · exact .bind (keep.sided.modify fun _ => .of_eq rfl rfl rfl rfl rfl rfl rfl fun _ => id) fun _ => keep.refuse

theorem schedulerStop {P : World → Prop} (sided : Sided R P) : Spec R P schedulerStop fun _ => P :=
  sided.still.schedulerStop fun _ _ w => sided w _ (.of_eq rfl rfl rfl rfl rfl rfl rfl fun _ => id)

theorem cleanupAllContainers {P : World → Prop} (sided : Sided R P) (freed : ∀ w, keep.rest w → R w w.freed ∧ P w.freed) :
    Spec R keep.rest cleanupAllContainers fun _ => P := by
  refine .bind keep.pollStates fun _ => .bind_read_any fun count => ?_
  apply Spec.bind (.forEach fun i _ => .bind (keep.stopContainerProcess i) fun _ => keep.refuse)
  intro _
  apply Spec.bind keep.save
  intro _
  exact .bind_modify (fun w holds => (freed w holds).1) (fun w holds => (freed w holds).2) (schedulerStop sided)

/-- Every command leads from rest to rest. -/
theorem command (command : Command) : Spec R keep.rest command.program fun _ => keep.rest := by
  have plain : ∀ {α : Type} {p : Prog World α}, Spec R keep.rest p (fun _ => keep.rest) →
      Spec R keep.rest (do let _ ← p) fun _ => keep.rest := fun spec => .bind spec fun _ => keep.refuse
  cases command with
  | create spec => exact plain (keep.containerCreate spec)
  | run spec => exact plain (keep.containerRun spec)
  | runbg spec => exact plain (keep.containerRunBackground spec)
  | start id => exact plain ((keep.startContainerById id true).post fun _ _ holds => holds.1)
  | stop id => exact plain (keep.containerStop id)
  | delete id => exact plain (keep.containerDelete id)
  | poll => exact keep.pollStates
  | schedOn => exact keep.schedOn
  | schedOff => exact keep.schedOff
  | schedSlice ms => exact plain (keep.schedulerSetTimeSliceMs ms)
  | unknown word => exact keep.remark _ rfl

end Upkeep

end ContainerRuntime
