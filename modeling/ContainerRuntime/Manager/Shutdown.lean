import ContainerRuntime.Manager.Durability
import ContainerRuntime.Manager.Accounting
import ContainerRuntime.Manager.Upkeep

/-! The way out: `cleanup_all_containers`.

Three passes over the list change the registry, the file and the table of the
scheduler together. What they leave is followed through the calls they make;
whether those calls have succeeded is read off what the run has reported.
-/

set_option autoImplicit false

namespace ContainerRuntime

open CString Cli Program
open Prog (read modify forEach)

/-! ## Between operations -/

/-- A record that is RUNNING has a process to stop. -/
def Record.Stoppable (record : Record) : Prop := record.state = .RUNNING → 0 < record.pid

theorem Record.stoppable_of_down {record : Record} (down : record.state ≠ .RUNNING) : record.Stoppable :=
  fun running => absurd running down

/-- What every manager keeps to, whatever file it started from. -/
structure World.Steady (w : World) : Prop where
  stoppable : ∀ record ∈ w.memory.owned, record.Stoppable
  targets : w.sched.targets.Nodup

namespace World.Steady

variable {w w' : World}

/-- One record of the list changes in place. -/
theorem modify {i : Nat} {c : Container} {f : Container → Container} {g : Memory → Memory} (steady : w.Steady)
    (here : w.memory.registry[i]? = some c) (changes : (g w.memory).registry = w.memory.registry.modify i f)
    (detached : (g w.memory).detached = w.memory.detached) (changed : (f c).toRecord.Stoppable) : (w.remember g).Steady := by
  obtain ⟨front, back, parts, -, modified, -⟩ := List.split_at here
  refine ⟨fun record member => ?_, steady.targets⟩
  have inside : record = (f c).toRecord ∨ record ∈ w.memory.owned := by
    simp only [World.remember, Memory.owned, Memory.records, changes, modified f, detached, List.map_append, List.map_cons,
      List.mem_append, List.mem_cons] at member
    simp only [Memory.owned, Memory.records, parts, List.map_append, List.map_cons, List.mem_append, List.mem_cons]
    tauto
  rcases inside with rfl | known
  · exact changed
  · exact steady.stoppable record known

/-- Records come from the list or from the one that is being deleted, or are new. -/
theorem of_owned {g : Memory → Memory} (steady : w.Steady)
    (known : ∀ record ∈ (g w.memory).owned, record ∈ w.memory.owned ∨ record.Stoppable) : (w.remember g).Steady := by
  refine ⟨fun record member => ?_, steady.targets⟩
  rcases known record member with before | new
  · exact steady.stoppable record before
  · exact new

theorem here {i : Nat} {c : Container} (steady : w.Steady) (here : w.memory.registry[i]? = some c) : c.toRecord.Stoppable :=
  steady.stoppable _ (List.mem_append_left _ (List.mem_map_of_mem (List.mem_of_getElem? here)))

/-- The table is changed by the calls of `scheduler.c`. -/
theorem table {f : Scheduler → Scheduler} (steady : w.Steady) (call : TableCall f) : (w.scheduled f).Steady := by
  refine ⟨steady.stoppable, ?_⟩
  cases call with
  | add alloc pid => exact Scheduler.schedulerAddTarget_nodup steady.targets
  | remove pid => exact Scheduler.schedulerRemoveTarget_nodup steady.targets
  | clear => exact List.nodup_nil
  | slice | thread => exact steady.targets

theorem aside (steady : w.Steady) (aside : Aside w w') (detached : w'.memory.detached = w.memory.detached) : w'.Steady := by
  refine ⟨?_, aside.nodup steady.targets⟩
  have same : w'.memory.owned = w.memory.owned := by rw [Memory.owned, Memory.records, aside.registry, detached]; rfl
  rw [same]
  exact steady.stoppable

theorem quiet (steady : w.Steady) (quiet : Quiet w w') : w'.Steady := by
  have memory := quiet.memory
  cases quiet with
  | idle _ idle => exact steady.aside idle.aside (by rw [memory])
  | table f call => exact steady.table call
  | log | publish | note => exact ⟨steady.stoppable, steady.targets⟩

theorem move (steady : w.Steady) (move : Move w w') : w'.Steady := by
  cases move with
  | quiet _ quiet => exact steady.quiet quiet
  | kill | wait | reap | signal | clone | killInflight | waitInflight | reapInflight | leakInflight | enable | disable | sweep
  | sweepNext | swept | draw | abandon => exact ⟨steady.stoppable, steady.targets⟩
  | retire i c here running nobody gone =>
    exact steady.modify here rfl rfl (Record.stoppable_of_down ContainerState.noConfusion)
  | beginStart i c here =>
    have before := steady.here here
    exact steady.modify here rfl rfl before
  | abortStart i c starting here =>
    have before := steady.here here
    exact steady.modify here rfl rfl before
  | adopt i c pid starting here down inflight positive => exact steady.modify here rfl rfl fun _ => positive
  | enroll spec sequence resolved =>
    have listed : (w.remember (·.enroll (createdRecord spec sequence resolved.1))).Steady := by
      apply steady.of_owned
      intro record member
      simp only [Memory.owned, Memory.records, Memory.enroll, List.map_append, List.map_cons, List.map_nil, List.mem_append,
        List.mem_singleton] at member ⊢
      rcases member with (early | rfl) | parted
      · exact .inl (.inl early)
      · exact .inr (Record.stoppable_of_down ContainerState.noConfusion)
      · exact .inl (.inr parted)
    exact ⟨listed.stoppable, listed.targets⟩
  | unenroll c =>
    refine steady.of_owned fun record member => .inl ?_
    exact ((((List.dropLast_sublist w.memory.registry).map (·.toRecord)).append_right _).subset member)
  | detach i c here =>
    refine steady.of_owned fun record member => .inl (List.mem_append_left _ ?_)
    rcases List.mem_append.mp member with kept | parted
    · exact ((List.eraseIdx_sublist _ _).map _).subset kept
    · simp only [Memory.detach, Option.map_some, Option.toList_some, List.mem_singleton] at parted
      rw [parted]
      exact List.mem_map_of_mem (List.mem_of_getElem? here)
  | reattach c parted =>
    refine steady.of_owned fun record member => .inl ?_
    simp only [Memory.reattach, Memory.owned, Memory.records, parted, List.map_append, List.map_cons, List.map_nil, Option.map_none,
      Option.toList_none, Option.map_some, Option.toList_some, List.append_nil] at member ⊢
    exact member
  | discard =>
    exact steady.of_owned fun record member => .inl (((List.Sublist.refl _).append (List.nil_sublist _)).subset member)

theorem bootMove {file : Text} (steady : w.Steady) (boot : BootMove file w w') : w'.Steady := by
  cases boot with
  | move _ move => exact steady.move move
  | load => exact ⟨steady.stoppable, steady.targets⟩
  | restore record rest next =>
    have restored : (w.remember (·.restore record (w.isPidAlive record.pid) rest)).Steady := by
      apply steady.of_owned
      intro other member
      simp only [Memory.owned, Memory.records, Memory.restore, List.map_append, List.map_cons, List.map_nil, List.mem_append,
        List.mem_singleton] at member ⊢
      rcases member with (early | rfl) | parted
      · exact .inl (.inl early)
      · refine .inr fun running => ?_
        -- A record that stays RUNNING has a process, and so a pid.
        unfold Memory.revived at running ⊢
        split at running
        · cases running
        · rename_i alive
          rw [if_neg alive]
          have found : w.isPidAlive record.pid = true := by
            by_contra dead
            exact alive ⟨running, by simpa using dead⟩
          exact of_decide_eq_true (Bool.and_eq_true_iff.mp found).1
      · exact .inl (.inr parted)
    exact ⟨restored.stoppable, restored.targets⟩

theorem blank (fresh : w.memory = .fresh) (empty : w.sched.targets = []) : w.Steady := by
  refine ⟨?_, by rw [empty]; exact List.nodup_nil⟩
  rw [fresh]
  exact fun record member => absurd member List.not_mem_nil

end World.Steady

/-- After every run. -/
theorem World.run_steady (oracle : Nat → Tick) (procs : Procs) (steps : List Step) : ((World.initial oracle procs).run steps).Steady := by
  refine (World.run_invariant (I := World.Steady) (fun _ _ _ boot steady => steady.bootMove boot) ?_ ?_ ?_ ?_ (.inl ⟨rfl, rfl⟩) ?_ steps).2
  · exact fun w steady => steady.of_owned fun record member => .inl (((List.nil_sublist _).append_right _).subset member)
  · exact fun w _ => .blank rfl rfl
  · exact fun w _ => .blank rfl rfl
  · exact fun w steady => ⟨steady.stoppable, steady.targets⟩
  · exact .blank rfl rfl

/-- The oracle is that of the start. -/
theorem World.run_oracle (oracle : Nat → Tick) (procs : Procs) (steps : List Step) :
    ((World.initial oracle procs).run steps).oracle = oracle := by
  refine (World.run_invariant (I := fun w => w.oracle = oracle) (fun _ w w' boot same => ?_) (fun _ same => same)
    (fun _ same => same) (fun _ same => same) (fun _ same => same) (.inl ⟨rfl, rfl⟩) rfl steps).2
  cases boot with
  | move _ move => exact move.oracle.trans same
  | load | restore => exact same

/-! ## What the calls report -/

/-- `stop_container_process` could not kill, or could not wait. -/
def LogEvent.IsStopError : LogEvent → Prop
  | .failedToStop _ _ | .failedToReap _ _ => True
  | _ => False

instance : DecidablePred LogEvent.IsStopError := fun entry => by
  unfold LogEvent.IsStopError
  split <;> infer_instance

/-- A save wrote what it was asked to, and a message that is not in the log is about something else than a failed stop. -/
def Note.Calm : Note → Prop
  | .unlogged entry => ¬ entry.IsStopError
  | .saved wanted written => written = some wanted
  | _ => True

instance : DecidablePred Note.Calm := fun note => by
  unfold Note.Calm
  split <;> infer_instance

/-- From the one state of a run to the other, `kill` and `waitpid` have done their part and every save was complete. -/
structure Smooth (w w' : World) : Prop where
  logged : ∀ entry ∈ w'.log.drop w.log.length, ¬ entry.IsStopError
  noted : ∀ note ∈ w'.notes.drop w.notes.length, note.Calm

instance (w w' : World) : Decidable (Smooth w w') :=
  decidable_of_iff ((∀ entry ∈ w'.log.drop w.log.length, ¬ entry.IsStopError) ∧ ∀ note ∈ w'.notes.drop w.notes.length, note.Calm)
    ⟨fun holds => ⟨holds.1, holds.2⟩, fun smooth => ⟨smooth.logged, smooth.noted⟩⟩

/-- `kill` does not deny a process that is there: from this call on, ESRCH is never its answer without cause. -/
def World.HonestKill (w : World) : Prop := ∀ n, w.clock ≤ n → (w.oracle n).fail ≠ some Errno.ESRCH

/-- The pids that SIGKILL was sent to, in order. -/
def killsOf (trace : List Obs) : List Pid := trace.filterMap fun
  | .killed _ pid _ => some pid
  | _ => none

theorem killsOf_append (front back : List Obs) : killsOf (front ++ back) = killsOf front ++ killsOf back :=
  List.filterMap_append

/-! ## The calls that kill nobody -/

/-- The list is as it was, nobody was killed, and the table may have lost some targets. -/
structure Meek (w w' : World) : Prop where
  oracle : w'.oracle = w.oracle
  clock : w.clock ≤ w'.clock
  registry : w'.memory.registry = w.memory.registry
  trace : w.trace <+: w'.trace
  kills : killsOf w'.trace = killsOf w.trace
  log : w.log <+: w'.log
  targets : w'.sched.targets ⊆ w.sched.targets
  nodup : w.sched.targets.Nodup → w'.sched.targets.Nodup

namespace Meek

variable {w w' : World}

theorem of_eq (oracle : w'.oracle = w.oracle) (clock : w.clock ≤ w'.clock) (registry : w'.memory.registry = w.memory.registry)
    (trace : w'.trace = w.trace) (log : w.log <+: w'.log) (targets : w'.sched.targets = w.sched.targets) : Meek w w' :=
  ⟨oracle, clock, registry, trace ▸ List.prefix_refl _, by rw [trace], log,
    by rw [targets]; exact List.Subset.refl _, by rw [targets]; exact id⟩

theorem observe {obs : Obs} (other : killsOf [obs] = []) (meek : Meek w w') : Meek w (w'.observe obs) :=
  { meek with
    trace := meek.trace.trans (List.prefix_append _ _)
    kills := by rw [World.observe_trace, killsOf_append, other, List.append_nil, meek.kills] }

theorem noted (w : World) (note : Note) : Meek w (w.observe (.noted note)) :=
  .observe rfl (.of_eq rfl (Nat.le_refl _) rfl rfl (List.prefix_refl _) rfl)

theorem scheduled (w : World) {f : Scheduler → Scheduler} (fewer : (f w.sched).targets ⊆ w.sched.targets)
    (nodup : w.sched.targets.Nodup → (f w.sched).targets.Nodup) : Meek w (w.scheduled f) :=
  ⟨rfl, Nat.le_refl _, rfl, List.prefix_refl _, rfl, List.prefix_refl _, fewer, nodup⟩

end Meek

theorem Idle.meek {w w' : World} (idle : Idle w w') : Meek w w' := by
  cases idle with
  | clock => exact .of_eq rfl (Nat.le_succ _) rfl rfl (List.prefix_refl _) rfl
  | drift _ drift =>
    cases drift with
    | nothing | exits | vanishes => exact .of_eq rfl (Nat.le_refl _) rfl rfl (List.prefix_refl _) rfl
    | selects sched thread idle enabled picked fewer live =>
      exact ⟨rfl, Nat.le_refl _, rfl, List.prefix_refl _, rfl, List.prefix_refl _, fewer.subset, fun nodup => nodup.sublist fewer⟩
    | spawns pid => exact .observe rfl (.of_eq rfl (Nat.le_refl _) rfl rfl (List.prefix_refl _) rfl)
    | pauses | resumes => exact .observe rfl (.of_eq rfl (Nat.le_refl _) rfl rfl (List.prefix_refl _) rfl)

/-- Whatever kills nobody and leaves the list alone leaves `P` alone. -/
def Mild (P : World → Prop) : Prop := ∀ w w', Meek w w' → P w → P w'

namespace Mild

variable {P : World → Prop}

theorem still (mild : Mild P) : Still Anyhow P := fun w w' idle holds => ⟨trivial, mild w w' idle.meek holds⟩

theorem modify (mild : Mild P) {f : World → World} (meek : ∀ w, Meek w (f w)) : Spec Anyhow P (Prog.modify f) fun _ => P :=
  .modify (fun _ _ => trivial) fun w holds => mild w _ (meek w) holds

theorem logEventType (mild : Mild P) (entry : LogEvent) : Spec Anyhow P (logEventType entry) fun _ => P :=
  mild.still.logEventType
    (fun w holds => ⟨trivial, mild w _ (.of_eq rfl (Nat.le_refl _) rfl rfl (List.prefix_append _ _) rfl) holds⟩)
    fun w holds => ⟨trivial, mild w _ (.noted w _) holds⟩

theorem saveMetadata (mild : Mild P) : Spec Anyhow P saveMetadata fun _ => P := by
  refine saveMetadata_rule (fun w w' filing holds => ⟨trivial, mild w w' ?_ holds⟩)
    (fun w written holds _ => ⟨trivial, mild w _ ?_ holds⟩) fun w holds => ⟨trivial, mild w _ (.noted w _) holds⟩
  · cases filing with
    | idle _ idle => exact idle.meek
    | log entry => exact .of_eq rfl (Nat.le_refl _) rfl rfl (List.prefix_append _ _) rfl
    | miss entry => exact .noted w _
  · exact .observe rfl (.of_eq rfl (Nat.le_refl _) rfl rfl (List.prefix_refl _) rfl)

theorem waited (mild : Mild P) (pid : Pid) (w : World) (holds : P w) : Anyhow w (w.waited pid) ∧ P (w.waited pid) :=
  ⟨trivial, mild w _ (.observe rfl (.of_eq rfl (Nat.le_refl _) rfl rfl (List.prefix_refl _) rfl)) holds⟩

theorem reaped (mild : Mild P) (pid : Pid) (w : World) (holds : P w) : Anyhow w (w.reaped pid) ∧ P (w.reaped pid) :=
  ⟨trivial, mild w _ (.observe rfl (.of_eq rfl (Nat.le_refl _) rfl rfl (List.prefix_refl _) rfl)) holds⟩

theorem onStopped (mild : Mild P) (pid : Pid) : Spec Anyhow P (containerSchedulerOnStopped pid) fun _ => P :=
  mild.still.bind_tick fun _ => mild.modify fun w =>
    .scheduled w (Scheduler.schedulerRemoveTarget_subset pid w.sched) Scheduler.schedulerRemoveTarget_nodup

theorem schedulerStop (mild : Mild P) : Spec Anyhow P schedulerStop fun _ => P :=
  mild.still.schedulerStop fun _ _ w holds => ⟨trivial, mild w _ (.scheduled w (List.Subset.refl _) id) holds⟩

end Mild

/-- The poll kills nobody; it changes the list only by retiring RUNNING records. -/
theorem Mild.pollStates {P : World → Prop} (mild : Mild P)
    (retired : ∀ w i c, w.Here i c → c.running = true → P w → P (w.remember (·.retire i))) : Spec Anyhow P pollStates fun _ => P := by
  refine pollStates_rule (fun i => ?_) mild.saveMetadata
  have mildAt : ∀ c, Mild fun w => P w ∧ w.Here i c := fun c w w' meek holds =>
    ⟨mild w w' meek holds.1, World.here_of meek.registry holds.2⟩
  have retire : ∀ c, c.running = true →
      Spec Anyhow (fun w => P w ∧ w.Here i c) (Prog.modify (·.remember (·.retire i))) fun _ => P :=
    fun c running => .modify (fun _ _ => trivial) fun w holds => retired w i c holds.2 running holds.1
  refine syncContainerState_rule (fun c => (mildAt c).still.waitpidNoHang ((mildAt c).waited c.pid) ((mildAt c).reaped c.pid))
    (fun c => (mildAt c).still.isPidAlive c.pid) (fun c status running => ?_) fun c running => ?_
  · refine .bind (retire c running) fun _ => .bind (mild.onStopped c.pid) fun _ => ?_
    exact .bind (mild.logEventType _) fun _ => .pure fun _ holds => holds
  · refine .bind ((mildAt c).modify fun w => .noted w _) fun _ => .bind (retire c running) fun _ => ?_
    exact .bind (mild.logEventType _) fun _ => .pure fun _ holds => holds

/-! ## The account of a shutdown -/

/-- Of a shutdown that began in `base`, as long as its calls have succeeded: this holds of the list, these pids were
killed, and these are out of the table. -/
structure Toll (base : World) (S : List Container → Prop) (kills gone : List Pid) (w : World) : Prop where
  oracle : w.oracle = base.oracle
  clock : base.clock ≤ w.clock
  trace : base.trace <+: w.trace
  log : base.log <+: w.log
  account : Smooth base w → S w.memory.registry ∧ killsOf w.trace = killsOf base.trace ++ kills ∧ w.sched.targets.Nodup ∧
    ∀ pid ∈ gone, pid ∉ w.sched.targets

section

variable {base w w' : World} {S T : List Container → Prop} {kills gone : List Pid}

/-- What has gone wrong stays so. -/
theorem Smooth.earlier (smooth : Smooth base w') (log : w.log <+: w'.log) (trace : w.trace <+: w'.trace) : Smooth base w :=
  ⟨fun entry member => smooth.logged entry (log.drop_subset _ member),
    fun note member => smooth.noted note ((World.notes_grow trace).drop_subset _ member)⟩

theorem not_smooth_logged {entry : LogEvent} (error : entry.IsStopError) (log : base.log <+: w.log) : ¬ Smooth base (w.logged entry) := by
  intro smooth
  refine smooth.logged entry ?_ error
  rw [World.logged, List.drop_append_of_le_length log.length_le]
  exact List.mem_append_right _ List.mem_cons_self

theorem not_smooth_noted {note : Note} (error : ¬ note.Calm) (trace : base.trace <+: w.trace) :
    ¬ Smooth base (w.observe (.noted note)) := by
  intro smooth
  refine error (smooth.noted note ?_)
  rw [World.notes_noted, List.drop_append_of_le_length (World.notes_grow trace).length_le]
  exact List.mem_append_right _ List.mem_cons_self

theorem toll_mild : Mild (Toll base S kills gone) := by
  intro w w' meek toll
  refine ⟨meek.oracle.trans toll.oracle, toll.clock.trans meek.clock, toll.trace.trans meek.trace, toll.log.trans meek.log, fun smooth => ?_⟩
  obtain ⟨list, killed, nodup, out⟩ := toll.account (smooth.earlier meek.log meek.trace)
  rw [meek.registry, meek.kills]
  exact ⟨list, killed, meek.nodup nodup, fun pid member present => out pid member (meek.targets present)⟩

/-- The list changes. -/
theorem Toll.remember {g : Memory → Memory} (toll : Toll base S kills gone w)
    (change : S w.memory.registry → T (g w.memory).registry) : Toll base T kills gone (w.remember g) := by
  refine { toll with account := fun smooth => ?_ }
  obtain ⟨list, table⟩ := toll.account (smooth.earlier (List.prefix_refl _) (List.prefix_refl _))
  exact ⟨change list, table⟩

/-- Whatever is asked of a shutdown whose calls have not succeeded. -/
theorem Toll.lost {kills' gone' : List Pid} (toll : Toll base S kills gone w) (rough : ¬ Smooth base w) : Toll base T kills' gone' w :=
  { toll with account := fun smooth => absurd smooth rough }

/-- A failed stop is reported. -/
theorem toll_failed {entry : LogEvent} {kills' gone' : List Pid} (error : entry.IsStopError) :
    Spec Anyhow (Toll base S kills gone) (logEventType entry) fun _ => Toll base T kills' gone' := by
  refine toll_mild.still.logEventType (fun w toll => ⟨trivial, ?_⟩) fun w toll => ⟨trivial, ?_⟩
  · have later := toll_mild w (w.logged entry) (.of_eq rfl (Nat.le_refl _) rfl rfl (List.prefix_append _ _) rfl) toll
    exact later.lost (not_smooth_logged error toll.log)
  · exact (toll_mild w _ (.noted w _) toll).lost (not_smooth_noted (fun calm => calm error) toll.trace)

/-- One more kill, unless it is going to be reported. -/
theorem toll_kill (honest : base.HonestKill) (who : Text) (pid : Pid) :
    Spec Anyhow (Toll base S kills gone) (kill who pid) fun result =>
      if result.isSome ∧ result ≠ some Errno.ESRCH then Toll base S kills gone else Toll base S (kills ++ [pid]) gone := by
  apply Spec.fix (fun w => w.oracle w.clock)
  intro now
  -- ESRCH without cause would pass for a kill that found nobody.
  refine .given (now.fail ≠ some Errno.ESRCH) (fun w holds => ?_) fun sincere => ?_
  · rw [← holds.2, holds.1.oracle]
    exact honest _ holds.1.clock
  apply Spec.bind (toll_mild.still.tick.and (tick_now now))
  intro answer
  apply Spec.given (answer = now) (fun w holds => holds.2)
  intro same
  subst same
  cases failed : answer.fail with
  | some error =>
    have other : some error ≠ some Errno.ESRCH := failed ▸ sincere
    apply Spec.pure
    intro w holds
    rw [if_pos ⟨rfl, other⟩]
    exact holds.1.1
  | none =>
    refine .bind_read_any fun found => .bind_modify (M := Toll base S (kills ++ [pid]) gone) (fun _ _ => trivial) (fun w holds => ?_) ?_
    · have toll := holds.1.1
      refine ⟨toll.oracle, toll.clock, toll.trace.trans (List.prefix_append _ _), toll.log, fun smooth => ?_⟩
      obtain ⟨list, killed, table⟩ := toll.account (smooth.earlier (List.prefix_refl _) (List.prefix_append _ _))
      refine ⟨list, ?_, table⟩
      rw [World.killed, World.observe_trace, killsOf_append, ← List.append_assoc]
      exact congrArg (· ++ [pid]) killed
    · apply Spec.pure
      intro w toll
      cases found with
      | true => exact toll
      | false => exact toll

/-- A pid is taken out of the table for good. -/
theorem toll_stopped (pid : Pid) :
    Spec Anyhow (Toll base S kills gone) (containerSchedulerOnStopped pid) fun _ => Toll base S kills (gone ++ [pid]) := by
  refine toll_mild.still.bind_tick fun _ => .modify (fun _ _ => trivial) fun w toll => { toll with account := fun smooth => ?_ }
  obtain ⟨list, killed, nodup, out⟩ := toll.account (smooth.earlier (List.prefix_refl _) (List.prefix_refl _))
  refine ⟨list, killed, Scheduler.schedulerRemoveTarget_nodup nodup, fun target member present => ?_⟩
  have kept : target ∈ w.sched.targets.erase pid := (Scheduler.schedulerRemoveTarget_targets pid w.sched).mem_iff.mp present
  obtain ⟨other, before⟩ := nodup.mem_erase_iff.mp kept
  -- The table has each pid once, so the one that is taken out is not left in it.
  rcases List.mem_append.mp member with known | last
  · exact out target known before
  · exact other (List.mem_singleton.mp last)

/-- A save that is not reported has written the list. -/
theorem toll_save : Spec Anyhow (Toll base S kills gone) saveMetadata fun _ w =>
    Toll base S kills gone w ∧ (Smooth base w → w.disk = some (encodeRegistry w.memory.records)) := by
  refine saveMetadata_rule (fun w w' filing toll => ⟨trivial, toll_mild w w' ?_ toll⟩) (fun w written toll _ => ⟨trivial, ?_, ?_⟩)
    fun w toll => ⟨trivial, toll_mild w _ (.noted w _) toll, fun smooth => ?_⟩
  · cases filing with
    | idle _ idle => exact idle.meek
    | log entry => exact .of_eq rfl (Nat.le_refl _) rfl rfl (List.prefix_append _ _) rfl
    | miss entry => exact .noted w _
  · exact toll_mild w _ (.observe rfl (.of_eq rfl (Nat.le_refl _) rfl rfl (List.prefix_refl _) rfl)) toll
  · intro smooth
    have whole : written = w.memory.records := by
      by_contra other
      have rough : ¬ (Note.saved w.memory.records (some written)).Calm := fun calm => other (Option.some.inj calm)
      exact not_smooth_noted (w := { w with disk := some (encodeRegistry written) }) rough toll.trace smooth
    rw [World.published, World.observe_disk, whole]
    rfl
  · exact absurd smooth (not_smooth_noted (fun calm => by cases calm) toll.trace)

end

/-! ## The loop over the list -/

/-- The record as `cleanup_all_containers` leaves it. -/
def Container.halted (c : Container) : Container :=
  if c.running = true then { c with state := .STOPPED, pid := -1, stack := false } else c

/-- The list when the loop has come to this position. -/
def haltedTo (k : Nat) (containers : List Container) : List Container :=
  (containers.take k).map (·.halted) ++ containers.drop k

/-- RUNNING has become STOPPED, without a pid. -/
def Record.ended (record : Record) : Record :=
  if record.state = .RUNNING then { record with state := .STOPPED, pid := -1 } else record

section

variable {containers : List Container} {k : Nat} {c : Container}

/-- One round of the loop: the record under it, and the pid it kills. -/
theorem haltedTo_succ (here : containers[k]? = some c) :
    (haltedTo k containers)[k]? = some c ∧
      haltedTo (k + 1) containers = (haltedTo k containers).modify k (fun _ => c.halted) ∧
      pidsOf (containers.take (k + 1)) = pidsOf (containers.take k) ++ if c.running = true then [c.pid] else [] := by
  obtain ⟨front, back, rfl, rfl, -, -⟩ := List.split_at here
  have now : haltedTo front.length (front ++ c :: back) = front.map (·.halted) ++ c :: back := by
    simp [haltedTo]
  have next : haltedTo (front.length + 1) (front ++ c :: back) = front.map (·.halted) ++ c.halted :: back := by
    rw [haltedTo, List.take_length_add_append, List.drop_length_add_append]
    simp
  have length : front.length = (front.map (·.halted)).length := (List.length_map _).symm
  refine ⟨?_, ?_, ?_⟩
  · rw [now]
    simp
  · rw [now, next, length, List.modify_middle]
  · rw [List.take_length_add_append, List.take_left, pidsOf_append]
    cases running : c.running with
    | true => rw [List.take_succ_cons, pidsOf_cons_of_running running, if_pos rfl]; rfl
    | false => rw [List.take_succ_cons, pidsOf_cons_of_down running]; rfl

theorem halted_ended (stoppable : c.toRecord.Stoppable) : c.halted.toRecord = c.toRecord.ended := by
  unfold Container.halted Record.ended
  by_cases up : c.state = .RUNNING
  · have running : c.running = true := decide_eq_true ⟨up, stoppable up⟩
    rw [if_pos running, if_pos up]
  · have down : ¬ c.running = true := fun running => up (of_decide_eq_true running).1
    rw [if_neg down, if_neg up]

end

section

variable {base w : World} {S T : List Container → Prop} {kills kills' gone gone' : List Pid}

theorem Toll.conseq (toll : Toll base S kills gone w) (weaker : ∀ registry, S registry → T registry ∧ kills' = kills ∧ gone' = gone) :
    Toll base T kills' gone' w := by
  refine { toll with account := fun smooth => ?_ }
  obtain ⟨list, killed, table⟩ := toll.account smooth
  obtain ⟨next, rfl, rfl⟩ := weaker _ list
  exact ⟨next, killed, table⟩

/-- `stop_container_process` on a RUNNING record. -/
theorem toll_stop (honest : base.HonestKill) {i : Nat} {c : Container} (running : c.running = true)
    (change : ∀ m : Memory, S m.registry → T (m.retire i).registry) :
    Spec Anyhow (fun w => Toll base S kills gone w ∧ w.Here i c) (stopContainerProcess i) fun _ =>
      Toll base T (kills ++ [c.pid]) (gone ++ [c.pid]) := by
  have marked : Spec Anyhow (Toll base S (kills ++ [c.pid]) gone) (stopContainerProcess.markStopped i c) fun _ =>
      Toll base T (kills ++ [c.pid]) (gone ++ [c.pid]) := by
    refine .bind (toll_mild.logEventType _) fun _ => .bind (toll_stopped c.pid) fun _ => ?_
    apply Spec.bind_modify (fun _ _ => trivial) (fun w toll => toll.remember (change w.memory))
    exact .bind toll_mild.saveMetadata fun _ => .pure fun _ toll => toll
  apply Spec.bind_read (some c) (fun w holds => holds.2)
  simp only [running, Bool.true_eq_false, if_false]
  apply Spec.bind ((toll_kill honest c.id.text c.pid).pre fun w holds => holds.1)
  intro killed
  split
  · exact .bind (toll_failed trivial) fun _ => .pure fun _ toll => toll
  apply Spec.bind (toll_mild.still.waitpid (toll_mild.waited c.pid) (toll_mild.reaped c.pid))
  intro result
  cases result with
  | error error =>
    simp only
    split
    · exact .bind (toll_failed trivial) fun _ => .pure fun _ toll => toll
    · exact marked
  | ok status => exact marked

/-- The loop has come to this position. -/
def Reached (base : World) (before : List Container) (k : Nat) : World → Prop :=
  Toll base (· = haltedTo k before) (pidsOf (before.take k)) (pidsOf (before.take k))

theorem reached_round (honest : base.HonestKill) {before : List Container} {k : Nat} {c : Container} (here : before[k]? = some c) :
    Spec Anyhow (Reached base before k) (do let _ ← stopContainerProcess k; pure ()) fun _ => Reached base before (k + 1) := by
  obtain ⟨found, next, pids⟩ := haltedTo_succ here
  refine .bind (Q := fun _ => Reached base before (k + 1)) ?_ fun _ => .pure fun _ reached => reached
  apply Spec.fix (·.memory.registry[k]?)
  intro value
  -- As long as all has gone well, the record at the position is the one that was there at the start.
  have known : ∀ registry, registry = haltedTo k before → registry[k]? = value → value = some c := by
    rintro registry rfl same
    exact same.symm.trans found
  cases value with
  | none =>
    refine .bind_read none (fun w holds => holds.2) (.pure fun w holds => ?_)
    refine { holds.1 with account := fun smooth => ?_ }
    cases known _ (holds.1.account smooth).1 holds.2
  | some d =>
    by_cases running : d.running = true
    · have stop : Spec Anyhow (fun w => Toll base (fun registry => registry = haltedTo k before ∧ registry[k]? = some d)
          (pidsOf (before.take k)) (pidsOf (before.take k)) w ∧ w.Here k d) (stopContainerProcess k) fun _ =>
          Toll base (fun registry => d = c ∧ registry = haltedTo (k + 1) before) (pidsOf (before.take k) ++ [d.pid])
            (pidsOf (before.take k) ++ [d.pid]) := by
        apply toll_stop honest running
        intro m holds
        cases known _ holds.1 holds.2
        obtain ⟨front, back, -, -, modified, -⟩ := List.split_at found
        refine ⟨rfl, ?_⟩
        change m.registry.modify k _ = _
        rw [next, holds.1, modified, modified, Container.halted, if_pos running]
      refine stop.conseq (fun w holds => ?_) fun _ w toll => ?_
      · exact ⟨{ holds.1 with account := fun smooth => ⟨⟨(holds.1.account smooth).1, holds.2⟩, (holds.1.account smooth).2⟩ }, holds.2⟩
      · apply toll.conseq
        rintro registry ⟨rfl, same⟩
        rw [pids, if_pos running]
        exact ⟨same, rfl, rfl⟩
    · have down : d.running = false := Bool.eq_false_iff.mpr running
      apply Spec.bind_read (some d) (fun w holds => holds.2)
      simp only [down, if_true]
      refine .pure fun w holds => { holds.1 with account := fun smooth => ?_ }
      obtain ⟨list, rest⟩ := holds.1.account smooth
      cases known _ list holds.2
      obtain ⟨front, back, parts, -, modified, -⟩ := List.split_at found
      have same : haltedTo (k + 1) before = haltedTo k before := by
        rw [next, modified, Container.halted, if_neg running, ← parts]
      rw [pids, if_neg running, List.append_nil, same]
      exact ⟨list, rest⟩

/-- `cleanup_all_containers` from the end of its poll on. -/
def cleanupPolled : Prog World Unit := do
  let count ← read (·.memory.registry.length)
  forEach (fun i => do
    let _ ← stopContainerProcess i
    pure ()) (List.range count)
  let _ ← saveMetadata
  modify (·.freed)
  schedulerStop

theorem cleanupAllContainers_eq : cleanupAllContainers = (do pollStates; cleanupPolled) := rfl

theorem reached_end (honest : base.HonestKill) (before : List Container) :
    Spec Anyhow (fun w => Reached base before 0 w ∧ w.memory.registry = before) cleanupPolled fun _ w =>
        Toll base (· = []) (pidsOf before) (pidsOf before) w ∧
          (Smooth base w → w.disk = some (encodeRegistry (before.map (·.halted.toRecord)))) := by
  apply Spec.bind_read before.length (fun w holds => by rw [holds.2])
  have loop : Spec Anyhow (Reached base before 0) (forEach (fun i => do let _ ← stopContainerProcess i; pure ()) (List.range before.length))
      fun _ => Reached base before before.length := by
    apply Spec.forEach_range
    intro k inside
    exact reached_round honest (List.getElem?_eq_getElem inside)
  refine .bind (loop.pre fun w holds => holds.1) fun _ => .bind toll_save fun _ => ?_
  have whole : haltedTo before.length before = before.map (·.halted) := by simp [haltedTo]
  let after := fun w : World => Toll base (· = []) (pidsOf before) (pidsOf before) w ∧
    (Smooth base w → w.disk = some (encodeRegistry (before.map (·.halted.toRecord))))
  refine .bind_modify (M := after) (fun _ _ => trivial) (fun w holds => ⟨?_, fun smooth => ?_⟩) ?_
  · refine ((holds.1.remember (T := (· = [])) fun _ => rfl).conseq fun registry empty => ⟨empty, ?_, ?_⟩)
    · rw [List.take_length]
    · rw [List.take_length]
  · have smooth := smooth.earlier (w := w) (List.prefix_refl _) (List.prefix_refl _)
    have list := (holds.1.account smooth).1
    rw [whole] at list
    change w.disk = _
    rw [holds.2 smooth, Memory.records, list, List.map_map]
    rfl
  -- What is left changes neither the file nor the list.
  have sided : Sided Anyhow fun w => Smooth base w → w.disk = some (encodeRegistry (before.map (·.halted.toRecord))) := by
    intro w w' aside holds
    have grown : w.log <+: w'.log := aside.log ▸ List.prefix_refl _
    exact ⟨trivial, fun smooth => aside.disk.trans (holds (smooth.earlier grown aside.trace))⟩
  exact toll_mild.schedulerStop.and (Upkeep.schedulerStop sided)

end

/-! ## The result -/

/-- What the poll leaves of a list, for the stops that follow. -/
structure Polled (before registry : List Container) : Prop where
  ended : registry.map (·.toRecord.ended) = before.map (·.toRecord.ended)
  stoppable : ∀ c ∈ registry, c.toRecord.Stoppable
  distinct : (pidsOf registry).Nodup

theorem Polled.retire {before : List Container} {m : Memory} {i : Nat} {c : Container} (polled : Polled before m.registry)
    (here : m.registry[i]? = some c) (running : c.running = true) : Polled before (m.retire i).registry := by
  obtain ⟨front, back, parts, -, modified, -⟩ := List.split_at here
  have up : c.state = .RUNNING := (of_decide_eq_true running).1
  change Polled before (m.registry.modify i _)
  obtain ⟨ended, stoppable, distinct⟩ := polled
  rw [parts] at ended stoppable distinct
  rw [modified]
  refine ⟨?_, ?_, ?_⟩
  · rw [← ended, List.map_append, List.map_append, List.map_cons, List.map_cons]
    congr 2
    simp [Record.ended, up]
  · intro d member
    rcases List.mem_append.mp member with early | late
    · exact stoppable d (List.mem_append_left _ early)
    · rcases List.mem_cons.mp late with rfl | later
      · exact Record.stoppable_of_down ContainerState.noConfusion
      · exact stoppable d (List.mem_append_right _ (List.mem_cons_of_mem _ later))
  · rw [pidsOf_append, pidsOf_cons_of_down (by simp [Record.running])]
    rw [pidsOf_append, pidsOf_cons_of_running running] at distinct
    exact distinct.sublist ((List.Sublist.refl _).append (List.sublist_cons_self _ _))

/-- A shutdown in order, given what the poll at its start has left. -/
structure Orderly (w polled after : World) : Prop where
  file : after.disk = some (encodeRegistry (w.memory.records.map (·.ended)))
  kills : ∀ pid ∈ polled.memory.runningPids, (killsOf (after.trace.drop w.trace.length)).count pid = 1
  list : after.memory.registry = []
  table : ∀ pid ∈ polled.memory.runningPids, pid ∉ after.sched.targets

/-- After any run, a shutdown whose calls succeed leaves the list in the file with every RUNNING container STOPPED, and
has killed each of their processes once. -/
theorem cleanup_orderly (oracle : Nat → Tick) (procs : Procs) (steps : List Step) :
    let w := (World.initial oracle procs).run steps
    let after := (cleanupAllContainers w).2
    w.memory.runningPids.Nodup → w.HonestKill → (cleanupAllContainers w).1 = .done () → Smooth w after →
      Orderly w (pollStates w).2 after := by
  intro w after distinct honest done smooth
  have steady : w.Steady := World.run_steady oracle procs steps
  have begun : Toll w (fun _ => True) [] [] w := by
    refine ⟨rfl, Nat.le_refl _, List.prefix_refl _, List.prefix_refl _, fun _ => ⟨trivial, (List.append_nil _).symm, steady.targets, ?_⟩⟩
    exact fun _ member => absurd member List.not_mem_nil
  have listed : Polled w.memory.registry w.memory.registry :=
    ⟨rfl, fun c member => steady.stoppable _ (List.mem_append_left _ (List.mem_map_of_mem member)), distinct⟩
  have mild : Mild fun u => Toll w (fun _ => True) [] [] u ∧ Polled w.memory.registry u.memory.registry := fun u u' meek holds =>
    ⟨toll_mild u u' meek holds.1, meek.registry ▸ holds.2⟩
  have polls := mild.pollStates (fun u i c here running holds => ⟨holds.1.remember fun _ => trivial, holds.2.retire here running⟩) w
    ⟨begun, listed⟩
  have run : cleanupAllContainers w = (.done (), after) := Prod.ext done rfl
  rw [cleanupAllContainers_eq] at run
  obtain ⟨value, polled, first, second⟩ := Prog.bind_done run
  rw [first] at polls ⊢
  obtain ⟨toll, same, stoppable, once⟩ := polls.2 value rfl
  have reached : Reached w polled.memory.registry 0 polled := { toll with account := fun smooth => ⟨rfl, (toll.account smooth).2⟩ }
  have ends := (reached_end honest polled.memory.registry polled ⟨reached, rfl⟩).2
  rw [second] at ends
  obtain ⟨left, file⟩ : Toll w (· = []) (pidsOf polled.memory.registry) (pidsOf polled.memory.registry) after ∧ _ := ends () rfl
  obtain ⟨list, killed, -, table⟩ := left.account smooth
  refine ⟨?_, fun pid member => ?_, list, table⟩
  -- The poll has stopped some records already, and the loop the rest: together that is `ended`.
  · have records : polled.memory.registry.map (·.halted.toRecord) = w.memory.records.map (·.ended) := by
      rw [Memory.records, List.map_map]
      exact (List.map_congr_left fun c member => halted_ended (stoppable c member)).trans same
    rw [← records]
    exact file smooth
  · obtain ⟨new, grown⟩ := left.trace
    rw [← grown, killsOf_append] at killed
    rw [← grown, List.drop_left, List.append_cancel_left killed]
    exact List.count_eq_one_of_mem once member

/-- Two containers, one of which ends just before the session does. -/
theorem cleanup_orderly_two :
    let script := [(40, { Tick.calm with pid := 2 }), (54, { Tick.calm with events := [.exits 2 (.exited 0)] })]
    let spec : ContainerSpec := ⟨some (lit "web"), none, none, some (lit "sleep 9"), .unlimited⟩
    let w := (World.initial (scripted script) fun _ => none).run [.boot, .command (.runbg spec), .command (.runbg spec)]
    w.memory.runningPids = [1, 2] ∧ (pollStates w).2.memory.runningPids = [1] ∧
      Orderly w (pollStates w).2 (cleanupAllContainers w).2 := by
  intro script spec w
  have honest : w.HonestKill := by
    intro n _
    rw [World.run_oracle]
    rcases scripted_cases script n with calm | ⟨entry, member, same⟩
    · rw [calm]
      decide
    · have sincere : ∀ entry ∈ script, entry.2.fail ≠ some Errno.ESRCH := by decide
      rw [same]
      exact sincere entry member
  refine ⟨by decide +kernel, by decide +kernel, cleanup_orderly _ _ _ ?_ honest ?_ ?_⟩
  · decide +kernel
  · decide +kernel
  · decide +kernel

end ContainerRuntime
