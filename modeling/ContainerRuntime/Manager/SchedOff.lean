import ContainerRuntime.Manager.Commands

/-! What `sched off` leaves behind.

The command disables the scheduler and then resumes every RUNNING container.
The thread has no part in that: it may have picked a pair of targets before,
and sends its two signals whenever it gets to run. A SIGSTOP that comes when
the loop has already passed its target is never taken back.
-/

set_option autoImplicit false

namespace ContainerRuntime

open CString Cli Program

/-- The last of SIGSTOP and SIGCONT sent to the process is SIGSTOP. -/
def Procs.Paused (procs : Procs) (pid : Pid) : Prop := ∃ proc, procs pid = some proc ∧ proc.stopped = true

instance (procs : Procs) (pid : Pid) : Decidable (procs.Paused pid) :=
  decidable_of_iff ((procs pid).any (·.stopped) = true) (Option.any_eq_true _ _)

namespace World

/-- After a completed `sched off`, with the thread between two iterations, no container is paused. -/
def OffClear (w : World) : Prop :=
  w.sweep = .off → w.thread = .idle → ∀ c ∈ w.memory.registry, c.running = true → ¬ w.procs.Paused c.pid

instance (w : World) : Decidable w.OffClear := inferInstanceAs (Decidable (w.sweep = .off → w.thread = .idle →
  ∀ c ∈ w.memory.registry, c.running = true → ¬ w.procs.Paused c.pid))

/-- The states of a run: between two steps, or within a command. Where a command stood is
seen under an oracle that cuts it there. -/
inductive Reached (oracle : Nat → Tick) (procs : Procs) : World → Prop where
  | between (steps : List Step) : Reached oracle procs ((initial oracle procs).run steps)
  | within (steps : List Step) (command : Command) (up : ((initial oracle procs).run steps).up = true) :
      Reached oracle procs (command.program ((initial oracle procs).run steps)).2

/-- Paused containers are still ahead of the loop of `sched off`. -/
structure Resumed (w : World) : Prop where
  visiting : ∀ rest, w.sweep = .visiting rest → ∀ pid ∈ w.memory.watched, w.procs.Paused pid → pid ∈ rest
  off : w.sweep = .off → ∀ pid ∈ w.memory.watched, ¬ w.procs.Paused pid

end World

/-- The thread's SIGSTOP comes before `sched off` has passed its target, or it hits no container. -/
def Obs.Timely : Obs → Prop
  | .paused pid (.visiting rest) watched (some _) => pid ∈ watched → pid ∈ rest
  | .paused pid .off watched (some _) => pid ∉ watched
  | _ => True

instance : DecidablePred Obs.Timely
  | .paused pid (.visiting rest) watched (some _) => inferInstanceAs (Decidable (pid ∈ watched → pid ∈ rest))
  | .paused pid .off watched (some _) => inferInstanceAs (Decidable (pid ∉ watched))
  | .paused _ .never _ _ | .paused _ .on _ _ | .paused _ .ahead _ _ | .paused _ (.visiting _) _ none
  | .paused _ .off _ none | .killed _ _ _ | .waited _ _ | .resumed _ _ | .reaped _ _ | .appeared _ _ _ _ _
  | .enrolled _ | .noted _ => .isTrue trivial

/-! ## Whom the manager watches -/

namespace Memory

theorem mem_watched {m : Memory} {pid : Pid} :
    pid ∈ m.watched ↔ (∃ record ∈ m.held, record.running = true ∧ record.pid = pid) ∨ m.inflight = some pid := by
  simp [watched, and_assoc]

/-- All records with a process are in the list while no operation is under way. -/
theorem Settled.watched {m : Memory} (settled : m.Settled) : m.watched = m.runningPids := by
  simp [Memory.watched, held, records, settled.restoring, settled.detached, settled.inflight, runningPids, pidsOf,
    List.filter_map, Function.comp_def]

/-- A RUNNING record that is new has the pid of the start under way. -/
theorem watched_subset {m m' : Memory} (inflight : m'.inflight = none ∨ m'.inflight = m.inflight)
    (held : ∀ record ∈ m'.held, record.running = true → record ∈ m.held ∨ m.inflight = some record.pid) :
    m'.watched ⊆ m.watched := by
  intro pid member
  rcases mem_watched.mp member with ⟨record, listed, running, rfl⟩ | started
  · rcases held record listed running with known | child
    · exact mem_watched.mpr (.inl ⟨record, known, running, rfl⟩)
    · exact mem_watched.mpr (.inr child)
  · rcases inflight with nobody | same
    · rw [nobody] at started
      cases started
    · exact mem_watched.mpr (.inr (same.symm.trans started))

theorem watched_subset_of_held {m m' : Memory} (inflight : m'.inflight = none ∨ m'.inflight = m.inflight)
    (held : ∀ record ∈ m'.held, record ∈ m.held) : m'.watched ⊆ m.watched :=
  watched_subset inflight fun record member _ => .inl (held record member)

theorem revived_running {record : Record} {alive : Bool} (running : (revived record alive).running = true) :
    revived record alive = record := by
  unfold revived at running ⊢
  split
  · rename_i gone
    rw [if_pos gone] at running
    simp [Record.running] at running
  · rfl

end Memory

/-! ## Who is paused -/

namespace Procs

variable {procs : Procs} {pid target : Pid}

theorem Paused.of_kill {signal : Signal} (paused : (procs.kill target signal).Paused pid) :
    procs.Paused pid ∨ signal = .SIGSTOP ∧ pid = target ∧ (procs target).isSome := by
  obtain ⟨proc, here, stopped⟩ := paused
  by_cases same : pid = target
  · subst same
    simp only [kill, Function.update_self] at here
    obtain ⟨before, there, rfl⟩ := Option.map_eq_some_iff.mp here
    cases signal with
    | SIGKILL => exact .inl ⟨before, there, stopped⟩
    | SIGSTOP => exact .inr ⟨rfl, rfl, by simp [there]⟩
    | SIGCONT => cases stopped
  · simp only [kill, Function.update_of_ne same] at here
    exact .inl ⟨proc, here, stopped⟩

/-- SIGCONT resumes its target. -/
theorem not_paused_cont : ¬ (procs.kill pid .SIGCONT).Paused pid := by
  rintro ⟨proc, here, stopped⟩
  simp only [kill, Function.update_self] at here
  obtain ⟨before, there, rfl⟩ := Option.map_eq_some_iff.mp here
  cases stopped

theorem Paused.of_removed (paused : Procs.Paused (Function.update procs target none) pid) : procs.Paused pid := by
  obtain ⟨proc, here, stopped⟩ := paused
  by_cases same : pid = target
  · subst same
    simp at here
  · rw [Function.update_of_ne same] at here
    exact ⟨proc, here, stopped⟩

/-- A process that changes, or is new, and is not paused by that. -/
theorem Paused.of_update {proc : Proc} (kept : proc.stopped = true → procs.Paused target)
    (paused : Procs.Paused (Function.update procs target (some proc)) pid) : procs.Paused pid := by
  obtain ⟨found, here, stopped⟩ := paused
  by_cases same : pid = target
  · subst same
    rw [Function.update_self] at here
    cases here
    exact kept stopped
  · rw [Function.update_of_ne same] at here
    exact ⟨found, here, stopped⟩

end Procs

/-! ## Along a chain of moves -/

namespace World.Resumed

variable {w w' : World}

/-- Nobody is paused who was not, and nobody comes under watch who was not. -/
theorem frame (resumed : w.Resumed) (sweep : w'.sweep = w.sweep) (watched : w'.memory.watched ⊆ w.memory.watched)
    (paused : ∀ pid, w'.procs.Paused pid → w.procs.Paused pid) : w'.Resumed where
  visiting rest visiting pid member stopped :=
    resumed.visiting rest (sweep.symm.trans visiting) pid (watched member) (paused pid stopped)
  off off pid member stopped := resumed.off (sweep.symm.trans off) pid (watched member) (paused pid stopped)

/-- Before its loop a `sched` command promises nothing. -/
theorem early (before : w.sweep = .never ∨ w.sweep = .on ∨ w.sweep = .ahead) : w.Resumed := by
  constructor
  · intro rest visiting
    rcases before with same | same | same <;> cases same.symm.trans visiting
  · intro off
    rcases before with same | same | same <;> cases same.symm.trans off

end World.Resumed

theorem World.Drift.resumed {w w' : World} (drift : w.Drift w') (timely : ∀ obs ∈ w'.trace, obs.Timely)
    (resumed : w.Resumed) : w'.Resumed := by
  cases drift with
  | nothing => exact resumed
  | exits pid proc status here =>
    exact resumed.frame rfl (List.Subset.refl _) fun _ => .of_update fun stopped => ⟨proc, here, stopped⟩
  | vanishes pid foreign => exact resumed.frame rfl (List.Subset.refl _) fun _ => .of_removed
  | spawns pid positive free =>
    exact resumed.frame rfl (List.Subset.refl _) fun _ => .of_update fun stopped => by cases stopped
  | selects sched thread => exact resumed.frame rfl (List.Subset.refl _) fun _ paused => paused
  | resumes next =>
    refine resumed.frame rfl (List.Subset.refl _) fun pid paused => ?_
    rcases paused.of_kill with before | ⟨absurd, -⟩
    · exact before
    · cases absurd
  | pauses current next stopping =>
    have now : (Obs.paused current w.sweep w.memory.watched (w.procs current)).Timely :=
      timely _ (by simp [World.observe])
    refine ⟨fun rest visiting pid member paused => ?_, fun off pid member paused => ?_⟩
    · rcases paused.of_kill with before | ⟨-, rfl, found⟩
      · exact resumed.visiting rest visiting pid member before
      · obtain ⟨proc, here⟩ := Option.isSome_iff_exists.mp found
        rw [show w.sweep = .visiting rest from visiting, here] at now
        exact now member
    · rcases paused.of_kill with before | ⟨-, rfl, found⟩
      · exact resumed.off off pid member before
      · obtain ⟨proc, here⟩ := Option.isSome_iff_exists.mp found
        rw [show w.sweep = .off from off, here] at now
        exact now member

theorem Quiet.resumed {w w' : World} (quiet : Quiet w w') (timely : ∀ obs ∈ w'.trace, obs.Timely)
    (resumed : w.Resumed) : w'.Resumed := by
  cases quiet with
  | idle _ idle =>
    cases idle with
    | clock => exact resumed.frame rfl (List.Subset.refl _) fun _ paused => paused
    | drift _ drift => exact drift.resumed timely resumed
  | log | publish | table | note => exact resumed.frame rfl (List.Subset.refl _) fun _ paused => paused

theorem Move.resumed {w w' : World} (move : Move w w') (timely : ∀ obs ∈ w'.trace, obs.Timely) (resumed : w.Resumed) :
    w'.Resumed := by
  -- SIGKILL pauses nobody.
  have killed : ∀ target pid, (w.procs.kill target .SIGKILL).Paused pid → w.procs.Paused pid := by
    intro target pid paused
    rcases paused.of_kill with before | ⟨absurd, -⟩
    · exact before
    · cases absurd
  have listed : ∀ {f : Memory → Memory}, (f w.memory).inflight = none ∨ (f w.memory).inflight = w.memory.inflight →
      (∀ record ∈ (f w.memory).held, record ∈ w.memory.held) → (w.remember f).Resumed := fun inflight held =>
    resumed.frame rfl (Memory.watched_subset_of_held inflight held) fun _ paused => paused
  cases move with
  | quiet _ quiet => exact quiet.resumed timely resumed
  | kill c | killInflight i c pid => exact resumed.frame rfl (List.Subset.refl _) (killed _)
  | wait | waitInflight => exact resumed.frame rfl (List.Subset.refl _) fun _ paused => paused
  | signal pid signal running on => exact .early (.inr (.inl on))
  | enable => exact .early (.inr (.inl rfl))
  | disable => exact .early (.inr (.inr rfl))
  | sweep ahead settled =>
    refine ⟨fun rest visiting pid member _ => ?_, fun absurd => by cases absurd⟩
    cases visiting
    rw [← settled.watched]
    exact member
  | sweepNext pid rest next =>
    refine ⟨fun later visiting q member paused => ?_, fun absurd => by cases absurd⟩
    cases visiting
    have other : q ≠ pid := by
      rintro rfl
      exact Procs.not_paused_cont paused
    rcases paused.of_kill with before | ⟨absurd, -⟩
    · exact (List.mem_cons.mp (resumed.visiting _ next q member before)).resolve_left other
    · cases absurd
  | swept done =>
    refine ⟨(fun rest absurd => by cases absurd), fun _ pid member paused => ?_⟩
    cases resumed.visiting [] done pid member paused
  | reap pid running child settled => exact resumed.frame rfl (List.Subset.refl _) fun _ => .of_removed
  | reapInflight pid inflight =>
    exact resumed.frame rfl (Memory.watched_subset_of_held (.inl rfl) fun _ member => member) fun _ => .of_removed
  | leakInflight pid inflight => exact listed (.inl rfl) fun _ member => member
  | draw | abandon => exact listed (.inr rfl) fun _ member => member
  | discard => exact listed (.inr rfl) fun _ => Memory.mem_held_discard
  | beginStart i c here => exact listed (.inr rfl) fun _ => Memory.mem_held_beginStart here
  | abortStart i c starting here => exact listed (.inr rfl) fun _ => Memory.mem_held_abortStart here
  | unenroll c last => exact listed (.inr rfl) fun _ => Memory.mem_held_unenroll
  | detach i c here => exact listed (.inr rfl) fun _ => Memory.mem_held_detach here
  | reattach c detached => exact listed (.inr rfl) fun _ => Memory.mem_held_reattach detached
  | retire i c here running =>
    refine resumed.frame rfl (Memory.watched_subset (.inr rfl) fun record member up => ?_) fun _ paused => paused
    rcases Memory.mem_held_retire here member with known | rfl
    · exact .inl known
    · simp [Record.running] at up
  | adopt i c pid starting here down inflight positive =>
    refine resumed.frame rfl (Memory.watched_subset (.inl rfl) fun record member up => ?_) fun _ paused => paused
    rcases Memory.mem_held_adopt here member with known | rfl
    · exact .inl known
    · exact .inr inflight
  | enroll spec sequence resolved drawn nobody =>
    refine resumed.frame rfl (Memory.watched_subset (.inr rfl) fun record member up => ?_) fun _ paused => paused
    rcases Memory.mem_held_enroll member with known | rfl
    · exact .inl known
    · cases up
  | clone i c pid starting here nobody positive free =>
    -- The child is under watch from now on, and is not paused.
    have watched : ∀ q ∈ (w.cloned pid c.id.text).memory.watched, q ∈ w.memory.watched ∨ q = pid := by
      intro q member
      rcases Memory.mem_watched.mp member with known | started
      · exact .inl (Memory.mem_watched.mpr (.inl known))
      · cases started
        exact .inr rfl
    have fresh : ¬ (w.cloned pid c.id.text).procs.Paused pid := by
      rintro ⟨proc, found, stopped⟩
      simp only [World.cloned, World.remember, World.appear, World.observe, Function.update_self,
        Option.some.injEq] at found
      rw [← found] at stopped
      cases stopped
    have before : ∀ q, (w.cloned pid c.id.text).procs.Paused q → w.procs.Paused q := fun _ =>
      .of_update fun stopped => by cases stopped
    refine ⟨fun rest visiting q member paused => ?_, fun off q member paused => ?_⟩
    · rcases watched q member with known | rfl
      · exact resumed.visiting rest visiting q known (before q paused)
      · exact absurd paused fresh
    · rcases watched q member with known | rfl
      · exact resumed.off off q known (before q paused)
      · exact fresh paused

theorem BootMove.resumed {file : Text} {w w' : World} (move : BootMove file w w')
    (timely : ∀ obs ∈ w'.trace, obs.Timely) (resumed : w.Resumed) : w'.Resumed := by
  cases move with
  | move _ move => exact move.resumed timely resumed
  | load stored fresh never => exact .early (.inl never)
  | restore record rest next nobody =>
    refine resumed.frame rfl (Memory.watched_subset (.inr rfl) fun other member up => ?_) fun _ paused => paused
    rcases Memory.mem_held_restore next member with known | ⟨rfl, known⟩
    · exact .inl known
    · exact .inl ((Memory.revived_running up).symm ▸ known)

/-! ## Runs -/

theorem World.Resumed.offClear {w : World} (resumed : w.Resumed) : w.OffClear := by
  intro off _ c member running
  exact resumed.off off c.pid (Memory.mem_watched.mpr (.inl ⟨c.toRecord, Memory.mem_held member, running, rfl⟩))

/-- If the thread's signals are timely, no state of the run has a paused container after `sched off`. -/
theorem schedOff_leaves_none_paused (oracle : Nat → Tick) (procs : Procs) (w : World)
    (reached : World.Reached oracle procs w) (timely : ∀ obs ∈ w.trace, obs.Timely) : w.OffClear := by
  have between := World.run_observed_invariant Obs.Timely World.Resumed
    (fun _ _ _ move timely resumed => move.resumed timely resumed)
    (fun _ resumed => resumed.frame rfl (Memory.watched_subset_of_held (.inr rfl) fun _ => Memory.mem_held_free)
      fun _ paused => paused)
    (fun _ _ => .early (.inl rfl)) (fun _ _ => .early (.inl rfl)) (fun _ resumed => ⟨resumed.visiting, resumed.off⟩)
    (w := World.initial oracle procs) (.inl ⟨rfl, rfl⟩) (.early (.inl rfl))
  cases reached with
  | between steps => exact ((between steps).2 timely).offClear
  | within steps command up =>
    obtain ⟨resting, holds⟩ := between steps
    rcases resting with ⟨down, -⟩ | ⟨-, settled⟩
    · cases up.symm.trans down
    · have kept := command.program_spec.invariant (I := fun v => (∀ obs ∈ v.trace, obs.Timely) → v.Resumed)
        (fun _ _ move holds timely => move.resumed timely (holds fun obs member =>
          timely obs ((show BootMove [] _ _ from .move _ _ move).trace_subset member))) settled holds
      exact (kept timely).offClear

/-- Two containers are started and scheduled; the iteration that is under way when `sched off` comes
has sent its signals before the loop. -/
theorem schedOff_after_iteration :
    let script := [(40, { Tick.calm with pid := 2 }), (64, { Tick.calm with events := [.thread, .thread, .thread] })]
    let spec : ContainerSpec := ⟨none, none, none, some (lit "sleep 9"), .unlimited⟩
    let steps := [.boot, .command (.runbg spec), .command (.runbg spec), .command .schedOn, .command .schedOff]
    let after := (World.initial (scripted script) fun _ => none).run steps
    after.sweep = .off ∧ after.memory.registry.map (·.pid) = [1, 2] ∧ after.OffClear := by
  intro script spec steps after
  refine ⟨by decide +kernel, by decide +kernel, schedOff_leaves_none_paused _ _ after (.between steps) ?_⟩
  decide +kernel

/-- The thread has picked its pair when `sched off` comes, and sends its signals after it. -/
theorem schedOff_before_signals :
    let script := [(40, { Tick.calm with pid := 2 }), (64, { Tick.calm with events := [.thread] }),
      (72, { Tick.calm with events := [.thread, .thread] })]
    let spec : ContainerSpec := ⟨none, none, none, some (lit "sleep 9"), .unlimited⟩
    let steps :=
      [.boot, .command (.runbg spec), .command (.runbg spec), .command .schedOn, .command .schedOff, .command .poll]
    let after := (World.initial (scripted script) fun _ => none).run steps
    World.Reached (scripted script) (fun _ => none) after ∧ ¬ after.OffClear := by
  intro script spec steps after
  refine ⟨.between steps, ?_⟩
  decide +kernel

end ContainerRuntime
