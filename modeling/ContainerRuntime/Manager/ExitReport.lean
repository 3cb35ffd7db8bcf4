import ContainerRuntime.Manager.Footprints
import ContainerRuntime.Resource.Enforcement

/-! How a container that runs out of CPU time is reported.

The limits are installed in the child by `resource.c`, the signal is chosen by
the kernel, and the exit is classified in the manager by `container.c`. The
first always lowers both limits of the pair to one value, so that the kernel
never gets to the signal the last one looks for.
-/

set_option autoImplicit false

namespace ContainerRuntime

open CString Cli Program
open Prog (read modify forEach)

/-! ## The limits and the kernel's signal -/

/-- The signal for a process that has used this many seconds: the hard limit is checked first. -/
def cpuSignal (limit : Rlimit) (seconds : Nat) : Option Nat :=
  if limit.max ≠ rlimInfinity ∧ limit.max ≤ seconds then some SIGKILL
  else if limit.cur ≠ rlimInfinity ∧ limit.cur ≤ seconds then some SIGXCPU
  else none

theorem cpuSignal_of_equal {limit : Rlimit} {seconds signal : Nat} (equal : limit.cur = limit.max)
    (sent : cpuSignal limit seconds = some signal) : signal = SIGKILL := by
  unfold cpuSignal at sent
  rw [equal] at sent
  split at sent
  · exact (Option.some.inj sent).symm
  · cases sent

theorem clampTo_le_bound {bound requested : Nat} (finite : requested < rlimInfinity) : clampTo bound requested ≤ bound := by
  unfold clampTo
  split
  · exact Nat.le_refl _
  · omega

/-- Both limits of the pair end up at the lowered request. -/
theorem nextLimit_equal {current : Rlimit} {requested : Nat} (finite : requested < rlimInfinity) :
    let after := (nextLimit current requested).getD current
    after.cur = after.max ∧ after.max ≤ requested := by
  have lowered : clampTo current.max (clampTo current.cur requested) ≤ requested :=
    Nat.le_trans (clampTo_le _ _) (clampTo_le _ _)
  have bounded : clampTo current.max (clampTo current.cur requested) ≤ current.max :=
    clampTo_le_bound (Nat.lt_of_le_of_lt (clampTo_le _ _) finite)
  unfold nextLimit
  dsimp only
  generalize clampTo current.max (clampTo current.cur requested) = request at lowered bounded
  split
  · rename_i unchanged
    simp only [Option.getD_none]
    omega
  · simp only [Option.getD_some]
    split <;> omega

/-- A configured CPU limit is installed as a pair of equal, finite limits. -/
theorem resourceApplyLimits_cpu {config : ResourceConfig} {calls : RlimitCalls} {inherited after : Limits}
    (asked : config.cpuSeconds ≠ 0) (done : resourceApplyLimits config calls inherited = .ok after) :
    (after .RLIMIT_CPU).cur = (after .RLIMIT_CPU).max ∧ (after .RLIMIT_CPU).max ≤ config.cpuSeconds.toNat := by
  unfold resourceApplyLimits at done
  cases cpu : applyConfigured config calls .RLIMIT_CPU inherited with
  | error e => simp [cpu, bind, Except.bind] at done
  | ok first =>
    cases memory : applyConfigured config calls .RLIMIT_AS first with
    | error e => simp [cpu, memory, bind, Except.bind] at done
    | ok second =>
      simp only [cpu, memory, bind, Except.bind] at done
      rw [applyConfigured_other done (by decide), applyConfigured_other memory (by decide)]
      simp only [applyConfigured, asked, if_false] at cpu
      rw [applySingleLimitLowerOnly_ok cpu, Function.update_self]
      apply nextLimit_equal
      have small := config.cpuSeconds.toNat_lt
      unfold rlimInfinity
      omega

/-! ## From the end of the process to the log -/

/-- A child of the manager that has not ended, or has ended with this status. -/
def Procs.Bound (procs : Procs) (pid : Pid) (status : WaitStatus) : Prop :=
  ∃ proc, procs pid = some proc ∧ proc.child = true ∧ (proc.exit = none ∨ proc.exit = some status)

theorem Procs.Bound.update {procs : Procs} {pid target : Pid} {status : WaitStatus} {proc : Option Proc}
    (bound : procs.Bound pid status) (other : pid ≠ target) :
    Procs.Bound (Function.update procs target proc) pid status := by
  obtain ⟨child, here, rest⟩ := bound
  exact ⟨child, by rw [Function.update_of_ne other, here], rest⟩

/-- Stopping or resuming it does not end it. -/
theorem Procs.Bound.kill {procs : Procs} {pid target : Pid} {status : WaitStatus} {signal : Signal}
    (bound : procs.Bound pid status) (lives : signal ≠ .SIGKILL) : (procs.kill target signal).Bound pid status := by
  by_cases same : pid = target
  · subst same
    obtain ⟨child, here, rest⟩ := bound
    refine ⟨child.signal signal, by rw [Procs.kill, Function.update_self, here]; rfl, ?_⟩
    cases signal with
    | SIGKILL => exact absurd rfl lives
    | SIGSTOP | SIGCONT => exact rest
  · exact bound.update same

/-- The process is bound to end with this status. -/
structure World.EndsWith (w : World) (pid : Pid) (status : WaitStatus) : Prop where
  bound : w.procs.Bound pid status
  dealt : ∀ other, w.Dealt pid other → other = status
  waits : ∀ n, (w.oracle n).status = status

theorem stopped_ne_limit : CONTAINER_STOPPED ≠ RESOURCE_LIMIT_HIT := by decide

/-- The log only grows, and by no entry that reports a resource limit. -/
def Unreported (w w' : World) : Prop :=
  ∃ entries, w'.log = w.log ++ entries ∧ ∀ entry ∈ entries, entry.eventType ≠ RESOURCE_LIMIT_HIT

namespace Unreported

theorem of_same {w w' : World} (same : w'.log = w.log) : Unreported w w' := ⟨[], by simp [same], by simp⟩

theorem logged (w : World) {entry : LogEvent} (other : entry.eventType ≠ RESOURCE_LIMIT_HIT) :
    Unreported w (w.logged entry) := ⟨[entry], rfl, by simpa using other⟩

theorem trans {w v u : World} (first : Unreported w v) (second : Unreported v u) : Unreported w u := by
  obtain ⟨entries, grown, plain⟩ := first
  obtain ⟨more, later, plain'⟩ := second
  refine ⟨entries ++ more, by rw [later, grown, List.append_assoc], fun entry member => ?_⟩
  rcases List.mem_append.mp member with early | late
  · exact plain entry early
  · exact plain' entry late

theorem of_chain {w w' : World} (chain : Relation.ReflTransGen Unreported w w') : Unreported w w' := by
  induction chain with
  | refl => exact .of_same rfl
  | tail _ step ih => exact ih.trans step

theorem still {P : World → Prop} (keeps : ∀ w w', Idle w w' → P w → P w') : Still Unreported P :=
  fun w w' idle pre => ⟨.of_same idle.aside.log, keeps w w' idle pre⟩

end Unreported

theorem World.EndsWith.idle {w w' : World} {pid : Pid} {status : WaitStatus} (ends : w.EndsWith pid status)
    (idle : Idle w w') : w'.EndsWith pid status := by
  obtain ⟨bound, dealt, waits⟩ := ends
  cases idle with
  | clock => exact ⟨bound, dealt, waits⟩
  | drift _ drift =>
    refine ⟨?_, ?_, by simpa only [drift.oracle] using waits⟩
    · cases drift with
      | nothing | selects => exact bound
      | exits target proc other here cause =>
        by_cases same : pid = target
        · subst same
          obtain ⟨child, known, ours, open_⟩ := bound
          cases here.symm.trans known
          refine ⟨_, Function.update_self .., ours, .inr ?_⟩
          rcases cause with ended | ⟨-, comes⟩
          · rcases open_ with never | ended'
            · rw [never] at ended
              cases ended
            · rw [← ended, ended']
          · rw [dealt other comes]
        · exact bound.update same
      | vanishes target foreign =>
        apply bound.update
        intro same
        obtain ⟨child, known, ours, -⟩ := bound
        rw [← same, Procs.isChild, known, Option.any_some, ours] at foreign
        cases foreign
      | spawns target positive free =>
        apply bound.update
        intro same
        obtain ⟨child, known, -⟩ := bound
        rw [← same, known] at free
        cases free
      | pauses => exact bound.kill (by decide)
      | resumes => exact bound.kill (by decide)
    · intro other comes
      apply dealt other
      obtain ⟨n, member⟩ := comes
      exact ⟨n, by rwa [drift.oracle] at member⟩

section Reports

variable {pid : Pid} {status : WaitStatus}

theorem still_endsWith : Still Unreported (·.EndsWith pid status) :=
  Unreported.still fun _ _ idle ends => ends.idle idle

theorem still_true : Still Unreported fun _ => True := Unreported.still fun _ _ _ _ => trivial

/-- The status that `waitpid` hands over is the one the process ended with. -/
theorem waitpid_unreported :
    Spec Unreported (·.EndsWith pid status) (waitpid pid) fun result _ => ∀ other, result = .ok other → other = status := by
  apply Spec.bind still_endsWith.tick
  intro now
  cases now.waitFail with
  | some error => exact .pure fun _ _ _ same => by cases same
  | none =>
    refine .bind_modify (M := fun w => w.EndsWith pid status ∧ now.status = status) (fun w _ => .of_same rfl) ?_ ?_
    · rintro w ⟨ends, n, called⟩
      exact ⟨⟨ends.bound, ends.dealt, ends.waits⟩, called ▸ ends.waits n⟩
    refine .fix (fun w => w.procs pid) fun target => .bind_read target (fun _ here => here.2) ?_
    split
    · rename_i origin exit stopped
      refine .bind_modify (M := fun _ => exit.getD now.status = status) (fun w _ => .of_same rfl) ?_ ?_
      · rintro w ⟨⟨ends, ending⟩, here⟩
        obtain ⟨child, known, -, ended⟩ := ends.bound
        cases known.symm.trans here
        rcases ended with rfl | rfl
        · exact ending
        · rfl
      · exact .pure fun _ same other returned => by rw [← Except.ok.inj returned, same]
    · exact .pure fun _ _ _ same => by cases same

theorem waitpidNoHang_unreported :
    Spec Unreported (·.EndsWith pid status) (waitpidNoHang pid) fun result _ =>
      ∀ other, result = .ok (some other) → other = status := by
  apply still_endsWith.bind_tick
  intro now
  cases now.waitFail with
  | some error => exact .pure fun _ _ _ same => by cases same
  | none =>
    refine .bind_modify (M := (·.EndsWith pid status)) (fun w _ => .of_same rfl)
      (fun w ends => ⟨ends.bound, ends.dealt, ends.waits⟩) ?_
    refine .fix (fun w => w.procs pid) fun target => .bind_read target (fun _ here => here.2) ?_
    split
    · rename_i origin ended stopped
      refine .bind_modify (M := fun _ => ended = status) (fun w _ => .of_same rfl) ?_ ?_
      · rintro w ⟨ends, here⟩
        obtain ⟨child, known, -, never | known'⟩ := ends.bound
        · cases known.symm.trans here
          cases never
        · cases known.symm.trans here
          exact Option.some.inj known'
      · exact .pure fun _ same other returned => by rw [← Option.some.inj (Except.ok.inj returned), same]
    · exact .pure fun _ _ _ same => by cases same
    · exact .pure fun _ _ _ same => by cases same

/-- An entry of another type leaves the limit unreported. -/
theorem logEventType_unreported {entry : LogEvent} (other : entry.eventType ≠ RESOURCE_LIMIT_HIT) :
    Spec Unreported (fun _ => True) (logEventType entry) fun _ _ => True :=
  still_true.logEventType (fun w _ => ⟨.logged w other, trivial⟩) fun _ _ => ⟨.of_same rfl, trivial⟩

theorem saveMetadata_unreported : Spec Unreported (fun _ => True) saveMetadata fun _ _ => True := by
  refine saveMetadata_rule (fun w w' filing _ => ⟨?_, trivial⟩) (fun _ _ _ _ => ⟨.of_same rfl, trivial⟩)
    fun _ _ => ⟨.of_same rfl, trivial⟩
  cases filing with
  | idle _ idle => exact .of_same idle.aside.log
  | log entry error => exact .logged w (by rw [error.eventType]; decide)
  | miss entry error => exact .of_same rfl

theorem retire_unreported (i : Nat) :
    Spec Unreported (fun _ => True) (modify (·.remember (·.retire i))) fun _ _ => True :=
  .modify (fun _ _ => .of_same rfl) fun _ _ => trivial

theorem moveTerminalForeground_unreported {P : World → Prop} (still : Still Unreported P) :
    Spec Unreported P moveTerminalForeground fun _ => P := by
  apply still.bind_tick
  intro terminal
  split
  · exact .pure fun _ holds => holds
  · apply still.bind_tick
    intro moved
    cases moved.fail <;> exact .pure fun _ holds => holds

theorem restoreTerminal_unreported (moved : Bool) (errno : Errno) :
    Spec Unreported (fun _ => True) (restoreTerminal moved errno) fun _ _ => True := by
  unfold restoreTerminal
  split
  · exact .bind (moveTerminalForeground_unreported still_true) fun _ => .pure fun _ _ => trivial
  · exact .pure fun _ _ => trivial

variable {i : Nat} {c : Container}

/-- The container at this position runs in a process that ends with this status. -/
def World.Ending (w : World) (i : Nat) (c : Container) (status : WaitStatus) : Prop :=
  w.memory.registry[i]? = some c ∧ c.running = true ∧ w.EndsWith c.pid status

theorem syncContainerState_unreported (plain : ∀ how, (LogEvent.exited c.id.text how status).eventType ≠ RESOURCE_LIMIT_HIT) :
    Spec Unreported (·.Ending i c status) (syncContainerState i) fun _ _ => True := by
  have nothing : ∀ {P : World → Prop}, Spec Unreported P (pure false) fun _ _ => True := .pure fun _ _ => trivial
  apply Spec.bind_read (some c) (fun w here => here.1)
  apply Spec.given (c.running = true) (fun w here => here.2.1)
  intro running
  simp only [running, Bool.true_eq_false, if_false]
  apply Spec.bind (waitpidNoHang_unreported.pre fun w here => here.2.2)
  intro result
  rcases result with error | - | other
  · simp only
    split
    · refine .bind (Q := fun _ _ => True) ?_ fun alive => ?_
      · exact .pre (still_true.bind_tick fun _ => .read fun _ _ => trivial) fun _ _ => trivial
      split
      · exact nothing
      apply Spec.bind_modify (M := fun _ => True) (fun w _ => .of_same rfl) (fun _ _ => trivial)
      exact .bind (retire_unreported i) fun _ => .bind (logEventType_unreported stopped_ne_limit) fun _ =>
        .pure fun _ _ => trivial
    · exact nothing
  · exact nothing
  · apply Spec.given (other = status) (fun w here => here other rfl)
    intro same
    subst same
    refine .bind ((retire_unreported i).pre fun _ _ => trivial) fun _ => .bind (Q := fun _ _ => True) ?_ fun _ => ?_
    · exact still_true.bind_tick fun _ => .modify (fun w _ => .of_same rfl) fun _ _ => trivial
    · exact .bind (logEventType_unreported (plain _)) fun _ => .pure fun _ _ => trivial

theorem waitForContainerProcess_unreported
    (plain : ∀ how, (LogEvent.exited c.id.text how status).eventType ≠ RESOURCE_LIMIT_HIT) :
    Spec Unreported (·.Ending i c status) (waitForContainerProcess i) fun _ _ => True := by
  have nothing : ∀ {P : World → Prop}, Spec Unreported P (pure false) fun _ _ => True := .pure fun _ _ => trivial
  have finished : ∀ moved other, (LogEvent.exited c.id.text (lit "finished") other).eventType ≠ RESOURCE_LIMIT_HIT →
      Spec Unreported (fun _ => True) (waitForContainerProcess.finish i c moved other) fun _ _ => True := by
    intro moved other plain
    refine .bind (restoreTerminal_unreported moved 0) fun _ => .bind (logEventType_unreported plain) fun _ => ?_
    exact .bind (retire_unreported i) fun _ => saveMetadata_unreported
  apply Spec.bind_read (some c) (fun w here => here.1)
  apply Spec.given (c.running = true) (fun w here => here.2.1)
  intro running
  simp only [running, Bool.true_eq_false, if_false]
  refine .pre (P := (·.EndsWith c.pid status)) ?_ fun w here => here.2.2
  refine .bind (moveTerminalForeground_unreported still_endsWith) fun ⟨moved, _⟩ => ?_
  apply Spec.bind waitpid_unreported
  intro result
  cases result with
  | error error =>
    refine .pre (P := fun _ => True) ?_ fun _ _ => trivial
    apply Spec.bind (restoreTerminal_unreported moved error)
    intro errno
    split
    · apply Spec.bind (Q := fun _ _ => True) (still_true.bind_tick fun _ => .read fun _ _ => trivial)
      intro alive
      split
      · exact nothing
      · exact finished moved _ stopped_ne_limit
    · exact nothing
  | ok other =>
    apply Spec.given (other = status) (fun w here => here other rfl)
    intro same
    subst same
    exact (finished moved other (plain _)).pre fun _ _ => trivial

end Reports

/-! ## The report -/

/-- What is promised of a container that the CPU rule ends under the installed limits: the poll or
the foreground wait that reaps it logs the limit, if the log can be written. -/
def CpuKillReported (config : ResourceConfig) (after : Limits) : Prop :=
  ∀ seconds signal, cpuSignal (after .RLIMIT_CPU) seconds = some signal →
    ∀ w i c, c.resourceLimits = config → w.Ending i c (.signaled signal) →
      ∀ p ∈ [syncContainerState i, waitForContainerProcess i], ∀ result w', p w = (.done result, w') →
        (∃ thread, .reaped c.pid thread ∈ w'.trace.drop w.trace.length) →
        (∀ entry, .noted (.unlogged entry) ∉ w'.trace.drop w.trace.length) →
          ∃ entry ∈ w'.log.drop w.log.length, entry.eventType = RESOURCE_LIMIT_HIT

theorem not_reported {w w' : World} (unreported : Unreported w w') :
    ∀ entry ∈ w'.log.drop w.log.length, entry.eventType ≠ RESOURCE_LIMIT_HIT := by
  obtain ⟨entries, grown, plain⟩ := unreported
  rw [grown, List.drop_left]
  exact plain

/-- A container that the CPU rule has just ended, and a manager that has done nothing yet. -/
def cpuZombie (config : ResourceConfig) : Container :=
  ⟨{ createdRecord ⟨none, none, none, none, config⟩ 1 (copyString 512 (lit "/")) with state := .RUNNING, pid := 7 }, true⟩

def zombieWorld (config : ResourceConfig) : World :=
  { World.initial (fun _ => { Tick.calm with status := .signaled SIGKILL })
      (fun pid => if pid = 7 then some ⟨none, true, some (.signaled SIGKILL), false⟩ else none) with
    up := true
    memory := { Memory.fresh with registry := [cpuZombie config] } }

theorem zombieWorld_ending (config : ResourceConfig) :
    (zombieWorld config).Ending 0 (cpuZombie config) (.signaled SIGKILL) := by
  refine ⟨rfl, rfl, ⟨_, rfl, rfl, .inr rfl⟩, ?_, fun _ => rfl⟩
  rintro other ⟨n, member⟩
  cases member

/-- Once the rule has sent SIGKILL, the poll of that manager reports an ordinary stop. -/
theorem zombie_unreported {config : ResourceConfig} {after : Limits} {seconds : Nat}
    (sent : cpuSignal (after .RLIMIT_CPU) seconds = some SIGKILL) : ¬ CpuKillReported config after := by
  intro reported
  obtain ⟨entry, member, limit⟩ := reported _ _ sent (zombieWorld config) 0 (cpuZombie config) rfl
    (zombieWorld_ending config) _ List.mem_cons_self true _ rfl ⟨.idle, .tail _ (.head _)⟩
    (fun entry member => by rcases member with _ | ⟨_, _ | ⟨_, ⟨⟩⟩⟩)
  rcases member with _ | ⟨_, ⟨⟩⟩
  exact stopped_ne_limit limit

/-- Five seconds of CPU time on a host without limits. -/
theorem cpu_kill_logged_as_stop :
    let unlimited : Limits := fun _ => ⟨rlimInfinity, rlimInfinity⟩
    let after : Limits := Function.update unlimited .RLIMIT_CPU ⟨5, 5⟩
    resourceApplyLimits ⟨5, 0, 0⟩ ⟨fun _ => none, fun _ => none⟩ unlimited = .ok after ∧
    cpuSignal (after .RLIMIT_CPU) 5 = some SIGKILL ∧
    (syncContainerState 0 (zombieWorld ⟨5, 0, 0⟩)).2.log.map LogEvent.eventType = [CONTAINER_STOPPED] ∧
    ¬ CpuKillReported ⟨5, 0, 0⟩ after :=
  ⟨rfl, rfl, rfl, zombie_unreported (show cpuSignal ⟨5, 5⟩ 5 = some SIGKILL from rfl)⟩

/-- With a configured CPU limit the rule always kills by the hard limit, and neither the poll nor the
foreground wait ever reports it as a limit: the promise fails for every configuration and every
inherited pair. -/
theorem cpu_kill_never_reported {config : ResourceConfig} {calls : RlimitCalls} {inherited after : Limits}
    (asked : config.cpuSeconds ≠ 0) (applied : resourceApplyLimits config calls inherited = .ok after) :
    (∀ seconds signal, cpuSignal (after .RLIMIT_CPU) seconds = some signal → ∀ w i c, w.Ending i c (.signaled signal) →
      (∀ entry ∈ (syncContainerState i w).2.log.drop w.log.length, entry.eventType ≠ RESOURCE_LIMIT_HIT) ∧
      ∀ entry ∈ (waitForContainerProcess i w).2.log.drop w.log.length, entry.eventType ≠ RESOURCE_LIMIT_HIT) ∧
    ¬ CpuKillReported config after := by
  obtain ⟨equal, finite⟩ := resourceApplyLimits_cpu asked applied
  constructor
  · intro seconds signal sent w i c ending
    obtain rfl := cpuSignal_of_equal equal sent
    have plain : ∀ how, (LogEvent.exited c.id.text how (.signaled SIGKILL)).eventType ≠ RESOURCE_LIMIT_HIT :=
      fun _ => stopped_ne_limit
    exact ⟨not_reported (.of_chain (syncContainerState_unreported plain w ending).1),
      not_reported (.of_chain (waitForContainerProcess_unreported plain w ending).1)⟩
  · have small := config.cpuSeconds.toNat_lt
    have sent : cpuSignal (after .RLIMIT_CPU) config.cpuSeconds.toNat = some SIGKILL := by
      refine if_pos ⟨?_, finite⟩
      unfold rlimInfinity
      omega
    exact zombie_unreported sent

/-- An hour of CPU time on a host without limits: the program is killed and nobody says why. -/
theorem cpu_hour_never_reported :
    (resourceApplyLimits ⟨3600, 0, 0⟩ ⟨fun _ => none, fun _ => none⟩ fun _ => ⟨rlimInfinity, rlimInfinity⟩) =
      .ok (Function.update (fun _ => ⟨rlimInfinity, rlimInfinity⟩) .RLIMIT_CPU ⟨3600, 3600⟩) ∧
    ¬ CpuKillReported ⟨3600, 0, 0⟩
      (Function.update (fun _ => ⟨rlimInfinity, rlimInfinity⟩) .RLIMIT_CPU ⟨3600, 3600⟩) := by
  have applied : (resourceApplyLimits ⟨3600, 0, 0⟩ ⟨fun _ => none, fun _ => none⟩ fun _ =>
      ⟨rlimInfinity, rlimInfinity⟩) =
      .ok (Function.update (fun _ => ⟨rlimInfinity, rlimInfinity⟩) .RLIMIT_CPU ⟨3600, 3600⟩) := rfl
  exact ⟨applied, (cpu_kill_never_reported (by decide) applied).2⟩

end ContainerRuntime
