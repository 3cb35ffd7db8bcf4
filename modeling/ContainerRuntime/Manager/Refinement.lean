import ContainerRuntime.Logger.Messages
import ContainerRuntime.Manager.Operations

/-! The operations refine the action system: every one of them, from a settled
memory, is a chain of moves, and if it is not cut it leaves a settled memory. -/

set_option autoImplicit false

namespace ContainerRuntime

open CString Cli Program
open Prog (read modify forEach)

/-! ## Between two calls -/

theorem World.Drift.memory {w w' : World} (drift : w.Drift w') : w'.memory = w.memory := by
  cases drift <;> rfl

theorem World.Drift.oracle {w w' : World} (drift : w.Drift w') : w'.oracle = w.oracle := by
  cases drift <;> rfl

theorem Idle.memory {w w' : World} (idle : Idle w w') : w'.memory = w.memory := by
  cases idle with
  | clock => rfl
  | drift _ drift => exact drift.memory

theorem Quiet.memory {w w' : World} (quiet : Quiet w w') : w'.memory = w.memory := by
  cases quiet with
  | idle _ idle => exact idle.memory
  | _ => rfl

/-- What holds before a quiet action holds after it. -/
def Stable (P : World → Prop) : Prop := ∀ w w', Quiet w w' → P w → P w'

namespace Stable

theorem memory (P : Memory → Prop) : Stable fun w => P w.memory := by
  intro w w' quiet holds
  simpa only [quiet.memory] using holds

theorem and {P Q : World → Prop} (first : Stable P) (second : Stable Q) : Stable fun w => P w ∧ Q w :=
  fun w w' quiet holds => ⟨first w w' quiet holds.1, second w w' quiet holds.2⟩

end Stable

/-- Time passes by `R`, and leaves `P` alone. -/
def Still (R : World → World → Prop) (P : World → Prop) : Prop := ∀ w w', Idle w w' → P w → R w w' ∧ P w'

section Still

variable {R : World → World → Prop} {P : World → Prop} {α : Type} {Q : α → World → Prop}

theorem Still.events (still : Still R P) (n : Nat) (events : List Event) {w : World} (pre : P w)
    (dealt : ∀ e ∈ events, e ∈ (w.oracle n).events) :
    Relation.ReflTransGen R w (events.foldl World.event w) ∧ P (events.foldl World.event w) ∧
      (events.foldl World.event w).oracle = w.oracle := by
  induction events generalizing w with
  | nil => exact ⟨.refl, pre, rfl⟩
  | cons first rest ih =>
    have drift := w.drift_event first fun pid status same => ⟨n, same ▸ dealt first List.mem_cons_self⟩
    obtain ⟨step, next⟩ := still w _ (.drift w _ drift) pre
    obtain ⟨chain, post, same⟩ := ih next fun e member => drift.oracle ▸ dealt e (List.mem_cons_of_mem first member)
    exact ⟨.head step chain, post, same.trans drift.oracle⟩

/-- A call is made when time has passed. -/
theorem Still.tick (still : Still R P) : Spec R P tick fun now w => P w ∧ ∃ n, w.oracle n = now := by
  intro w pre
  obtain ⟨step, next⟩ := still w _ (.clock w) pre
  obtain ⟨chain, post, oracle⟩ := still.events w.clock (w.oracle w.clock).events next fun _ dealt => dealt
  refine ⟨.head step chain, fun now done => ⟨post, w.clock, ?_⟩⟩
  have same : now = w.oracle w.clock := by
    simp only [ContainerRuntime.tick] at done
    split at done
    · cases done
    · exact (Outcome.done.inj done).symm
  rw [same]
  exact congrFun oracle w.clock

theorem Still.bind_tick {next : Tick → Prog World α} (still : Still R P) (rest : ∀ now, Spec R P (next now) Q) :
    Spec R P (ContainerRuntime.tick >>= next) Q :=
  .bind still.tick fun now => (rest now).pre fun _ holds => holds.1

/-- The entry is in the log, or it is noted that it is not. -/
theorem Still.logEventType {S : World → Prop} {entry : LogEvent} (still : Still R P)
    (logged : ∀ w, P w → R w (w.logged entry) ∧ S (w.logged entry))
    (missed : ∀ w, P w → R w (w.observe (.noted (.unlogged entry))) ∧ S (w.observe (.noted (.unlogged entry)))) :
    Spec R P (logEventType entry) fun _ => S := by
  apply still.bind_tick
  intro now
  split
  · exact .modify_step logged
  · exact .modify_step missed

theorem Still.isPidAlive (still : Still R P) (pid : Pid) : Spec R P (isPidAlive pid) fun _ => P :=
  still.bind_tick fun _ => .read fun _ holds => holds

/-- Whatever `waitpid` answers. -/
theorem Still.waitpid {pid : Pid} (still : Still R P) (waited : ∀ w, P w → R w (w.waited pid) ∧ P (w.waited pid))
    (reaped : ∀ w, P w → R w (w.reaped pid) ∧ P (w.reaped pid)) : Spec R P (waitpid pid) fun _ => P := by
  apply still.bind_tick
  intro now
  cases now.waitFail with
  | some error => exact .pure fun _ holds => holds
  | none =>
    refine .bind (.modify_step waited) fun _ => .bind_read_any fun target => ?_
    split
    · exact .bind (.modify_step reaped) fun _ => .pure fun _ holds => holds
    · exact .pure fun _ holds => holds

theorem Still.waitpidNoHang {pid : Pid} (still : Still R P) (waited : ∀ w, P w → R w (w.waited pid) ∧ P (w.waited pid))
    (reaped : ∀ w, P w → R w (w.reaped pid) ∧ P (w.reaped pid)) : Spec R P (waitpidNoHang pid) fun _ => P := by
  apply still.bind_tick
  intro now
  cases now.waitFail with
  | some error => exact .pure fun _ holds => holds
  | none =>
    refine .bind (.modify_step waited) fun _ => .bind_read_any fun target => ?_
    split
    · exact .bind (.modify_step reaped) fun _ => .pure fun _ holds => holds
    · exact .pure fun _ holds => holds
    · exact .pure fun _ holds => holds

/-- The thread is told to stop and comes to its end. -/
theorem Still.schedulerStop (still : Still R P) (flags : ∀ started stop w, P w →
      R w (w.scheduled fun s => { s with threadStarted := started, stopRequested := stop }) ∧
        P (w.scheduled fun s => { s with threadStarted := started, stopRequested := stop })) :
    Spec R P schedulerStop fun _ => P := by
  have joined : Spec R P (modify (·.event .thread)) fun _ => P :=
    .modify_step fun w => still w _ (.drift w _ w.drift_threadStep)
  refine still.bind_tick fun _ => .bind_read_any fun started => ?_
  split
  · refine .bind (.modify_step (flags true true)) fun _ => still.bind_tick fun _ => ?_
    exact .bind joined fun _ => .bind joined fun _ => .modify_step (flags false false)
  · exact .pure fun _ holds => holds

/-- The poll keeps what each of its rounds keeps, and the save. -/
theorem syncAll_rule (round : ∀ i, Spec R P (syncContainerState i) fun _ => P) (changed : Bool) (positions : List Nat) :
    Spec R P (syncAll changed positions) fun _ => P := by
  induction positions generalizing changed with
  | nil => exact .pure fun _ holds => holds
  | cons first rest ih => exact .bind (round first) fun _ => ih _

theorem pollStates_rule (round : ∀ i, Spec R P (syncContainerState i) fun _ => P) (save : Spec R P saveMetadata fun _ => P) :
    Spec R P pollStates fun _ => P := by
  refine .bind_read_any fun count => .bind (syncAll_rule round false _) fun changed => ?_
  split
  · exact .bind save fun _ => .pure fun _ holds => holds
  · exact .pure fun _ holds => holds

theorem Still.memory (still : Still R P) (S : Memory → Prop) : Still R fun w => P w ∧ S w.memory := by
  intro w w' idle pre
  obtain ⟨step, next⟩ := still w w' idle pre.1
  exact ⟨step, next, idle.memory ▸ pre.2⟩

theorem Still.writeRecords (still : Still R P) (records : List Record) :
    Spec R P (writeRecords records) fun written w => P w ∧ written.Sublist records := by
  induction records with
  | nil => exact .pure fun _ holds => ⟨holds, List.Sublist.refl []⟩
  | cons record rest ih =>
    refine still.bind_tick fun now => .bind ih fun written => .pure fun w holds => ⟨holds.1, ?_⟩
    split
    · exact holds.2.cons_cons record
    · exact holds.2.cons record

/-- What `save_metadata` does before it is decided: time passes, and a failure is reported. -/
inductive Filing : World → World → Prop where
  | idle (w w' : World) (idle : Idle w w') : Filing w w'
  | log (w : World) (entry : LogEvent) (error : entry.IsSaveError) : Filing w (w.logged entry)
  | miss (w : World) (entry : LogEvent) (error : entry.IsSaveError) :
      Filing w (w.observe (.noted (.unlogged entry)))

/-- A save ends with the rename of what was written, or leaves the file as it is. -/
theorem saveMetadata_rule {Q : Bool → World → Prop} (filing : ∀ w w', Filing w w' → P w → R w w' ∧ P w')
    (published : ∀ w written, P w → written.Sublist w.memory.records →
      R w (w.published written) ∧ Q true (w.published written))
    (unsaved : ∀ w, P w → R w w.unsaved ∧ Q false w.unsaved) : Spec R P saveMetadata Q := by
  have still : Still R P := fun w w' idle => filing w w' (.idle w w' idle)
  have failed : ∀ entry : LogEvent, entry.IsSaveError → Spec R P (saveMetadata.failed entry) Q := by
    intro entry error
    refine .bind (still.logEventType (fun w => filing w _ (.log w entry error))
      fun w => filing w _ (.miss w entry error)) fun _ => ?_
    exact .bind_modify (M := Q false) (fun w pre => (unsaved w pre).1) (fun w pre => (unsaved w pre).2)
      (.pure fun _ holds => holds)
  apply Spec.fix World.memory
  intro m
  have still' := still.memory (· = m)
  apply still'.bind_tick
  intro opened
  split
  · exact (failed _ (.inl rfl)).pre fun _ holds => holds.1
  apply Spec.bind_read m.records (fun _ holds => congrArg Memory.records holds.2)
  apply Spec.bind (still'.writeRecords m.records)
  intro written
  apply Spec.given (written.Sublist m.records) (fun _ holds => holds.2)
  intro kept
  refine .pre (P := fun w => P w ∧ w.memory = m) ?_ fun _ holds => holds.1
  apply still'.bind_tick
  intro closed
  split
  · exact (failed _ (.inr (.inl rfl))).pre fun _ holds => holds.1
  apply still'.bind_tick
  intro renamed
  split
  · exact (failed _ (.inr (.inr rfl))).pre fun _ holds => holds.1
  have kept' : ∀ w : World, w.memory = m → written.Sublist w.memory.records := fun w same => same ▸ kept
  exact .bind_modify (M := Q true) (fun w pre => (published w written pre.1 (kept' w pre.2)).1)
    (fun w pre => (published w written pre.1 (kept' w pre.2)).2) (.pure fun _ holds => holds)

end Still

section Quiet

variable {P : World → Prop} {α : Type} {Q : α → World → Prop}

/-- Time passing is a quiet move. -/
theorem still_move (still : ∀ w w', Idle w w' → P w → P w') : Still Move P :=
  fun w w' idle pre => ⟨.quiet w w' (.idle w w' idle), still w w' idle pre⟩

theorem Stable.still (stable : Stable P) : Still Move P := still_move fun w w' idle => stable w w' (.idle w w' idle)

theorem Stable.step (stable : Stable P) {w w' : World} (quiet : Quiet w w') (pre : P w) : Move w w' ∧ P w' :=
  ⟨.quiet w w' quiet, stable w w' quiet pre⟩

theorem Stable.tick (stable : Stable P) : Spec Move P tick fun now w => P w ∧ ∃ n, w.oracle n = now :=
  stable.still.tick

theorem bind_tick {next : Tick → Prog World α} (stable : Stable P) (rest : ∀ now, Spec Move P (next now) Q) :
    Spec Move P (tick >>= next) Q := stable.still.bind_tick rest

theorem quiet_spec {f : World → World} (stable : Stable P) (quiet : ∀ w, P w → Quiet w (f w)) :
    Spec Move P (modify f) fun _ => P :=
  .modify (fun w pre => .quiet w _ (quiet w pre)) fun w pre => stable w _ (quiet w pre) pre

theorem logEventType_spec (stable : Stable P) (entry : LogEvent) : Spec Move P (logEventType entry) fun _ => P :=
  stable.still.logEventType (fun w => stable.step (.log w entry)) fun w => stable.step (.note w (.unlogged entry))

theorem underMutex_spec (stable : Stable P) {f : Scheduler → Scheduler} (call : TableCall f)
    (fewer : ∀ s, (f s).targets ⊆ s.targets) : Spec Move P (underMutex f) fun _ => P :=
  bind_tick stable fun _ => quiet_spec stable fun w _ => .table w f call fun _ member => .inl (fewer w.sched member)

theorem onStarted_spec (stable : Stable P) {pid : Pid}
    (running : ∀ w, P w → pid ∈ w.memory.runningPids ∧ w.memory.Settled) :
    Spec Move P (containerSchedulerOnStarted pid) fun _ => P := by
  refine bind_tick stable fun _ => quiet_spec stable fun w here => .table w _ (.add _ pid) fun target member => ?_
  rcases Scheduler.of_mem_schedulerAddTarget member with known | rfl
  · exact .inl known
  · exact .inr (running w here)

theorem onStopped_spec (stable : Stable P) (pid : Pid) :
    Spec Move P (containerSchedulerOnStopped pid) fun _ => P :=
  underMutex_spec stable (.remove pid) (Scheduler.schedulerRemoveTarget_subset pid)

theorem isPidAlive_spec (stable : Stable P) (pid : Pid) :
    Spec Move P (isPidAlive pid) fun alive w => P w ∧ alive = w.isPidAlive pid :=
  bind_tick stable fun _ => .read fun _ holds => ⟨holds, rfl⟩

theorem saveMetadata_spec (stable : Stable P) : Spec Move P saveMetadata fun _ => P := by
  refine saveMetadata_rule (fun w w' filing pre => stable.step ?_ pre)
    (fun w written pre kept => stable.step (.publish w written kept) pre) fun w pre => stable.step (.note w _) pre
  cases filing with
  | idle _ idle => exact .idle w w' idle
  | log entry => exact .log w entry
  | miss entry => exact .note w _

end Quiet

/-! ## Children of the manager -/

namespace Procs

@[simp] theorem isChild_kill (procs : Procs) (pid target : Pid) (signal : Signal) :
    (procs.kill target signal).isChild pid = procs.isChild pid := by
  unfold kill isChild
  by_cases same : pid = target
  · subst same
    rw [Function.update_self, Option.any_map]
    congr 1
    funext proc
    cases signal <;> rfl
  · rw [Function.update_of_ne same]

theorem isChild_update (procs : Procs) (pid target : Pid) (proc : Option Proc) :
    Procs.isChild (Function.update procs target proc) pid =
      if pid = target then proc.any (·.child) else procs.isChild pid := by
  unfold isChild
  split
  · rename_i same; rw [same, Function.update_self]
  · rename_i other; rw [Function.update_of_ne other]

/-- A change of the table that gives nobody a number. -/
theorem update_vacant {procs : Procs} {target : Pid} {now : Option Proc} (kept : procs target = none → now = none) (pid : Pid)
    (free : procs pid = none) : Function.update procs target now pid = none := by
  by_cases same : pid = target
  · subst same
    rw [Function.update_self, kept free]
  · rw [Function.update_of_ne same, free]

theorem kill_vacant {procs : Procs} (target : Pid) (signal : Signal) (pid : Pid) (free : procs pid = none) : procs.kill target signal pid = none :=
  update_vacant (fun gone => by rw [gone]; rfl) pid free

end Procs

/-- Nobody but the manager makes or reaps its children. -/
theorem World.Drift.isChild {w w' : World} (drift : w.Drift w') (pid : Pid) :
    w'.procs.isChild pid = w.procs.isChild pid := by
  cases drift with
  | nothing => rfl
  | exits target proc status here =>
    rw [Procs.isChild_update]
    split
    · rename_i same; subst same; simp [Procs.isChild, here]
    · rfl
  | vanishes target foreign =>
    rw [Procs.isChild_update]
    split
    · rename_i same; subst same; exact foreign.symm
    · rfl
  | spawns target positive free =>
    simp only [World.appear, World.observe, Procs.isChild_update]
    split
    · rename_i same; subst same; simp [Procs.isChild, free]
    · rfl
  | selects => rfl
  | pauses => exact Procs.isChild_kill _ _ _ _
  | resumes => exact Procs.isChild_kill _ _ _ _

theorem Quiet.isChild {w w' : World} (quiet : Quiet w w') (pid : Pid) :
    w'.procs.isChild pid = w.procs.isChild pid := by
  cases quiet with
  | idle _ idle =>
    cases idle with
    | clock => rfl
    | drift _ drift => exact drift.isChild pid
  | _ => rfl

theorem Quiet.oracle {w w' : World} (quiet : Quiet w w') : w'.oracle = w.oracle := by
  cases quiet with
  | idle _ idle =>
    cases idle with
    | clock => rfl
    | drift _ drift => exact drift.oracle
  | _ => rfl

/-- There is no child to wait for, or `waitpid` has said so without cause. -/
def World.Childless (w : World) (pid : Pid) : Prop := w.procs.isChild pid = false ∨ w.DeniedChild

theorem Stable.childless (pid : Pid) : Stable (·.Childless pid) := by
  intro w w' quiet holds
  rwa [World.Childless, World.DeniedChild, quiet.isChild, quiet.oracle]

theorem Stable.at (m : Memory) : Stable fun w => w.memory = m := .memory (· = m)

section Waiting

variable {m : Memory} {pid : Pid}

/-- The common start of both forms of `waitpid`. -/
theorem bind_wait {α : Type} {next : Option Proc → Prog World α} {Q : α → World → Prop}
    (running : pid ∈ m.runningPids) (settled : m.Settled)
    (rest : ∀ target, Spec Move (fun w => w.memory = m ∧ w.procs pid = target) (next target) Q) :
    Spec Move (fun w => w.memory = m) (do modify (·.waited pid); next (← read (·.procs pid))) Q := by
  refine .bind_modify (M := fun w => w.memory = m)
    (fun w here => .wait w pid (here.symm ▸ running) (here.symm ▸ settled)) (fun _ here => here) ?_
  apply Spec.fix (fun w => w.procs pid)
  intro target
  exact .bind_read target (fun _ here => here.2) (rest target)

theorem denied {now : Tick} {error : Errno} (failed : now.waitFail = some error) {w : World}
    (called : ∃ n, w.oracle n = now) : error = Errno.ECHILD → w.Childless pid := by
  rintro rfl
  obtain ⟨n, same⟩ := called
  exact .inr ⟨n, by rw [same, failed]⟩

/-- A child that has been waited for is reaped. -/
theorem reap_spec {proc : Proc} (running : pid ∈ m.runningPids) (settled : m.Settled)
    (child : proc.child = true) :
    Spec Move (fun w => w.memory = m ∧ w.procs pid = some proc) (modify (·.reaped pid)) fun _ w =>
      w.memory = { m with released := some pid } := by
  refine .modify (fun w here => .reap w pid (here.1.symm ▸ running) ?_ (here.1.symm ▸ settled)) fun w here => ?_
  · simp [Procs.isChild, here.2, child]
  · simp only [World.reaped, World.observe, here.1]

theorem childless_of_not_child {w : World} {proc : Option Proc} (here : w.procs pid = proc)
    (foreign : proc.any (·.child) = false) : w.Childless pid := .inl (by rw [Procs.isChild, here, foreign])

theorem waitpid_spec (running : pid ∈ m.runningPids) (settled : m.Settled) :
    Spec Move (fun w => w.memory = m) (waitpid pid) fun result w =>
      match result with
      | .ok _ => w.memory = { m with released := some pid }
      | .error error => w.memory = m ∧ (error = Errno.ECHILD → w.Childless pid) := by
  apply Spec.bind (Stable.at m).tick
  intro now
  cases failed : now.waitFail with
  | some error => exact .pure fun w here => ⟨here.1, denied failed here.2⟩
  | none =>
    refine .pre (bind_wait running settled fun target => ?_) fun w here => here.1
    rcases target with - | ⟨origin, child, exit, stopped⟩
    · exact .pure fun w here => ⟨here.1, fun _ => childless_of_not_child here.2 rfl⟩
    · cases child with
      | true => exact .bind (reap_spec running settled rfl) fun _ => .pure fun w here => here
      | false => exact .pure fun w here => ⟨here.1, fun _ => childless_of_not_child here.2 rfl⟩

theorem waitpidNoHang_spec (running : pid ∈ m.runningPids) (settled : m.Settled) :
    Spec Move (fun w => w.memory = m) (waitpidNoHang pid) fun result w =>
      match result with
      | .ok (some _) => w.memory = { m with released := some pid }
      | .ok none => w.memory = m
      | .error error => w.memory = m ∧ (error = Errno.ECHILD → w.Childless pid) := by
  apply Spec.bind (Stable.at m).tick
  intro now
  cases failed : now.waitFail with
  | some error => exact .pure fun w here => ⟨here.1, denied failed here.2⟩
  | none =>
    refine .pre (bind_wait running settled fun target => ?_) fun w here => here.1
    rcases target with - | ⟨origin, child, exit, stopped⟩
    · exact .pure fun w here => ⟨here.1, fun _ => childless_of_not_child here.2 rfl⟩
    · cases child with
      | false => exact .pure fun w here => ⟨here.1, fun _ => childless_of_not_child here.2 rfl⟩
      | true =>
        cases exit with
        | none => exact .pure fun w here => here.1
        | some status => exact .bind (reap_spec running settled rfl) fun _ => .pure fun w here => here

end Waiting

/-! ## Records that leave RUNNING -/

section Retiring

variable {m : Memory} {i : Nat} {c : Container}

theorem Memory.mem_runningPids (here : m.registry[i]? = some c) (running : c.running = true) :
    c.pid ∈ m.runningPids :=
  List.mem_map.mpr ⟨c, List.mem_filter.mpr ⟨List.mem_of_getElem? here, running⟩, rfl⟩

theorem Memory.Settled.retire (settled : m.Settled) : (m.retire i).Settled :=
  { settled with released := rfl }

/-- The record of a reaped process. -/
theorem retire_reaped_spec (here : m.registry[i]? = some c) (running : c.running = true) (settled : m.Settled) :
    Spec Move (fun w => w.memory = { m with released := some c.pid }) (modify (·.remember (·.retire i))) fun _ w =>
      w.memory = m.retire i := by
  refine .modify (fun w same => .retire w i c ?_ running ?_ (.inl ?_)) fun w same => ?_
  · rw [same]; exact here
  · rw [same]; exact settled.inflight
  · rw [same]
  · simp only [World.remember, same]; rfl

/-- The record of a process that is no child. -/
theorem retire_childless_spec (here : m.registry[i]? = some c) (running : c.running = true) (settled : m.Settled) :
    Spec Move (fun w => w.memory = m ∧ w.Childless c.pid) (modify (·.remember (·.retire i))) fun _ w =>
      w.memory = m.retire i := by
  refine .modify (fun w same => .retire w i c ?_ running ?_ (.inr ⟨?_, same.2⟩)) fun w same => ?_
  · rw [same.1]; exact here
  · rw [same.1]; exact settled.inflight
  · rw [same.1]; exact settled.released
  · simp only [World.remember, same.1]

end Retiring

theorem pid_pos_of_running {c : Container} (running : c.running = true) : 0 < c.pid :=
  (of_decide_eq_true running).2

/-- `is_pid_alive` has not found the process. -/
theorem childless_of_dead {w : World} {pid : Pid} (positive : 0 < pid) (dead : w.isPidAlive pid = false) :
    w.Childless pid := by
  have absent : w.procs pid = none := by simpa [World.isPidAlive, World.found, positive] using dead
  exact childless_of_not_child absent rfl

/-- `if (... && !is_pid_alive(container->pid))`, for a record that is then retired. -/
theorem bind_dead {m : Memory} {c : Container} {α : Type} {alive dead : Prog World α} {Q : α → World → Prop}
    (running : c.running = true)
    (kept : Spec Move (fun w => w.memory = m) alive Q)
    (gone : Spec Move (fun w => w.memory = m ∧ w.Childless c.pid) dead Q) :
    Spec Move (fun w => w.memory = m) (do if ← isPidAlive c.pid then alive else dead) Q := by
  apply Spec.bind (isPidAlive_spec (.at m) c.pid)
  intro answer
  cases answer with
  | true => exact kept.pre fun w here => here.1
  | false => exact gone.pre fun w here => ⟨here.1, childless_of_dead (pid_pos_of_running running) here.2.symm⟩

/-- From a settled memory, with the value it has. -/
theorem of_settled {α : Type} {p : Prog World α} {Q : α → World → Prop}
    (spec : ∀ m : Memory, m.Settled → Spec Move (fun w => w.memory = m) p Q) :
    Spec Move (fun w => w.memory.Settled) p Q := by
  refine .fix World.memory fun m => .given m.Settled (fun w here => here.2 ▸ here.1) fun settled => ?_
  exact (spec m settled).pre fun w here => here.2

theorem syncContainerState_spec (i : Nat) :
    Spec Move (fun w => w.memory.Settled) (syncContainerState i) fun _ w => w.memory.Settled := by
  apply of_settled
  intro m settled
  have unchanged : Spec Move (fun w => w.memory = m) (pure false) fun _ w => w.memory.Settled :=
    .pure fun w same => same.symm ▸ settled
  apply Spec.bind_read m.registry[i]? (fun w here => by rw [here])
  cases here : m.registry[i]? with
  | none => exact unchanged
  | some c =>
    simp only
    split
    · exact unchanged
    rename_i running
    have running : c.running = true := by simpa using running
    have finished : Stable fun w => w.memory = m.retire i := .at _
    have done : ∀ w : World, w.memory = m.retire i → w.memory.Settled := fun w same => same ▸ settled.retire
    apply Spec.bind (waitpidNoHang_spec (Memory.mem_runningPids here running) settled)
    intro result
    rcases result with error | - | status
    · simp only
      split
      · refine .pre (bind_dead running unchanged ?_) fun w same => same.1
        apply Spec.bind (quiet_spec ((Stable.at m).and (.childless c.pid)) fun w _ => .note w _)
        intro _
        apply Spec.bind (retire_childless_spec here running settled)
        intro _
        exact .bind (logEventType_spec finished _) fun _ => .pure done
      · exact unchanged.pre fun w same => same.1
    · exact unchanged
    · apply Spec.bind (retire_reaped_spec here running settled)
      intro _
      apply Spec.bind (onStopped_spec finished c.pid)
      intro _
      exact .bind (logEventType_spec finished _) fun _ => .pure done

theorem stable_settled : Stable fun w => w.memory.Settled := .memory Memory.Settled

theorem pollStates_spec : Spec Move (fun w => w.memory.Settled) pollStates fun _ w => w.memory.Settled :=
  pollStates_rule syncContainerState_spec (saveMetadata_spec stable_settled)

/-! ## Stopping and waiting -/

theorem kill_spec {m : Memory} {c : Container} (member : c ∈ m.registry) (running : c.running = true)
    (settled : m.Settled) :
    Spec Move (fun w => w.memory = m) (kill c.id.text c.pid) fun _ w => w.memory = m := by
  apply bind_tick (.at m)
  intro now
  cases now.fail with
  | some error => exact .pure fun _ here => here
  | none =>
    refine .bind_read_any fun found => .bind_modify (M := fun w => w.memory = m)
      (fun w here => .kill w c (here.symm ▸ member) running (here.symm ▸ settled)) (fun _ here => here) ?_
    exact .pure fun _ here => here

theorem stopContainerProcess_spec (i : Nat) :
    Spec Move (fun w => w.memory.Settled) (stopContainerProcess i) fun _ w => w.memory.Settled := by
  apply of_settled
  intro m settled
  have unchanged : Spec Move (fun w => w.memory = m) (pure false) fun _ w => w.memory.Settled :=
    .pure fun w same => same.symm ▸ settled
  have failed : ∀ entry, Spec Move (fun w => w.memory = m) (do logEventType entry; pure false)
      fun _ w => w.memory.Settled := fun entry => .bind (logEventType_spec (.at m) entry) fun _ => unchanged
  apply Spec.bind_read m.registry[i]? (fun w here => by rw [here])
  cases here : m.registry[i]? with
  | none => exact unchanged
  | some c =>
    simp only
    split
    · exact unchanged
    rename_i running
    have running : c.running = true := by simpa using running
    apply Spec.bind (kill_spec (List.mem_of_getElem? here) running settled)
    intro killed
    split
    · exact failed _
    apply Spec.bind (waitpid_spec (Memory.mem_runningPids here running) settled)
    intro result
    -- Either way the record is logged as stopped before it is.
    have marked : ∀ {P : World → Prop}, Stable P →
        Spec Move P (modify (·.remember (·.retire i))) (fun _ w => w.memory = m.retire i) →
        Spec Move P (stopContainerProcess.markStopped i c) fun _ w => w.memory.Settled := by
      intro P stable retired
      refine .bind (logEventType_spec stable _) fun _ => .bind (onStopped_spec stable c.pid) fun _ => ?_
      refine .bind retired fun _ => .bind (saveMetadata_spec (.at _)) fun _ => ?_
      exact .pure fun w same => same ▸ settled.retire
    rcases result with error | status
    · simp only
      split
      · exact (failed _).pre fun w same => same.1
      · rename_i absent
        refine .pre (marked ((Stable.at m).and (.childless c.pid)) ?_) fun w same => ⟨same.1, same.2 ?_⟩
        · exact retire_childless_spec here running settled
        · simpa using absent
    · exact marked (.at _) (retire_reaped_spec here running settled)

theorem moveTerminalForeground_spec {P : World → Prop} (stable : Stable P) :
    Spec Move P moveTerminalForeground fun _ => P := by
  apply bind_tick stable
  intro terminal
  split
  · exact .pure fun _ holds => holds
  · apply bind_tick stable
    intro moved
    cases moved.fail <;> exact .pure fun _ holds => holds

theorem restoreTerminal_spec {P : World → Prop} (stable : Stable P) (moved : Bool) (errno : Errno) :
    Spec Move P (restoreTerminal moved errno) fun _ => P := by
  unfold restoreTerminal
  split
  · exact .bind (moveTerminalForeground_spec stable) fun _ => .pure fun _ holds => holds
  · exact .pure fun _ holds => holds

theorem waitForContainerProcess_spec (i : Nat) :
    Spec Move (fun w => w.memory.Settled) (waitForContainerProcess i) fun _ w => w.memory.Settled := by
  apply of_settled
  intro m settled
  have unchanged : Spec Move (fun w => w.memory = m) (pure false) fun _ w => w.memory.Settled :=
    .pure fun w same => same.symm ▸ settled
  apply Spec.bind_read m.registry[i]? (fun w here => by rw [here])
  cases here : m.registry[i]? with
  | none => exact unchanged
  | some c =>
    simp only
    split
    · exact unchanged
    rename_i running
    have running : c.running = true := by simpa using running
    have finished : ∀ {P : World → Prop} (moved : Bool) (status : WaitStatus), Stable P →
        Spec Move P (modify (·.remember (·.retire i))) (fun _ w => w.memory = m.retire i) →
        Spec Move P (waitForContainerProcess.finish i c moved status) fun _ w => w.memory.Settled := by
      intro P moved status stable retired
      refine .bind (restoreTerminal_spec stable moved 0) fun _ => .bind (logEventType_spec stable _) fun _ => ?_
      refine .bind retired fun _ => (saveMetadata_spec (.at _)).post fun _ w same => same ▸ settled.retire
    refine .bind (moveTerminalForeground_spec (.at m)) fun ⟨moved, _⟩ => ?_
    apply Spec.bind (waitpid_spec (Memory.mem_runningPids here running) settled)
    intro result
    rcases result with error | status
    · refine .pre (P := fun w => w.memory = m) ?_ fun w same => same.1
      apply Spec.bind (restoreTerminal_spec (.at m) moved error)
      intro errno
      split
      · apply bind_dead running unchanged
        exact finished moved _ ((Stable.at m).and (.childless c.pid))
          (retire_childless_spec here running settled)
      · exact unchanged
    · exact finished moved status (.at _) (retire_reaped_spec here running settled)

/-! ## Starting -/

theorem firstFailure_spec {P : World → Prop} (stable : Stable P) (calls : Nat) :
    Spec Move P (firstFailure calls) fun _ => P := by
  induction calls with
  | zero => exact .pure fun _ holds => holds
  | succ calls ih =>
    apply bind_tick stable
    intro now
    cases now.fail with
    | some error => exact .pure fun _ holds => holds
    | none => exact ih

theorem configureUserNamespace_spec {P : World → Prop} (stable : Stable P) :
    Spec Move P configureUserNamespace fun _ => P := by
  apply bind_tick stable
  intro setgroups
  split
  · exact .pure fun _ holds => holds
  · exact firstFailure_spec stable 2

section Starting

variable {m : Memory} {i : Nat} {c owner : Container} {pid : Pid}

theorem killChild_spec (starting : m.starting = some i) (here : m.registry[i]? = some owner) :
    Spec Move (fun w => w.memory = { m with inflight := some pid }) (killChild owner.id.text pid) fun _ w =>
      w.memory = { m with inflight := some pid } := by
  refine bind_tick (.at _) fun now => .modify (fun w same => ?_) fun w same => same
  exact .killInflight w i owner pid (by rw [same]; exact starting) (by rw [same]; exact here) (by rw [same])

theorem reapChild_spec (nobody : m.inflight = none) :
    Spec Move (fun w => w.memory = { m with inflight := some pid }) (reapChild pid) fun _ w => w.memory = m := by
  have cleared : ∀ w : World, w.memory = { m with inflight := some pid } →
      { w.memory with inflight := none } = m := by
    intro w same
    rw [same, ← nobody]
  apply Spec.bind (Stable.at _).tick
  intro now
  cases failed : now.reapFail with
  | none =>
    refine .bind_modify (M := fun w => w.memory = { m with inflight := some pid })
      (fun w same => .waitInflight w pid (by rw [same.1])) (fun w same => same.1) ?_
    exact .modify (fun w same => .reapInflight w pid (by rw [same])) cleared
  | some error =>
    refine .modify (fun w same => .leakInflight w pid (by rw [same.1]) ?_) fun w same => cleared w same.1
    obtain ⟨n, called⟩ := same.2
    exact ⟨n, by simp [called, failed]⟩

/-- After the fork: every failure reaps the child before it is reported. -/
theorem handshake_spec (starting : m.starting = some i) (here : m.registry[i]? = some owner)
    (named : c.id.text = owner.id.text) (nobody : m.inflight = none) (positive : 0 < pid) :
    Spec Move (fun w => w.memory = { m with inflight := some pid }) (namespaceStartContainer.handshake c pid)
      fun result w =>
      match result with
      | .ok pid => w.memory = { m with inflight := some pid } ∧ 0 < pid
      | .error _ => w.memory = m := by
  have aborted : ∀ error : Errno, Spec Move (fun w => w.memory = { m with inflight := some pid })
      (do killChild c.id.text pid; reapChild pid; pure (.error error) : Prog World (Except Errno Pid))
      fun result w =>
      match result with
      | .ok pid => w.memory = { m with inflight := some pid } ∧ 0 < pid
      | .error _ => w.memory = m := by
    intro error
    rw [named]
    refine .bind (killChild_spec starting here) fun _ => .bind (reapChild_spec nobody) fun _ => ?_
    exact .pure fun _ same => same
  apply Spec.bind (configureUserNamespace_spec (.at _))
  intro configured
  cases configured with
  | some error => exact aborted error
  | none =>
    apply bind_tick (.at _)
    intro token
    cases token.fail with
    | some error => exact aborted error
    | none =>
      apply bind_tick (.at _)
      intro status
      cases status.fail with
      | some error => exact .bind (reapChild_spec nobody) fun _ => .pure fun _ same => same
      | none =>
        apply bind_tick (.at _)
        intro executed
        cases executed.fail with
        | some error => exact aborted error
        | none => exact .pure fun _ same => ⟨same, positive⟩

theorem namespaceStartContainer_spec (starting : m.starting = some i) (here : m.registry[i]? = some owner)
    (named : c.id.text = owner.id.text) (nobody : m.inflight = none) :
    Spec Move (fun w => w.memory = m) (namespaceStartContainer c) fun result w =>
      match result with
      | .ok pid => w.memory = { m with inflight := some pid } ∧ 0 < pid
      | .error _ => w.memory = m := by
  unfold namespaceStartContainer
  split
  · exact .pure fun _ same => same
  apply Spec.bind (firstFailure_spec (.at m) 4)
  intro failure
  cases failure with
  | some error => exact .pure fun _ same => same
  | none =>
    refine bind_tick (.at m) fun now => .fix (·.found now.pid) fun taken => ?_
    apply Spec.bind_read taken (fun w same => same.2)
    split
    · exact .pure fun _ same => same.1
    rename_i granted
    simp only [not_or, not_not] at granted
    obtain ⟨-, free, positive⟩ := granted
    refine .bind_modify (M := fun w => w.memory = { m with inflight := some now.pid }) (fun w same => ?_)
      (fun w same => ?_) ?_
    · rw [named]
      refine .clone w i owner now.pid (by rw [same.1]; exact starting) (by rw [same.1]; exact here)
        (by rw [same.1]; exact nobody) positive ?_
      have absent : w.found now.pid = false := same.2.trans (Bool.eq_false_iff.mpr free)
      simpa [World.found] using absent
    · simp only [World.cloned, World.remember, World.appear, World.observe, same.1]
    · exact handshake_spec starting here named nobody positive

end Starting

/-- Any settled memory will do for an operation that reads it first. -/
theorem refused {m : Memory} (settled : m.Settled) {α : Type} {result : α} :
    Spec Move (fun w => w.memory = m) (pure result) fun _ w => w.memory.Settled :=
  .pure fun _ same => same.symm ▸ settled

theorem findContainer_at {id : Text} {m : Memory} {i : Nat} {c : Container}
    (found : ((findContainer id m.registry).bind fun i => m.registry[i]?.map fun c => (i, c)) = some (i, c)) :
    m.registry[i]? = some c := by
  cases position : findContainer id m.registry with
  | none => simp [position] at found
  | some j =>
    cases record : m.registry[j]? with
    | none => simp [position, record] at found
    | some d =>
      simp only [position, Option.bind_some, record, Option.map_some, Option.some.injEq, Prod.mk.injEq] at found
      rw [← found.1, ← found.2, record]

theorem startContainerById_spec (id : Text) (scheduleTarget : Bool) :
    Spec Move (fun w => w.memory.Settled) (startContainerById id scheduleTarget) fun _ w => w.memory.Settled := by
  unfold startContainerById
  split
  · exact .pure fun _ settled => settled
  refine .bind pollStates_spec fun _ => of_settled fun m settled => ?_
  apply Spec.bind_read _ (fun w same => by rw [same])
  split
  · exact refused settled
  rename_i i c found
  have here := findContainer_at found
  split
  · exact refused settled
  rename_i down
  apply bind_tick (.at m)
  intro stack
  split
  · exact refused settled
  refine .bind_modify (M := fun w => w.memory = m.beginStart i) (fun w same => ?_) (fun w same => ?_) ?_
  · exact .beginStart w i c (by rw [same]; exact here) down (by rw [same]; exact settled)
  · simp only [World.remember, same]
  have owner : (m.beginStart i).registry[i]? = some { c with stack := true } := by
    simp [Memory.beginStart, List.getElem?_modify_eq, here]
  apply Spec.bind (namespaceStartContainer_spec rfl owner rfl settled.inflight)
  intro result
  cases result with
  | error error =>
    apply Spec.bind (logEventType_spec (.at _) _)
    intro _
    refine .bind_modify (M := fun w => w.memory = (m.beginStart i).abortStart i) (fun w same => ?_)
      (fun w same => ?_) ?_
    · exact .abortStart w i { c with stack := true } (by rw [same]; rfl) (by rw [same]; exact owner) down
        (by rw [same]; exact settled.inflight)
    · simp only [World.remember, same]
    · exact .pure fun w same => same ▸ { settled with starting := rfl }
  | ok pid =>
    apply Spec.given (0 < pid) (fun w same => same.2)
    intro positive
    refine .bind_modify (M := fun w => w.memory = (m.beginStart i).adopt i pid) (fun w same => ?_)
      (fun w same => ?_) ?_
    · exact .adopt w i { c with stack := true } pid (by rw [same.1]; rfl) (by rw [same.1]; exact owner) down
        (by rw [same.1]) positive
    · simp only [World.remember, same.1]; rfl
    have settled' : ((m.beginStart i).adopt i pid).Settled := { settled with starting := rfl, inflight := rfl }
    apply Spec.bind (saveMetadata_spec (.at _))
    intro saved
    cases saved with
    | true =>
      apply Spec.bind (logEventType_spec (.at _) _)
      intro _
      simp only
      split
      · have adopted : ((m.beginStart i).adopt i pid).registry[i]? =
            some { c with stack := true, state := .RUNNING, pid := pid } := by
          simp [Memory.adopt, List.getElem?_modify_eq, owner]
        have running : pid ∈ ((m.beginStart i).adopt i pid).runningPids :=
          Memory.mem_runningPids adopted (by simp [Record.running, positive])
        exact .bind (onStarted_spec (.at _) fun w same => by rw [same]; exact ⟨running, settled'⟩) fun _ => refused settled'
      · exact refused settled'
    | false =>
      refine .bind (.pre (stopContainerProcess_spec i) fun w same => same.symm ▸ settled') fun _ => ?_
      exact .pure fun _ settled => settled

end ContainerRuntime
