import ContainerRuntime.Manager.Commands

/-! From `save_metadata` to `container_manager_init` in the next manager.

Here no call fails and the manager is not cut, so the programs complete. What
the next manager has restored is what `containers.meta` reads back as, but for
RUNNING records whose process is not there.
-/

set_option autoImplicit false

namespace ContainerRuntime

open CString Cli Program
open Prog (read modify)

/-- The event leaves these processes there. -/
def Event.Spares (alive : Pid → Prop) : Event → Prop
  | .vanishes pid => ¬ alive pid
  | _ => True

/-- From here on no call fails, the manager is not cut, and the processes in `alive` stay. -/
structure World.Smooth (alive : Pid → Prop) (w : World) : Prop where
  calls : ∀ n, w.clock ≤ n → (w.oracle n).cut = false ∧ (w.oracle n).fail = none ∧
    ∀ event ∈ (w.oracle n).events, event.Spares alive
  present : ∀ pid, alive pid → 0 < pid ∧ w.found pid = true

/-- What the manager knows of a record that the command line can have made. -/
structure Record.FromCli (record : Record) : Prop where
  created : ∃ line request spec sequence, ∃ resolved : ResolvedPath, InputLine line ∧
    readRequest line = some (.ok request) ∧ request.spec = some spec ∧ sequence ≤ intMax ∧
    record = { createdRecord spec sequence resolved.1 with state := record.state, pid := record.pid }
  coherent : record.state = .RUNNING ∧ 0 < record.pid ∨ record.state ≠ .RUNNING ∧ record.pid = -1

/-! ## Programs that complete -/

theorem World.Drift.clock {w w' : World} (drift : w.Drift w') : w'.clock = w.clock := by
  cases drift <;> rfl

theorem Procs.isSome_kill (procs : Procs) (pid target : Pid) (signal : Signal) :
    (procs.kill target signal pid).isSome = (procs pid).isSome := by
  unfold kill
  by_cases same : pid = target
  · subst same
    rw [Function.update_self, Option.isSome_map]
  · rw [Function.update_of_ne same]

theorem World.found_update {w : World} {pid target : Pid} {proc : Proc} (found : w.found pid = true) :
    (Function.update w.procs target (some proc) pid).isSome = true := by
  by_cases same : pid = target
  · rw [same, Function.update_self]
    rfl
  · rw [Function.update_of_ne same]
    exact found

/-- A process goes only by vanishing. -/
theorem World.found_event {w : World} {pid : Pid} {e : Event} (stays : e ≠ .vanishes pid)
    (found : w.found pid = true) : (w.event e).found pid = true := by
  cases e with
  | exits target status =>
    simp only [event]
    split
    · exact found_update found
    · exact found
  | vanishes target =>
    have other : pid ≠ target := fun same => stays (by rw [same])
    simp only [event]
    split
    · exact found
    · simpa [World.found, Function.update_of_ne other] using found
  | spawns target =>
    simp only [event]
    split
    · exact found_update found
    · exact found
  | thread =>
    simp only [event, threadStep]
    split
    · split
      · split <;> exact found
      · exact found
    · exact (Procs.isSome_kill _ _ _ _).trans found
    · exact (Procs.isSome_kill _ _ _ _).trans found

/-- No event touches the oracle or the clock. -/
theorem World.event_same (w : World) (e : Event) : (w.event e).oracle = w.oracle ∧ (w.event e).clock = w.clock := by
  cases e with
  | exits pid status => unfold event; dsimp only; split <;> exact ⟨rfl, rfl⟩
  | vanishes pid => unfold event; dsimp only; split <;> exact ⟨rfl, rfl⟩
  | spawns pid => unfold event; dsimp only; split <;> exact ⟨rfl, rfl⟩
  | thread => exact ⟨w.drift_threadStep.oracle, w.drift_threadStep.clock⟩

section Completion

variable {alive : Pid → Prop}

theorem World.Smooth.event {w : World} (smooth : w.Smooth alive) {e : Event} (spares : e.Spares alive) :
    (w.event e).Smooth alive := by
  obtain ⟨oracle, clock⟩ := w.event_same e
  refine ⟨fun n later => ?_, fun pid there => ⟨(smooth.present pid there).1, ?_⟩⟩
  · rw [oracle]
    exact smooth.calls n (clock ▸ later)
  · refine World.found_event ?_ (smooth.present pid there).2
    rintro rfl
    exact spares there

theorem World.Smooth.events {events : List Event} {w : World} (smooth : w.Smooth alive)
    (spares : ∀ e ∈ events, e.Spares alive) : (events.foldl World.event w).Smooth alive := by
  induction events generalizing w with
  | nil => exact smooth
  | cons first rest ih =>
    exact ih (smooth.event (spares first List.mem_cons_self)) fun e member => spares e (List.mem_cons_of_mem first member)

/-- The program completes in smooth circumstances, which stay smooth. -/
def Runs (alive : Pid → Prop) {α : Type} (P : World → Prop) (p : Prog World α) (Q : α → World → Prop) : Prop :=
  Completes (fun w => w.Smooth alive ∧ P w) p fun a w => w.Smooth alive ∧ Q a w

variable {α : Type} {P : World → Prop} {Q : α → World → Prop}

theorem Runs.pure {value : α} (post : ∀ w, P w → Q value w) : Runs alive P (Pure.pure value : Prog World α) Q :=
  Completes.pure fun w here => ⟨here.1, post w here.2⟩

theorem Runs.bind {β : Type} {p : Prog World α} {f : α → Prog World β} {S : β → World → Prop} (first : Runs alive P p Q)
    (next : ∀ a, Runs alive (Q a) (f a) S) : Runs alive P (p >>= f) S :=
  Completes.bind first next

theorem Runs.read {f : World → α} (post : ∀ w, w.Smooth alive → P w → Q (f w) w) : Runs alive P (read f) Q :=
  Completes.read fun w here => ⟨here.1, post w here.1 here.2⟩

/-- An action that leaves the processes, the clock and the oracle alone. -/
theorem Runs.modify {f : World → World} {Q : Unit → World → Prop} (calls : ∀ w, (f w).oracle = w.oracle)
    (clock : ∀ w, (f w).clock = w.clock) (procs : ∀ w, (f w).procs = w.procs)
    (post : ∀ w, w.Smooth alive → P w → Q () (f w)) : Runs alive P (modify f) Q := by
  refine Completes.modify fun w here => ⟨⟨fun n later => ?_, fun pid there => ?_⟩, post w here.1 here.2⟩
  · rw [calls]
    exact here.1.calls n (clock w ▸ later)
  · rw [World.found, procs]
    exact here.1.present pid there

theorem Runs.given {fact : Prop} {p : Prog World α} (known : ∀ w, P w → fact) (runs : fact → Runs alive P p Q) :
    Runs alive P p Q := Completes.given (fun w here => known w here.2) runs

theorem Runs.conseq {P' : World → Prop} {Q' : α → World → Prop} {p : Prog World α} (runs : Runs alive P p Q)
    (pre : ∀ w, P' w → P w) (post : ∀ a w, Q a w → Q' a w) : Runs alive P' p Q' :=
  Completes.conseq runs (fun w here => ⟨here.1, pre w here.2⟩) fun a w here => ⟨here.1, post a w here.2⟩

theorem Runs.fixMemory {p : Prog World α} (runs : ∀ m, Runs alive (fun w => P w ∧ w.memory = m) p Q) :
    Runs alive P p Q := fun w here => runs w.memory w ⟨here.1, here.2, rfl⟩

theorem Runs.tick (still : ∀ w w', Idle w w' → P w → P w') :
    Runs alive P tick fun now w => now.fail = none ∧ P w := by
  rintro w ⟨smooth, pre⟩
  obtain ⟨uncut, succeeds, spares⟩ := smooth.calls w.clock (Nat.le_refl _)
  have later : { w with clock := w.clock + 1 }.Smooth alive :=
    ⟨fun n above => smooth.calls n (Nat.le_of_succ_le above), smooth.present⟩
  have smooth' := later.events spares
  have calm : Still (fun _ _ => True) P := fun w w' idle pre => ⟨trivial, still w w' idle pre⟩
  obtain ⟨-, post, -⟩ := calm.events w.clock (w.oracle w.clock).events (still w _ (.clock w) pre) fun _ dealt => dealt
  refine ⟨w.oracle w.clock, _, ?_, smooth', succeeds, post⟩
  simp only [ContainerRuntime.tick, uncut]
  rfl

theorem Runs.call {next : Tick → Prog World α} (stable : Stable P)
    (rest : ∀ now, now.fail = none → Runs alive P (next now) Q) : Runs alive P (ContainerRuntime.tick >>= next) Q :=
  .bind (.tick fun w w' idle => stable w w' (.idle w w' idle)) fun now => .given (fun _ here => here.1) fun succeeds =>
    (rest now succeeds).conseq (fun _ here => here.2) fun _ _ here => here

theorem logEventType_runs (stable : Stable P) (entry : LogEvent) : Runs alive P (logEventType entry) fun _ => P := by
  apply Runs.call stable
  intro now succeeds
  rw [if_pos (by rw [succeeds]; rfl)]
  exact .modify (fun _ => rfl) (fun _ => rfl) (fun _ => rfl) fun w _ here => stable w _ (.log w entry) here

/-- `is_pid_alive` finds the processes that stay. -/
theorem isPidAlive_runs (stable : Stable P) (pid : Pid) :
    Runs alive P (isPidAlive pid) fun there w => (there = false → ¬ alive pid) ∧ P w := by
  refine .call stable fun _ _ => .read fun w smooth here => ⟨fun absent there => ?_, here⟩
  obtain ⟨positive, found⟩ := smooth.present pid there
  simp [World.isPidAlive, positive, found] at absent

theorem writeRecords_runs (stable : Stable P) (records : List Record) :
    Runs alive P (writeRecords records) fun written w => written = records ∧ P w := by
  induction records with
  | nil => exact .pure fun _ here => ⟨rfl, here⟩
  | cons record rest ih =>
    refine .call stable fun now succeeds => .bind ih fun written => .pure fun w here => ⟨?_, here.2⟩
    rw [if_pos (by rw [succeeds]; rfl), here.1]

/-- All records reach the file. -/
theorem saveMetadata_runs (stable : Stable P) (m : Memory) :
    Runs alive (fun w => P w ∧ w.memory = m) saveMetadata fun saved w =>
      saved = true ∧ (P w ∧ w.memory = m) ∧ w.disk = some (encodeRegistry m.records) := by
  have stable' : Stable fun w => P w ∧ w.memory = m := stable.and (.memory (· = m))
  apply Runs.call stable'
  intro opened opens
  rw [if_neg (by simp [opens])]
  refine .bind (Q := fun records w => records = m.records ∧ P w ∧ w.memory = m)
    (.read fun w _ here => ⟨congrArg Memory.records here.2, here⟩) fun records => ?_
  apply Runs.given (fun _ here => here.1)
  intro listed
  subst listed
  apply Completes.bind ((writeRecords_runs stable' m.records).conseq (fun _ here => here.2) fun _ _ here => here)
  intro written
  apply Runs.given (fun _ here => here.1)
  intro whole
  subst whole
  refine Runs.conseq (P := fun w => P w ∧ w.memory = m) ?_ (fun _ here => here.2) fun _ _ here => here
  apply Runs.call stable'
  intro closed closes
  rw [if_neg (by simp [closes])]
  apply Runs.call stable'
  intro renamed renames
  rw [if_neg (by simp [renames])]
  refine .bind (Q := fun _ w => (P w ∧ w.memory = m) ∧ w.disk = some (encodeRegistry m.records))
    (.modify (fun _ => rfl) (fun _ => rfl) (fun _ => rfl) fun w _ here => ⟨?_, rfl⟩) fun _ =>
    .pure fun _ here => ⟨rfl, here⟩
  exact stable' w _ (.publish w _ (here.2.symm ▸ List.Sublist.refl _)) here

/-! ## What is restored -/

/-- A record as `container_manager_init` puts it in the list. -/
def bare (record : Record) : Container := ⟨record, false⟩

def retired (c : Container) : Container := { c with state := .STOPPED, pid := -1, stack := false }

/-- A RUNNING record whose process is not known to be there is put down as STOPPED. -/
inductive Retires (alive : Pid → Prop) : List Container → List Container → Prop where
  | down (front back : List Container) (c : Container) (running : c.state = .RUNNING) (gone : ¬ alive c.pid) :
      Retires alive (front ++ c :: back) (front ++ retired c :: back)

/-- Nothing is put down while all processes are there. -/
theorem eq_of_retires {before after : List Container} (all : ∀ c ∈ before, c.state = .RUNNING → alive c.pid)
    (chain : Relation.ReflTransGen (Retires alive) before after) : after = before := by
  rcases chain.cases_head with same | ⟨_, ⟨front, back, c, running, gone⟩, -⟩
  · exact same.symm
  · exact absurd (all c (by simp) running) gone

theorem texts_of_retires {before after : List Container} (chain : Relation.ReflTransGen (Retires alive) before after) :
    ∀ c ∈ after, ∃ d ∈ before, c.texts = d.texts := by
  induction chain with
  | refl => exact fun c member => ⟨c, member, rfl⟩
  | tail _ step ih =>
    obtain ⟨front, back, c, -, -⟩ := step
    intro d member
    rcases List.mem_append.mp member with early | late
    · exact ih d (List.mem_append_left _ early)
    · rcases List.mem_cons.mp late with rfl | late
      · exact ih c (by simp)
      · exact ih d (List.mem_append_right _ (List.mem_cons_of_mem _ late))

/-- The manager has no children, and has put down some of the records it started from; `rest` is still to come. -/
structure Restored (alive : Pid → Prop) (start : List Container) (rest : List Record) (w : World) : Prop where
  foreign : ∀ pid, w.procs.isChild pid = false
  chain : Relation.ReflTransGen (Retires alive) start (w.memory.registry ++ rest.map bare)

variable {start : List Container}

theorem Stable.restored (rest : List Record) : Stable (Restored alive start rest) := by
  intro w w' quiet here
  exact ⟨fun pid => (quiet.isChild pid).trans (here.foreign pid), quiet.memory.symm ▸ here.chain⟩

theorem restore_restored {record : Record} {rest : List Record} {w : World} (smooth : w.Smooth alive)
    (here : Restored alive start (record :: rest) w) :
    Restored alive start rest (w.restored record rest) := by
  refine ⟨here.foreign, ?_⟩
  have chain := here.chain
  simp only [World.restored, World.observe_memory, World.remember, Memory.restore, List.append_assoc,
    List.singleton_append]
  unfold Memory.revived
  split
  · rename_i gone
    have absent : ¬ alive record.pid := by
      intro there
      obtain ⟨positive, found⟩ := smooth.present _ there
      simp [World.isPidAlive, positive, found] at gone
    exact chain.tail (.down w.memory.registry (rest.map bare) (bare record) gone.1 absent)
  · exact chain

theorem restoreRecords_runs (records : List Record) :
    Runs alive (Restored alive start records) (restoreRecords records) fun done w =>
      done = true ∧ Restored alive start [] w := by
  induction records with
  | nil => exact .pure fun _ here => ⟨rfl, here⟩
  | cons record rest ih =>
    have stable : Stable (Restored alive start (record :: rest)) := .restored (record :: rest)
    have appended : Runs alive (Restored alive start (record :: rest)) (do
        modify (·.restored record rest)
        restoreRecords rest) fun done w => done = true ∧ Restored alive start [] w :=
      .bind (.modify (fun _ => rfl) (fun _ => rfl) (fun _ => rfl) fun w smooth here => restore_restored smooth here)
        fun _ => ih
    apply Runs.call stable
    intro allocated succeeds
    rw [if_neg (by simp [succeeds])]
    simp only
    split
    · exact .call stable fun _ _ => appended
    · exact appended

/-- Nobody is waited for who is no child. -/
theorem waitpidNoHang_runs (known : Memory → Prop) (pid : Pid) :
    Runs alive (fun w => Restored alive start [] w ∧ known w.memory) (waitpidNoHang pid) fun result w =>
      (∃ error, result = .error error) ∧ Restored alive start [] w ∧ known w.memory := by
  have stable : Stable fun w => Restored alive start [] w ∧ known w.memory :=
    (Stable.restored []).and (.memory known)
  apply Runs.call stable
  intro now _
  split
  · exact .pure fun _ here => ⟨⟨_, rfl⟩, here⟩
  refine .bind (Q := fun _ w => Restored alive start [] w ∧ known w.memory)
    (.modify (fun _ => rfl) (fun _ => rfl) (fun _ => rfl) fun w _ here => ⟨⟨here.1.foreign, here.1.chain⟩, here.2⟩)
    fun _ => ?_
  refine .bind (Q := fun target w => target.any (·.child) = false ∧ Restored alive start [] w ∧ known w.memory)
    (.read fun w _ here => ⟨here.1.foreign pid, here⟩) fun target => .given (fun _ here => here.1) fun foreign => ?_
  rcases target with - | ⟨origin, child, exit, stopped⟩
  · exact .pure fun _ here => ⟨⟨_, rfl⟩, here.2⟩
  · cases child with
    | true => cases foreign
    | false => exact .pure fun _ here => ⟨⟨_, rfl⟩, here.2⟩

theorem retire_restored {i : Nat} {c : Container} {w : World} (here : Restored alive start [] w)
    (listed : w.memory.registry[i]? = some c) (running : c.running = true) (gone : ¬ alive c.pid) :
    Restored alive start [] (w.remember (·.retire i)) := by
  refine ⟨here.foreign, ?_⟩
  obtain ⟨front, back, parts, -, modified, -⟩ := List.split_at listed
  have chain := here.chain
  simp only [List.map_nil, List.append_nil, parts] at chain
  simp only [World.remember, Memory.retire, List.map_nil, List.append_nil, modified]
  exact chain.tail (.down front back c (of_decide_eq_true running).1 gone)

theorem syncContainerState_runs (i : Nat) :
    Runs alive (Restored alive start []) (syncContainerState i) fun _ => Restored alive start [] := by
  have stable : Stable (Restored alive start []) := .restored []
  refine .bind (Q := fun found w => Restored alive start [] w ∧ w.memory.registry[i]? = found)
    (.read fun w _ here => ⟨here, rfl⟩) fun found => ?_
  cases found with
  | none => exact .pure fun _ here => here.1
  | some c =>
    simp only
    split
    · exact .pure fun _ here => here.1
    rename_i up
    have running : c.running = true := by simpa using up
    apply Completes.bind (waitpidNoHang_runs (·.registry[i]? = some c) c.pid)
    intro result
    apply Runs.given (fun _ here => here.1)
    intro failed
    obtain ⟨error, rfl⟩ := failed
    simp only
    split
    · refine .bind ((isPidAlive_runs (stable.and (.memory (·.registry[i]? = some c))) c.pid).conseq
        (fun _ here => here.2) fun _ _ here => here) fun there => ?_
      split
      · exact .pure fun _ here => here.2.1
      · rename_i absent
        refine .bind (Q := fun _ w => (there = false → ¬ alive c.pid) ∧ Restored alive start [] w ∧
            w.memory.registry[i]? = some c) (.modify (fun _ => rfl) (fun _ => rfl) (fun _ => rfl) fun w _ here =>
            ⟨here.1, stable w _ (.note w _) here.2.1, here.2.2⟩) fun _ => ?_
        refine .bind (Q := fun _ => Restored alive start [])
          (.modify (fun _ => rfl) (fun _ => rfl) (fun _ => rfl) fun w _ here =>
            retire_restored here.2.1 here.2.2 running (here.1 (by simpa using absent))) fun _ => ?_
        exact .bind (logEventType_runs stable _) fun _ => .pure fun _ here => here
    · exact .pure fun _ here => here.2.1

theorem syncAll_runs (changed : Bool) (positions : List Nat) :
    Runs alive (Restored alive start []) (syncAll changed positions) fun _ => Restored alive start [] := by
  induction positions generalizing changed with
  | nil => exact .pure fun _ here => here
  | cons i rest ih => exact .bind (syncContainerState_runs i) fun now => ih _

theorem pollStates_runs : Runs alive (Restored alive start []) pollStates fun _ => Restored alive start [] := by
  apply Runs.bind (Q := fun _ => Restored alive start []) (.read fun _ _ here => here)
  intro count
  apply Completes.bind (syncAll_runs false _)
  intro changed
  split
  · refine Runs.fixMemory fun m => .bind (saveMetadata_runs (.restored []) m) fun _ => ?_
    exact .pure fun _ here => here.2.1.1
  · exact .pure fun _ here => here

/-- The next manager restores what the file reads back as, less some processes that are not there. -/
theorem containerManagerInit_runs (file : Text) :
    Runs alive (fun w => (∀ pid, w.procs.isChild pid = false) ∧ w.memory = .fresh ∧ w.disk = some file)
      containerManagerInit fun done w => done = true ∧
        Relation.ReflTransGen (Retires alive) ((decodeRegistry file).map bare) w.memory.registry := by
  refine .bind (.tick fun w w' idle here => ⟨fun pid => ((Quiet.idle w w' idle).isChild pid).trans (here.1 pid),
    idle.memory.trans here.2.1, idle.disk.trans here.2.2⟩) fun opened => .given (fun _ here => here.1) fun opens => ?_
  refine .bind (Q := fun disk w => disk = some file ∧ (∀ pid, w.procs.isChild pid = false) ∧ w.memory = .fresh)
    (.read fun w _ here => ⟨here.2.2.2, here.2.1, here.2.2.1⟩) fun disk => .given (fun _ here => here.1) fun stored => ?_
  subst stored
  simp only
  rw [if_neg (by simp [opens])]
  refine .bind (Q := fun _ => Restored alive ((decodeRegistry file).map bare) (decodeRegistry file))
    (.modify (fun _ => rfl) (fun _ => rfl) (fun _ => rfl) fun w _ here => ⟨here.2.1, ?_⟩) fun _ => ?_
  · simp only [World.remember, here.2.2, Memory.fresh, List.nil_append]
    exact .refl
  refine .bind (restoreRecords_runs _) fun done => .given (fun _ here => here.1) fun all => ?_
  subst all
  apply Runs.bind (pollStates_runs.conseq (fun _ here => here.2) fun _ _ here => here)
  intro _
  have ready : ∀ w, Restored alive ((decodeRegistry file).map bare) [] w →
      Relation.ReflTransGen (Retires alive) ((decodeRegistry file).map bare) w.memory.registry := fun w here => by
    simpa using here.chain
  split
  · exact .bind (logEventType_runs (.restored []) _) fun _ => .pure fun w here => ⟨rfl, ready w here⟩
  · exact .pure fun w here => ⟨rfl, ready w here⟩

end Completion

/-! ## Restarts -/

/-- `save_metadata`, and `container_manager_init` in the next manager, give the same list of records. -/
def World.Restarts (w : World) : Prop :=
  ∃ saved after, saveMetadata w = (.done true, saved) ∧ containerManagerInit saved.crash = (.done true, after) ∧
    after.memory.records = w.memory.records

theorem Record.FromCli.filled {record : Record} (cli : record.FromCli) : record.Filled := by
  obtain ⟨line, request, spec, sequence, resolved, -, -, -, -, same⟩ := cli.created
  have created := createdRecord_filled spec sequence resolved.2
  have texts : record.texts = (createdRecord spec sequence resolved.1).texts := by rw [same]; rfl
  intro text member
  exact created text (texts ▸ member)

/-- The next manager has no children, and the processes stay. -/
theorem World.Smooth.crash {alive : Pid → Prop} {w : World} (smooth : w.Smooth alive) : w.crash.Smooth alive := by
  refine ⟨smooth.calls, fun pid there => ⟨(smooth.present pid there).1, ?_⟩⟩
  simpa [World.found, World.crash, Procs.orphaned] using (smooth.present pid there).2

theorem init_of_smooth {alive : Pid → Prop} {w : World} {file : Text} (smooth : w.Smooth alive) (stored : w.disk = some file) :
    ∃ after, containerManagerInit w.crash = (.done true, after) ∧
      Relation.ReflTransGen (Retires alive) ((decodeRegistry file).map bare) after.memory.registry := by
  have foreign : ∀ pid, w.crash.procs.isChild pid = false := by
    intro pid
    simp [Procs.isChild, World.crash, Procs.orphaned, Option.any_map]
  obtain ⟨_, after, init, -, rfl, chain⟩ := containerManagerInit_runs file w.crash ⟨smooth.crash, foreign, rfl, stored⟩
  exact ⟨after, init, chain⟩

/-- Both programs complete, and the records come from the file. -/
theorem restart_cases {alive : Pid → Prop} {w : World} (smooth : w.Smooth alive) :
    ∃ saved after, saveMetadata w = (.done true, saved) ∧ containerManagerInit saved.crash = (.done true, after) ∧
      Relation.ReflTransGen (Retires alive) ((decodeRegistry (encodeRegistry w.memory.records)).map bare)
        after.memory.registry := by
  have always : Stable fun _ => True := fun _ _ _ _ => trivial
  obtain ⟨_, saved, save, smooth', rfl, -, disk⟩ := saveMetadata_runs always w.memory w ⟨smooth, trivial, rfl⟩
  obtain ⟨after, init, chain⟩ := init_of_smooth smooth' disk
  exact ⟨saved, after, save, init, chain⟩

/-- The same records come back exactly when no text of them holds a tab, CR or LF. -/
theorem restarts_iff (w : World) (smooth : w.Smooth (· ∈ w.memory.runningPids))
    (cli : ∀ record ∈ w.memory.records, record.FromCli) : w.Restarts ↔ ∀ record ∈ w.memory.records, record.Clean := by
  obtain ⟨saved, after, save, init, chain⟩ := restart_cases smooth
  constructor
  · rintro ⟨saved', after', save', init', same⟩ record member
    -- The run is determined, and what was read back is clean.
    cases save.symm.trans save'
    cases init.symm.trans init'
    rw [← same] at member
    obtain ⟨c, listed, rfl⟩ := List.mem_map.mp member
    obtain ⟨d, there, texts⟩ := texts_of_retires chain c listed
    obtain ⟨read, decoded, rfl⟩ := List.mem_map.mp there
    intro text inside
    exact (decodeRegistry_plain decoded).2 text (texts ▸ inside)
  · intro clean
    refine ⟨saved, after, save, init, ?_⟩
    rw [decodeRegistry_encodeRegistry fun record member => ⟨(cli record member).filled, clean record member⟩] at chain
    have whole : after.memory.registry = w.memory.records.map bare := by
      refine eq_of_retires (fun c member running => ?_) chain
      obtain ⟨record, listed, rfl⟩ := List.mem_map.mp member
      obtain ⟨d, known, rfl⟩ := List.mem_map.mp listed
      rcases (cli d.toRecord listed).coherent with ⟨-, positive⟩ | ⟨down, -⟩
      · have up : d.state = .RUNNING := running
        exact List.mem_map.mpr ⟨d, List.mem_filter.mpr ⟨known, by simp [Record.running, up, positive]⟩, rfl⟩
      · exact absurd running down
    rw [Memory.records, whole, List.map_map]
    exact List.map_id _

/-- A manager with one container, which a line of input has made, RUNNING at pid 7. -/
def managerOf (spec : ContainerSpec) : World :=
  let created := createdRecord spec 1 Tick.calm.path.1
  let procs : Procs := fun pid => if pid = 7 then some ⟨some created.id.text, true, none, false⟩ else none
  { World.initial (fun _ => Tick.calm) procs with
    up := true
    memory := { Memory.fresh with
      registry := [⟨{ created with state := .RUNNING, pid := 7 }, true⟩]
      nextSequence := 2 } }

theorem managerOf_smooth (spec : ContainerSpec) :
    (managerOf spec).Smooth (· ∈ (managerOf spec).memory.runningPids) := by
  refine ⟨fun _ _ => ⟨rfl, rfl, fun _ member => by cases member⟩, fun pid member => ?_⟩
  have seven : pid = 7 := List.mem_singleton.mp member
  subst seven
  exact ⟨by decide, rfl⟩

theorem managerOf_fromCli {line : Text} {request : Request} {spec : ContainerSpec} (input : InputLine line)
    (accepted : readRequest line = some (.ok request)) (asked : request.spec = some spec) :
    ∀ record ∈ (managerOf spec).memory.records, record.FromCli := by
  intro record member
  rw [List.mem_singleton.mp member]
  exact ⟨⟨line, request, spec, 1, Tick.calm.path, input, accepted, asked, by decide, rfl⟩,
    .inl ⟨rfl, show (0 : Pid) < 7 by decide⟩⟩

/-- A plain container comes back. -/
theorem restarts_plain :
    let spec : ContainerSpec := ⟨some (lit "web"), some (lit "host"), some (lit "/srv"), some (lit "sleep 9"), .unlimited⟩
    (managerOf spec).Restarts := by
  intro spec
  have accepted : readRequest (lit "runbg web host /srv sleep 9") = some (.ok (.run true spec)) := by decide +kernel
  have made := managerOf_fromCli (by decide +kernel) accepted rfl
  exact (restarts_iff (managerOf spec) (managerOf_smooth spec) made).mpr (by decide +kernel)

def tabbedLine : Text := lit "runbg \"a\tb\" host /srv sleep 9"

/-- A quoted name may hold a tab, and the record does not come back. -/
theorem tabbed_name_not_restored :
    let spec : ContainerSpec := ⟨some (lit "a\tb"), some (lit "host"), some (lit "/srv"), some (lit "sleep 9"), .unlimited⟩
    InputLine tabbedLine ∧ readRequest tabbedLine = some (.ok (.run true spec)) ∧
      (managerOf spec).Smooth (· ∈ (managerOf spec).memory.runningPids) ∧
      (∀ record ∈ (managerOf spec).memory.records, record.FromCli) ∧ ¬ (managerOf spec).Restarts := by
  intro spec
  have accepted : readRequest tabbedLine = some (.ok (.run true spec)) := by decide +kernel
  refine ⟨by decide +kernel, accepted, managerOf_smooth spec, ?_, ?_⟩
  · exact managerOf_fromCli (by decide +kernel) accepted rfl
  · rintro ⟨saved, after, save, init, same⟩
    have differs : (containerManagerInit (saveMetadata (managerOf spec)).2.crash).2.memory.records ≠
        (managerOf spec).memory.records := by decide +kernel
    rw [save, init] at differs
    exact differs same

end ContainerRuntime
