import ContainerRuntime.Scheduler.Sections

/-! Runs of threads that share the scheduler's table. -/

set_option autoImplicit false

namespace ContainerRuntime.Locking

open Mutex

/-- `g_state` as the program starts with it; a thread has calls to make, or is the scheduler's. -/
def start {ι : Type} (threads : ι → Option (List Api)) : State ι SchedulerState Place :=
  ⟨.initial, none, fun i => (threads i).elim .thread .calls⟩

/-- One thread adds a pid and sets the scheduler on, the other one is the scheduler's. -/
def adding (i : Fin 2) : Option (List Api) := if i = 0 then some [.addTarget 7, .setEnabled true] else none

/-- Every pid is alive, and there is memory for all that is asked for. -/
def plenty (i : Fin 2) : Fin 2 × Answers := (i, ⟨fun _ => true, some fun _ => 0, true⟩)

/-- The scheduler's thread sleeps while the pid is added, and takes the lock before the call has returned. -/
def slots : List (Fin 2) :=
  List.replicate 11 1 ++ List.replicate 4 0 ++ [1] ++ List.replicate 7 0 ++ [1, 0, 1]

theorem slots_run : ∃ s events, run code (start adding) (slots.map plenty) = some (s, events) ∧ s.holder = some 1 ∧
    events = [(1, .slept 50), (0, .returned (.addTarget 7) (.value 0))] := by
  have seen : ((run code (start adding) (slots.map plenty)).map (Prod.map State.holder id)) =
      some (some 1, [(1, .slept 50), (0, .returned (.addTarget 7) (.value 0))]) := by
    decide +kernel
  obtain ⟨⟨s, events⟩, runs, same⟩ := Option.map_eq_some_iff.mp seen
  obtain ⟨held, shown⟩ := Prod.mk.inj same
  exact ⟨s, events, runs, held, shown⟩

section Runs

variable {ι : Type} {threads : ι → Option (List Api)} {turns : List (ι × Answers)} {s : State ι SchedulerState Place}
  {events : List (ι × Event)}

theorem start_outside (i : ι) : ¬ Inside ((start threads).place i) := by
  simp only [start]
  cases threads i <;> exact id

variable [DecidableEq ι]

/-- However the threads take turns, others see what they would see if each part under the lock were a single step. -/
theorem threads_interleave_serially (runs : run code (start threads) turns = some (s, events)) :
    ∃ memory last, Serially code atomic (fun answers => ∃ i, (i, answers) ∈ turns) SchedulerState.initial
      (start threads).place events memory last ∧ memory.Kept ∧ (s.holder = none → s.memory = memory ∧ s.place = last) :=
  serializes _ disciplined code_implements_atomic rfl start_outside SchedulerState.kept_initial
    (fun turn member => ⟨turn.1, member⟩) runs

/-- The scheduler's thread has the lock again when the call returns. -/
theorem threads_interleave_serially_two : ∃ s events, run code (start adding) (slots.map plenty) = some (s, events) ∧
    events = [(1, .slept 50), (0, .returned (.addTarget 7) (.value 0))] ∧
    ∃ memory last, Serially code atomic (fun answers => ∃ i, (i, answers) ∈ slots.map plenty) SchedulerState.initial
      (start adding).place events memory last ∧ memory.Kept := by
  obtain ⟨s, events, runs, -, shown⟩ := slots_run
  obtain ⟨memory, last, serial, kept, -⟩ := threads_interleave_serially runs
  exact ⟨s, events, runs, shown, memory, last, serial, kept⟩

/-- At any time no access is outside the block, the lock is with the one thread that is inside, which gives it back
without the others, and when nobody has it no thread with something left to do has to wait. -/
theorem threads_take_turns (runs : run code (start threads) turns = some (s, events)) :
    (∀ i, ¬ Faulty code s i) ∧ (∀ i, Inside (s.place i) ↔ s.holder = some i) ∧
      (∀ i answers, s.holder = some i →
        ∃ n t, run code s (List.replicate n (i, answers)) = some (t, []) ∧ t.holder = none) ∧
      ∀ i answers, s.holder = none → code (s.place i) ≠ .halt → (step code s i answers).isSome :=
  excludes disciplined code_implements_atomic rfl start_outside SchedulerState.kept_initial runs

/-- The scheduler's thread is inside, and gives the lock back. -/
theorem threads_take_turns_two : ∃ s events, run code (start adding) (slots.map plenty) = some (s, events) ∧
    (∀ i, ¬ Faulty code s i) ∧ (∀ i, Inside (s.place i) ↔ i = 1) ∧
    ∃ n t, run code s (List.replicate n (plenty 1)) = some (t, []) ∧ t.holder = none := by
  obtain ⟨s, events, runs, held, -⟩ := slots_run
  obtain ⟨defined, exclusive, back, -⟩ := threads_take_turns runs
  refine ⟨s, events, runs, defined, fun i => ?_, back 1 (plenty 1).2 held⟩
  rw [exclusive, held, Option.some.injEq, eq_comm]

end Runs

/-! ## No target is lost -/

/-- The calls that a thread still has to begin. -/
def Place.todo : Place → List Api
  | .calls todo => todo
  | .calling _ _ _ rest | .returning _ _ rest | .joining rest | .finishing rest => rest
  | _ => []

/-- `kill(pid, 0)` finds the process. -/
def Answers.Finds (pid : Pid) (answers : Answers) : Prop := Scheduler.pidIsAlive answers.alive pid = true

/-- The calls that leave the pid in the table. -/
def Api.Spares (pid : Pid) (call : Api) : Prop := call ≠ .removeTarget pid ∧ call ≠ .clearTargets

section Targets

variable {answers : Answers} {s t : SchedulerState} {pid : Pid}

theorem startEffect_entries (created : Bool) (ms : UInt32) (s : SchedulerState) :
    (startEffect created ms s).1.entries = s.entries := by
  unfold startEffect
  split
  · rfl
  · split <;> rfl

theorem stopEffect_entries (s : SchedulerState) : (stopEffect s).1.entries = s.entries := by
  unfold stopEffect
  split <;> rfl

theorem effect_spares {call : Api} {left : Left} (kept : s.Kept) (spares : call.Spares pid)
    (effect : call.effect answers s = some (t, left)) (listed : pid ∈ s.entries) : pid ∈ t.entries := by
  cases call with
  | setEnabled enabled =>
    cases effect
    exact listed
  | setTimeSliceMs ms =>
    cases effect
    exact listed
  | isEnabled =>
    cases effect
    exact listed
  | getTimeSliceMs =>
    cases effect
    exact listed
  | addTarget other =>
    obtain ⟨t', done, -, changes⟩ := kept.step (.add answers.memory other)
    obtain ⟨⟨u, result⟩, adds, same⟩ := Option.map_eq_some_iff.mp effect
    cases same
    rw [SchedulerState.step, adds] at done
    cases done
    rcases changes with ⟨still, -⟩ | ⟨-, added⟩
    · rw [still]
      exact listed
    · rw [added]
      exact List.mem_append_left _ listed
  | removeTarget other =>
    obtain ⟨t', done, -, changes⟩ := kept.step (.remove other)
    obtain ⟨⟨u, removed⟩, removes, same⟩ := Option.map_eq_some_iff.mp effect
    cases same
    rw [SchedulerState.step, removes] at done
    cases done
    have different : pid ≠ other := fun same => spares.1 (same ▸ rfl)
    exact (changes.2 pid).mpr ⟨listed, different⟩
  | clearTargets => exact absurd rfl spares.2
  | start ms =>
    have entries := startEffect_entries answers.created ms s
    rw [Option.some.inj effect] at entries
    rw [entries]
    exact listed
  | stop =>
    have entries := stopEffect_entries s
    rw [Option.some.inj effect] at entries
    rw [entries]
    exact listed

theorem effect_lists (kept : s.Kept)
    (effect : (Api.addTarget pid).effect answers s = some (t, .returned (.value 0))) : pid ∈ t.entries := by
  obtain ⟨u, result, done, -, -, listed⟩ := kept.shaped.schedulerAddTarget kept.sound.distinct answers.memory pid
  obtain ⟨⟨u', result'⟩, adds, same⟩ := Option.map_eq_some_iff.mp effect
  cases adds.symm.trans done
  rcases listed with ⟨-, member⟩ | ⟨failed, -, -⟩
  · obtain ⟨rfl, -⟩ := Prod.mk.inj same
    exact member
  · rw [failed] at same
    cases same

theorem turn_spares {chosen : Chosen} (kept : s.Kept) (alive : answers.Finds pid)
    (turns : turnEffect answers s = some (t, chosen)) (listed : pid ∈ s.entries) : pid ∈ t.entries := by
  unfold turnEffect at turns
  split at turns
  · cases turns
    exact listed
  · rename_i going
    obtain ⟨t', done, -, changes⟩ := kept.step (.rotate answers.alive)
    obtain ⟨⟨u, pair⟩, selects, same⟩ := Option.map_eq_some_iff.mp turns
    cases same
    rw [SchedulerState.step, selects] at done
    cases done
    rw [SchedulerState.Changes, if_neg going] at changes
    rw [changes]
    exact List.mem_filter.mpr ⟨listed, alive⟩

/-- The thread is about to answer that it has added the pid. -/
def Place.Adds (pid : Pid) : Place → Prop
  | .returning call result _ => call = .addTarget pid ∧ result = .value 0
  | _ => False

/-- A thread at the place will leave the pid in the table, where it is when the thread has added it. -/
structure Place.Safe (pid : Pid) (s : SchedulerState) (place : Place) : Prop where
  spares : ∀ call ∈ place.todo, call.Spares pid
  listed : place.Adds pid → pid ∈ s.entries

theorem signalled_ne {signal : Signal} {call : Api} {result : Returned} : signalled pid signal ≠ .returned call result := by
  unfold signalled
  split <;> intro same <;> cases same

theorem atomic_safe {place next : Place} (kept : s.Kept) (alive : answers.Finds pid)
    (safe : place.Safe pid s) (effect : atomic place answers s = some (t, next)) :
    next.Safe pid t ∧ (pid ∈ s.entries → pid ∈ t.entries) := by
  cases place with
  | calls todo =>
    cases todo with
    | nil => cases effect
    | cons call rest =>
      obtain ⟨⟨u, left⟩, effects, same⟩ := Option.map_eq_some_iff.mp effect
      cases same
      have later : ∀ call ∈ rest, call.Spares pid := fun call member => safe.spares call (List.mem_cons_of_mem _ member)
      refine ⟨⟨?_, ?_⟩, effect_spares kept (safe.spares call List.mem_cons_self) effects⟩
      · cases left <;> exact later
      · cases left with
        | joins => exact False.elim
        | returned result =>
          rintro ⟨rfl, rfl⟩
          exact effect_lists kept effects
  | finishing rest =>
    cases effect
    refine ⟨⟨safe.spares, ?_⟩, id⟩
    rintro ⟨stopped, -⟩
    cases stopped
  | thread =>
    obtain ⟨⟨u, chosen⟩, turns, same⟩ := Option.map_eq_some_iff.mp effect
    cases same
    refine ⟨⟨?_, ?_⟩, turn_spares kept alive turns⟩
    · cases chosen <;> exact List.forall_mem_nil _
    · cases chosen <;> exact False.elim
  | _ => cases effect

theorem emit_safe {place next : Place} {event : Event} (safe : place.Safe pid s) (emits : code place = .emit event next) :
    next.Safe pid s ∧ (event = .returned (.addTarget pid) (.value 0) → pid ∈ s.entries) := by
  cases place with
  | calls todo =>
    cases todo with
    | nil => cases emits
    | cons call rest =>
      have later : ∀ call ∈ rest, call.Spares pid := fun call member => safe.spares call (List.mem_cons_of_mem _ member)
      simp only [code] at emits
      split at emits
      · cases emits
        refine ⟨⟨later, False.elim⟩, fun same => ?_⟩
        cases same
      · cases emits
  | returning call result rest =>
    cases emits
    refine ⟨⟨safe.spares, False.elim⟩, fun same => ?_⟩
    cases same
    exact safe.listed ⟨rfl, rfl⟩
  | joining rest =>
    cases emits
    refine ⟨⟨safe.spares, False.elim⟩, fun same => ?_⟩
    cases same
  | signalling current next sliceMs =>
    cases emits
    exact ⟨⟨List.forall_mem_nil _, False.elim⟩, fun same => absurd same signalled_ne⟩
  | resuming next sliceMs =>
    cases emits
    exact ⟨⟨List.forall_mem_nil _, False.elim⟩, fun same => absurd same signalled_ne⟩
  | sleeping ms =>
    cases emits
    refine ⟨⟨List.forall_mem_nil _, False.elim⟩, fun same => ?_⟩
    cases same
  | calling answers spot call rest => cases spot <;> cases emits
  | choosing answers spot => cases spot <;> cases emits
  | _ => cases emits

theorem atomic_kept {place next : Place} (kept : s.Kept) (effect : atomic place answers s = some (t, next)) : t.Kept := by
  cases place with
  | calls todo =>
    cases todo with
    | nil => cases effect
    | cons call rest =>
      obtain ⟨⟨u, left⟩, effects, same⟩ := Option.map_eq_some_iff.mp effect
      cases same
      obtain ⟨u', left', again, after⟩ := effect_kept kept answers call
      cases effects.symm.trans again
      exact after
  | finishing rest =>
    cases effect
    exact kept_flags kept s.enabled s.timeSliceMs false false
  | thread =>
    obtain ⟨⟨u, chosen⟩, turns, same⟩ := Option.map_eq_some_iff.mp effect
    cases same
    obtain ⟨u', chosen', again, after⟩ := turn_kept kept answers
    cases turns.symm.trans again
    exact after
  | _ => cases effect

theorem Place.Safe.mono {place : Place} (safe : place.Safe pid s) (stays : pid ∈ s.entries → pid ∈ t.entries) :
    place.Safe pid t := ⟨safe.spares, fun adds => stays (safe.listed adds)⟩

theorem update_safe {ι : Type} [DecidableEq ι] {place : ι → Place} {i : ι} {next : Place} (safe : ∀ j, (place j).Safe pid s)
    (here : next.Safe pid t) (stays : pid ∈ s.entries → pid ∈ t.entries) (j : ι) :
    (Function.update place i next j).Safe pid t := by
  by_cases same : j = i
  · rw [same, Function.update_self]
    exact here
  · rw [Function.update_of_ne same]
    exact (safe j).mono stays

theorem serially_listed {ι : Type} [DecidableEq ι] {place last : ι → Place} {events : List (ι × Event)}
    (serial : Serially code atomic (Answers.Finds pid) s place events t last)
    (kept : s.Kept) (safe : ∀ i, (place i).Safe pid s)
    (listed : pid ∈ s.entries ∨ ∃ i, (i, .returned (.addTarget pid) (.value 0)) ∈ events) : pid ∈ t.entries := by
  induction serial with
  | done memory place =>
    rcases listed with listed | ⟨i, nowhere⟩
    · exact listed
    · cases nowhere
  | atomic memory between after place last events i a next alive effect later ih =>
    obtain ⟨here, stays⟩ := atomic_safe kept alive (safe i) effect
    exact ih (atomic_kept kept effect) (update_safe safe here stays) (listed.imp_left stays)
  | emit memory after place last events i event next emits later ih =>
    obtain ⟨here, told⟩ := emit_safe (safe i) emits
    apply ih kept (update_safe safe here id)
    rcases listed with listed | ⟨j, member⟩
    · exact .inl listed
    · rcases List.mem_cons.mp member with same | member
      · cases same
        exact .inl (told rfl)
      · exact .inr ⟨j, member⟩

/-- A live pid that nobody takes out is in the table once a call has answered that it was added. -/
theorem added_target_stays {ι : Type} [DecidableEq ι] {threads : ι → Option (List Api)} {turns : List (ι × Answers)}
    {s : State ι SchedulerState Place} {events : List (ι × Event)} (runs : run code (start threads) turns = some (s, events))
    (free : s.holder = none) (alive : ∀ turn ∈ turns, turn.2.Finds pid)
    (spares : ∀ i calls, threads i = some calls → ∀ call ∈ calls, call.Spares pid)
    (added : ∃ i, (i, .returned (.addTarget pid) (.value 0)) ∈ events) : pid ∈ s.memory.entries := by
  have safe (i : ι) : ((start threads).place i).Safe pid SchedulerState.initial := by
    simp only [start]
    cases calls : threads i with
    | none => exact ⟨List.forall_mem_nil _, False.elim⟩
    | some todo => exact ⟨spares i todo calls, False.elim⟩
  obtain ⟨memory, last, serial, -, same⟩ :=
    serializes (Answers.Finds pid) disciplined code_implements_atomic rfl start_outside SchedulerState.kept_initial alive runs
  rw [(same free).1]
  exact serially_listed serial SchedulerState.kept_initial safe (.inr added)

/-- The scheduler's thread has pruned the table since. -/
theorem added_target_stays_two : ∃ s events,
    run code (start adding) ((slots ++ List.replicate 11 1).map plenty) = some (s, events) ∧ (7 : Pid) ∈ s.memory.entries := by
  have seen : ((run code (start adding) ((slots ++ List.replicate 11 1).map plenty)).map (Prod.map State.holder id)) =
      some (none, [(1, .slept 50), (0, .returned (.addTarget 7) (.value 0))]) := by
    decide +kernel
  obtain ⟨⟨s, events⟩, runs, same⟩ := Option.map_eq_some_iff.mp seen
  obtain ⟨free, shown⟩ := Prod.mk.inj same
  refine ⟨s, events, runs, added_target_stays runs free ?_ ?_ ⟨0, ?_⟩⟩
  · intro turn member
    obtain ⟨i, -, rfl⟩ := List.mem_map.mp member
    rfl
  · intro i calls same call member
    unfold adding at same
    split at same
    · cases same
      simp only [List.mem_cons, List.not_mem_nil, or_false] at member
      rcases member with rfl | rfl <;> constructor <;> intro same <;> cases same
    · cases same
  · rw [show events = _ from shown]
    simp

end Targets

end ContainerRuntime.Locking
