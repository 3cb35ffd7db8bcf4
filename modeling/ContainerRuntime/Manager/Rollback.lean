import ContainerRuntime.Manager.Restart
import ContainerRuntime.Manager.Footprints

/-! What a failed call leaves behind.

`save_metadata` looks at the results of `fopen`, `fclose` and `rename`, and at
those only; `container_create` and `container_delete` take back by hand what
they did to the list before a save that fails. Which calls of a save fail is
read off the oracle, one answer for each of them in turn.
-/

set_option autoImplicit false

namespace ContainerRuntime

open CString Cli Program
open Prog (read modify forEach)

/-! ## The calls of a save -/

/-- After this many calls, with the list and the file as they were. -/
structure Paused (w : World) (calls : Nat) (v : World) : Prop where
  oracle : v.oracle = w.oracle
  clock : v.clock = w.clock + calls
  memory : v.memory = w.memory
  disk : v.disk = w.disk

theorem Paused.here (w : World) : Paused w 0 w := ⟨rfl, rfl, rfl, rfl⟩

theorem World.events_clock (events : List Event) (w : World) : (events.foldl World.event w).clock = w.clock := by
  induction events generalizing w with
  | nil => rfl
  | cons first rest ih => exact (ih _).trans (w.event_same first).2

/-- One more call, with the answer of the oracle. -/
theorem Paused.tick (w : World) (calls : Nat) :
    Spec Anyhow (Paused w calls) tick fun now v => now = w.oracle (w.clock + calls) ∧ Paused w (calls + 1) v := by
  intro v paused
  have still : Still Anyhow fun u => u.memory = w.memory ∧ u.disk = w.disk := fun u u' idle same =>
    ⟨trivial, idle.memory.trans same.1, idle.disk.trans same.2⟩
  obtain ⟨-, post, oracle⟩ := still.events v.clock (v.oracle v.clock).events (w := { v with clock := v.clock + 1 })
    ⟨paused.memory, paused.disk⟩ fun _ dealt => dealt
  refine ⟨.single trivial, fun now done => ⟨?_, oracle.trans paused.oracle, ?_, post.1, post.2⟩⟩
  · simp only [ContainerRuntime.tick] at done
    split at done
    · cases done
    · rw [← Outcome.done.inj done, paused.oracle, paused.clock]
  · rw [ContainerRuntime.tick, World.events_clock]
    dsimp only
    rw [paused.clock]
    omega

theorem Paused.bind_tick {α : Type} {w : World} {calls : Nat} {next : Tick → Prog World α} {Q : α → World → Prop}
    (rest : Spec Anyhow (Paused w (calls + 1)) (next (w.oracle (w.clock + calls))) Q) :
    Spec Anyhow (Paused w calls) (ContainerRuntime.tick >>= next) Q := by
  refine .bind (Paused.tick w calls) fun now => .given (now = w.oracle (w.clock + calls)) (fun _ holds => holds.1) fun same => ?_
  rw [same]
  exact rest.pre fun _ holds => holds.2

namespace World

/-- The `fprintf` of the record at this position fails. -/
def LosesRecord (w : World) (i : Nat) : Prop := (w.oracle (w.clock + 1 + i)).fail.isSome = true

/-- `fopen`, `fclose` or `rename` fails, in a save of this many records. -/
def SaveFails (w : World) (count : Nat) : Prop :=
  (w.oracle w.clock).fail.isSome = true ∨ (w.oracle (w.clock + 1 + count)).fail.isSome = true ∨
    (w.oracle (w.clock + 2 + count)).fail.isSome = true

instance (w : World) : DecidablePred w.LosesRecord := fun _ => inferInstanceAs (Decidable (_ = true))

instance (w : World) : DecidablePred w.SaveFails := fun _ => inferInstanceAs (Decidable (_ ∨ _))

end World

/-- The records whose `fprintf` succeeds, the first of them being the call at this time. -/
def survivors (oracle : Nat → Tick) : Nat → List Record → List Record
  | _, [] => []
  | time, record :: rest =>
    if (oracle time).fail.isNone then record :: survivors oracle (time + 1) rest else survivors oracle (time + 1) rest

theorem writeRecords_survivors (w : World) (calls : Nat) (records : List Record) :
    Spec Anyhow (Paused w calls) (writeRecords records) fun written v =>
      written = survivors w.oracle (w.clock + calls) records ∧ Paused w (calls + records.length) v := by
  -- One call for each record, so the time of the rest is one call later.
  induction records generalizing calls with
  | nil => exact .pure fun _ paused => ⟨rfl, paused⟩
  | cons record rest ih =>
    refine Paused.bind_tick (.bind (ih (calls + 1)) fun written => .pure fun v holds => ⟨?_, ?_⟩)
    · rw [survivors, holds.1, Nat.add_assoc]
    · have paused := holds.2
      rwa [List.length_cons, Nat.add_comm rest.length 1, ← Nat.add_assoc]

theorem survivors_sublist (oracle : Nat → Tick) (time : Nat) (records : List Record) :
    (survivors oracle time records).Sublist records := by
  induction records generalizing time with
  | nil => exact .slnil
  | cons record rest ih =>
    rw [survivors]
    split
    · exact (ih _).cons_cons record
    · exact (ih _).cons record

/-- None is lost exactly if no `fprintf` fails. -/
theorem survivors_eq_iff (oracle : Nat → Tick) (time : Nat) (records : List Record) :
    survivors oracle time records = records ↔ ∀ i < records.length, (oracle (time + i)).fail = none := by
  induction records generalizing time with
  | nil => simp [survivors]
  | cons record rest ih =>
    have shifted : (∀ i < rest.length, (oracle (time + 1 + i)).fail = none) ↔
        ∀ i, i + 1 < rest.length + 1 → (oracle (time + (i + 1))).fail = none := by
      simp only [Nat.add_lt_add_iff_right, Nat.add_assoc, Nat.add_comm 1]
    rw [survivors, List.length_cons]
    cases first : (oracle time).fail with
    | none =>
      simp only [Option.isNone_none, if_true, List.cons.injEq, true_and]
      rw [ih, shifted]
      constructor
      · rintro later (_ | i) inside
        · exact first
        · exact later i inside
      · exact fun all i => all (i + 1)
    | some error =>
      simp only [Option.isNone_some, Bool.false_eq_true, if_false]
      constructor
      · intro same
        have fewer := (survivors_sublist oracle (time + 1) rest).length_le
        rw [same, List.length_cons] at fewer
        omega
      · intro all
        have none := all 0 (Nat.succ_pos _)
        rw [Nat.add_zero, first] at none
        cases none

/-- What a save that returns has done to the file. -/
theorem saveMetadata_outcome (w : World) :
    Spec Anyhow (Paused w 0) saveMetadata fun done v => v.memory = w.memory ∧
      (done = true ∧ ¬ w.SaveFails w.memory.registry.length ∧
          v.disk = some (encodeRegistry (survivors w.oracle (w.clock + 1) w.memory.records)) ∨
        done = false ∧ w.SaveFails w.memory.registry.length ∧ v.disk = w.disk) := by
  have length : w.memory.records.length = w.memory.registry.length := List.length_map _
  have failed : ∀ (entry : LogEvent) (calls : Nat), w.SaveFails w.memory.registry.length →
      Spec Anyhow (Paused w calls) (saveMetadata.failed entry) fun done v => v.memory = w.memory ∧
        (done = true ∧ ¬ w.SaveFails w.memory.registry.length ∧
            v.disk = some (encodeRegistry (survivors w.oracle (w.clock + 1) w.memory.records)) ∨
          done = false ∧ w.SaveFails w.memory.registry.length ∧ v.disk = w.disk) := by
    intro entry calls fails
    have logged : Spec Anyhow (Paused w calls) (logEventType entry) fun _ => Paused w (calls + 1) := by
      apply Paused.bind_tick
      split <;> exact .modify (fun _ _ => trivial) fun _ paused => ⟨paused.1, paused.2, paused.3, paused.4⟩
    refine .bind logged fun _ => .bind_modify (M := Paused w (calls + 1)) (fun _ _ => trivial)
      (fun _ paused => ⟨paused.1, paused.2, paused.3, paused.4⟩) ?_
    exact .pure fun _ paused => ⟨paused.memory, .inr ⟨rfl, fails, paused.disk⟩⟩
  apply Paused.bind_tick
  split
  · rename_i opens
    exact failed _ _ (.inl opens)
  rename_i opens
  apply Spec.bind_read w.memory.records (fun _ paused => congrArg Memory.records paused.memory)
  refine .bind (writeRecords_survivors w 1 _) fun written => .given _ (fun _ holds => holds.1) fun same => ?_
  subst same
  refine .pre (P := Paused w (1 + w.memory.registry.length)) ?_ fun _ holds => length ▸ holds.2
  apply Paused.bind_tick
  rw [← Nat.add_assoc]
  split
  · rename_i closes
    exact failed _ _ (.inr (.inl closes))
  rename_i closes
  apply Paused.bind_tick
  have last : w.clock + (1 + w.memory.registry.length + 1) = w.clock + 2 + w.memory.registry.length := by omega
  rw [last]
  split
  · rename_i renames
    exact failed _ _ (.inr (.inr renames))
  rename_i renames
  refine .bind_modify (M := fun v => v.memory = w.memory ∧
      v.disk = some (encodeRegistry (survivors w.oracle (w.clock + 1) w.memory.records)))
    (fun _ _ => trivial) (fun v paused => ⟨paused.memory, rfl⟩) ?_
  refine .pure fun v holds => ⟨holds.1, .inl ⟨rfl, ?_, holds.2⟩⟩
  rintro (bad | bad | bad)
  · exact opens bad
  · exact closes bad
  · exact renames bad

/-! ## All or nothing -/

/-- Every record that is missing makes the file shorter. -/
theorem length_encodeRegistry_sublist {some all : List Record} (fewer : some.Sublist all) :
    (encodeRegistry some).length + all.length ≤ (encodeRegistry all).length + some.length := by
  have cons : ∀ (record : Record) (rest : List Record),
      (encodeRegistry (record :: rest)).length = record.line.length + 1 + (encodeRegistry rest).length := fun record rest => by
    simp only [encodeRegistry, List.flatMap_cons, List.length_append, List.length_singleton]
  induction fewer with
  | slnil => exact Nat.le_refl _
  | cons record _ ih =>
    rw [cons, List.length_cons]
    omega
  | cons_cons record _ ih =>
    rw [cons, cons, List.length_cons, List.length_cons]
    omega

theorem encodeRegistry_sublist_eq {some all : List Record} (fewer : some.Sublist all)
    (same : encodeRegistry some = encodeRegistry all) : some = all := by
  have lengths := length_encodeRegistry_sublist fewer
  rw [same] at lengths
  exact fewer.eq_of_length_le (by omega)

/-- If the save returns 0 the file is the whole registry, and if it returns -1 the file is as it was. -/
def AllOrNothing (w after : World) (done : Bool) : Prop :=
  (done = true → after.disk = some (encodeRegistry w.memory.records)) ∧ (done = false → after.disk = w.disk)

/-- A save that returns is all or nothing exactly if it fails as a whole or no `fprintf` of it does. -/
theorem saveMetadata_allOrNothing_iff (w : World) (done : Bool) (returned : (saveMetadata w).1 = .done done) :
    AllOrNothing w (saveMetadata w).2 done ↔
      (w.SaveFails w.memory.registry.length ∨ ∀ i < w.memory.registry.length, ¬ w.LosesRecord i) := by
  have length : w.memory.records.length = w.memory.registry.length := List.length_map _
  have kept : (∀ i < w.memory.registry.length, ¬ w.LosesRecord i) ↔
      survivors w.oracle (w.clock + 1) w.memory.records = w.memory.records := by
    rw [survivors_eq_iff, length]
    simp only [World.LosesRecord, Bool.not_eq_true, Option.isSome_eq_false_iff, Option.isNone_iff_eq_none]
  obtain ⟨-, outcome⟩ := (saveMetadata_outcome w w (.here w)).2 done returned
  rcases outcome with ⟨rfl, succeeds, disk⟩ | ⟨rfl, fails, disk⟩
  · rw [or_iff_right succeeds, kept, AllOrNothing, disk]
    constructor
    · intro whole
      exact encodeRegistry_sublist_eq (survivors_sublist _ _ _) (Option.some.inj (whole.1 rfl))
    · intro same
      exact ⟨fun _ => by rw [same], nofun⟩
  · exact ⟨fun _ => .inl fails, fun _ => ⟨nofun, fun _ => disk⟩⟩

/-- A manager with two containers that were never started. -/
def managerOfTwo (oracle : Nat → Tick) : World :=
  let spec : ContainerSpec := ⟨some (lit "web"), none, none, some (lit "sleep 9"), .unlimited⟩
  let container := fun sequence => (⟨createdRecord spec sequence Tick.calm.path.1, false⟩ : Container)
  { World.initial oracle fun _ => none with
    up := true
    memory := { Memory.fresh with registry := [container 1, container 2], nextSequence := 3 } }

/-- The disk is full when the file is closed. -/
theorem failed_close_changes_nothing :
    let w := managerOfTwo (scripted [(3, { Tick.calm with fail := some Errno.ENOSPC })])
    (saveMetadata w).1 = .done false ∧ AllOrNothing w (saveMetadata w).2 false := by
  intro w
  have returned : (saveMetadata w).1 = .done false := by decide +kernel
  exact ⟨returned, (saveMetadata_allOrNothing_iff w false returned).mpr (by decide +kernel)⟩

/-- The first `fprintf` fails, all else succeeds: the save returns 0 and the file lacks the first container. -/
theorem lost_record_saved :
    let w := managerOfTwo (scripted [(1, { Tick.calm with fail := some Errno.ENOSPC })])
    (saveMetadata w).1 = .done true ∧
      (saveMetadata w).2.disk.map (fun file => (decodeRegistry file).map (·.id.text)) = some [lit "container-0002"] ∧
      ¬ AllOrNothing w (saveMetadata w).2 true := by
  intro w
  have returned : (saveMetadata w).1 = .done true := by decide +kernel
  refine ⟨returned, by decide +kernel, fun whole => ?_⟩
  have differs : (saveMetadata w).2.disk ≠ some (encodeRegistry w.memory.records) := by decide +kernel
  exact differs (whole.1 rfl)

/-! ## Creating and deleting -/

theorem sided_registry (registry : List Container) : Sided Anyhow fun w => w.memory.registry = registry :=
  fun _ _ aside same => ⟨trivial, aside.registry.trans same⟩

theorem saveMetadata_registry (registry : List Container) :
    Spec Anyhow (fun w => w.memory.registry = registry) saveMetadata fun _ w => w.memory.registry = registry :=
  (saveMetadata_spec (.memory (·.registry = registry))).mono fun _ _ _ => trivial

/-- A record that was not saved is the last one, and is taken off again. -/
theorem containerCreate_unchanged (spec : ContainerSpec) (registry : List Container) :
    Spec Anyhow (fun w => w.memory.registry = registry) (containerCreate spec) fun created w =>
      created = none → w.memory.registry = registry := by
  have sided := sided_registry registry
  apply sided.bind_tick
  intro allocated
  split
  · exact .pure fun _ same _ => same
  apply Spec.bind_read_any
  intro sequence
  refine .bind_modify (M := fun w => w.memory.registry = registry) (fun _ _ => trivial) (fun _ same => same) ?_
  apply sided.bind_tick
  intro prepared
  split
  · exact .bind_modify (M := fun w => w.memory.registry = registry) (fun _ _ => trivial) (fun _ same => same)
      (.pure fun _ same _ => same)
  simp only
  generalize createdRecord spec sequence prepared.path.1 = record
  refine .bind_modify (M := fun w => w.memory.registry = registry ++ [⟨record, false⟩]) (fun _ _ => trivial) (fun w same => ?_) ?_
  · exact congrArg (· ++ [⟨record, false⟩]) same
  apply Spec.bind (saveMetadata_registry _)
  intro saved
  cases saved with
  | true => exact .bind anyhow fun _ => .bind anyhow fun _ => .pure fun _ _ absurd => by cases absurd
  | false =>
    refine .bind_modify (M := fun w => w.memory.registry = registry) (fun _ _ => trivial) (fun w same => ?_)
      (.pure fun _ same _ => same)
    exact (congrArg List.dropLast same).trans List.dropLast_concat

/-- An element that goes to the end of a list leaves it as it is exactly if all that follow it are the same. -/
theorem eraseIdx_append_eq_iff {α : Type} {l : List α} {i : Nat} {a : α} (here : l[i]? = some a) :
    l.eraseIdx i ++ [a] = l ↔ ∀ b ∈ l.drop (i + 1), b = a := by
  obtain ⟨front, back, rfl, rfl, -, erased⟩ := List.split_at here
  have parts : front ++ a :: back = (front ++ [a]) ++ back := by simp
  have behind : (front ++ a :: back).drop (front.length + 1) = back := by
    rw [parts]
    exact List.drop_left' (by simp)
  rw [erased, behind, List.append_assoc, List.append_cancel_left_eq]
  clear here erased parts behind
  induction back with
  | nil => simp
  | cons b rest ih =>
    rw [List.cons_append, List.cons.injEq, List.forall_mem_cons]
    constructor
    · rintro ⟨rfl, same⟩
      exact ⟨rfl, ih.mp same⟩
    · rintro ⟨rfl, same⟩
      exact ⟨rfl, ih.mpr same⟩

/-- The manager after the poll with which `container_delete` begins; without an id there is none. -/
def World.polled (w : World) (id : Text) : World := if id = [] then w else (pollStates w).2

/-- The container can be deleted, the save of the others fails, and it has another one behind it. -/
def World.Misplaces (w : World) (id : Text) : Prop :=
  ∃ i c, findContainer id w.memory.registry = some i ∧ w.memory.registry[i]? = some c ∧ c.state ≠ .RUNNING ∧
    (∃ other ∈ w.memory.registry.drop (i + 1), other ≠ c) ∧ w.SaveFails (w.memory.registry.length - 1)

/-- What `container_delete` does after its poll. -/
def containerDelete.polled (id : Text) : Prog World Bool := do
  match ← read fun w => (findContainer id w.memory.registry).bind fun i =>
      w.memory.registry[i]?.map fun c => (i, c) with
  | none => pure false
  | some (i, c) =>
    if c.state = .RUNNING then pure false
    else
      modify (·.remember (·.detach i c))
      if ← saveMetadata then
        logEventType (.deleted c.id.text)
        modify (·.remember fun m => { m with detached := none })
        pure true
      else
        modify (·.remember (·.reattach c))
        pure false

theorem containerDelete_eq (id : Text) :
    containerDelete id = if id = [] then pure false else pollStates >>= fun _ => containerDelete.polled id := rfl

/-- The container that `find_container` finds. -/
theorem found_cases (id : Text) (registry : List Container) :
    ((findContainer id registry).bind fun i => registry[i]?.map fun c => (i, c)) = none ∧
        (∀ i c, findContainer id registry = some i → registry[i]? ≠ some c) ∨
      ∃ i c, ((findContainer id registry).bind fun i => registry[i]?.map fun c => (i, c)) = some (i, c) ∧
        findContainer id registry = some i ∧ registry[i]? = some c := by
  cases found : findContainer id registry with
  | none => exact .inl ⟨rfl, nofun⟩
  | some i =>
    cases here : registry[i]? with
    | none =>
      refine .inl ⟨by simp [here], fun j c same there => ?_⟩
      cases same
      rw [here] at there
      cases there
    | some c => exact .inr ⟨i, c, by simp [here], rfl, here⟩

/-- The list stays as it is, unless the container has gone to the end of it. -/
theorem containerDelete_polled (id : Text) (w : World) :
    Spec Anyhow (· = w) (containerDelete.polled id) fun done v =>
      (done = true ∧ ¬ w.Misplaces id) ∨ done = false ∧ (v.memory.registry = w.memory.registry ↔ ¬ w.Misplaces id) := by
  apply Spec.bind_read _ (fun v same => by rw [same])
  rcases found_cases id w.memory.registry with ⟨none, missing⟩ | ⟨i, c, some, found, here⟩
  · rw [none]
    refine .pure fun v same => .inr ⟨rfl, fun _ => ?_, fun _ => by rw [same]⟩
    rintro ⟨i, c, found, here, -⟩
    exact missing i c found here
  rw [some]
  simp only
  -- The container is the one that was found.
  have unique : w.Misplaces id → c.state ≠ .RUNNING ∧ (∃ other ∈ w.memory.registry.drop (i + 1), other ≠ c) ∧
      w.SaveFails (w.memory.registry.length - 1) := by
    rintro ⟨j, d, same, there, rest⟩
    cases found.symm.trans same
    cases here.symm.trans there
    exact rest
  split
  · rename_i running
    exact .pure fun v same => .inr ⟨rfl, fun _ misplaces => (unique misplaces).1 running, fun _ => by rw [same]⟩
  rename_i down
  generalize detached_eq : w.remember (·.detach i c) = detached
  have inside : i < w.memory.registry.length := (List.getElem?_eq_some_iff.mp here).1
  have rest : detached.memory.registry = w.memory.registry.eraseIdx i := by rw [← detached_eq]; rfl
  have fewer : detached.memory.registry.length = w.memory.registry.length - 1 := by
    rw [rest, List.length_eraseIdx, if_pos inside]
  have fails : detached.SaveFails detached.memory.registry.length ↔ w.SaveFails (w.memory.registry.length - 1) := by
    rw [fewer, ← detached_eq]
    rfl
  refine .bind_modify (M := Paused detached 0) (fun _ _ => trivial) (fun v same => ?_) ?_
  · rw [same, detached_eq]
    exact .here detached
  apply Spec.bind (saveMetadata_outcome detached)
  intro saved
  cases saved with
  | true =>
    refine .given (¬ w.SaveFails (w.memory.registry.length - 1)) (fun v holds => ?_) fun succeeds => ?_
    · rcases holds.2 with ⟨-, succeeds, -⟩ | ⟨absurd, -⟩
      · rwa [fails] at succeeds
      · cases absurd
    · exact .bind anyhow fun _ => .bind anyhow fun _ => .pure fun _ _ => .inl ⟨rfl, fun misplaces => succeeds (unique misplaces).2.2⟩
  | false =>
    refine .given (w.SaveFails (w.memory.registry.length - 1)) (fun v holds => ?_) fun failed => ?_
    · rcases holds.2 with ⟨absurd, -⟩ | ⟨-, failed, -⟩
      · cases absurd
      · rwa [fails] at failed
    refine .bind_modify (M := fun v => v.memory.registry = w.memory.registry.eraseIdx i ++ [c]) (fun _ _ => trivial)
      (fun v holds => ?_) (.pure fun v same => .inr ⟨rfl, ?_⟩)
    · exact congrArg (· ++ [c]) ((congrArg Memory.registry holds.1).trans rest)
    · rw [same, eraseIdx_append_eq_iff here]
      constructor
      · intro alike misplaces
        obtain ⟨-, ⟨other, behind, differs⟩, -⟩ := unique misplaces
        exact differs (alike other behind)
      · intro placed other behind
        by_contra differs
        exact placed ⟨i, c, found, here, down, ⟨other, behind, differs⟩, failed⟩

/-- A `container_create` that returns -1 leaves the list as it was. A `container_delete` that returns -1 does so exactly
if it has not tried to delete a container with another one behind it. -/
theorem failed_call_unchanged_iff (w : World) :
    (∀ spec, (containerCreate spec w).1 = .done none → (containerCreate spec w).2.memory.registry = w.memory.registry) ∧
      ∀ id done, (containerDelete id w).1 = .done done →
        ((done = false → (containerDelete id w).2.memory.registry = (w.polled id).memory.registry) ↔
          ¬ (id ≠ [] ∧ (w.polled id).Misplaces id)) := by
  refine ⟨fun spec refused => (containerCreate_unchanged spec _ w rfl).2 none refused rfl, fun id done returned => ?_⟩
  rw [containerDelete_eq] at returned ⊢
  by_cases unnamed : id = []
  · rw [if_pos unnamed, World.polled, if_pos unnamed]
    exact ⟨fun _ named => named.1 unnamed, fun _ _ => rfl⟩
  rw [if_neg unnamed] at returned ⊢
  rw [World.polled, if_neg unnamed]
  rw [Prog.bind_apply] at returned ⊢
  rcases result : pollStates w with ⟨_ | _, v⟩
  · rw [result] at returned
    simp only at returned ⊢
    rcases (containerDelete_polled id v v rfl).2 done returned with ⟨rfl, placed⟩ | ⟨rfl, unchanged⟩
    · exact ⟨fun _ misplaces => placed misplaces.2, fun _ => nofun⟩
    · constructor
      · exact fun same misplaces => unchanged.mp (same rfl) misplaces.2
      · exact fun placed _ => unchanged.mpr fun misplaces => placed ⟨unnamed, misplaces⟩
  · rw [result] at returned
    cases returned

/-- The last container of two cannot be deleted, and stays where it is. -/
theorem failed_delete_unchanged :
    let w := managerOfTwo (scripted [(0, { Tick.calm with fail := some Errno.ENOSPC })])
    (containerDelete (lit "container-0002") w).1 = .done false ∧
      (containerDelete (lit "container-0002") w).2.memory.registry = (w.polled (lit "container-0002")).memory.registry := by
  intro w
  have returned : (containerDelete (lit "container-0002") w).1 = .done false := by decide +kernel
  have placed : ¬ (lit "container-0002" ≠ [] ∧ (w.polled (lit "container-0002")).Misplaces (lit "container-0002")) := by
    rintro ⟨-, i, c, found, -, -, ⟨other, behind, -⟩, -⟩
    have second : findContainer (lit "container-0002") (w.polled (lit "container-0002")).memory.registry = some 1 := by
      decide +kernel
    cases found.symm.trans second
    have nobody : (w.polled (lit "container-0002")).memory.registry.drop 2 = [] := by decide +kernel
    rw [nobody] at behind
    cases behind
  exact ⟨returned, ((failed_call_unchanged_iff w).2 _ false returned).mpr placed rfl⟩

/-- The first container of two cannot be deleted, and goes to the end of the list. -/
theorem failed_delete_reorders :
    let w := managerOfTwo (scripted [(0, { Tick.calm with fail := some Errno.ENOSPC })])
    (containerDelete (lit "container-0001") w).1 = .done false ∧
      (w.polled (lit "container-0001")).memory.registry.map (·.id.text) = [lit "container-0001", lit "container-0002"] ∧
      (containerDelete (lit "container-0001") w).2.memory.registry.map (·.id.text) =
        [lit "container-0002", lit "container-0001"] := by
  decide +kernel

end ContainerRuntime
