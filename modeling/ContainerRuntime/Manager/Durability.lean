import ContainerRuntime.Manager.Commands
import ContainerRuntime.Manager.Footprints

/-! What a call that returns 0 has left in `containers.meta`.

Every operation that changes the list ends with a save, but not every one looks
at its result, and `save_metadata` does not look at the results of `fprintf`.
The registry is in the file whenever the last save of the call lost nothing;
start-up, which may not save at all, needs a file it can read back as it is.
-/

set_option autoImplicit false

namespace ContainerRuntime

open CString Cli Program
open Prog (read modify forEach)

/-! ## The last save -/

/-- What the last save wanted to write, and what it wrote if it came to the rename. -/
def lastSave (notes : List Note) : Option (List Record × Option (List Record)) :=
  notes.foldl (fun last note => match note with
    | .saved wanted written => some (wanted, written)
    | _ => last) none

theorem lastSave_saved (notes : List Note) (wanted : List Record) (written : Option (List Record)) :
    lastSave (notes ++ [.saved wanted written]) = some (wanted, written) := by
  rw [lastSave, List.foldl_append]
  rfl

theorem lastSave_unlogged (notes : List Note) (entry : LogEvent) :
    lastSave (notes ++ [.unlogged entry]) = lastSave notes := by
  rw [lastSave, List.foldl_append]
  rfl

theorem lastSave_issued (notes : List Note) (sequence : Nat) (id : Text) :
    lastSave (notes ++ [.issued sequence id]) = lastSave notes := by
  rw [lastSave, List.foldl_append]
  rfl

/-- The call began when this many notes had been taken. -/
def Since (n : Nat) (w : World) : Prop := n ≤ w.notes.length

/-- The last thing the call did to the list or the file was a save. -/
structure SavedSince (n : Nat) (w : World) : Prop where
  since : n ≤ w.notes.length
  last : ∃ written, lastSave (w.notes.drop n) = some (w.memory.records, written) ∧
    ∀ records, written = some records → w.disk = some (encodeRegistry records)

section

variable {n : Nat} {w w' : World}

theorem Since.observe (since : Since n w) (note : Note) : Since n (w.observe (.noted note)) := by
  rw [Since, World.notes_noted, List.length_append]
  exact Nat.le_trans since (Nat.le_add_right _ _)

/-- The notes of the call, when one is added. -/
theorem Since.drop_noted (since : Since n w) (note : Note) :
    (w.observe (.noted note)).notes.drop n = w.notes.drop n ++ [note] := by
  rw [World.notes_noted, List.drop_append_of_le_length since]

theorem SavedSince.aside (saved : SavedSince n w) (aside : Aside w w') : SavedSince n w' := by
  obtain ⟨since, written, last, file⟩ := saved
  refine ⟨aside.notes ▸ since, written, ?_, fun records same => aside.disk.trans (file records same)⟩
  rw [aside.notes, last, Memory.records, Memory.records, aside.registry]

/-- A note about something else. -/
theorem SavedSince.noted (saved : SavedSince n w) {note : Note} (other : ∀ notes, lastSave (notes ++ [note]) = lastSave notes) :
    SavedSince n (w.observe (.noted note)) := by
  refine ⟨Since.observe saved.since _, ?_⟩
  rw [Since.drop_noted saved.since, other]
  exact saved.last

theorem SavedSince.published (since : Since n w) (written : List Record) : SavedSince n (w.published written) := by
  refine ⟨Since.observe (w := { w with disk := some (encodeRegistry written) }) since _, some written, ?_, ?_⟩
  · rw [World.published, Since.drop_noted (w := { w with disk := some (encodeRegistry written) }) since, lastSave_saved]
    rfl
  · intro records same
    rw [← Option.some.inj same]
    rfl

theorem SavedSince.unsaved (since : Since n w) : SavedSince n w.unsaved := by
  refine ⟨since.observe _, none, ?_, fun _ same => by cases same⟩
  rw [World.unsaved, since.drop_noted, lastSave_saved]
  rfl

theorem since_sided (n : Nat) : Sided Anyhow (Since n) := by
  intro w w' aside since
  exact ⟨trivial, by rw [Since, aside.notes]; exact since⟩

theorem savedSince_sided (n : Nat) : Sided Anyhow (SavedSince n) := fun _ _ aside saved => ⟨trivial, saved.aside aside⟩

theorem since_log (n : Nat) (entry : LogEvent) : Spec Anyhow (Since n) (logEventType entry) fun _ => Since n :=
  (since_sided n).still.logEventType (fun _ since => ⟨trivial, since⟩) fun _ since => ⟨trivial, since.observe _⟩

theorem savedSince_log (n : Nat) (entry : LogEvent) :
    Spec Anyhow (SavedSince n) (logEventType entry) fun _ => SavedSince n :=
  (savedSince_sided n).still.logEventType (fun _ saved => ⟨trivial, { saved with }⟩) fun _ saved =>
    ⟨trivial, saved.noted fun notes => lastSave_unlogged notes entry⟩

/-- A save is the last thing that was done, whether it worked or not. -/
theorem saveMetadata_saved (n : Nat) : Spec Anyhow (Since n) saveMetadata fun _ => SavedSince n := by
  refine saveMetadata_rule (fun w w' filing since => ⟨trivial, ?_⟩)
    (fun w written since _ => ⟨trivial, .published since written⟩) fun w since => ⟨trivial, .unsaved since⟩
  cases filing with
  | idle _ idle => exact (since_sided n w w' idle.aside since).2
  | log entry => exact since
  | miss entry => exact since.observe _

/-! ## The operations -/

theorem Move.since {w w' : World} (move : Move w w') (since : Since n w) : Since n w' :=
  have boot : BootMove [] w w' := .move w w' move
  Nat.le_trans since (World.notes_grow boot.trace_grows).length_le

/-- An operation that is a chain of moves takes no note back. -/
theorem keep_since {α : Type} {p : Prog World α}
    (spec : Spec Move (fun w => w.memory.Settled) p fun _ w => w.memory.Settled) (n : Nat) :
    Spec Anyhow (fun w => w.memory.Settled ∧ Since n w) p fun _ w => w.memory.Settled ∧ Since n w :=
  (spec.keeping fun _ _ => Move.since).mono fun _ _ _ => trivial

/-- If the call returns 0, its last act was a save. -/
def SavesOnSuccess (n : Nat) (ok : Bool) (w : World) : Prop := ok = true → SavedSince n w

theorem failed {P : World → Prop} : Spec Anyhow P (pure false) (SavesOnSuccess n) :=
  .pure fun _ _ ok => by cases ok

/-- A failure is decided, whatever is still to do. -/
theorem failed_after {α : Type} {p : Prog World α} {P : World → Prop} :
    Spec Anyhow P (do let _ ← p; pure false) (SavesOnSuccess n) := .bind anyhow fun _ => failed

theorem stopContainerProcess_saved (i : Nat) : Spec Anyhow (Since n) (stopContainerProcess i) (SavesOnSuccess n) := by
  have marked : ∀ c, Spec Anyhow (Since n) (stopContainerProcess.markStopped i c) (SavesOnSuccess n) := fun c =>
    .bind (since_log n _) fun _ => .bind ((since_sided n).onStopped c.pid) fun _ =>
      .bind_modify (M := Since n) (fun _ _ => trivial) (fun _ since => since) <|
        .bind (saveMetadata_saved n) fun _ => .pure fun _ saved _ => saved
  apply Spec.bind_read_any
  intro found
  cases found with
  | none => exact failed
  | some c =>
    simp only
    split
    · exact failed
    apply Spec.bind ((since_sided n).kill c.id.text c.pid)
    intro killed
    split
    · exact failed_after
    apply Spec.bind ((since_sided n).waitpid c.pid)
    intro result
    cases result with
    | error error =>
      simp only
      split
      · exact failed_after
      · exact marked c
    | ok status => exact marked c

theorem waitForContainerProcess_saved (i : Nat) :
    Spec Anyhow (Since n) (waitForContainerProcess i) (SavesOnSuccess n) := by
  have finished : ∀ c moved status, Spec Anyhow (Since n) (waitForContainerProcess.finish i c moved status)
      (SavesOnSuccess n) := fun c moved status =>
    .bind ((since_sided n).restoreTerminal moved 0) fun _ => .bind (since_log n _) fun _ =>
      .bind_modify (M := Since n) (fun _ _ => trivial) (fun _ since => since) <|
        (saveMetadata_saved n).post fun _ _ saved _ => saved
  apply Spec.bind_read_any
  intro found
  cases found with
  | none => exact failed
  | some c =>
    simp only
    split
    · exact failed
    refine .bind (since_sided n).moveTerminalForeground fun ⟨moved, _⟩ => ?_
    apply Spec.bind ((since_sided n).waitpid c.pid)
    intro result
    cases result with
    | error error =>
      apply Spec.bind ((since_sided n).restoreTerminal moved error)
      intro errno
      split
      · apply Spec.bind ((since_sided n).isPidAlive c.pid)
        intro alive
        split
        · exact failed
        · exact finished c moved _
      · exact failed
    | ok status => exact finished c moved status

theorem startContainerById_saved (id : Text) (scheduleTarget : Bool) :
    Spec Anyhow (fun w => w.memory.Settled ∧ Since n w) (startContainerById id scheduleTarget) (SavesOnSuccess n) := by
  unfold startContainerById
  split
  · exact failed
  refine .bind (keep_since pollStates_spec n) fun _ => .pre (P := Since n) ?_ fun _ holds => holds.2
  apply Spec.bind_read_any
  intro found
  split
  · exact failed
  rename_i i c
  split
  · exact failed
  apply (since_sided n).bind_tick
  intro stack
  split
  · exact failed
  refine .bind_modify (M := Since n) (fun _ _ => trivial) (fun _ since => since) ?_
  apply Spec.bind ((since_sided n).namespaceStartContainer c)
  intro result
  cases result with
  | error error => exact .bind anyhow fun _ => .bind anyhow fun _ => failed
  | ok pid =>
    apply Spec.bind_modify (M := Since n) (fun _ _ => trivial) (fun _ holds => holds.1)
    apply Spec.bind (saveMetadata_saved n)
    intro saved
    cases saved with
    | false => exact failed_after
    | true =>
      apply Spec.bind (savedSince_log n _)
      intro _
      simp only
      split
      · refine .bind (Q := fun _ => SavedSince n) ?_ fun _ => .pure fun _ saved _ => saved
        exact (savedSince_sided n).bind_tick fun _ => .modify (fun _ _ => trivial) fun _ saved => { saved with }
      · exact .pure fun _ saved _ => saved

theorem containerCreate_saved (spec : ContainerSpec) :
    Spec Anyhow (Since n) (containerCreate spec) fun created => SavesOnSuccess n created.isSome := by
  have refused : ∀ {P : World → Prop}, Spec Anyhow P (pure none) fun created : Option Text =>
      SavesOnSuccess n created.isSome := .pure fun _ _ ok => by cases ok
  apply (since_sided n).bind_tick
  intro allocated
  split
  · exact refused
  refine .bind_read_any fun sequence => .bind_modify (M := Since n) (fun _ _ => trivial) (fun _ since => since) ?_
  apply (since_sided n).bind_tick
  intro prepared
  split
  · exact .bind anyhow fun _ => refused
  simp only
  refine .bind_modify (M := Since n) (fun _ _ => trivial) (fun w since => ?_) ?_
  · have same : (w.enrolled (createdRecord spec sequence prepared.path.1)).notes = w.notes :=
      World.notes_observe fun _ same => by cases same
    rw [Since, same]
    exact since
  apply Spec.bind (saveMetadata_saved n)
  intro saved
  cases saved with
  | true =>
    refine .bind (savedSince_log n _) fun _ => .bind_modify (M := SavedSince n) (fun _ _ => trivial) (fun _ saved => ?_) ?_
    · exact saved.noted fun notes => lastSave_issued notes _ _
    · exact .pure fun _ saved _ => saved
  | false => exact .bind anyhow fun _ => refused

theorem containerDelete_saved (id : Text) :
    Spec Anyhow (fun w => w.memory.Settled ∧ Since n w) (containerDelete id) (SavesOnSuccess n) := by
  unfold containerDelete
  split
  · exact failed
  refine .bind (keep_since pollStates_spec n) fun _ => .pre (P := Since n) ?_ fun _ holds => holds.2
  apply Spec.bind_read_any
  intro found
  split
  · exact failed
  split
  · exact failed
  refine .bind_modify (M := Since n) (fun _ _ => trivial) (fun _ since => since) ?_
  apply Spec.bind (saveMetadata_saved n)
  intro saved
  cases saved with
  | true =>
    apply Spec.bind (savedSince_log n _)
    intro _
    exact .bind_modify (M := SavedSince n) (fun _ _ => trivial) (fun _ saved => { saved with }) (.pure fun _ saved _ => saved)
  | false => exact failed_after

/-! ## Start-up -/

/-- A record that start-up found RUNNING has its process. -/
def Note.Alive : Note → Prop
  | .checked record alive _ => record.state = .RUNNING → alive = true
  | _ => True

instance : DecidablePred Note.Alive
  | .checked record alive _ => inferInstanceAs (Decidable (record.state = .RUNNING → alive = true))
  | .unlogged _ | .saved _ _ | .givenUp _ _ | .issued _ _ | .died _ _ _ => isTrue trivial

def AliveSince (n : Nat) (w : World) : Prop := ∀ note ∈ w.notes.drop n, note.Alive

instance (n : Nat) (w : World) : Decidable (AliveSince n w) := inferInstanceAs (Decidable (∀ note ∈ _, Note.Alive note))

/-- Start-up has read these records from the file and has not written it since. -/
structure LoadedSince (n : Nat) (disk : Option Text) (records : List Record) (w : World) : Prop where
  since : Since n w
  unsaved : lastSave (w.notes.drop n) = none
  disk : w.disk = disk
  records : AliveSince n w → w.memory.records = records

variable {disk : Option Text} {records : List Record}

theorem loadedSince_sided (n : Nat) (disk : Option Text) (records : List Record) :
    Sided Anyhow (LoadedSince n disk records) := by
  intro w w' aside loaded
  refine ⟨trivial, (since_sided n w w' aside loaded.since).2, aside.notes ▸ loaded.unsaved,
    aside.disk.trans loaded.disk, fun alive => ?_⟩
  rw [Memory.records, aside.registry]
  exact loaded.records fun note member => alive note (aside.notes ▸ member)

theorem loadedSince_log (entry : LogEvent) :
    Spec Anyhow (LoadedSince n disk records) (logEventType entry) fun _ => LoadedSince n disk records := by
  refine (loadedSince_sided n disk records).still.logEventType (fun _ loaded => ⟨trivial, { loaded with }⟩)
    fun w loaded => ⟨trivial, loaded.since.observe _, ?_, loaded.disk, fun alive => loaded.records ?_⟩
  · rw [loaded.since.drop_noted, lastSave_unlogged, loaded.unsaved]
  · intro note member
    apply alive note
    rw [loaded.since.drop_noted]
    exact List.mem_append_left _ member

theorem LoadedSince.restored (loaded : LoadedSince n disk records w) (record : Record) (rest : List Record) :
    LoadedSince n disk (records ++ [record]) (w.restored record rest) := by
  have since : Since n (w.remember (·.restore record (w.isPidAlive record.pid) rest)) := loaded.since
  refine ⟨since.observe _, ?_, loaded.disk, fun alive => ?_⟩
  · rw [World.restored, since.drop_noted, lastSave, List.foldl_append]
    exact loaded.unsaved
  · rw [AliveSince, World.restored, since.drop_noted] at alive
    have before := loaded.records fun note member => alive note (List.mem_append_left _ member)
    have same : Memory.revived record (w.isPidAlive record.pid) = record := by
      unfold Memory.revived
      split
      · rename_i dead
        have there := alive _ (List.mem_append_right _ List.mem_cons_self) dead.1
        rw [there] at dead
        cases dead.2
      · rfl
    have grown : (w.restored record rest).memory.records =
        w.memory.records ++ [Memory.revived record (w.isPidAlive record.pid)] := by
      simp [World.restored, World.remember, Memory.restore, Memory.records]
    rw [grown, before, same]

theorem restoreRecords_loaded (rest : List Record) (records : List Record) :
    Spec Anyhow (LoadedSince n disk records) (restoreRecords rest) fun done w =>
      done = true → LoadedSince n disk (records ++ rest) w := by
  induction rest generalizing records with
  | nil => exact .pure fun _ loaded _ => by rwa [List.append_nil]
  | cons record rest ih =>
    have appended : Spec Anyhow (LoadedSince n disk records) (do modify (·.restored record rest); restoreRecords rest)
        fun done w => done = true → LoadedSince n disk (records ++ record :: rest) w := by
      refine .bind_modify (M := LoadedSince n disk (records ++ [record])) (fun _ _ => trivial)
        (fun w loaded => loaded.restored record rest) ?_
      have next := ih (records ++ [record])
      rwa [List.append_assoc] at next
    apply (loadedSince_sided n disk records).bind_tick
    intro allocated
    split
    · exact .pure fun _ _ done => by cases done
    simp only
    split
    · exact (loadedSince_sided n disk records).bind_tick fun _ => appended
    · exact appended

/-- A container that is not found changed is left alone. -/
theorem syncContainerState_unchanged {P : World → Prop} (sided : Sided Anyhow P) (i : Nat) :
    Spec Anyhow P (syncContainerState i) fun changed w => changed = false → P w := by
  have unchanged : Spec Anyhow P (pure false) fun changed w => changed = false → P w := .pure fun _ holds _ => holds
  have changed : ∀ {Q : World → Prop}, Spec Anyhow Q (pure true) fun changed w => changed = false → P w :=
    .pure fun _ _ same => by cases same
  apply Spec.bind_read_any
  intro found
  cases found with
  | none => exact unchanged
  | some c =>
    simp only
    split
    · exact unchanged
    apply Spec.bind (sided.waitpidNoHang c.pid)
    intro result
    rcases result with error | - | status
    · simp only
      split
      · apply Spec.bind (sided.isPidAlive c.pid)
        intro alive
        split
        · exact unchanged
        · exact .bind anyhow fun _ => .bind anyhow fun _ => .bind anyhow fun _ => changed
      · exact unchanged
    · exact unchanged
    · exact .bind anyhow fun _ => .bind anyhow fun _ => .bind anyhow fun _ => changed

theorem syncAll_unchanged {P : World → Prop} (sided : Sided Anyhow P) (before : Bool) (positions : List Nat) :
    Spec Anyhow (fun w => before = false → P w) (syncAll before positions) fun changed w => changed = false → P w := by
  induction positions generalizing before with
  | nil => exact .pure fun _ holds => holds
  | cons first rest ih =>
    refine .bind (Q := fun now w => (before || now) = false → P w) ?_ fun now => ih _
    cases before with
    | true => exact anyhow.post fun _ _ _ same => by cases same
    | false => exact .pre (syncContainerState_unchanged sided first) fun _ holds => holds rfl

/-- The first poll either saves, or has nothing to save. -/
theorem pollStates_loaded :
    Spec Anyhow (fun w => LoadedSince n disk records w ∧ w.memory.Settled) pollStates fun _ w =>
      SavedSince n w ∨ LoadedSince n disk records w := by
  apply Spec.bind_read_any
  intro count
  have polled : Spec Anyhow (fun w => LoadedSince n disk records w ∧ w.memory.Settled) (syncAll false (List.range count))
      fun changed w => (changed = false → LoadedSince n disk records w) ∧ w.memory.Settled ∧ Since n w :=
    ((syncAll_unchanged (loadedSince_sided n disk records) false _).and (keep_since (syncAll_rule syncContainerState_spec false _) n)).pre
      fun w holds => ⟨fun _ => holds.1, holds.2, holds.1.since⟩
  apply Spec.bind polled
  intro changed
  cases changed with
  | true =>
    apply Spec.bind ((saveMetadata_saved n).pre fun _ holds => holds.2.2)
    intro _
    exact .pure fun _ saved => .inl saved
  | false => exact .pure fun _ holds => .inr (holds.1 rfl)

/-- What a successful start-up leaves, having read `disk` and got this answer for the `fopen`. -/
def RestoredSince (n : Nat) (disk : Option Text) (opened : Tick) (w : World) : Prop :=
  SavedSince n w ∨ lastSave (w.notes.drop n) = none ∧
    match disk with
    | none => w.disk = none ∧ w.memory.registry = []
    | some file => opened.fail = none → LoadedSince n disk (decodeRegistry file) w

theorem containerManagerInit_restored (opened : Tick) (disk : Option Text) :
    Spec Anyhow (fun w => (Launched disk w ∧ w.notes.length = n) ∧ w.oracle w.clock = opened) containerManagerInit fun done w =>
      done = true → RestoredSince n disk opened w := by
  have still : Still Anyhow fun w => Launched disk w ∧ w.notes.length = n := fun w w' idle here =>
    ⟨trivial, here.1.idle idle, by rw [idle.aside.notes]; exact here.2⟩
  apply Spec.bind (still.tick.and (tick_now opened))
  intro now
  apply Spec.given (now = opened) (fun _ holds => holds.2)
  intro same
  subst same
  have fresh : ∀ w : World, w.notes.length = n → lastSave (w.notes.drop n) = none := by
    intro w same
    rw [List.drop_eq_nil_of_le (Nat.le_of_eq same)]
    rfl
  refine .pre (P := fun w => Launched disk w ∧ w.notes.length = n) ?_ fun _ holds => holds.1.1
  apply Spec.bind_read disk (fun w here => here.1.disk)
  cases disk with
  | none => exact .pure fun w here _ => .inr ⟨fresh w here.2, here.1.disk, by rw [here.1.memory]; rfl⟩
  | some file =>
    simp only
    split
    · rename_i refused
      refine .pure fun w here _ => .inr ⟨fresh w here.2, fun granted => ?_⟩
      rw [granted] at refused
      cases refused
    refine .bind_modify (M := fun w => LoadedSince n (some file) [] w ∧ w.memory.Loading (decodeRegistry file))
      (fun _ _ => trivial) (fun w here => ?_) ?_
    · refine ⟨⟨Nat.le_of_eq here.2.symm, fresh w here.2, here.1.disk, fun _ => ?_⟩, ?_, rfl⟩
      · simp [World.remember, here.1.memory, Memory.records, Memory.fresh]
      · simp only [World.remember, here.1.memory]
        exact { Memory.fresh_settled with }
    apply Spec.bind ((restoreRecords_loaded (decodeRegistry file) []).and (restoreRecords_spec file _))
    intro done
    cases done with
    | false => exact .pure fun _ _ done => by cases done
    | true =>
      apply Spec.bind (pollStates_loaded.pre fun w holds => ⟨holds.1 rfl, holds.2 rfl⟩)
      intro _
      have done : Spec Anyhow (fun w => SavedSince n w ∨ LoadedSince n (some file) (decodeRegistry file) w)
          (pure true) fun done w => done = true → RestoredSince n (some file) now w :=
        .pure fun w holds _ => holds.imp id fun loaded => ⟨loaded.unsaved, fun _ => loaded⟩
      split
      · exact .bind ((savedSince_log n _).or (loadedSince_log _)) fun _ => done
      · exact done

end

/-! ## Success is durable -/

/-- The calls of `container.h` that return 0 when they have done what they were asked. -/
inductive Operation where
  | managerInit
  | create (spec : ContainerSpec)
  | start (id : Text)
  | run (spec : ContainerSpec)
  | runBackground (spec : ContainerSpec)
  | stop (id : Text)
  | delete (id : Text)
  deriving DecidableEq

namespace Operation

/-- Whether the call returns 0. -/
def call : Operation → Prog World Bool
  | .managerInit => containerManagerInit
  | .create spec => do
    let id ← containerCreate spec
    pure id.isSome
  | .start id => containerStart id
  | .run spec => containerRun spec
  | .runBackground spec => containerRunBackground spec
  | .stop id => containerStop id
  | .delete id => containerDelete id

/-- The manager that makes the call. -/
def entered (op : Operation) (w : World) : World :=
  match op with
  | .managerInit => w.launched
  | _ => w

/-- The last save of the call, if there was one, wrote what it was asked to. Otherwise the call is a start-up
that could open the file, reads the records it would write, and finds the process of every RUNNING one. -/
def Sound (op : Operation) (w w' : World) : Prop :=
  (∀ save ∈ lastSave (w'.notes.drop w.notes.length), save.2 = some save.1) ∧
  (op = .managerInit → lastSave (w'.notes.drop w.notes.length) = none → ∀ file ∈ w.disk,
    (w.oracle w.clock).fail = none ∧ encodeRegistry (decodeRegistry file) = file ∧ AliveSince w.notes.length w')

instance (op : Operation) (w w' : World) : Decidable (op.Sound w w') := inferInstanceAs (Decidable (_ ∧ _))

end Operation

/-- The file holds the registry, or there is none and the registry is empty. -/
def World.Durable (w : World) : Prop :=
  w.disk = none ∧ w.memory.registry = [] ∨ w.disk = some (encodeRegistry w.memory.records)

instance (w : World) : Decidable w.Durable :=
  inferInstanceAs (Decidable (w.disk = none ∧ w.memory.registry = [] ∨ w.disk = some (encodeRegistry w.memory.records)))

theorem SavedSince.durable {n : Nat} {w : World} (saved : SavedSince n w)
    (complete : ∀ save ∈ lastSave (w.notes.drop n), save.2 = some save.1) : w.Durable := by
  obtain ⟨-, written, last, file⟩ := saved
  exact .inr (file w.memory.records (complete _ last))

/-- Every call but the start-up ends with a save when it returns 0. -/
theorem Operation.call_saved {op : Operation} (serves : op ≠ .managerInit) (n : Nat) :
    Spec Anyhow (fun w => w.memory.Settled ∧ Since n w) op.call (SavesOnSuccess n) := by
  cases op with
  | managerInit => exact absurd rfl serves
  | create spec =>
    exact .bind ((containerCreate_saved spec).pre fun _ holds => holds.2) fun id => .pure fun _ saved => saved
  | start id => exact startContainerById_saved id true
  | run spec =>
    apply Spec.bind (keep_since (containerCreate_spec spec) n)
    intro created
    cases created with
    | none => exact failed
    | some id =>
      apply Spec.bind (keep_since (startContainerById_spec id false) n)
      intro started
      cases started with
      | false => exact failed
      | true =>
        apply Spec.bind_read_any
        intro found
        cases found with
        | none => exact failed
        | some i => exact (waitForContainerProcess_saved i).pre fun _ holds => holds.2
  | runBackground spec =>
    apply Spec.bind (keep_since (containerCreate_spec spec) n)
    intro created
    cases created with
    | none => exact failed
    | some id => exact startContainerById_saved id true
  | stop id =>
    unfold call containerStop
    dsimp only
    split
    · exact failed
    refine .bind (keep_since pollStates_spec n) fun _ => .bind_read_any fun found => ?_
    cases found with
    | none => exact failed
    | some i => exact (stopContainerProcess_saved i).pre fun _ holds => holds.2
  | delete id => exact containerDelete_saved id

theorem World.run_resting (oracle : Nat → Tick) (procs : Procs) (steps : List Step) :
    ((World.initial oracle procs).run steps).Resting :=
  (World.run_invariant (I := fun _ => True) (fun _ _ _ _ _ => trivial) (fun _ _ => trivial) (fun _ _ => trivial)
    (fun _ _ => trivial) (fun _ _ => trivial) (.inl ⟨rfl, rfl⟩) trivial steps).1

theorem World.Resting.settled {w : World} (resting : w.Resting) : w.memory.Settled := by
  rcases resting with ⟨-, fresh⟩ | ⟨-, settled⟩
  · exact fresh ▸ Memory.fresh_settled
  · exact settled

/-- In every run, whenever a call returns 0 and is sound, the file holds the registry. -/
theorem success_durable (oracle : Nat → Tick) (procs : Procs) (steps : List Step) (op : Operation) :
    let before := op.entered ((World.initial oracle procs).run steps)
    let after := (op.call before).2
    (op.call before).1 = .done true → op.Sound before after → after.Durable := by
  have resting := World.run_resting oracle procs steps
  generalize (World.initial oracle procs).run steps = w at resting
  rintro before after done ⟨complete, read_back⟩
  by_cases serves : op = .managerInit
  · subst serves
    have restored := (containerManagerInit_restored (w.launched.oracle w.launched.clock) w.disk w.launched
      ⟨⟨⟨rfl, rfl, rfl⟩, rfl⟩, rfl⟩).2
    rcases restored true done rfl with saved | ⟨unsaved, read⟩
    · exact saved.durable complete
    · cases file : w.disk with
      | none =>
        rw [file] at read
        exact .inl read
      | some text =>
        rw [file] at read
        obtain ⟨opened, canonical, alive⟩ := read_back rfl unsaved text file
        have stored : after.disk = some text := (read opened).disk
        have listed : after.memory.records = decodeRegistry text := (read opened).records alive
        exact .inr (by rw [stored, listed, canonical])
  · have same : before = w := by
      cases op with
      | managerInit => exact absurd rfl serves
      | _ => rfl
    have ready : before.memory.Settled ∧ Since before.notes.length before := ⟨same ▸ resting.settled, Nat.le_refl _⟩
    exact ((Operation.call_saved serves _ before ready).2 true done rfl).durable complete

/-- A container whose process has outlived the manager is restored as it was. -/
theorem restart_durable :
    let script := [(26, { Tick.calm with cut := true })]
    let spec : ContainerSpec := ⟨some (lit "web"), none, none, some (lit "sleep 9"), .unlimited⟩
    let steps := [.boot, .command (.runbg spec), .command .poll]
    let before := Operation.entered .managerInit ((World.initial (scripted script) fun _ => none).run steps)
    let after := (Operation.call .managerInit before).2
    after.memory.records.map (·.state) = [.RUNNING] ∧ after.Durable := by
  intro script spec steps before after
  refine ⟨by decide +kernel, success_durable _ _ steps .managerInit ?_ ?_⟩
  · decide +kernel
  · decide +kernel

/-- A container's process ends while no manager runs: start-up marks it STOPPED, returns 0 and leaves the
file as it is. -/
theorem reconciled_not_saved :
    let script := [(26, { Tick.calm with cut := true }),
      (27, { Tick.calm with events := [.exits 1 (.exited 0), .vanishes 1] })]
    let spec : ContainerSpec := ⟨some (lit "web"), none, none, some (lit "sleep 9"), .unlimited⟩
    let before := (World.initial (scripted script) fun _ => none).run [.boot, .command (.runbg spec), .command .poll]
    let result := containerManagerInit before.launched
    result.1 = .done true ∧ result.2.memory.records.map (·.state) = [.STOPPED] ∧
      result.2.disk.map (fun file => (decodeRegistry file).map (·.state)) = some [.RUNNING] ∧ ¬ result.2.Durable := by
  decide +kernel

end ContainerRuntime
