import ContainerRuntime.Logger.Replay
import ContainerRuntime.Manager.Ids

/-! The catalog over whole runs of the manager.

The id that `container_create` returns has its CONTAINER_CREATED record in the
log, unless the log could not be opened for it. The rest is a matter of the
log alone.
-/

set_option autoImplicit false

namespace ContainerRuntime

open CString Cli Program
open Prog (read modify forEach)

/-! ## What is in the log -/

/-- The record has been logged, or it is noted that it could not be. -/
def World.Announced (w : World) (id : Text) : Prop :=
  ∃ record : Record, record.id.text = id ∧ (.created record ∈ w.log ∨ .unlogged (.created record) ∈ w.notes)

structure World.Told (w : World) : Prop where
  genuine : ∀ entry ∈ w.log, Logger.Genuine entry
  announced : ∀ issue ∈ w.issues, w.Announced issue.2

/-- Every state on the way has told. -/
def Telling (_ w : World) : Prop := w.Told

/-- The log and the notes have grown; no id has been issued. -/
structure Grown (w w' : World) : Prop where
  log : ∃ more, w'.log = w.log ++ more ∧ ∀ entry ∈ more, Logger.Genuine entry
  notes : ∃ more, w'.notes = w.notes ++ more
  issues : w'.issues = w.issues

section

variable {w w' : World}

theorem World.Announced.grown {id : Text} (announced : w.Announced id) (grown : Grown w w') : w'.Announced id := by
  obtain ⟨record, named, there⟩ := announced
  obtain ⟨entries, log, -⟩ := grown.log
  obtain ⟨others, notes⟩ := grown.notes
  refine ⟨record, named, ?_⟩
  rcases there with logged | missed
  · left
    rw [log]
    exact List.mem_append_left _ logged
  · right
    rw [notes]
    exact List.mem_append_left _ missed

theorem World.Told.grown (told : w.Told) (grown : Grown w w') : w'.Told where
  genuine := by
    obtain ⟨more, log, genuine⟩ := grown.log
    rw [log]
    exact List.forall_mem_append.mpr ⟨told.genuine, genuine⟩
  announced issue member := (told.announced issue (grown.issues ▸ member)).grown grown

/-- Neither the log nor the notes are touched. -/
theorem Grown.of_eq (log : w'.log = w.log) (notes : w'.notes = w.notes) : Grown w w' where
  log := ⟨[], by rw [log, List.append_nil], nofun⟩
  notes := ⟨[], by rw [notes, List.append_nil]⟩
  issues := by rw [World.issues, World.issues, notes]

theorem Aside.grown (aside : Aside w w') : Grown w w' := .of_eq aside.log aside.notes

theorem Grown.noted {note : Note} (log : w'.log = w.log) (notes : w'.notes = w.notes ++ [note])
    (other : ∀ sequence id, note ≠ .issued sequence id) : Grown w w' where
  log := ⟨[], by rw [log, List.append_nil], nofun⟩
  notes := ⟨[note], notes⟩
  issues := by
    have same := World.issues_noted (w := w) other
    rw [World.issues, World.notes_noted] at same
    rw [World.issues, notes, same]

theorem Grown.logged (w : World) {entry : LogEvent} (genuine : Logger.Genuine entry) : Grown w (w.logged entry) where
  log := ⟨[entry], rfl, by simpa using genuine⟩
  notes := ⟨[], (List.append_nil _).symm⟩
  issues := rfl

end

/-- A condition that a growing log keeps. -/
def Lasting (P : World → Prop) : Prop := (∀ w, P w → w.Told) ∧ ∀ w w', Grown w w' → P w → P w'

theorem lasting_told : Lasting World.Told := ⟨fun _ told => told, fun _ _ grown told => told.grown grown⟩

/-- A record that is about to be logged. -/
def World.Announcing (w : World) (record : Record) : Prop := w.Told ∧ Logger.Genuine (.created record)

theorem lasting_announcing (record : Record) : Lasting (·.Announcing record) :=
  ⟨fun _ announcing => announcing.1, fun _ _ grown announcing => ⟨announcing.1.grown grown, announcing.2⟩⟩

namespace Lasting

variable {P : World → Prop} (lasting : Lasting P)
include lasting

theorem step {w w' : World} (grown : Grown w w') (pre : P w) : Telling w w' ∧ P w' :=
  have post := lasting.2 w w' grown pre
  ⟨lasting.1 w' post, post⟩

theorem sided : Sided Telling P := fun _ _ aside => lasting.step aside.grown

theorem modify {f : World → World} (grown : ∀ w, Grown w (f w)) : Spec Telling P (Prog.modify f) fun _ => P :=
  .modify_step fun w => lasting.step (grown w)

theorem remember (f : Memory → Memory) : Spec Telling P (Prog.modify (·.remember f)) fun _ => P :=
  lasting.modify fun _ => .of_eq rfl rfl

theorem missed (w : World) (entry : LogEvent) : P w → Telling w (w.observe (.noted (.unlogged entry))) ∧ P (w.observe (.noted (.unlogged entry))) :=
  lasting.step (.noted rfl (World.notes_noted _ _) nofun)

theorem log {entry : LogEvent} (genuine : Logger.Genuine entry) : Spec Telling P (logEventType entry) fun _ => P :=
  lasting.sided.still.logEventType (fun w => lasting.step (.logged w genuine)) fun w => lasting.missed w entry

theorem save : Spec Telling P saveMetadata fun _ => P := by
  refine saveMetadata_rule (fun w w' filing => ?_)
    (fun w written pre _ => lasting.step (.noted rfl (World.notes_noted _ _) nofun) pre)
    fun w => lasting.step (.noted rfl (World.notes_noted _ _) nofun)
  cases filing with
  | idle _ idle => exact lasting.step idle.aside.grown
  | log entry error =>
    apply lasting.step (.logged w ?_)
    rcases error with rfl | rfl | rfl <;> trivial
  | miss entry => exact lasting.missed w entry

end Lasting

theorem genuine_of_minor {entry : LogEvent} (minor : entry.transition = none) : Logger.Genuine entry := by
  cases entry with
  | created record => cases minor
  | _ => trivial

theorem isContainerId_containerId (sequence : Nat) : Logger.IsContainerId (containerId sequence).text := by
  have parts : (containerId sequence).text = Logger.idPrefix ++ (showPadded sequence).take 53 := by
    rw [containerId, copyString, show lit "container-" = Logger.idPrefix from rfl]
    exact List.take_append
  have numeral := numeral_showPadded sequence
  refine ⟨(showPadded sequence).take 53, ⟨?_, fun c member => numeral.2 c (List.mem_of_mem_take member)⟩, parts⟩
  obtain ⟨first, rest, digits⟩ := List.exists_cons_of_ne_nil numeral.1
  rw [digits]
  simp

theorem genuine_created (spec : ContainerSpec) (sequence : Nat) (resolved : ResolvedPath) :
    Logger.Genuine (.created (createdRecord spec sequence resolved.1)) := by
  refine ⟨isContainerId_containerId sequence, createdRecord_filled spec sequence resolved.2 _ ?_⟩
  simp [Record.texts]

/-! ## The operations -/

theorem created_announced (record : Record) :
    Spec Telling (·.Announcing record) (logEventType (.created record)) fun _ w => w.Told ∧ w.Announced record.id.text := by
  refine (lasting_announcing record).sided.still.logEventType (fun w announcing => ?_) fun w announcing => ?_
  · have told := announcing.1.grown (.logged w announcing.2)
    exact ⟨told, told, record, rfl, Or.inl (List.mem_append_right _ (List.mem_singleton_self _))⟩
  · obtain ⟨told, -⟩ := (lasting_announcing record).missed w (.created record) announcing
    refine ⟨told, told, record, rfl, Or.inr ?_⟩
    rw [World.notes_noted]
    exact List.mem_append_right _ (List.mem_singleton_self _)

theorem issue_told (sequence : Nat) (record : Record) :
    Spec Telling (fun w => w.Told ∧ w.Announced record.id.text) (modify (·.issued sequence record.id.text)) fun _ => World.Told := by
  have issued : ∀ w : World, w.Told ∧ w.Announced record.id.text → (w.issued sequence record.id.text).Told := by
    rintro w ⟨told, announced⟩
    have same : ∀ id, w.Announced id → (w.issued sequence record.id.text).Announced id := by
      rintro id ⟨other, named, logged | missed⟩
      · exact ⟨other, named, Or.inl logged⟩
      · refine ⟨other, named, Or.inr ?_⟩
        rw [World.issued, World.notes_noted]
        exact List.mem_append_left _ missed
    refine ⟨told.genuine, ?_⟩
    rw [World.issues_issued]
    intro issue member
    rcases List.mem_append.mp member with early | last
    · exact same _ (told.announced issue early)
    · rw [List.mem_singleton.mp last]
      exact same _ announced
  exact .modify (fun w holds => issued w holds) issued

/-- The log, as the operations of the manager keep it. -/
def catalogUpkeep : Upkeep Telling where
  rest := World.Told
  adopted _ _ := World.Told
  filed _ _ := World.Told
  foreground _ _ := World.Told
  enrolled _ record w := w.Announcing record
  listed _ record w := w.Announcing record
  chronicled _ record w := w.Told ∧ w.Announced record.id.text
  detached _ := World.Told
  removed _ := World.Told
  sided := lasting_told.sided
  sided_foreground _ _ := lasting_told.sided
  at_rest _ _ _ told := told
  save := lasting_told.save
  remark _ minor := lasting_told.log (genuine_of_minor minor)
  target pid := .pre (lasting_told.sided.bind_tick fun now => lasting_told.modify fun w => .of_eq rfl rfl) fun _ holds => holds.1
  reaped i c status _ := .pre (.bind (lasting_told.remember _) fun _ => .bind (lasting_told.sided.onStopped c.pid) fun _ =>
    .bind (lasting_told.log trivial) fun _ => .pure fun _ told => told) fun _ holds => holds.1
  recovered i c _ := .pre (.bind (lasting_told.modify fun w => .noted rfl (World.notes_noted _ _) nofun) fun _ =>
    .bind (lasting_told.remember _) fun _ => .bind (lasting_told.log trivial) fun _ => .pure fun _ told => told) fun _ holds => holds.1
  marked i c _ := .pre (.bind (lasting_told.log trivial) fun _ => .bind (lasting_told.sided.onStopped c.pid) fun _ =>
    .bind (lasting_told.remember _) fun _ => .bind lasting_told.save fun _ => .pure fun _ told => told) fun _ holds => holds.1
  finished i c moved status _ := .pre (.bind (lasting_told.sided.restoreTerminal moved 0) fun _ =>
    .bind (lasting_told.log trivial) fun _ => .bind (lasting_told.remember _) fun _ => lasting_told.save) fun _ holds => holds.1
  begun _ _ _ := .pre (lasting_told.remember _) fun _ holds => holds.1
  aborted _ _ _ := .pre (lasting_told.remember _) fun _ holds => holds.1
  adopt _ _ _ _ _ := .pre (lasting_told.remember _) fun _ holds => holds.1
  adopted_save _ _ := lasting_told.save.post fun saved _ told => by cases saved <;> exact told
  started _ _ _ := lasting_told.log trivial
  draw := lasting_told.remember _
  abandon := lasting_told.remember _
  enroll spec sequence resolved := .modify
    (fun w holds => holds.1.grown (.of_eq rfl (World.notes_observe nofun)))
    fun w holds => ⟨holds.1.grown (.of_eq rfl (World.notes_observe nofun)), genuine_created spec sequence resolved⟩
  enrolled_save _ record := (lasting_announcing record).save.post fun saved _ announcing => by cases saved <;> exact announcing
  created _ record := created_announced record
  issue := issue_told
  unenroll _ record := ((lasting_announcing record).remember _).post fun _ _ announcing => announcing.1
  detach _ _ _ := .pre (lasting_told.remember _) fun _ holds => holds.1
  detached_save _ := lasting_told.save.post fun saved _ told => by cases saved <;> exact told
  deleted _ := lasting_told.log trivial
  discard _ := lasting_told.remember _
  reattach _ _ := lasting_told.remember _

/-! ## Runs -/

theorem restoreRecords_told (records : List Record) : Spec Telling World.Told (restoreRecords records) fun _ => World.Told := by
  induction records with
  | nil => exact .pure fun _ told => told
  | cons record rest ih =>
    have appended : Spec Telling World.Told (do modify (·.restored record rest); restoreRecords rest) fun _ => World.Told :=
      .bind (lasting_told.modify fun w => .noted rfl (World.notes_noted _ _) nofun) fun _ => ih
    apply lasting_told.sided.bind_tick
    intro allocated
    split
    · exact .pure fun _ told => told
    simp only
    split
    · exact lasting_told.sided.bind_tick fun _ => appended
    · exact appended

theorem containerManagerInit_told : Spec Telling World.Told containerManagerInit fun _ => World.Told := by
  refine lasting_told.sided.bind_tick fun opened => .bind_read_any fun disk => ?_
  cases disk with
  | none => exact .pure fun _ told => told
  | some file =>
    simp only
    split
    · exact .pure fun _ told => told
    refine .bind (lasting_told.remember _) fun _ => .bind (restoreRecords_told _) fun done => ?_
    split
    · apply Spec.bind catalogUpkeep.pollStates
      intro _
      split
      · exact .bind (lasting_told.log trivial) fun _ => .pure fun _ told => told
      · exact .pure fun _ told => told
    · exact .pure fun _ told => told

theorem told_of_chain {w w' : World} (chain : Relation.ReflTransGen Telling w w') (told : w.Told) : w'.Told := by
  have closed : ∀ v v', Telling v v' → v.Told → v'.Told := fun _ _ step _ => step
  exact closed_of_chain closed chain told

theorem World.Told.crash {w : World} (told : w.Told) : w.crash.Told :=
  told.grown (.noted rfl (World.notes_noted _ _) nofun)

theorem World.Told.step {w : World} (told : w.Told) (step : Step) : (w.step step).Told := by
  -- A manager that is cut in the middle of an operation has told as well: every state on the way has.
  have init : ∀ {outcome v}, containerManagerInit w.launched = (outcome, v) → v.Told := by
    intro outcome v result
    have launched : w.launched.Told := told.grown (.of_eq rfl rfl)
    have after := told_of_chain (containerManagerInit_told w.launched launched).1 launched
    rwa [result] at after
  have command : ∀ {command : Command} {outcome v}, command.program w = (outcome, v) → v.Told := by
    intro command outcome v result
    have after := told_of_chain (catalogUpkeep.command command w told).1 told
    rwa [result] at after
  apply World.step_rule step told
  case booted => exact fun _ _ v result => (init result).grown (.of_eq rfl rfl)
  case failed => exact fun _ _ _ v result => (init result).crash
  case served => exact fun _ _ _ v result => command result
  case cut => exact fun _ _ v result => (command result).crash
  case exited =>
    intro _
    have freed : ∀ v : World, v.Told → Telling v v.freed ∧ v.freed.Told := fun v => lasting_told.step (.of_eq rfl rfl)
    exact (told_of_chain (catalogUpkeep.cleanupAllContainers lasting_told.sided freed w told).1 told).crash

/-! ## The catalog -/

/-- The catalog that is rebuilt from the file has every container that was created, with its name and its latest pid. -/
def Reconstructed (strerror : Errno → Text) (w : World) (lines : List Logger.LogLine) : Prop :=
  ∀ issue ∈ w.issues, Logger.Rebuilt (Logger.replay (Logger.logFile strerror lines)) w.log issue.2

/-- In every run in which the record of each creation could be written and every message is orderly, the catalog that is
rebuilt from the log, with the other lines of `main` anywhere in it, is right about every container. -/
theorem catalog_rebuilt (strerror : Errno → Text) (oracle : Nat → Tick) (procs : Procs) (steps : List Step)
    (lines : List Logger.LogLine) (written : Logger.managerLog lines = ((World.initial oracle procs).run steps).log)
    (logged : ∀ record, .unlogged (.created record) ∉ ((World.initial oracle procs).run steps).notes)
    (orderly : Logger.AllOrderly strerror [] ((World.initial oracle procs).run steps).log) :
    Reconstructed strerror ((World.initial oracle procs).run steps) lines := by
  -- What the run guarantees of the log; the rest is about the log alone.
  have initial : (World.initial oracle procs).Told := ⟨nofun, nofun⟩
  have told := World.run_rule (fun _ told => told.step) initial steps
  have agrees := Logger.agrees_replay strerror lines (written ▸ told.genuine) (written ▸ orderly)
  rw [written] at agrees
  intro issue member
  obtain ⟨record, named, there⟩ := told.announced issue member
  have created := there.resolve_right (logged record)
  rw [← named]
  obtain ⟨formed, -⟩ := told.genuine _ created
  exact agrees.rebuilt (Logger.isContainerId_ne_nil formed) (Logger.createdAs_of_mem created)

/-- A log in which every line has the same stamp, behind the line that `main` begins with. -/
def stampedLog (log : List LogEvent) : List Logger.LogLine :=
  let stamp : Logger.Stamp := ⟨lit "2024-05-01 10:00:00", by decide⟩
  ⟨stamp, .simulatorStarted⟩ :: log.map fun entry => ⟨stamp, .manager entry⟩

theorem managerLog_stampedLog (log : List LogEvent) : Logger.managerLog (stampedLog log) = log := by
  rw [stampedLog, Logger.managerLog, List.filterMap_cons, List.filterMap_map]
  exact List.filterMap_some

/-- A container is started and stopped, a second one is only created, and a command is mistyped. -/
theorem catalog_rebuilt_two :
    let spec : ContainerSpec := ⟨some (lit "web"), none, none, some (lit "sleep 9"), .unlimited⟩
    let steps := [.boot, .command (.runbg spec), .command (.stop (lit "container-0001")), .command (.create spec),
      .command (.unknown (lit "strat container-0002"))]
    let after := (World.initial (fun _ => Tick.calm) fun _ => none).run steps
    after.issues.map Prod.snd = [lit "container-0001", lit "container-0002"] ∧
      after.log.map LogEvent.eventType = [lit "CONTAINER_CREATED", lit "CONTAINER_STARTED", lit "CONTAINER_STOPPED",
        lit "CONTAINER_CREATED", lit "ERROR"] ∧
      Reconstructed (fun _ => lit "Input/output error") after (stampedLog after.log) := by
  intro spec steps after
  refine ⟨by decide +kernel, by decide +kernel, catalog_rebuilt _ _ _ steps _ (managerLog_stampedLog _) ?_ ?_⟩
  · have quiet : after.notes.all (fun
      | .unlogged _ => false
      | _ => true) = true := by decide +kernel
    intro record missed
    exact absurd (List.all_eq_true.mp quiet _ missed) Bool.false_ne_true
  · decide +kernel

/-- A name with a blank, which a quoted argument can have, is cut. -/
theorem blank_name_cut :
    let spec : ContainerSpec := ⟨some (lit "web one"), none, none, none, .unlimited⟩
    let after := (World.initial (fun _ => Tick.calm) fun _ => none).run [.boot, .command (.create spec)]
    ¬ Reconstructed (fun _ => lit "Input/output error") after (stampedLog after.log) := by
  intro spec after rebuilt
  obtain ⟨entry, found, named, -⟩ := rebuilt (1, lit "container-0001") (by decide +kernel)
  have cut : (Logger.catalogFind (Logger.replay (Logger.logFile (fun _ => lit "Input/output error") (stampedLog after.log)))
      (lit "container-0001")).map (·.name.text) = some (lit "web") := by decide +kernel
  have given : Logger.createdAs (lit "container-0001") after.log = some (lit "web one") := by decide +kernel
  rw [found, Option.map_some, ← named, given] at cut
  exact absurd cut (by decide)

end ContainerRuntime
