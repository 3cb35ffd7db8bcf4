import ContainerRuntime.Logger.Fields
import Mathlib.Data.List.Induction

/-! Replaying `container.log`.

What the catalog should show is read off the events themselves: the name of the
CONTAINER_CREATED record of a container and the pid of its latest
CONTAINER_STARTED record. The catalog agrees with it as long as every event is
`Orderly`, which is a condition on its texts and on the log in front of it.
-/

set_option autoImplicit false

namespace ContainerRuntime.Logger

open CString

/-! ## What the log says -/

/-- The name in the CONTAINER_CREATED record of a container; the latest one if its id was issued again. -/
def createdAs (id : Text) (log : List LogEvent) : Option Text := log.foldl (fun known entry =>
  match entry with
  | .created record => if record.id.text = id then some record.name.text else known
  | _ => known) none

/-- The pid in the latest CONTAINER_STARTED record of a container, if there is one since it was created. -/
def latestStart (id : Text) (log : List LogEvent) : Option Pid := log.foldl (fun known entry =>
  match entry with
  | .created record => if record.id.text = id then none else known
  | .started record _ => if record.id.text = id then some record.pid else known
  | _ => known) none

/-- The entry of a container is there, with its name, and with its pid if it has been started. -/
def Rebuilt (catalog : LogCatalog) (log : List LogEvent) (id : Text) : Prop :=
  ∃ entry, catalogFind catalog id = some entry ∧ createdAs id log = some entry.name.text ∧
    entry.hasPid = (latestStart id log).isSome ∧ ∀ pid, latestStart id log = some pid → entry.pid = pid

/-- The catalog that the records of a log leave, by the loop of `logger_render_history`. -/
def replay (text : Text) : LogCatalog := (renderHistory none 0 text).2

/-! ## The condition -/

section

variable (strerror : Errno → Text)

/-- An event whose record says of its container what the event says, and nothing of any other. -/
def Orderly (log : List LogEvent) : LogEvent → Prop
  | .created record =>
    -- The record has no pid of its own, and the id had none before.
    (∀ text ∈ record.texts, newline ∉ text ∧ ¬ lit "pid=" <:+: text ∧ ¬ lit "(pid" <:+: text) ∧
      latestStart record.id.text log = none ∧
      -- The name is read up to the first of these characters.
      (∀ c ∈ record.name.text, endsField c = false) ∧
      -- A longer line is read in two pieces, and the second is a record as well.
      (((LogEvent.created record).message strerror).length ≤ 968 ∨
        ¬ lit "name=" <:+: record.rootfs.text ∧ ¬ lit "name=" <:+: record.commandLine.text)
  | .started record _ =>
    IsContainerId record.id.text ∧ newline ∉ record.commandLine.text ∧ ¬ lit "name=" <:+: record.commandLine.text
  | .failedToStop id pid | .failedToReap id pid | .stopped id pid => latestStart id log = some pid
  | entry => Quiet (entry.message strerror)

instance (id : Text) : Decidable (IsContainerId id) :=
  decidable_of_iff (idPrefix <+: id ∧ Numeral (id.drop idPrefix.length)) <| by
    constructor
    · rintro ⟨⟨digits, rfl⟩, numeral⟩
      rw [List.drop_left] at numeral
      exact ⟨digits, numeral, rfl⟩
    · rintro ⟨digits, numeral, rfl⟩
      rw [List.drop_left]
      exact ⟨List.prefix_append _ _, numeral⟩

instance (log : List LogEvent) : DecidablePred (Orderly strerror log)
  | .created record =>
    have : Decidable (∀ c ∈ record.name.text, endsField c = false) := List.decidableBAll _ _
    inferInstanceAs (Decidable (_ ∧ _ ∧ (∀ c ∈ record.name.text, endsField c = false) ∧ _))
  | .started _ _ => inferInstanceAs (Decidable (_ ∧ _ ∧ _))
  | .failedToStop id pid | .failedToReap id pid | .stopped id pid => inferInstanceAs (Decidable (latestStart id log = some pid))
  | .saveFailedToOpen | .saveFailedToClose | .saveFailedToRename | .exited _ _ _ | .recovered _ | .restored _ | .startFailed _ _
  | .deleted _ | .schedulerEnabled _ | .schedulerDisabled | .unknownCommand _ => inferInstanceAs (Decidable (Quiet _))

/-- Every event is orderly with respect to the log in front of it. -/
def AllOrderly (front : List LogEvent) : List LogEvent → Prop
  | [] => True
  | entry :: rest => Orderly strerror front entry ∧ AllOrderly (front ++ [entry]) rest

instance decidableAllOrderly : (front log : List LogEvent) → Decidable (AllOrderly strerror front log)
  | _, [] => isTrue trivial
  | front, entry :: rest =>
    have := decidableAllOrderly (front ++ [entry]) rest
    inferInstanceAs (Decidable (_ ∧ _))

/-- What `container_create` guarantees of its message. -/
def Genuine : LogEvent → Prop
  | .created record => IsContainerId record.id.text ∧ record.name.text ≠ []
  | _ => True

end

theorem createdAs_concat (id : Text) (log : List LogEvent) (entry : LogEvent) :
    createdAs id (log ++ [entry]) =
      match entry with
      | .created record => if record.id.text = id then some record.name.text else createdAs id log
      | _ => createdAs id log := by
  rw [createdAs, List.foldl_append]
  rfl

theorem latestStart_concat (id : Text) (log : List LogEvent) (entry : LogEvent) :
    latestStart id (log ++ [entry]) =
      match entry with
      | .created record => if record.id.text = id then none else latestStart id log
      | .started record _ => if record.id.text = id then some record.pid else latestStart id log
      | _ => latestStart id log := by
  rw [latestStart, List.foldl_append]
  rfl

theorem createdAs_of_mem {record : Record} {log : List LogEvent} (member : .created record ∈ log) :
    (createdAs record.id.text log).isSome = true := by
  -- A later record of the same id replaces the name, but there is one.
  induction log using List.reverseRecOn with
  | nil => cases member
  | append_singleton log entry ih =>
    rw [createdAs_concat]
    rcases List.mem_append.mp member with early | last
    · have before := ih early
      split
      · split
        · rfl
        · exact before
      · exact before
    · rw [← List.mem_singleton.mp last]
      simp

/-! ## The loop over the records -/

theorem renderRecords_catalog (catalog : LogCatalog) (index : Nat) (records : List LogRecord) (selected : List Nat) :
    (renderRecords catalog index records selected).2 = records.foldl catalogUpdate catalog := by
  induction records generalizing catalog index selected with
  | nil => rfl
  | cons record rest ih =>
    cases selected with
    | nil => exact ih _ _ _
    | cons next later =>
      unfold renderRecords
      by_cases now : next = index
      · simp only [now, if_true]
        exact ih _ _ _
      · simp only [now, if_false]
        exact ih _ _ _

theorem replay_eq (text : Text) : replay text = readLines [] (linesOf text) := by
  rw [replay, renderHistory]
  exact renderRecords_catalog _ _ _ _

/-! ## The whole log -/

/-- The catalog shows what the log says. -/
structure Agrees (catalog : LogCatalog) (log : List LogEvent) : Prop where
  shown : ∀ id, id ≠ [] → Logger.shown catalog id = ((createdAs id log).getD [], latestStart id log)
  known : ∀ id, (createdAs id log).isSome = true → (catalogFind catalog id).isSome = true
  formed : ∀ id, (latestStart id log).isSome = true → IsContainerId id ∧ id.length < 64

theorem Agrees.empty : Agrees [] [] := ⟨fun _ _ => rfl, nofun, nofun⟩

theorem Agrees.unchanged {before after : LogCatalog} {log : List LogEvent} (agrees : Agrees before log) (same : Unchanged before after) :
    Agrees after log where
  shown id given := (same.shown id given).trans (agrees.shown id given)
  known id named := same.known id (agrees.known id named)
  formed := agrees.formed

/-- An event that says nothing. -/
theorem Agrees.silent {catalog : LogCatalog} {log : List LogEvent} {entry : LogEvent} (agrees : Agrees catalog log)
    (name : ∀ id, createdAs id (log ++ [entry]) = createdAs id log) (pid : ∀ id, latestStart id (log ++ [entry]) = latestStart id log) :
    Agrees catalog (log ++ [entry]) := by
  refine ⟨fun id given => ?_, fun id named => ?_, fun id started => ?_⟩
  · rw [name, pid]
    exact agrees.shown id given
  · rw [name] at named
    exact agrees.known id named
  · rw [pid] at started
    exact agrees.formed id started

section

variable (strerror : Errno → Text) {catalog : LogCatalog} {log : List LogEvent} {line : LogLine}

theorem Agrees.created {record : Record} (agrees : Agrees catalog log) (call : line.call = .manager (.created record))
    (genuine : Genuine (.created record)) (orderly : Orderly strerror log (.created record)) :
    Agrees (readLines catalog (linePieces strerror line)) (log ++ [.created record]) := by
  obtain ⟨formed, given⟩ := genuine
  obtain ⟨texts, unstarted, plain, short⟩ := orderly
  have message : line.call.message strerror = (LogEvent.created record).message strerror := by rw [call]; rfl
  have reads := reads_created strerror formed given plain fun text member => (texts text member).2
  rw [← message] at reads
  obtain ⟨shown, known⟩ := shown_line strerror reads (isContainerId_ne_nil formed) (quiet_behind_created strerror call texts short) catalog
  refine ⟨fun id some => ?_, fun id named => ?_, fun id started => ?_⟩
  · rw [shown id some, createdAs_concat, latestStart_concat, agrees.shown id some]
    by_cases own : record.id.text = id
    · subst own
      simp [unstarted]
    · simp [own]
  · apply known
    rw [createdAs_concat] at named
    by_cases own : record.id.text = id
    · exact Or.inr own
    · simp only [own, if_false] at named
      exact Or.inl (agrees.known id named)
  · rw [latestStart_concat] at started
    by_cases own : record.id.text = id
    · simp [own] at started
    · simp only [own, if_false] at started
      exact agrees.formed id started

theorem Agrees.started {record : Record} {namespacePid : Pid} (agrees : Agrees catalog log)
    (call : line.call = .manager (.started record namespacePid)) (orderly : Orderly strerror log (.started record namespacePid)) :
    Agrees (readLines catalog (linePieces strerror line)) (log ++ [.started record namespacePid]) := by
  obtain ⟨formed, single, unnamed⟩ := orderly
  have message : line.call.message strerror = (LogEvent.started record namespacePid).message strerror := by rw [call]; rfl
  have reads := reads_started strerror formed unnamed namespacePid
  rw [← message] at reads
  obtain ⟨shown, known⟩ := shown_line strerror reads (isContainerId_ne_nil formed) (quiet_behind_started strerror call formed single) catalog
  refine ⟨fun id some => ?_, fun id named => ?_, fun id started => ?_⟩
  · rw [shown id some, createdAs_concat, latestStart_concat, agrees.shown id some]
    by_cases own : record.id.text = id <;> simp [own]
  · rw [createdAs_concat] at named
    exact known id (Or.inl (agrees.known id named))
  · rw [latestStart_concat] at started
    by_cases own : record.id.text = id
    · exact own ▸ ⟨formed, record.id.fits⟩
    · simp only [own, if_false] at started
      exact agrees.formed id started

/-- The reported pid is the one that is known. -/
theorem Agrees.reported {entry : LogEvent} {id : Text} {pid : Pid} (agrees : Agrees catalog log) (call : line.call = .manager entry)
    (reports : entry = .failedToStop id pid ∨ entry = .failedToReap id pid ∨ entry = .stopped id pid)
    (latest : latestStart id log = some pid) : Agrees (readLines catalog (linePieces strerror line)) log := by
  obtain ⟨formed, fits⟩ := agrees.formed id (by simp [latest])
  obtain ⟨front, middle, before, between, spelled⟩ := pidMessage_cases strerror reports
  have message : line.call.message strerror = pidMessage front middle id pid := by rw [call]; exact spelled
  have reads := reads_pidMessage before between formed fits pid
  rw [← message] at reads
  obtain ⟨shown, known⟩ := shown_line strerror reads (isContainerId_ne_nil formed)
    (quiet_behind_pidMessage strerror message before between formed fits) catalog
  refine ⟨fun key some => ?_, fun key named => known key (Or.inl (agrees.known key named)), agrees.formed⟩
  rw [shown key some, agrees.shown key some]
  by_cases own : id = key
  · subst own
    simp [latest]
  · simp [own]

/-- One line of the manager. -/
theorem Agrees.event {entry : LogEvent} (agrees : Agrees catalog log) (call : line.call = .manager entry) (genuine : Genuine entry)
    (orderly : Orderly strerror log entry) : Agrees (readLines catalog (linePieces strerror line)) (log ++ [entry]) := by
  -- Every event but the five below must leave what is shown as it is.
  have quiet : Quiet (entry.message strerror) → Agrees (readLines catalog (linePieces strerror line)) log := by
    intro quiet
    apply agrees.unchanged (unchanged_line strerror line ?_ catalog)
    rw [call]
    exact quiet
  cases entry with
  | created record => exact agrees.created strerror call genuine orderly
  | started record namespacePid => exact agrees.started strerror call orderly
  | failedToStop id pid => exact (agrees.reported strerror call (.inl rfl) orderly).silent (fun _ => createdAs_concat _ _ _) fun _ => latestStart_concat _ _ _
  | failedToReap id pid =>
    exact (agrees.reported strerror call (.inr (.inl rfl)) orderly).silent (fun _ => createdAs_concat _ _ _) fun _ => latestStart_concat _ _ _
  | stopped id pid =>
    exact (agrees.reported strerror call (.inr (.inr rfl)) orderly).silent (fun _ => createdAs_concat _ _ _) fun _ => latestStart_concat _ _ _
  | _ => exact (quiet orderly).silent (fun _ => createdAs_concat _ _ _) fun _ => latestStart_concat _ _ _

/-- The other lines of `main` mention no container. -/
theorem quiet_call {call : LogCall} (other : ∀ entry, call ≠ .manager entry) : Quiet (call.message strerror) := by
  left
  cases call with
  | manager entry => exact absurd rfl (other entry)
  | schedulerUpdated sliceMs =>
    rw [mentions_eq_nil_iff]
    rintro id ⟨digits, -, rfl⟩
    apply not_infix_of_not_mem (c := '-') (by simp [idPrefix, lit])
    have number := not_mem_showLimit sliceMs (c := '-') (by decide)
    simp only [LogCall.message, List.mem_append, number, or_false]
    decide
  | _ =>
    simp only [LogCall.message]
    decide +kernel

end

/-- The catalog that is rebuilt from a file whose events are orderly. -/
theorem agrees_replay (strerror : Errno → Text) (lines : List LogLine) (genuine : ∀ entry ∈ managerLog lines, Genuine entry)
    (orderly : AllOrderly strerror [] (managerLog lines)) : Agrees (replay (logFile strerror lines)) (managerLog lines) := by
  -- By induction on the lines, for every catalog that agrees with the log in front of them.
  have runs : ∀ (lines : List LogLine) (catalog : LogCatalog) (log : List LogEvent), Agrees catalog log →
      (∀ entry ∈ managerLog lines, Genuine entry) → AllOrderly strerror log (managerLog lines) →
      Agrees (lines.foldl (fun catalog line => readLines catalog (linePieces strerror line)) catalog) (log ++ managerLog lines) := by
    intro lines
    induction lines with
    | nil =>
      intro catalog log agrees _ _
      rw [show managerLog [] = [] from rfl, List.append_nil]
      exact agrees
    | cons line rest ih =>
      intro catalog log agrees genuine orderly
      rw [List.foldl_cons]
      by_cases event : ∃ entry, line.call = .manager entry
      · obtain ⟨entry, call⟩ := event
        have grown : managerLog (line :: rest) = entry :: managerLog rest := by simp [managerLog, call]
        rw [grown] at genuine orderly ⊢
        rw [← List.singleton_append, ← List.append_assoc]
        apply ih
        · exact agrees.event strerror call (genuine entry List.mem_cons_self) orderly.1
        · exact fun other member => genuine other (List.mem_cons_of_mem _ member)
        · exact orderly.2
      · have same : managerLog (line :: rest) = managerLog rest := by
          rw [managerLog, List.filterMap_cons]
          cases call : line.call with
          | manager entry => exact absurd ⟨entry, call⟩ event
          | _ => rfl
        rw [same] at genuine orderly ⊢
        apply ih _ _ (agrees.unchanged (unchanged_line strerror line ?_ catalog)) genuine orderly
        exact quiet_call strerror fun entry call => event ⟨entry, call⟩
  rw [replay_eq, readLines_logFile]
  exact runs lines [] [] .empty genuine orderly

/-- What agreement says of a container that has been created. -/
theorem Agrees.rebuilt {catalog : LogCatalog} {log : List LogEvent} (agrees : Agrees catalog log) {id : Text} (given : id ≠ [])
    (created : (createdAs id log).isSome = true) : Rebuilt catalog log id := by
  obtain ⟨entry, found⟩ := Option.isSome_iff_exists.mp (agrees.known id created)
  obtain ⟨name, named⟩ := Option.isSome_iff_exists.mp created
  have shown := agrees.shown id given
  have there : catalog.find? (·.id.text = id) = some entry := by
    rw [catalogFind, if_neg given] at found
    exact found
  rw [Logger.shown, there, named, Option.getD_some, Prod.mk.injEq] at shown
  obtain ⟨same, pid⟩ := shown
  refine ⟨entry, found, by rw [named, same], ?_, fun latest started => ?_⟩
  · rw [← pid, LogCatalogEntry.knownPid]
    cases entry.hasPid <;> rfl
  · rw [started, LogCatalogEntry.knownPid] at pid
    split at pid
    · exact Option.some.inj pid
    · cases pid

end ContainerRuntime.Logger
