import ContainerRuntime.Logger.Lines

/-! The catalog that `logs` rebuilds from `container.log`.

A record changes the entry of the first id in its message: the value behind the
first `name=` becomes the name and the number behind `pid=` or `(pid ` the pid.
A text without an id, or without these keys, changes no name and no pid.
-/

set_option autoImplicit false

namespace ContainerRuntime.Logger

open CString

/-! ## What the catalog shows -/

def LogCatalogEntry.knownPid (entry : LogCatalogEntry) : Option Pid := if entry.hasPid then some entry.pid else none

/-- The name and the pid of a container, as far as they are known. -/
def shown (catalog : LogCatalog) (id : Text) : Text × Option Pid :=
  match catalog.find? (·.id.text = id) with
  | some entry => (entry.name.text, entry.knownPid)
  | none => ([], none)

theorem find_catalogModify {id : Buffer 64} {change : LogCatalogEntry → LogCatalogEntry} (same : ∀ entry, (change entry).id = entry.id)
    (catalog : LogCatalog) (key : Text) :
    (catalogModify id change catalog).find? (·.id.text = key) =
      if id.text = key then some (change ((catalog.find? (·.id.text = key)).getD (.fresh id))) else catalog.find? (·.id.text = key) := by
  -- Both the change and the search stop at the first entry of the id.
  induction catalog with
  | nil =>
    have fresh : (change (.fresh id)).id = id := same _
    by_cases here : id.text = key <;> simp [catalogModify, fresh, here]
  | cons entry rest ih =>
    unfold catalogModify
    by_cases own : entry.id = id
    · by_cases here : id.text = key <;> simp [own, same, here]
    · have other : entry.id.text ≠ id.text := fun texts => own (Buffer.ext texts)
      rw [if_neg own]
      by_cases here : entry.id.text = key
      · have elsewhere : id.text ≠ key := fun there => other (here.trans there.symm)
        simp [here, elsewhere]
      · simp [here, ih]

section

variable (record : LogRecord) (entry : LogCatalogEntry)

/-- What `logger_catalog_update` stores, apart from the status. -/
theorem update_fields : (entry.update record).id = entry.id ∧
    (entry.update record).name = (extractFieldText record.message.text (lit "name=")).getD entry.name ∧
    (entry.update record).knownPid = (extractPidFromMessage record.message.text).or entry.knownPid := by
  unfold LogCatalogEntry.update
  generalize inferRecordStatus record.event.text record.containerId.text = status
  generalize extractFieldText record.message.text (lit "name=") = name
  generalize extractPidFromMessage record.message.text = pid
  by_cases plain : status ≠ lit "-" <;> cases name <;> cases pid <;> simp [plain, LogCatalogEntry.knownPid]

end

/-- What a record changes of what is shown. -/
theorem shown_catalogUpdate (catalog : LogCatalog) (record : LogRecord) (key : Text) (given : key ≠ []) :
    shown (catalogUpdate catalog record) key =
      if record.containerId.text = key then
        (((extractFieldText record.message.text (lit "name=")).map Buffer.text).getD (shown catalog key).1,
          (extractPidFromMessage record.message.text).or (shown catalog key).2)
      else shown catalog key := by
  unfold catalogUpdate
  by_cases none : record.containerId.text = []
  · have elsewhere : record.containerId.text ≠ key := fun here => given (here.symm.trans none)
    rw [if_pos none, if_neg elsewhere]
  · rw [if_neg none]
    unfold shown
    rw [find_catalogModify fun entry => (update_fields record entry).1]
    by_cases here : record.containerId.text = key
    · have stored := fun entry => (update_fields record entry).2
      rw [if_pos here, if_pos here]
      cases catalog.find? (·.id.text = key) with
      | none =>
        simp only [Option.getD_none, stored]
        cases extractFieldText record.message.text (lit "name=") <;> rfl
      | some entry =>
        simp only [Option.getD_some, stored]
        cases extractFieldText record.message.text (lit "name=") <;> rfl
    · rw [if_neg here, if_neg here]

/-- An entry stays in the catalog. -/
theorem catalogFind_catalogUpdate {catalog : LogCatalog} {key : Text} (record : LogRecord)
    (known : (catalogFind catalog key).isSome = true ∨ record.containerId.text = key ∧ key ≠ []) :
    (catalogFind (catalogUpdate catalog record) key).isSome = true := by
  have given : key ≠ [] := by
    rcases known with there | ⟨-, given⟩
    · rintro rfl
      simp [catalogFind] at there
    · exact given
  simp only [catalogFind, given, if_false] at known ⊢
  unfold catalogUpdate
  by_cases none : record.containerId.text = []
  · rcases known with there | ⟨here, -⟩
    · rwa [if_pos none]
    · exact absurd (here.symm.trans none) given
  · rw [if_neg none, find_catalogModify fun entry => (update_fields record entry).1]
    by_cases here : record.containerId.text = key
    · simp [here]
    · rw [if_neg here]
      exact known.resolve_right fun there => here there.1

/-! ## Texts that change nothing -/

/-- Neither a name nor a pid is found in it. -/
structure Keyless (text : Text) : Prop where
  name : ¬ lit "name=" <:+: text
  pid : ¬ lit "pid=" <:+: text
  parenthesis : ¬ lit "(pid" <:+: text

instance (text : Text) : Decidable (Keyless text) :=
  decidable_of_iff (strstr (lit "name=") text = none ∧ strstr (lit "pid=") text = none ∧ strstr (lit "(pid") text = none) <| by
    simp only [strstr_eq_none_iff]
    exact ⟨fun ⟨name, pid, parenthesis⟩ => ⟨name, pid, parenthesis⟩, fun keyless => ⟨keyless.name, keyless.pid, keyless.parenthesis⟩⟩

/-- It mentions no container, or has none of the keys. -/
def Quiet (text : Text) : Prop := mentions text = [] ∨ Keyless text

instance : DecidablePred Quiet := fun _ => inferInstanceAs (Decidable (_ ∨ _))

theorem Keyless.part {part text : Text} (keyless : Keyless text) (inside : part <:+: text) : Keyless part where
  name here := keyless.name (here.trans inside)
  pid here := keyless.pid (here.trans inside)
  parenthesis here := keyless.parenthesis (here.trans inside)

theorem Quiet.part {part text : Text} (quiet : Quiet text) (inside : part <:+: text) : Quiet part := by
  rcases quiet with none | keyless
  · left
    rw [mentions_eq_nil_iff] at none ⊢
    exact fun id formed here => none id formed (here.trans inside)
  · exact Or.inr (keyless.part inside)

theorem extractFieldText_of_absent {text key : Text} (absent : ¬ key <:+: text) : extractFieldText text key = none := by
  rw [extractFieldText, strstr_eq_none_iff.mpr absent]

theorem extractIntAfterKey_of_absent {text key : Text} (absent : ¬ key <:+: text) : extractIntAfterKey text key = none := by
  rw [extractIntAfterKey, strstr_eq_none_iff.mpr absent]

theorem extractPidFromMessage_of_absent {text : Text} (pid : ¬ lit "pid=" <:+: text) (parenthesis : ¬ lit "(pid" <:+: text) :
    extractPidFromMessage text = none := by
  have longer : ¬ lit "(pid " <:+: text := fun here => parenthesis (List.IsInfix.trans ⟨[], [' '], rfl⟩ here)
  rw [extractPidFromMessage, extractIntAfterKey_of_absent pid, extractIntAfterKey_of_absent longer]

/-- The catalog after these lines. -/
def readLines (catalog : LogCatalog) (lines : List Text) : LogCatalog :=
  (lines.map fun line => parseLogLine line (lineMatchesContainer line none)).foldl catalogUpdate catalog

theorem readLines_cons (catalog : LogCatalog) (line : Text) (rest : List Text) :
    readLines catalog (line :: rest) =
      readLines (catalogUpdate catalog (parseLogLine line (lineMatchesContainer line none))) rest := rfl

theorem readLines_append (catalog : LogCatalog) (front back : List Text) :
    readLines catalog (front ++ back) = readLines (readLines catalog front) back := by
  rw [readLines, List.map_append, List.foldl_append]
  rfl

/-- Nothing that is shown changes, and no entry is lost. -/
structure Unchanged (before after : LogCatalog) : Prop where
  shown : ∀ id, id ≠ [] → Logger.shown after id = Logger.shown before id
  known : ∀ id, (catalogFind before id).isSome = true → (catalogFind after id).isSome = true

theorem Unchanged.refl (catalog : LogCatalog) : Unchanged catalog catalog := ⟨fun _ _ => rfl, fun _ known => known⟩

theorem Unchanged.trans {first second third : LogCatalog} (early : Unchanged first second) (late : Unchanged second third) :
    Unchanged first third :=
  ⟨fun id given => (late.shown id given).trans (early.shown id given), fun id known => late.known id (early.known id known)⟩

theorem unchanged_record {line : Text} (quiet : Quiet line) (catalog : LogCatalog) (flag : Bool) :
    Unchanged catalog (catalogUpdate catalog (parseLogLine line flag)) := by
  obtain ⟨-, message, field, inside⟩ := parseLogLine_parts line flag
  refine ⟨?_, fun id known => catalogFind_catalogUpdate _ (Or.inl known)⟩
  intro id given
  rw [shown_catalogUpdate _ _ _ given, message, field]
  rcases quiet.part inside with none | keyless
  · have absent : (extractContainerId (messageOf line)).text = [] := by
      rw [extractContainerId_eq, none]
      rfl
    rw [absent, if_neg given.symm]
  · rw [extractFieldText_of_absent keyless.name, extractPidFromMessage_of_absent keyless.pid keyless.parenthesis]
    simp

/-- A quiet text, in whatever pieces it is read. -/
theorem unchanged_text {text : Text} (quiet : Quiet text) (catalog : LogCatalog) :
    Unchanged catalog (readLines catalog (linesOf text)) := by
  -- Every line is a part of the text, so it is quiet as well.
  have parts : ∀ (lines : List Text) (catalog : LogCatalog), (∀ line ∈ lines, line <:+: text) →
      Unchanged catalog (readLines catalog lines) := by
    intro lines
    induction lines with
    | nil => exact fun catalog _ => .refl catalog
    | cons line rest ih =>
      intro catalog inside
      rw [readLines_cons]
      have first := unchanged_record (quiet.part (inside line List.mem_cons_self)) catalog (lineMatchesContainer line none)
      exact first.trans (ih _ fun other member => inside other (List.mem_cons_of_mem _ member))
  apply parts
  intro line member
  obtain ⟨piece, read, rfl⟩ := List.mem_map.mp member
  exact (cstringAt_begins piece).isInfix.trans (infix_of_mem_fgetsAll read)

/-! ## The fields of a message -/

/-- No id begins in a text without its first letter. -/
theorem mentions_skip {front rest : Text} (apart : 'c' ∉ front) : mentions (front ++ rest) = mentions rest := by
  induction front with
  | nil => rfl
  | cons d front ih =>
    simp only [List.mem_cons, not_or] at apart
    have elsewhere : idPrefix.isPrefixOf (d :: (front ++ rest)) = false := by
      rw [Bool.eq_false_iff]
      intro here
      exact apart.1 (List.cons_prefix_cons.mp (List.isPrefixOf_iff_prefix.mp here)).1
    rw [List.cons_append, mentions, mentionAt_eq_none elsewhere, ih apart.2]
    rfl

/-- The id of a record whose message has it in front. -/
theorem extractContainerId_front {front id rest : Text} {c : Char} (apart : 'c' ∉ front) (formed : IsContainerId id)
    (fits : id.length < 64) (other : c.isDigit = false) : (extractContainerId (front ++ (id ++ c :: rest))).text = id := by
  obtain ⟨digits, numeral, rfl⟩ := formed
  have all : leadingDigits (digits ++ c :: rest) = digits := leadingDigits_append numeral.2 other
  have begins : idPrefix.isPrefixOf (idPrefix ++ (digits ++ c :: rest)) = true := by simp
  have first : mentionAt (idPrefix ++ (digits ++ c :: rest)) = some (idPrefix ++ digits) := by
    simp only [mentionAt, begins, List.drop_left, all, true_and, ne_eq, numeral.1, not_false_eq_true, if_true]
  rw [extractContainerId_eq, mentions_skip apart, List.append_assoc, mentions_idPrefix, first]
  exact snprintf_of_fits fits

/-- A key with an equals sign is not found in the id. -/
theorem strstr_behind {c : Char} {key id rest : Text} (keyed : '=' ∈ c :: key) (blank : ' ' ∉ c :: key) (formed : '=' ∉ id) :
    strstr (c :: key) (id ++ ' ' :: (c :: key ++ rest)) = some (c :: key ++ rest) := by
  have absent : strstr (c :: key) id = none := strstr_eq_none_iff.mpr (not_infix_of_not_mem keyed formed)
  rw [strstr_append_cons blank (List.cons_ne_nil _ _), absent]
  exact strstr_self

/-- The name in a message that begins with the id. -/
theorem extractFieldText_name {id rest : Text} (name : Buffer 64) (formed : '=' ∉ id) (given : name.text ≠ [])
    (plain : ∀ c ∈ name.text, endsField c = false) :
    extractFieldText (id ++ ' ' :: (lit "name=" ++ (name.text ++ ' ' :: rest))) (lit "name=") = some name := by
  have found : strstr (lit "name=") (id ++ ' ' :: (lit "name=" ++ (name.text ++ ' ' :: rest))) =
      some (lit "name=" ++ (name.text ++ ' ' :: rest)) := strstr_behind (by decide) (by decide) formed
  have value : (name.text ++ ' ' :: rest).takeWhile (!endsField ·) = name.text := by
    rw [List.takeWhile_append_of_pos (by simpa using plain), List.takeWhile_cons_of_neg (by decide), List.append_nil]
  simp only [extractFieldText, found, List.drop_left, value, given, if_false, copyString_text]

/-- The pid behind a key that is found. -/
theorem extractIntAfterKey_pid {text key rest : Text} {c : Char} (pid : Pid) (other : c.isDigit = false)
    (found : strstr key text = some (key ++ (showPid pid ++ c :: rest))) : extractIntAfterKey text key = some pid := by
  have numeral := numeral_showUnsigned pid.toInt.natAbs
  obtain ⟨first, more, digits⟩ := List.exists_cons_of_ne_nil numeral.1
  have digit := numeral.2 first (by simp [digits])
  have read : readPid (showPid pid ++ c :: rest) = pid := readPid_showPid_append pid other
  -- The number begins with its sign or its first digit: no blank is skipped, and there is a digit to read.
  have shape : ∃ d tail, showPid pid ++ c :: rest = d :: tail ∧ d ≠ ' ' ∧ (d = '-' ∨ d.isDigit = true) ∧
      leadingDigits (takeSign (d :: tail)).2 ≠ [] := by
    rcases showInt_cases pid.toInt with printed | printed
    · refine ⟨first, more ++ c :: rest, ?_, ?_, Or.inr digit, ?_⟩
      · rw [showPid, printed, digits, List.cons_append]
      · rintro rfl
        exact absurd digit (by decide)
      · rw [takeSign_of_isDigit digit]
        simp [leadingDigits, digit]
    · refine ⟨'-', showUnsigned pid.toInt.natAbs ++ c :: rest, ?_, by decide, Or.inl rfl, ?_⟩
      · rw [showPid, printed, List.cons_append]
      · simp [takeSign, digits, leadingDigits, digit]
  obtain ⟨d, tail, parts, visible, starts, some⟩ := shape
  rw [parts] at found read
  have signed : ¬ (d ≠ '-' ∧ d.isDigit = false) := by
    rintro ⟨dash, none⟩
    rcases starts with same | digit
    · exact dash same
    · rw [digit] at none
      cases none
  simp only [extractIntAfterKey, found, List.drop_left, List.dropWhile_cons, visible, decide_false, Bool.false_eq_true, if_false,
    signed, some, read]

end ContainerRuntime.Logger
