import ContainerRuntime.Logger.Catalog

/-! How the messages of the manager are read back.

A line is read in pieces of at most 1023 characters. The record of the first
piece has the id that the message is about, and the name or the pid that its
format puts behind a key, unless one of the texts in it has a key as well.
-/

set_option autoImplicit false

namespace ContainerRuntime.Logger

open CString

/-! ## One line -/

section

variable (strerror : Errno → Text)

/-- Nothing in the front of a line counts, nor its end. -/
theorem quiet_line (line : LogLine) (quiet : Quiet (line.call.message strerror)) : Quiet (line.text strerror ++ [newline]) := by
  -- No needle begins in the front of a line, and none has a newline.
  have within : ∀ {c : Char} {needle : Text}, c ∉ line.front → newline ∉ c :: needle →
      c :: needle <:+: line.text strerror ++ [newline] → c :: needle <:+: line.call.message strerror := by
    intro c needle apart single here
    rw [LogLine.text, List.append_assoc] at here
    exact infix_concat single (List.cons_ne_nil _ _) (infix_skip apart here)
  rcases quiet with none | keyless
  · left
    rw [mentions_eq_nil_iff] at none ⊢
    rintro id ⟨digits, numeral, rfl⟩ here
    apply none _ ⟨digits, numeral, rfl⟩
    have single : newline ∉ idPrefix ++ digits := by
      rw [List.mem_append, not_or]
      refine ⟨by decide, fun inside => ?_⟩
      exact absurd (numeral.2 _ inside) (by decide)
    rw [idPrefix_append] at here single ⊢
    exact within (not_mem_front line (by decide)) single here
  · right
    refine ⟨fun here => keyless.name ?_, fun here => keyless.pid ?_, fun here => keyless.parenthesis ?_⟩
    · exact within (not_mem_front line (by decide)) (by decide) here
    · exact within (not_mem_front line (by decide)) (by decide) here
    · exact within (not_mem_front line (by decide)) (by decide) here

/-- A line as it is read, which may be in several pieces. -/
def linePieces (line : LogLine) : List Text := linesOf (line.text strerror ++ [newline])

theorem linePieces_eq (line : LogLine) :
    linePieces strerror line = cstringAt (fgets (bufferSize - 1) (line.text strerror ++ [newline])).1 0 ::
      linesOf (fgets (bufferSize - 1) (line.text strerror ++ [newline])).2 := by
  have pieces : fgetsAll bufferSize (line.text strerror ++ [newline]) = (fgets (bufferSize - 1) (line.text strerror ++ [newline])).1 ::
      fgetsAll bufferSize (fgets (bufferSize - 1) (line.text strerror ++ [newline])).2 := by
    rw [show bufferSize = 1022 + 2 from rfl]
    exact fgetsAll_next (by simp) rfl
  rw [linePieces, linesOf, pieces]
  rfl

/-- A file is read line by line. -/
theorem readLines_logFile (catalog : LogCatalog) (lines : List LogLine) :
    readLines catalog (linesOf (logFile strerror lines)) =
      lines.foldl (fun catalog line => readLines catalog (linePieces strerror line)) catalog := by
  induction lines generalizing catalog with
  | nil => rfl
  | cons line rest ih =>
    have parts : linesOf (logFile strerror (line :: rest)) = linePieces strerror line ++ linesOf (logFile strerror rest) := by
      rw [logFile, List.flatMap_cons, List.append_assoc, List.singleton_append, linePieces, linesOf, linesOf, linesOf, ← List.map_append,
        show bufferSize = 1022 + 2 from rfl]
      exact congrArg _ (fgetsAll_ended _ _)
    rw [parts, readLines_append, ih]
    rfl

/-- A line whose message is quiet. -/
theorem unchanged_line (line : LogLine) (quiet : Quiet (line.call.message strerror)) (catalog : LogCatalog) :
    Unchanged catalog (readLines catalog (linePieces strerror line)) :=
  unchanged_text (quiet_line strerror line quiet) catalog

/-- What is read of a message: up to its first NUL, and what fits of it. -/
def readMessage (message : Text) : Text := keptMessage (cstringAt message 0)

/-- What is found in it, where nothing comes behind the first piece. -/
structure Reads (message id : Text) (name : Option (Buffer 64)) (pid : Option Pid) : Prop where
  id : (extractContainerId (readMessage message)).text = id
  name : extractFieldText (readMessage message) (lit "name=") = name
  pid : extractPidFromMessage (readMessage message) = pid

theorem shown_line {line : LogLine} {id : Text} {name : Option (Buffer 64)} {pid : Option Pid}
    (reads : Reads (line.call.message strerror) id name pid) (given : id ≠ [])
    (rest : Quiet (fgets (bufferSize - 1) (line.text strerror ++ [newline])).2) (catalog : LogCatalog) :
    (∀ key, key ≠ [] → shown (readLines catalog (linePieces strerror line)) key =
      if id = key then ((name.map Buffer.text).getD (shown catalog key).1, pid.or (shown catalog key).2) else shown catalog key) ∧
    (∀ key, (catalogFind catalog key).isSome = true ∨ id = key →
      (catalogFind (readLines catalog (linePieces strerror line)) key).isSome = true) := by
  rw [linePieces_eq, readLines_cons]
  generalize piece : cstringAt (fgets (bufferSize - 1) (line.text strerror ++ [newline])).1 0 = first
  have message : messageOf first = readMessage (line.call.message strerror) := piece ▸ messageOf_first_line strerror line
  obtain ⟨-, text, field, -⟩ := parseLogLine_parts first (lineMatchesContainer first none)
  have later := unchanged_text rest
    (catalogUpdate catalog (parseLogLine first (lineMatchesContainer first none)))
  rw [message] at text field
  constructor
  · intro key some
    rw [later.shown key some, shown_catalogUpdate _ _ _ some, field, text, reads.id, reads.name, reads.pid]
  · intro key known
    apply later.known
    apply catalogFind_catalogUpdate
    rw [field, reads.id]
    exact known.imp_right fun same => ⟨same, same ▸ given⟩

end

/-! ## The messages -/

/-- What ends a line or a buffer is in no id, in no number and in no value of a field. -/
theorem lineEnd_apart : ∀ c ∈ [carriageReturn, newline, nul], c ∉ idPrefix ∧ c.isDigit = false ∧ c ≠ '-' ∧ endsField c = true := by
  simp only [List.forall_mem_cons, List.not_mem_nil, false_implies, implies_true, and_true]
  decide

theorem readMessage_begins (message : Text) : readMessage message <+: message :=
  ((List.take_prefix _ _).trans (List.takeWhile_prefix _)).trans (cstringAt_begins message)

/-- The front of a message is kept if it is short and has no line end. -/
theorem keptMessage_front {front : Text} (clean : carriageReturn ∉ front ∧ newline ∉ front) (short : front.length ≤ 767) (back : Text) :
    ∃ tail, keptMessage (front ++ back) = front ++ tail := by
  have kept : ∀ c ∈ front, c ∉ [carriageReturn, newline] := by
    intro c member rejected
    simp only [List.mem_cons, List.not_mem_nil, or_false] at rejected
    rcases rejected with rfl | rfl
    · exact clean.1 member
    · exact clean.2 member
  rw [keptMessage, trimNewline, cutAt_front kept, snprintf, List.take_append, List.take_of_length_le (by omega)]
  exact ⟨_, rfl⟩

/-- It is read if it has no NUL either. -/
theorem readMessage_front {front : Text} (clean : ∀ c ∈ [carriageReturn, newline, nul], c ∉ front) (short : front.length ≤ 767)
    (back : Text) : ∃ tail, readMessage (front ++ back) = front ++ tail := by
  simp only [List.forall_mem_cons, List.not_mem_nil, false_implies, implies_true, and_true] at clean
  rw [readMessage, cstringAt_front clean.2.2]
  exact keptMessage_front ⟨clean.1, clean.2.1⟩ short _

/-- A field behind the id is read whole. -/
theorem readMessage_field {id key value : Text} (clean : ∀ c ∈ [carriageReturn, newline, nul], c ∉ id ∧ c ∉ key ∧ c ∉ value)
    (short : id.length + key.length + value.length ≤ 765) (back : Text) :
    ∃ tail, readMessage (id ++ ' ' :: (key ++ (value ++ ' ' :: back))) = id ++ ' ' :: (key ++ (value ++ ' ' :: tail)) := by
  have front : ∀ c ∈ [carriageReturn, newline, nul], c ∉ id ++ ' ' :: (key ++ (value ++ [' '])) := by
    intro c ends
    have visible : c ≠ ' ' := by
      rintro rfl
      revert ends
      decide
    simp [clean c ends, visible]
  have fits : (id ++ ' ' :: (key ++ (value ++ [' ']))).length ≤ 767 := by
    simp only [List.length_append, List.length_cons, List.length_nil]
    omega
  obtain ⟨tail, kept⟩ := readMessage_front front fits back
  refine ⟨tail, ?_⟩
  simpa using kept

/-- What an id is made of. -/
theorem isContainerId_chars {id : Text} (formed : IsContainerId id) {c : Char} (member : c ∈ id) : c ∈ idPrefix ∨ c.isDigit = true := by
  obtain ⟨digits, numeral, rfl⟩ := formed
  rcases List.mem_append.mp member with word | digit
  · exact Or.inl word
  · exact Or.inr (numeral.2 c digit)

theorem not_mem_id {id : Text} (formed : IsContainerId id) {c : Char} (word : c ∉ idPrefix) (digit : c.isDigit = false) : c ∉ id := by
  intro member
  rcases isContainerId_chars formed member with inside | digits
  · exact word inside
  · rw [digit] at digits
    cases digits

theorem endless_id {id : Text} (formed : IsContainerId id) : carriageReturn ∉ id ∧ newline ∉ id :=
  ⟨not_mem_id formed (by decide) (by decide), not_mem_id formed (by decide) (by decide)⟩

theorem not_mem_showLimit (value : UInt32) {c : Char} (other : c.isDigit = false) : c ∉ showLimit value :=
  not_mem_showUnsigned other _

theorem not_mem_showPid (pid : Pid) {c : Char} (dash : c ≠ '-') (other : c.isDigit = false) : c ∉ showPid pid := by
  intro member
  have digits : c ∉ showUnsigned pid.toInt.natAbs := not_mem_showUnsigned other _
  rcases showInt_cases pid.toInt with printed | printed
  · rw [showPid, printed] at member
    exact digits member
  · rw [showPid, printed] at member
    rcases List.mem_cons.mp member with same | inside
    · exact dash same
    · exact digits inside

/-- Parts of a message that the marks of its format end. -/
def formatted (segments : List (Text × Char)) (last : Text) : Text := segments.flatMap (fun segment => segment.1 ++ [segment.2]) ++ last

/-- A key that no mark divides stands in one of the parts. -/
theorem absent_formatted {key last : Text} {segments : List (Text × Char)} (apart : ' ' ∉ key.dropLast ∧ '=' ∉ key.dropLast)
    (marks : ∀ segment ∈ segments, segment.2 = ' ' ∨ segment.2 = '=')
    (absent : ∀ segment ∈ segments, ¬ key <:+: segment.1 ++ [segment.2]) (ends : ¬ key <:+: last) :
    ¬ key <:+: formatted segments last := by
  have divided : ∀ segment ∈ segments, segment.2 ∉ key.dropLast := by
    intro segment member
    rcases marks segment member with blank | equals
    · rw [blank]
      exact apart.1
    · rw [equals]
      exact apart.2
  intro here
  rcases infix_segments divided here with ⟨segment, member, found⟩ | found
  · exact absent segment member found
  · exact ends found

/-- The parts of the limits. -/
def limitsSegments (limits : ResourceConfig) : List (Text × Char) :=
  [(lit "cpu", '='), (showLimit limits.cpuSeconds ++ lit "s", ' '), (lit "mem", '='), (showLimit limits.memoryMb ++ lit "MB", ' '),
    (lit "nproc", '=')]

theorem limitsText_eq (limits : ResourceConfig) :
    limitsText limits = ' ' :: formatted (limitsSegments limits) (showLimit limits.maxProcesses) := by
  simp only [limitsText, formatted, limitsSegments, List.flatMap_cons, List.flatMap_nil, List.append_nil, List.append_assoc]
  rfl

/-- A part without these two characters has no key. -/
theorem absent_of_plain {key text : Text} (keyed : '=' ∈ key ∨ '(' ∈ key) (equals : '=' ∉ text) (parenthesis : '(' ∉ text) :
    ¬ key <:+: text := by
  rcases keyed with inside | inside
  · exact not_infix_of_not_mem inside equals
  · exact not_infix_of_not_mem inside parenthesis

/-- The keys that are looked for; a pid in parentheses without the blank behind its word. -/
def keys : List Text := [lit "name=", lit "pid=", lit "(pid"]

section

variable {key : Text} (listed : key ∈ keys)
include listed

theorem keys_apart : ' ' ∉ key ∧ key ≠ [] ∧ (' ' ∉ key.dropLast ∧ '=' ∉ key.dropLast) ∧ ('=' ∈ key ∨ '(' ∈ key) := by
  revert key
  decide

theorem absent_blank {text : Text} (absent : ¬ key <:+: text) : ¬ key <:+: text ++ [' '] :=
  fun here => absent (infix_concat (keys_apart listed).1 (keys_apart listed).2.1 here)

theorem absent_id {id : Text} (formed : IsContainerId id) : ¬ key <:+: id :=
  absent_of_plain (keys_apart listed).2.2.2 (not_mem_id formed (by decide) (by decide)) (not_mem_id formed (by decide) (by decide))

/-- The words that come behind the name and in front of an equals sign. -/
theorem absent_word {word : Text} (known : word ∈ [lit "rootfs", lit "command", lit "cpu", lit "mem", lit "nproc"]) :
    ¬ key <:+: word ++ ['='] := by
  revert word
  revert key
  decide +kernel

theorem absent_limits (limits : ResourceConfig) :
    (∀ segment ∈ limitsSegments limits, ¬ key <:+: segment.1 ++ [segment.2]) ∧ ¬ key <:+: showLimit limits.maxProcesses := by
  have plain : ∀ (value : UInt32), ¬ key <:+: showLimit value := fun value =>
    absent_of_plain (keys_apart listed).2.2.2 (not_mem_showLimit value (by decide)) (not_mem_showLimit value (by decide))
  have ended : ∀ (value : UInt32) (unit : Text), '=' ∉ unit → '(' ∉ unit → ¬ key <:+: (showLimit value ++ unit) ++ [' '] := by
    intro value unit equals parenthesis
    apply absent_blank listed
    apply absent_of_plain (keys_apart listed).2.2.2
    · simp [not_mem_showLimit value (c := '=') (by decide), equals]
    · simp [not_mem_showLimit value (c := '(') (by decide), parenthesis]
  refine ⟨?_, plain _⟩
  simp only [limitsSegments, List.forall_mem_cons, List.not_mem_nil, false_implies, implies_true, and_true]
  exact ⟨absent_word listed (by decide), ended _ _ (by decide) (by decide), absent_word listed (by decide),
    ended _ _ (by decide) (by decide), absent_word listed (by decide)⟩

end

@[simp] theorem formatted_nil (last : Text) : formatted [] last = last := rfl

@[simp] theorem formatted_cons (text : Text) (mark : Char) (rest : List (Text × Char)) (last : Text) :
    formatted ((text, mark) :: rest) last = text ++ mark :: formatted rest last := by
  simp [formatted]

theorem formatted_append (front back : List (Text × Char)) (last : Text) :
    formatted (front ++ back) last = formatted front (formatted back last) := by
  simp [formatted]

theorem limits_marks (limits : ResourceConfig) : ∀ segment ∈ limitsSegments limits, segment.2 = ' ' ∨ segment.2 = '=' := by
  simp [limitsSegments]

/-! ### A creation -/

/-- The message about a creation, up to the hostname. -/
def createdSegments (record : Record) : List (Text × Char) :=
  [(record.id.text, ' '), (lit "name", '='), (record.name.text, ' '), (lit "hostname", '='), (record.hostname.text, ' ')]

/-- What follows. -/
def rootfsSegments (record : Record) : List (Text × Char) :=
  [(lit "rootfs", '='), (record.rootfs.text, ' '), (lit "command", '='), (record.commandLine.text, ' ')] ++
    limitsSegments record.resourceLimits

theorem created_message (strerror : Errno → Text) (record : Record) : (LogEvent.created record).message strerror =
    formatted (createdSegments record ++ rootfsSegments record) (showLimit record.resourceLimits.maxProcesses) := by
  rw [rootfsSegments, formatted_append, formatted_append, LogEvent.message, limitsText_eq]
  simp only [createdSegments, formatted_cons, formatted_nil, List.append_assoc]
  rfl

theorem rootfs_marks (record : Record) : ∀ segment ∈ rootfsSegments record, segment.2 = ' ' ∨ segment.2 = '=' := by
  intro segment member
  rcases List.mem_append.mp member with own | limits
  · revert own
    simp only [List.mem_cons, List.not_mem_nil, or_false]
    rintro (rfl | rfl | rfl | rfl) <;> simp
  · exact limits_marks _ segment limits

theorem absent_rootfs {key : Text} (listed : key ∈ keys) {record : Record} (rootfs : ¬ key <:+: record.rootfs.text)
    (command : ¬ key <:+: record.commandLine.text) : ∀ segment ∈ rootfsSegments record, ¬ key <:+: segment.1 ++ [segment.2] := by
  intro segment member
  rcases List.mem_append.mp member with own | limits
  · simp only [List.mem_cons, List.not_mem_nil, or_false] at own
    rcases own with rfl | rfl | rfl | rfl
    · exact absent_word listed (by decide)
    · exact absent_blank listed rootfs
    · exact absent_word listed (by decide)
    · exact absent_blank listed command
  · exact (absent_limits listed record.resourceLimits).1 segment limits

/-- Behind the hostname there is no key but in the texts. -/
theorem absent_behind {key : Text} (listed : key ∈ keys) {record : Record} (rootfs : ¬ key <:+: record.rootfs.text)
    (command : ¬ key <:+: record.commandLine.text) :
    ¬ key <:+: formatted (rootfsSegments record) (showLimit record.resourceLimits.maxProcesses) :=
  absent_formatted (keys_apart listed).2.2.1 (rootfs_marks record) (absent_rootfs listed rootfs command)
    (absent_limits listed record.resourceLimits).2

/-- Nor is there a key for a pid in front of it. -/
theorem absent_created (strerror : Errno → Text) {key : Text} (listed : key ∈ [lit "pid=", lit "(pid"]) {record : Record}
    (absent : ∀ text ∈ record.texts, ¬ key <:+: text) : ¬ key <:+: (LogEvent.created record).message strerror := by
  have known : key ∈ keys := List.mem_cons_of_mem _ listed
  -- The words of the format are not keys for a pid.
  have words : ∀ key ∈ [lit "pid=", lit "(pid"], ¬ key <:+: lit "name" ++ ['='] ∧ ¬ key <:+: lit "hostname" ++ ['='] := by
    decide +kernel
  have texts : ∀ text ∈ record.texts, ¬ key <:+: text ++ [' '] := fun text member => absent_blank known (absent text member)
  simp only [Record.texts, List.forall_mem_cons, List.not_mem_nil, false_implies, implies_true, and_true] at texts absent
  rw [created_message]
  apply absent_formatted (keys_apart known).2.2.1
  · intro segment member
    rcases List.mem_append.mp member with front | back
    · revert front
      simp only [createdSegments, List.mem_cons, List.not_mem_nil, or_false]
      rintro (rfl | rfl | rfl | rfl | rfl) <;> simp
    · exact rootfs_marks record segment back
  · intro segment member
    rcases List.mem_append.mp member with front | back
    · simp only [createdSegments, List.mem_cons, List.not_mem_nil, or_false] at front
      rcases front with rfl | rfl | rfl | rfl | rfl
      · exact texts.1
      · exact (words key listed).1
      · exact texts.2.1
      · exact (words key listed).2
      · exact texts.2.2.1
    · exact absent_rootfs known absent.2.2.2.1 absent.2.2.2.2 segment back
  · exact (absent_limits known record.resourceLimits).2

theorem not_mem_formatted {c : Char} {segments : List (Text × Char)} {last : Text}
    (apart : ∀ segment ∈ segments, c ∉ segment.1 ∧ c ≠ segment.2) (ends : c ∉ last) : c ∉ formatted segments last := by
  induction segments with
  | nil => exact ends
  | cons segment rest ih =>
    obtain ⟨text, mark⟩ := segment
    obtain ⟨inside, different⟩ := apart _ List.mem_cons_self
    have later := ih fun other member => apart other (List.mem_cons_of_mem _ member)
    rw [formatted_cons]
    simp only [List.mem_append, List.mem_cons, not_or]
    exact ⟨inside, different, later⟩

theorem newline_limits (limits : ResourceConfig) :
    (∀ segment ∈ limitsSegments limits, newline ∉ segment.1 ∧ newline ≠ segment.2) ∧ newline ∉ showLimit limits.maxProcesses := by
  have plain : ∀ value : UInt32, newline ∉ showLimit value := fun value => not_mem_showLimit value (by decide)
  refine ⟨?_, plain _⟩
  simp only [limitsSegments, List.forall_mem_cons, List.not_mem_nil, false_implies, implies_true, and_true, List.mem_append, not_or, plain]
  decide

section

variable (strerror : Errno → Text) {record : Record}

theorem readMessage_created (formed : IsContainerId record.id.text) (plain : ∀ c ∈ record.name.text, endsField c = false) :
    ∃ tail, readMessage ((LogEvent.created record).message strerror) =
      record.id.text ++ ' ' :: (lit "name=" ++ (record.name.text ++ ' ' :: tail)) := by
  have idFits := record.id.fits
  have nameFits := record.name.fits
  have parts : (LogEvent.created record).message strerror = record.id.text ++ ' ' :: (lit "name=" ++ (record.name.text ++ ' ' ::
      formatted ((lit "hostname", '=') :: (record.hostname.text, ' ') :: rootfsSegments record)
        (showLimit record.resourceLimits.maxProcesses))) := by
    rw [created_message]
    simp only [createdSegments, List.cons_append, List.nil_append, formatted_cons]
    rfl
  rw [parts]
  apply readMessage_field
  · intro c ends
    obtain ⟨word, digit, -, field⟩ := lineEnd_apart c ends
    refine ⟨not_mem_id formed word digit, fun member => ?_, fun member => ?_⟩
    · exact clean_of_all (by decide) c member ends
    · rw [plain c member] at field
      cases field
  · rw [show (lit "name=").length = 5 from rfl]
    omega

theorem reads_created (formed : IsContainerId record.id.text) (given : record.name.text ≠ [])
    (plain : ∀ c ∈ record.name.text, endsField c = false)
    (absent : ∀ text ∈ record.texts, ¬ lit "pid=" <:+: text ∧ ¬ lit "(pid" <:+: text) :
    Reads ((LogEvent.created record).message strerror) record.id.text (some record.name) none := by
  have begins := readMessage_begins ((LogEvent.created record).message strerror)
  have pid : ¬ lit "pid=" <:+: (LogEvent.created record).message strerror :=
    absent_created strerror (by decide) fun text member => (absent text member).1
  have parenthesis : ¬ lit "(pid" <:+: (LogEvent.created record).message strerror :=
    absent_created strerror (by decide) fun text member => (absent text member).2
  obtain ⟨tail, kept⟩ := readMessage_created strerror formed plain
  refine ⟨?_, ?_, ?_⟩
  · rw [kept, ← List.nil_append (record.id.text ++ _)]
    exact extractContainerId_front List.not_mem_nil formed record.id.fits (by decide)
  · rw [kept]
    exact extractFieldText_name record.name (not_mem_id formed (by decide) (by decide)) given plain
  · exact extractPidFromMessage_of_absent (fun here => pid (here.trans begins.isInfix)) fun here => parenthesis (here.trans begins.isInfix)

/-- There is nothing behind the first piece of a short line. -/
theorem quiet_behind_short {line : LogLine} (whole : newline ∉ line.text strerror) (short : (line.call.message strerror).length ≤ 968) :
    Quiet (fgets (bufferSize - 1) (line.text strerror ++ [newline])).2 := by
  have room := length_front_le line
  have all : (line.text strerror ++ [newline]).length ≤ bufferSize - 1 := by
    simp only [LogLine.text, List.length_append, List.length_singleton, bufferSize]
    omega
  rw [fgets_rest _ whole, List.drop_eq_nil_of_le all]
  exact Or.inl rfl

/-- Behind the first piece of a line about a creation nothing is found. -/
theorem quiet_behind_created {line : LogLine} (call : line.call = .manager (.created record))
    (absent : ∀ text ∈ record.texts, newline ∉ text ∧ ¬ lit "pid=" <:+: text ∧ ¬ lit "(pid" <:+: text)
    (short : ((LogEvent.created record).message strerror).length ≤ 968 ∨
      ¬ lit "name=" <:+: record.rootfs.text ∧ ¬ lit "name=" <:+: record.commandLine.text) :
    Quiet (fgets (bufferSize - 1) (line.text strerror ++ [newline])).2 := by
  have message : line.call.message strerror = (LogEvent.created record).message strerror := by rw [call]; rfl
  have room := length_front_le line
  have texts := absent
  simp only [Record.texts, List.forall_mem_cons, List.not_mem_nil, false_implies, implies_true, and_true] at texts
  obtain ⟨id, name, hostname, rootfs, command⟩ := texts
  have whole : newline ∉ line.text strerror := by
    rw [LogLine.text, message, created_message, List.mem_append, not_or]
    refine ⟨not_mem_front line (by decide), not_mem_formatted ?_ (newline_limits _).2⟩
    simp only [createdSegments, rootfsSegments, List.cons_append, List.nil_append, List.forall_mem_cons, id, name, hostname, rootfs,
      command, not_false_eq_true, true_and]
    exact ⟨by decide, by decide, by decide, by decide, by decide, by decide, by decide, by decide, by decide, (newline_limits _).1⟩
  rcases short with short | ⟨rootfsNamed, commandNamed⟩
  · exact quiet_behind_short strerror whole (message ▸ short)
  · rw [fgets_rest _ whole]
    right
    -- The second piece begins behind the hostname.
    have keyless : Keyless (formatted (rootfsSegments record) (showLimit record.resourceLimits.maxProcesses)) :=
      ⟨absent_behind (by decide) rootfsNamed commandNamed, absent_behind (by decide) rootfs.2.1 command.2.1,
        absent_behind (by decide) rootfs.2.2 command.2.2⟩
    have ended : Keyless (formatted (rootfsSegments record) (showLimit record.resourceLimits.maxProcesses) ++ [newline]) :=
      ⟨fun here => keyless.name (infix_concat (by decide) (by decide) here), fun here => keyless.pid (infix_concat (by decide) (by decide) here),
        fun here => keyless.parenthesis (infix_concat (by decide) (by decide) here)⟩
    have parts : line.text strerror ++ [newline] = (line.front ++ formatted (createdSegments record) []) ++
        (formatted (rootfsSegments record) (showLimit record.resourceLimits.maxProcesses) ++ [newline]) := by
      rw [LogLine.text, message, created_message, formatted_append]
      simp [createdSegments]
    have idFits := record.id.fits
    have nameFits := record.name.fits
    have hostnameFits := record.hostname.fits
    have early : (line.front ++ formatted (createdSegments record) []).length ≤ bufferSize - 1 := by
      simp only [createdSegments, formatted_cons, formatted_nil, List.length_append, List.length_cons, List.length_nil,
        show (lit "name").length = 4 from rfl, show (lit "hostname").length = 8 from rfl, bufferSize]
      omega
    rw [parts, List.drop_append, List.drop_eq_nil_of_le early, List.nil_append]
    exact ended.part (List.drop_suffix _ _).isInfix

/-! ### A start -/

/-- The message about a start, behind the id. -/
def startedSegments (record : Record) (namespacePid : Pid) : List (Text × Char) :=
  [(lit "pid", '='), (showPid record.pid, ' '), (lit "ns_pid", '='), (showPid namespacePid, ' '), (lit "isolation", '='),
    (NAMESPACE_PROFILE, ' '), (lit "command", '='), (record.commandLine.text, ' ')] ++ limitsSegments record.resourceLimits

theorem started_message (record : Record) (namespacePid : Pid) : (LogEvent.started record namespacePid).message strerror =
    formatted ((record.id.text, ' ') :: startedSegments record namespacePid) (showLimit record.resourceLimits.maxProcesses) := by
  rw [startedSegments, ← List.cons_append, formatted_append, LogEvent.message, limitsText_eq]
  simp only [formatted_cons, formatted_nil, List.append_assoc]
  rfl

theorem absent_started (formed : IsContainerId record.id.text) (command : ¬ lit "name=" <:+: record.commandLine.text) (namespacePid : Pid) :
    ¬ lit "name=" <:+: (LogEvent.started record namespacePid).message strerror := by
  have listed : lit "name=" ∈ keys := by decide
  have number : ∀ pid : Pid, ¬ lit "name=" <:+: showPid pid ++ [' '] := fun pid =>
    absent_blank listed (not_infix_of_not_mem (c := '=') (by decide) (not_mem_showPid pid (by decide) (by decide)))
  rw [started_message]
  apply absent_formatted (keys_apart listed).2.2.1
  · simp only [startedSegments, List.cons_append, List.nil_append, List.forall_mem_cons, true_or, or_true, true_and]
    exact limits_marks _
  · simp only [startedSegments, List.cons_append, List.nil_append, List.forall_mem_cons]
    exact ⟨absent_blank listed (absent_id listed formed), by decide +kernel, number _, by decide +kernel, number _, by decide +kernel,
      by decide +kernel, absent_word listed (by decide), absent_blank listed command, (absent_limits listed _).1⟩
  · exact (absent_limits listed record.resourceLimits).2

theorem reads_started (formed : IsContainerId record.id.text) (command : ¬ lit "name=" <:+: record.commandLine.text) (namespacePid : Pid) :
    Reads ((LogEvent.started record namespacePid).message strerror) record.id.text none (some record.pid) := by
  have begins := readMessage_begins ((LogEvent.started record namespacePid).message strerror)
  have absent := absent_started strerror formed command namespacePid
  have equals : '=' ∉ record.id.text := not_mem_id formed (by decide) (by decide)
  obtain ⟨tail, kept⟩ : ∃ tail, readMessage ((LogEvent.started record namespacePid).message strerror) =
      record.id.text ++ ' ' :: (lit "pid=" ++ (showPid record.pid ++ ' ' :: tail)) := by
    have idFits := record.id.fits
    have pidFits := length_showPid_le record.pid
    have parts : (LogEvent.started record namespacePid).message strerror = record.id.text ++ ' ' :: (lit "pid=" ++
        (showPid record.pid ++ ' ' :: formatted ((startedSegments record namespacePid).drop 2)
          (showLimit record.resourceLimits.maxProcesses))) := by
      rw [started_message]
      simp only [startedSegments, List.cons_append, List.nil_append, formatted_cons, List.drop_succ_cons, List.drop_zero]
      rfl
    rw [parts]
    apply readMessage_field
    · intro c ends
      obtain ⟨word, digit, dash, -⟩ := lineEnd_apart c ends
      exact ⟨not_mem_id formed word digit, fun member => clean_of_all (by decide) c member ends, not_mem_showPid _ dash digit⟩
    · rw [show (lit "pid=").length = 4 from rfl]
      omega
  refine ⟨?_, ?_, ?_⟩
  · rw [kept, ← List.nil_append (record.id.text ++ _)]
    exact extractContainerId_front List.not_mem_nil formed record.id.fits (by decide)
  · exact extractFieldText_of_absent fun here => absent (here.trans begins.isInfix)
  · have found : strstr (lit "pid=") (readMessage ((LogEvent.started record namespacePid).message strerror)) =
        some (lit "pid=" ++ (showPid record.pid ++ ' ' :: tail)) := by
      rw [kept]
      exact strstr_behind (by decide) (by decide) equals
    rw [extractPidFromMessage, extractIntAfterKey_pid record.pid (by decide) found]

theorem quiet_behind_started {line : LogLine} {namespacePid : Pid} (call : line.call = .manager (.started record namespacePid))
    (formed : IsContainerId record.id.text) (command : newline ∉ record.commandLine.text) :
    Quiet (fgets (bufferSize - 1) (line.text strerror ++ [newline])).2 := by
  have message : line.call.message strerror = (LogEvent.started record namespacePid).message strerror := by rw [call]; rfl
  have number : ∀ pid : Pid, newline ∉ showPid pid := fun pid => not_mem_showPid pid (by decide) (by decide)
  apply quiet_behind_short
  · rw [LogLine.text, message, started_message, List.mem_append, not_or]
    refine ⟨not_mem_front line (by decide), not_mem_formatted ?_ (newline_limits _).2⟩
    simp only [startedSegments, List.cons_append, List.nil_append, List.forall_mem_cons, endless_id formed, number, command,
      not_false_eq_true, true_and]
    exact ⟨by decide, by decide, by decide, by decide, by decide, by decide, by decide, by decide, by decide, (newline_limits _).1⟩
  · have idFits := record.id.fits
    have commandFits := record.commandLine.fits
    have pid := length_showPid_le record.pid
    have inner := length_showPid_le namespacePid
    have cpu := length_showLimit_le record.resourceLimits.cpuSeconds
    have memory := length_showLimit_le record.resourceLimits.memoryMb
    have processes := length_showLimit_le record.resourceLimits.maxProcesses
    have words : (lit "pid").length = 3 ∧ (lit "ns_pid").length = 6 ∧ (lit "isolation").length = 9 ∧ NAMESPACE_PROFILE.length = 23 ∧
        (lit "command").length = 7 ∧ (lit "cpu").length = 3 ∧ (lit "s").length = 1 ∧ (lit "mem").length = 3 ∧ (lit "MB").length = 2 ∧
        (lit "nproc").length = 5 := by decide
    rw [message, started_message]
    simp only [startedSegments, limitsSegments, List.cons_append, List.nil_append, formatted_cons, formatted_nil, List.length_append,
      List.length_cons, words]
    omega

/-! ### A pid in parentheses -/

/-- The form of the three messages that have it. -/
def pidMessage (front middle id : Text) (pid : Pid) : Text :=
  front ++ (id ++ ' ' :: (middle ++ (lit "(pid " ++ (showPid pid ++ [')']))))

/-- What comes before and after the id in them. -/
def IsFiller (text : Text) : Prop := text.length ≤ 20 ∧ ∀ c ∈ text, c ∉ ['c', '=', '(', carriageReturn, newline, nul]

instance : DecidablePred IsFiller := fun text =>
  have : Decidable (∀ c ∈ text, c ∉ ['c', '=', '(', carriageReturn, newline, nul]) := List.decidableBAll _ text
  inferInstanceAs (Decidable (_ ∧ _))

variable {front middle id : Text}

theorem not_mem_pidMessage (before : IsFiller front) (between : IsFiller middle) (formed : IsContainerId id) (pid : Pid) {c : Char}
    (listed : c ∈ ['=', carriageReturn, newline, nul]) : c ∉ pidMessage front middle id pid := by
  have fixed : c ∈ ['c', '=', '(', carriageReturn, newline, nul] ∧ c ∉ idPrefix ∧ c.isDigit = false ∧ c ≠ '-' ∧ c ≠ ' ' ∧
      c ∉ lit "(pid " ∧ c ≠ ')' := by
    simp only [List.mem_cons, List.not_mem_nil, or_false] at listed
    rcases listed with rfl | rfl | rfl | rfl <;> decide
  obtain ⟨filler, word, digit, dash, blank, key, closing⟩ := fixed
  have early : c ∉ front := fun member => before.2 c member filler
  have late : c ∉ middle := fun member => between.2 c member filler
  simp [pidMessage, early, late, blank, key, closing, not_mem_id formed word digit, not_mem_showPid pid dash digit]

theorem reads_pidMessage (before : IsFiller front) (between : IsFiller middle) (formed : IsContainerId id) (fits : id.length < 64) (pid : Pid) :
    Reads (pidMessage front middle id pid) id none (some pid) := by
  have room := length_showPid_le pid
  -- The message is short and has no line end, so all of it is kept.
  have whole : readMessage (pidMessage front middle id pid) = pidMessage front middle id pid := by
    have clean : ∀ c ∈ [carriageReturn, newline, nul], c ∉ pidMessage front middle id pid :=
      fun c ends => not_mem_pidMessage before between formed pid (List.mem_cons_of_mem _ ends)
    have short : (pidMessage front middle id pid).length ≤ 767 := by
      have early := before.1
      have late := between.1
      simp only [pidMessage, List.length_append, List.length_cons, List.length_nil, show (lit "(pid ").length = 5 from rfl]
      omega
    obtain ⟨tail, kept⟩ := readMessage_front clean short []
    have begins := readMessage_begins (pidMessage front middle id pid)
    rw [List.append_nil] at kept
    rw [kept] at begins ⊢
    have count := begins.length_le
    rw [List.length_append] at count
    rw [List.eq_nil_of_length_eq_zero (by omega : tail.length = 0), List.append_nil]
  have equals : '=' ∉ pidMessage front middle id pid := not_mem_pidMessage before between formed pid (by decide)
  refine ⟨?_, ?_, ?_⟩
  · rw [whole, pidMessage]
    exact extractContainerId_front (fun member => before.2 _ member (by decide)) formed fits (by decide)
  · rw [whole]
    exact extractFieldText_of_absent (not_infix_of_not_mem (c := '=') (by decide) equals)
  · have absent : extractIntAfterKey (pidMessage front middle id pid) (lit "pid=") = none :=
      extractIntAfterKey_of_absent (not_infix_of_not_mem (c := '=') (by decide) equals)
    have opened : '(' ∉ front ++ (id ++ ' ' :: middle) := by
      have early : '(' ∉ front := fun member => before.2 _ member (by decide)
      have late : '(' ∉ middle := fun member => between.2 _ member (by decide)
      simp [early, late, not_mem_id formed (c := '(') (by decide) (by decide)]
    have found : strstr (lit "(pid ") (pidMessage front middle id pid) = some (lit "(pid " ++ (showPid pid ++ [')'])) := by
      have parts : pidMessage front middle id pid = (front ++ (id ++ ' ' :: middle)) ++ (lit "(pid " ++ (showPid pid ++ [')'])) := by
        simp [pidMessage]
      rw [parts]
      exact (strstr_skip opened).trans strstr_self
    rw [whole, extractPidFromMessage, absent]
    exact extractIntAfterKey_pid pid (by decide) found

theorem quiet_behind_pidMessage {line : LogLine} {pid : Pid} (message : line.call.message strerror = pidMessage front middle id pid)
    (before : IsFiller front) (between : IsFiller middle) (formed : IsContainerId id) (fits : id.length < 64) :
    Quiet (fgets (bufferSize - 1) (line.text strerror ++ [newline])).2 := by
  have room := length_showPid_le pid
  apply quiet_behind_short
  · rw [LogLine.text, message, List.mem_append, not_or]
    exact ⟨not_mem_front line (by decide), not_mem_pidMessage before between formed pid (by decide)⟩
  · have early := before.1
    have late := between.1
    rw [message]
    simp only [pidMessage, List.length_append, List.length_cons, List.length_nil, show (lit "(pid ").length = 5 from rfl]
    omega

/-- The messages that report a pid in parentheses. -/
theorem pidMessage_cases {entry : LogEvent} {id : Text} {pid : Pid}
    (reports : entry = .failedToStop id pid ∨ entry = .failedToReap id pid ∨ entry = .stopped id pid) :
    ∃ front middle, IsFiller front ∧ IsFiller middle ∧ entry.message strerror = pidMessage front middle id pid := by
  rcases reports with rfl | rfl | rfl
  · refine ⟨lit "failed to stop ", [], by decide, by decide, ?_⟩
    simp only [LogEvent.message, pidMessage, List.append_assoc, List.nil_append]
    rfl
  · refine ⟨lit "failed to reap ", [], by decide, by decide, ?_⟩
    simp only [LogEvent.message, pidMessage, List.append_assoc, List.nil_append]
    rfl
  · refine ⟨[], lit "stopped ", by decide, by decide, ?_⟩
    simp only [LogEvent.message, pidMessage, List.append_assoc, List.nil_append]
    rfl

end

end ContainerRuntime.Logger
