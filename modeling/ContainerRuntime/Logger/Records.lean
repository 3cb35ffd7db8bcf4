import ContainerRuntime.CString.Search
import ContainerRuntime.Logger.Messages

/-! How `logger.c` reads `container.log`: a record of every line, the catalog of
containers that is kept along with them, and the rows that `logs` prints.

A record's fields are found again by searching its text. The table that is
printed is left out; a row is the record with the catalog it is printed from.
-/

set_option autoImplicit false

namespace ContainerRuntime.Logger

open CString

-- The sizes of the text fields of `LogRecord` and `LogCatalogEntry`.
instance neZero_32 : NeZero 32 := ⟨by decide⟩
instance neZero_768 : NeZero 768 := ⟨by decide⟩
instance neZero_16 : NeZero 16 := ⟨by decide⟩

structure LogRecord where
  timestamp : Buffer 32
  event : Buffer 64
  message : Buffer 768
  containerId : Buffer 64
  matchesFilter : Bool
  deriving DecidableEq

/-- `char buffer[1024]`, of the loops that read the log and of `parse_log_line`. -/
def bufferSize : Nat := 1024

/-! ## Searching a line -/

/-- `line_matches_container`; no id, or an empty one, matches every line. -/
def lineMatchesContainer (line : Text) : Option Text → Bool
  | none => true
  | some containerId => if containerId = [] then true else (strstr containerId line).isSome

def idPrefix : Text := lit "container-"

/-- The loop of `extract_container_id`: a prefix without a digit behind it is passed over. -/
def extractIdLoop : Nat → Text → Option Text
  | 0, _ => none
  | rounds + 1, cursor =>
    match strstr idPrefix cursor with
    | none => none
    | some found =>
      let digits := found.drop idPrefix.length
      if leadingDigits digits = [] then extractIdLoop rounds digits else some (idPrefix ++ leadingDigits digits)

/-- `extract_container_id`: what it stores, which is nothing where it finds no id. -/
def extractContainerId (text : Text) : Buffer 64 :=
  match extractIdLoop (text.length + 1) text with
  | none => copyString 64 []
  | some id => copyString 64 id

/-- A character that ends the value of a field. -/
def endsField (c : Char) : Bool := c = nul || c = ' ' || c = carriageReturn || c = newline || c = ')'

def extractFieldText (text key : Text) : Option (Buffer 64) :=
  match strstr key text with
  | none => none
  | some found =>
    let value := (found.drop key.length).takeWhile (!endsField ·)
    if value = [] then none else some (copyString 64 value)

def extractIntAfterKey (text key : Text) : Option Pid :=
  match strstr key text with
  | none => none
  | some found =>
    let cursor := (found.drop key.length).dropWhile (· = ' ')
    match cursor with
    | [] => none
    | c :: _ =>
      if c ≠ '-' ∧ c.isDigit = false then none
      -- `strtol` reads no digit behind a single minus sign.
      else if leadingDigits (takeSign cursor).2 = [] then none
      else some (readPid cursor)

def extractPidFromMessage (message : Text) : Option Pid :=
  match extractIntAfterKey message (lit "pid=") with
  | some pid => some pid
  | none => extractIntAfterKey message (lit "(pid ")

/-- `parse_log_line`, and the `matches_filter` that its callers store. -/
def parseLogLine (line : Text) (matchesFilter : Bool) : LogRecord :=
  let buffer := trimNewline (snprintf bufferSize line)
  let whole : LogRecord := ⟨copyString 32 (lit "-"), copyString 64 (lit "LOG"), copyString 768 buffer,
    extractContainerId (copyString 768 buffer).text, matchesFilter⟩
  if buffer.head? ≠ some '[' then whole
  else
    match strstr (lit "] ") buffer with
    | none => whole
    | some close =>
      let timestamp := copyString 32 ((buffer.drop 1).take (buffer.length - close.length - 1))
      let eventStart := close.drop 2
      match strstr (lit ": ") eventStart with
      | none => ⟨timestamp, copyString 64 eventStart, copyString 768 [], copyString 64 [], matchesFilter⟩
      | some separator =>
        let message := copyString 768 (separator.drop 2)
        ⟨timestamp, copyString 64 (eventStart.take (eventStart.length - separator.length)), message,
          extractContainerId message.text, matchesFilter⟩

/-! ## The catalog -/

structure LogCatalogEntry where
  id : Buffer 64
  name : Buffer 64
  pid : Pid
  hasPid : Bool
  status : Buffer 16
  deriving DecidableEq

abbrev LogCatalog := List LogCatalogEntry

/-- The zeroed entry of `logger_catalog_get`. -/
def LogCatalogEntry.fresh (id : Buffer 64) : LogCatalogEntry := ⟨id, copyString 64 [], 0, false, copyString 16 []⟩

/-- `logger_catalog_get` with `create`, and a change to the entry it returns. -/
def catalogModify (id : Buffer 64) (change : LogCatalogEntry → LogCatalogEntry) : LogCatalog → LogCatalog
  | [] => [change (.fresh id)]
  | entry :: rest => if entry.id = id then change entry :: rest else entry :: catalogModify id change rest

def catalogFind (catalog : LogCatalog) (id : Text) : Option LogCatalogEntry :=
  if id = [] then none else catalog.find? (·.id.text = id)

/-- What `logger_catalog_update` stores in the entry of the record's container. -/
def LogCatalogEntry.update (record : LogRecord) (entry : LogCatalogEntry) : LogCatalogEntry :=
  let named := match extractFieldText record.message.text (lit "name=") with
    | some name => { entry with name := name }
    | none => entry
  let located := match extractPidFromMessage record.message.text with
    | some pid => { named with pid := pid, hasPid := true }
    | none => named
  let status := inferRecordStatus record.event.text record.containerId.text
  if status ≠ lit "-" then { located with status := copyString 16 status } else located

def catalogUpdate (catalog : LogCatalog) (record : LogRecord) : LogCatalog :=
  if record.containerId.text = [] then catalog
  else catalogModify record.containerId (·.update record) catalog

/-! ## The rows of `logs` -/

/-- The lines in the buffer, one for every piece that `fgets` delivers. A line ends where the buffer has its first NUL. -/
def linesOf (text : Text) : List Text := (fgetsAll bufferSize text).map (cstringAt · 0)

/-- `logger_read_records`: a record of every line. -/
def readRecords (filter : Option Text) (text : Text) : List LogRecord :=
  (linesOf text).map fun line => parseLogLine line (lineMatchesContainer line filter)

/-- The indexes of the records that match, the first having this index. -/
def matchIndexes (index : Nat) : List LogRecord → List Nat
  | [] => []
  | record :: rest => if record.matchesFilter then index :: matchIndexes (index + 1) rest else matchIndexes (index + 1) rest

/-- `logger_build_selection`. -/
def buildSelection (records : List LogRecord) (tailLines : Int) : List Nat :=
  let found := matchIndexes 0 records
  found.drop (if 0 < tailLines ∧ tailLines < found.length then found.length - tailLines.toNat else 0)

/-- A printed row: the record, and the catalog its columns come from. -/
abbrev Row := LogRecord × LogCatalog

/-- The loop of `logger_render_records` from a record index on: the rows it prints and the catalog it leaves. -/
def renderRecords (catalog : LogCatalog) (index : Nat) : List LogRecord → List Nat → List Row × LogCatalog
  | [], _ => ([], catalog)
  | record :: rest, selected =>
    let catalog := catalogUpdate catalog record
    match selected with
    | [] => renderRecords catalog (index + 1) rest []
    | next :: later =>
      if next = index then
        let (rows, final) := renderRecords catalog (index + 1) rest later
        ((record, catalog) :: rows, final)
      else renderRecords catalog (index + 1) rest (next :: later)

/-- `logger_render_history`. -/
def renderHistory (filter : Option Text) (tailLines : Int) (text : Text) : List Row × LogCatalog :=
  let records := readRecords filter text
  renderRecords [] 0 records (buildSelection records tailLines)

def loggerPrint (filter : Option Text) (text : Text) : List Row := (renderHistory filter 0 text).1

/-- `logger_tail`, which reports its usage for a number that is not positive. -/
def loggerTail (filter : Option Text) (lineCount : Int) (text : Text) : List Row :=
  if lineCount ≤ 0 then [] else (renderHistory filter lineCount text).1

/-- The loop over the records of one poll. -/
def renderPoll (catalog : LogCatalog) : List LogRecord → List Row × LogCatalog
  | [] => ([], catalog)
  | record :: rest =>
    let catalog := catalogUpdate catalog record
    let (rows, final) := renderPoll catalog rest
    (if record.matchesFilter then (record, catalog) :: rows else rows, final)

/-- The polls of `logger_follow`, given what each of them reads. -/
def renderPolls (filter : Option Text) (catalog : LogCatalog) : List Text → List Row
  | [] => []
  | read :: later =>
    let (rows, next) := renderPoll catalog (readRecords filter read)
    rows ++ renderPolls filter next later

/-- `logger_follow`: what it prints of the text it finds and of what its polls read. -/
def loggerFollow (filter : Option Text) (initialTailLines : Int) (text : Text) (polls : List Text) : List Row :=
  let (rows, catalog) := renderHistory filter (if 0 < initialTailLines then initialTailLines else 0) text
  rows ++ renderPolls filter catalog polls

/-- The `logs` command: the rows it prints for a log, and for what the polls of `-f` read behind it. -/
def logsCommand (filter : Option Text) (follow : Bool) (tailLines : Int) (text : Text) (polls : List Text) : List Row :=
  if follow then loggerFollow filter tailLines text polls
  else if 0 ≤ tailLines then loggerTail filter tailLines text
  else loggerPrint filter text

end ContainerRuntime.Logger
