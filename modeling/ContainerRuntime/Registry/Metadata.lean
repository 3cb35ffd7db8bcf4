import ContainerRuntime.Registry.Container

/-! The text of `containers.meta`: one line of ten tab-separated fields a record.

Nothing is escaped, and the reader merges adjacent tabs, stops at a carriage
return and accepts 6, 7 or 10 fields. A list of records is read back exactly
when every text in it is non-empty and free of tab, CR and LF.
-/

set_option autoImplicit false

namespace ContainerRuntime

open CString Cli

def tab : Char := '\t'
def carriageReturn : Char := '\r'

def stateToString : ContainerState → Text
  | .CREATED => lit "CREATED"
  | .RUNNING => lit "RUNNING"
  | .STOPPED => lit "STOPPED"

def stringToState (value : Text) : ContainerState :=
  if value = lit "RUNNING" then .RUNNING
  else if value = lit "STOPPED" then .STOPPED
  else .CREATED

/-! ## Writing -/

def Record.fields (record : Record) : List Text :=
  [record.id.text, record.name.text, showPid record.pid, record.hostname.text, record.rootfs.text,
    stateToString record.state, record.commandLine.text, showLimit record.resourceLimits.cpuSeconds,
    showLimit record.resourceLimits.memoryMb, showLimit record.resourceLimits.maxProcesses]

/-- What one `fprintf` of `save_metadata` prints in front of its newline. -/
def Record.line (record : Record) : Text := [tab].intercalate record.fields

def encodeRegistry (records : List Record) : Text := records.flatMap (·.line ++ [newline])

/-! ## Reading -/

/-- `trim_newline`. -/
def trimNewline (line : Text) : Text := cutAt [carriageReturn, newline] line

/-- The fields of a line; the token loop stops storing at ten. -/
def splitFields (line : Text) : List Text := (strtok tab (trimNewline line)).take 10

def recordOfFields (id name pid hostname rootfs state commandLine : Text) (limits : ResourceConfig) : Record where
  id := copyString 64 id
  name := copyString 64 name
  pid := readPid pid
  hostname := copyString 64 hostname
  rootfs := copyString 512 rootfs
  commandLine := copyString 256 commandLine
  resourceLimits := limits
  state := stringToState state

def decodeFields : List Text → Option Record
  | [id, name, pid, hostname, rootfs, state] =>
    some (recordOfFields id name pid hostname rootfs state defaultContainerCommand .unlimited)
  | [id, name, pid, hostname, rootfs, state, command] =>
    some (recordOfFields id name pid hostname rootfs state command .unlimited)
  | [id, name, pid, hostname, rootfs, state, command, cpu, mem, procs] =>
    some (recordOfFields id name pid hostname rootfs state command
      ⟨readLimit cpu, readLimit mem, readLimit procs⟩)
  | _ => none

/-- One round of the loop of `container_manager_init`, as far as the record is concerned. -/
def decodeLine (line : Text) : Option Record := decodeFields (splitFields line)

/-- `char line[1024]`. -/
def metadataLineSize : Nat := 1024

def decodeRegistry (file : Text) : List Record := (fgetsAll metadataLineSize file).filterMap decodeLine

/-! ## Texts that survive -/

/-- Free of the separators of the file. -/
def Plain (text : Text) : Prop := tab ∉ text ∧ carriageReturn ∉ text ∧ newline ∉ text

instance (text : Text) : Decidable (Plain text) :=
  inferInstanceAs (Decidable (tab ∉ text ∧ carriageReturn ∉ text ∧ newline ∉ text))

def Record.Clean (record : Record) : Prop := ∀ text ∈ record.texts, Plain text

instance (record : Record) : Decidable record.Clean :=
  inferInstanceAs (Decidable (∀ text ∈ record.texts, Plain text))

instance (record : Record) : Decidable record.Filled :=
  inferInstanceAs (Decidable (∀ text ∈ record.texts, text ≠ []))

theorem plain_of_printable {text : Text} (printable : ∀ c ∈ text, c.isDigit = true ∨ c = '-') : Plain text := by
  refine ⟨?_, ?_, ?_⟩ <;>
  · intro member
    rcases printable _ member with digit | dash
    · exact absurd digit (by decide)
    · exact absurd dash (by decide)

theorem plain_showLimit (value : UInt32) : Plain (showLimit value) :=
  plain_of_printable fun c member => Or.inl ((numeral_showUnsigned _).2 c member)

theorem plain_showPid (pid : Pid) : Plain (showPid pid) := by
  apply plain_of_printable
  intro c member
  unfold showPid showInt at member
  split at member
  · rcases List.mem_cons.mp member with dash | digit
    · exact Or.inr dash
    · exact Or.inl ((numeral_showUnsigned _).2 c digit)
  · exact Or.inl ((numeral_showUnsigned _).2 c member)

theorem plain_stateToString (state : ContainerState) : Plain (stateToString state) := by
  cases state <;> decide

theorem showPid_ne_nil (pid : Pid) : showPid pid ≠ [] := by
  unfold showPid showInt
  split
  · simp
  · exact (numeral_showUnsigned _).1

/-- The numeric and state fields never need the hypotheses on the texts. -/
theorem Record.fields_plain {record : Record} (filled : record.Filled) (clean : record.Clean) :
    ∀ field ∈ record.fields, field ≠ [] ∧ Plain field := by
  have text : ∀ field ∈ record.texts, field ≠ [] ∧ Plain field := fun field member =>
    ⟨filled field member, clean field member⟩
  intro field member
  simp only [Record.fields, List.mem_cons, List.not_mem_nil, or_false] at member
  rcases member with rfl | rfl | rfl | rfl | rfl | rfl | rfl | rfl | rfl | rfl
  · exact text _ (by simp [Record.texts])
  · exact text _ (by simp [Record.texts])
  · exact ⟨showPid_ne_nil _, plain_showPid _⟩
  · exact text _ (by simp [Record.texts])
  · exact text _ (by simp [Record.texts])
  · exact ⟨by cases record.state <;> decide, plain_stateToString _⟩
  · exact text _ (by simp [Record.texts])
  · exact ⟨(numeral_showUnsigned _).1, plain_showLimit _⟩
  · exact ⟨(numeral_showUnsigned _).1, plain_showLimit _⟩
  · exact ⟨(numeral_showUnsigned _).1, plain_showLimit _⟩

/-- A line breaks only where a field does. -/
theorem Record.line_unbroken {record : Record} (plain : ∀ field ∈ record.fields, Plain field) :
    ∀ c ∈ record.line, c ∉ [carriageReturn, newline] := by
  intro c member broken
  rcases mem_intercalate member with rfl | ⟨field, listed, inside⟩
  · exact absurd broken (by decide)
  · obtain ⟨_, noReturn, noNewline⟩ := plain field listed
    simp only [List.mem_cons, List.not_mem_nil, or_false] at broken
    rcases broken with rfl | rfl
    · exact noReturn inside
    · exact noNewline inside

/-- Every line fits the buffer of the reader, whatever its texts and numbers. -/
theorem Record.length_line_lt (record : Record) : record.line.length + 1 < metadataLineSize := by
  have id := record.id.fits
  have name := record.name.fits
  have hostname := record.hostname.fits
  have rootfs := record.rootfs.fits
  have command := record.commandLine.fits
  have pid := length_showPid_le record.pid
  have cpu := length_showLimit_le record.resourceLimits.cpuSeconds
  have mem := length_showLimit_le record.resourceLimits.memoryMb
  have procs := length_showLimit_le record.resourceLimits.maxProcesses
  have state : (stateToString record.state).length ≤ 7 := by cases record.state <;> decide
  simp only [Record.line, Record.fields, List.intercalate_cons_cons, List.intercalate_singleton,
    List.length_append, List.length_singleton, metadataLineSize]
  omega

theorem stringToState_stateToString (state : ContainerState) : stringToState (stateToString state) = state := by
  cases state <;> decide

theorem decodeFields_fields (record : Record) : decodeFields record.fields = some record := by
  simp only [Record.fields, decodeFields, recordOfFields, copyString_text, readPid_showPid,
    readLimit_showLimit, stringToState_stateToString]

theorem decodeLine_line {record : Record} (filled : record.Filled) (clean : record.Clean) :
    decodeLine (record.line ++ [newline]) = some record := by
  have plain := record.fields_plain filled clean
  have unbroken := Record.line_unbroken fun field member => (plain field member).2
  have trimmed : trimNewline (record.line ++ [newline]) = record.line :=
    cutAt_append unbroken (by decide)
  have tokens : strtok tab record.line = record.fields :=
    strtok_intercalate tab fun field member => ⟨(plain field member).1, (plain field member).2.1⟩
  have ten : record.fields.take 10 = record.fields := List.take_of_length_le (by simp [Record.fields])
  rw [decodeLine, splitFields, trimmed, tokens, ten, decodeFields_fields]

/-- Reading inverts writing on filled, clean records. -/
theorem decodeRegistry_encodeRegistry {records : List Record}
    (good : ∀ record ∈ records, record.Filled ∧ record.Clean) :
    decodeRegistry (encodeRegistry records) = records := by
  have short : ∀ line ∈ records.map Record.line, newline ∉ line ∧ line.length + 1 < metadataLineSize := by
    intro line member
    obtain ⟨record, listed, rfl⟩ := List.mem_map.mp member
    obtain ⟨filled, clean⟩ := good record listed
    refine ⟨fun broken => ?_, record.length_line_lt⟩
    exact Record.line_unbroken (fun field inside => (record.fields_plain filled clean field inside).2)
      newline broken (by decide)
  have pieces : encodeRegistry records = (records.map Record.line).flatMap (· ++ [newline]) := by
    rw [encodeRegistry, List.flatMap_map]
  rw [decodeRegistry, pieces, fgetsAll_lines short, List.map_map, List.filterMap_map]
  clear pieces short
  induction records with
  | nil => rfl
  | cons record rest ih =>
    obtain ⟨filled, clean⟩ := good record List.mem_cons_self
    have tail := ih fun other member => good other (List.mem_cons_of_mem record member)
    rw [List.filterMap_cons]
    simp only [Function.comp_apply, decodeLine_line filled clean]
    exact congrArg (record :: ·) tail

/-! ## Nothing else is read back -/

theorem plain_of_mem_splitFields {line field : Text} (member : field ∈ splitFields line) :
    field ≠ [] ∧ Plain field := by
  have token := List.mem_of_mem_take member
  obtain ⟨given, noTab⟩ := strtok_token token
  refine ⟨given, noTab, fun inside => ?_, fun inside => ?_⟩
  · exact not_mem_cutAt (by decide) (mem_of_mem_strtok token inside)
  · exact not_mem_cutAt (by decide) (mem_of_mem_strtok token inside)

theorem copyString_plain {size : Nat} [NeZero size] {src : Text} (room : 1 < size)
    (good : src ≠ [] ∧ Plain src) : (copyString size src).text ≠ [] ∧ Plain (copyString size src).text :=
  ⟨copyString_ne_nil room good.1, fun inside => good.2.1 (mem_of_mem_snprintf inside),
    fun inside => good.2.2.1 (mem_of_mem_snprintf inside), fun inside => good.2.2.2 (mem_of_mem_snprintf inside)⟩

theorem recordOfFields_plain {id name pid hostname rootfs state command : Text} {limits : ResourceConfig}
    (good : ∀ field ∈ [id, name, hostname, rootfs, command], field ≠ [] ∧ Plain field) :
    ∀ text ∈ (recordOfFields id name pid hostname rootfs state command limits).texts, text ≠ [] ∧ Plain text := by
  intro text member
  simp only [Record.texts, recordOfFields, List.mem_cons, List.not_mem_nil, or_false] at member
  rcases member with rfl | rfl | rfl | rfl | rfl <;>
    exact copyString_plain (by decide) (good _ (by simp))

theorem decodeLine_plain {line : Text} {record : Record} (decoded : decodeLine line = some record) :
    record.Filled ∧ record.Clean := by
  have fields : ∀ field ∈ splitFields line, field ≠ [] ∧ Plain field := fun field member =>
    plain_of_mem_splitFields member
  have texts : ∀ text ∈ record.texts, text ≠ [] ∧ Plain text := by
    unfold decodeLine decodeFields at decoded
    split at decoded
    · rename_i same
      cases decoded
      rw [same] at fields
      apply recordOfFields_plain
      simp only [List.forall_mem_cons, List.not_mem_nil, false_imp_iff, implies_true, and_true] at fields ⊢
      exact ⟨fields.1, fields.2.1, fields.2.2.2.1, fields.2.2.2.2.1, by decide⟩
    · rename_i same
      cases decoded
      rw [same] at fields
      apply recordOfFields_plain
      simp only [List.forall_mem_cons, List.not_mem_nil, false_imp_iff, implies_true, and_true] at fields ⊢
      exact ⟨fields.1, fields.2.1, fields.2.2.2.1, fields.2.2.2.2.1, fields.2.2.2.2.2.2⟩
    · rename_i same
      cases decoded
      rw [same] at fields
      apply recordOfFields_plain
      simp only [List.forall_mem_cons, List.not_mem_nil, false_imp_iff, implies_true, and_true] at fields ⊢
      exact ⟨fields.1, fields.2.1, fields.2.2.2.1, fields.2.2.2.2.1, fields.2.2.2.2.2.2.1⟩
    · cases decoded
  exact ⟨fun text member => (texts text member).1, fun text member => (texts text member).2⟩

/-- Whatever the file holds, a restored record has non-empty texts without separators. -/
theorem decodeRegistry_plain {file : Text} {record : Record} (member : record ∈ decodeRegistry file) :
    record.Filled ∧ record.Clean := by
  obtain ⟨line, _, decoded⟩ := List.mem_filterMap.mp member
  exact decodeLine_plain decoded

/-- How a record comes into the registry, and what may change there. -/
inductive Record.Made : Record → Prop
  | created (spec : ContainerSpec) (sequence : Nat) {resolved : Buffer 512} (given : resolved.text ≠ []) :
      Made (createdRecord spec sequence resolved)
  | restored {line : Text} {record : Record} (read : decodeLine line = some record) : Made record
  | changed {record : Record} (made : Made record) (pid : Pid) (state : ContainerState) :
      Made { record with pid := pid, state := state }

theorem Record.Made.filled {record : Record} (made : record.Made) : record.Filled := by
  induction made with
  | created spec sequence given => exact createdRecord_filled spec sequence given
  | restored read => exact (decodeLine_plain read).1
  | changed _ _ _ ih => exact ih

theorem made_of_decodeRegistry {file : Text} {record : Record} (member : record ∈ decodeRegistry file) : record.Made :=
  have ⟨_, _, read⟩ := List.mem_filterMap.mp member
  .restored read

end ContainerRuntime
