import ContainerRuntime.Logger.Fields

/-! A line of `container.log`, from `log_event_type_va` to `parse_log_line`.

The parser looks for the first `] ` and, behind it, for the first `: `. A stamp
has no bracket and an event type no such pair, so what follows them is found
whole, whatever the message is.
-/

set_option autoImplicit false

namespace ContainerRuntime.Logger

open CString

/-- The text of a line. -/
def lineText (stamp : Stamp) (eventType message : Text) : Text :=
  '[' :: stamp.1 ++ (lit "] " ++ (eventType ++ (lit ": " ++ message)))

/-- What `log_event_type_va` appends to the file. -/
def logEventTypeVa (stamp : Stamp) (eventType message : Text) : Text := lineText stamp eventType message ++ [newline]

/-- The lines of the manager are written this way. -/
theorem lineText_of_logLine (strerror : Errno → Text) (line : LogLine) :
    lineText line.stamp line.call.eventType (line.call.message strerror) = line.text strerror := by
  simp [lineText, LogLine.text, LogLine.front]

/-- The record of a line that is written and then read, with this text behind it in the file. -/
def readBack (stamp : Stamp) (eventType message rest : Text) (flag : Bool) : LogRecord :=
  parseLogLine (fgets (bufferSize - 1) (logEventTypeVa stamp eventType message ++ rest)).1 flag

/-- An event type that fits its field and that the separator does not end early. -/
structure EventText (eventType : Text) : Prop where
  size : 1 ≤ eventType.length ∧ eventType.length ≤ 63
  whole : carriageReturn ∉ eventType ∧ newline ∉ eventType ∧ nul ∉ eventType
  unbroken : ¬ lit ": " <:+: eventType

/-- A message of one line that fits its field. -/
structure MessageText (message : Text) : Prop where
  short : message.length ≤ 767
  whole : carriageReturn ∉ message ∧ newline ∉ message ∧ nul ∉ message

/-- The first id in a text with all of its digits, as far as it fits its field, or nothing. -/
def firstId (text : Text) : Text := ((mentions text).head?.map (snprintf 64)).getD []

section

variable {stamp : Stamp} {eventType message : Text}

theorem lineText_plain (kind : EventText eventType) (text : MessageText message) {c : Char} (ends : c = carriageReturn ∨ c = newline) :
    c ∉ lineText stamp eventType message := by
  have stamped : c ∉ stamp.1 := by
    rcases ends with rfl | rfl
    · exact not_mem_stamp stamp (by decide)
    · exact not_mem_stamp stamp (by decide)
  have marks : c ∉ '[' :: (lit "] " ++ lit ": ") := by
    rcases ends with rfl | rfl
    · decide
    · decide
  have typed : c ∉ eventType := by
    rcases ends with rfl | rfl
    · exact kind.whole.1
    · exact kind.whole.2.1
  have told : c ∉ message := by
    rcases ends with rfl | rfl
    · exact text.whole.1
    · exact text.whole.2.1
  simp only [List.mem_cons, List.mem_append, not_or] at marks
  simp only [lineText, List.cons_append, List.mem_cons, List.mem_append, not_or]
  exact ⟨marks.1, stamped, marks.2.1, typed, marks.2.2, told⟩

theorem length_lineText_lt (kind : EventText eventType) (text : MessageText message) :
    (lineText stamp eventType message).length < bufferSize - 1 := by
  have stamped := stamp.2.1
  have typed := kind.size.2
  have told := text.short
  simp only [lineText, List.length_append, List.length_cons, show (lit "] ").length = 2 from rfl, show (lit ": ").length = 2 from rfl,
    bufferSize]
  omega

theorem trimNewline_lineText (kind : EventText eventType) (text : MessageText message) :
    trimNewline (logEventTypeVa stamp eventType message) = lineText stamp eventType message := by
  have clean : ∀ c ∈ lineText stamp eventType message, c ∉ [carriageReturn, newline] := by
    intro c member rejected
    simp only [List.mem_cons, List.not_mem_nil, or_false] at rejected
    exact lineText_plain kind text rejected member
  have kept := cutAt_front clean []
  rw [List.append_nil] at kept
  rw [logEventTypeVa, trimNewline, cutAt_concat (by decide), kept]
  exact List.append_nil _

/-- The first bracket of the line is the one behind the stamp. -/
theorem lineText_close :
    strstr (lit "] ") (lineText stamp eventType message) = some (lit "] " ++ (eventType ++ (lit ": " ++ message))) := by
  have bracket : ']' ∉ '[' :: stamp.1 := by
    simp only [List.mem_cons, not_or]
    exact ⟨by decide, not_mem_stamp stamp (by decide)⟩
  rw [lineText, show lit "] " = ']' :: [' '] from rfl, strstr_skip bracket, strstr_self]

/-- What stands between the brackets is the stamp. -/
theorem lineText_stamp : ((lineText stamp eventType message).drop 1).take
    ((lineText stamp eventType message).length - (lit "] " ++ (eventType ++ (lit ": " ++ message))).length - 1) = stamp.1 := by
  have size : (lineText stamp eventType message).length - (lit "] " ++ (eventType ++ (lit ": " ++ message))).length - 1 =
      stamp.1.length := by
    rw [lineText, List.length_append, Nat.add_sub_cancel, List.length_cons, Nat.add_sub_cancel]
  rw [size, lineText, List.cons_append, List.drop_one, List.tail_cons, List.take_left]

theorem readBack_eq (kind : EventText eventType) (text : MessageText message) (rest : Text) (flag : Bool) :
    readBack stamp eventType message rest flag =
      ⟨copyString 32 stamp.1, copyString 64 eventType, copyString 768 message, extractContainerId message, flag⟩ := by
  have room : (lineText stamp eventType message).length < bufferSize - 1 := length_lineText_lt kind text
  have read : fgets (bufferSize - 1) (logEventTypeVa stamp eventType message ++ rest) =
      (logEventTypeVa stamp eventType message, rest) := by
    rw [logEventTypeVa, List.append_assoc]
    exact fgets_line (bufferSize - 1) rest (lineText_plain kind text (.inr rfl)) room
  have copied : snprintf bufferSize (logEventTypeVa stamp eventType message) = logEventTypeVa stamp eventType message := by
    apply snprintf_of_fits
    rw [logEventTypeVa, List.length_append, List.length_singleton]
    omega
  -- The event type has no `: `, so the first one is the separator, whatever the message has.
  have separator : strstr (lit ": ") (eventType ++ (lit ": " ++ message)) = some (lit ": " ++ message) :=
    strstr_pair (by decide) kind.unbroken message
  have told : (copyString 768 message).text = message := copyString_of_fits (Nat.lt_succ_of_le text.short)
  have opened : (lineText stamp eventType message).head? = some '[' := rfl
  have behind : (lit "] " ++ (eventType ++ (lit ": " ++ message))).drop 2 = eventType ++ (lit ": " ++ message) := rfl
  have typed : (eventType ++ (lit ": " ++ message)).take
      ((eventType ++ (lit ": " ++ message)).length - (lit ": " ++ message).length) = eventType := by
    rw [List.length_append, Nat.add_sub_cancel, List.take_left]
  have last : (lit ": " ++ message).drop 2 = message := rfl
  simp only [readBack, read, parseLogLine, copied, trimNewline_lineText kind text, opened, lineText_close, behind, separator, lineText_stamp, typed,
    last, told, ne_eq, not_true_eq_false, if_false]

end

/-! ## The messages of the manager -/

/-- A message about a container has the id behind a text without a `c`, and no digit follows it. -/
theorem message_of_subject (strerror : Errno → Text) {entry : LogEvent} {id : Text} (subject : entry.subject = some id) :
    ∃ front c, front ++ (id ++ [c]) <+: entry.message strerror ∧ front ∈ [[], lit "failed to stop ", lit "failed to reap ",
      lit "startup isolation failed for "] ∧ (c = ' ' ∨ c = ':') := by
  have begins : ∀ {front mark back : Text}, front ++ (id ++ mark) <+: front ++ (id ++ (mark ++ back)) := by
    intro front mark back
    exact (List.prefix_append_right_inj front).mpr ((List.prefix_append_right_inj id).mpr (List.prefix_append _ _))
  cases entry with
  | exited _ _ _ | recovered _ | stopped _ _ | created _ | started _ _ | deleted _ =>
    cases subject
    refine ⟨[], ' ', ?_, by simp, .inl rfl⟩
    simp only [LogEvent.message, List.append_assoc]
    exact begins
  | failedToStop _ _ =>
    cases subject
    refine ⟨lit "failed to stop ", ' ', ?_, by simp, .inl rfl⟩
    simp only [LogEvent.message, List.append_assoc]
    exact begins
  | failedToReap _ _ =>
    cases subject
    refine ⟨lit "failed to reap ", ' ', ?_, by simp, .inl rfl⟩
    simp only [LogEvent.message, List.append_assoc]
    exact begins
  | startFailed _ _ =>
    cases subject
    refine ⟨lit "startup isolation failed for ", ':', ?_, by simp, .inr rfl⟩
    simp only [LogEvent.message, List.append_assoc]
    exact begins
  | _ => cases subject

/-- Whatever user text follows the id, and even if the line is longer than the buffer, the record is the container's. -/
theorem containerId_of_subject (strerror : Errno → Text) (line : LogLine) {entry : LogEvent} {id : Text}
    (call : line.call = .manager entry) (subject : entry.subject = some id) (formed : IsContainerId id) (fits : id.length < 64)
    (rest : Text) (flag : Bool) :
    (parseLogLine (fgets (bufferSize - 1) (line.text strerror ++ newline :: rest)).1 flag).containerId.text = id := by
  obtain ⟨front, c, ⟨back, message⟩, known, mark⟩ := message_of_subject strerror subject
  have apart : 'c' ∉ front ∧ carriageReturn ∉ front ∧ newline ∉ front ∧ front.length ≤ 29 := by
    simp only [List.mem_cons, List.not_mem_nil, or_false] at known
    rcases known with rfl | rfl | rfl | rfl
    all_goals decide
  have ending : c.isDigit = false ∧ c ≠ carriageReturn ∧ c ≠ newline := by
    rcases mark with rfl | rfl
    all_goals decide
  have endless := endless_id formed
  have clean : carriageReturn ∉ front ++ (id ++ [c]) ∧ newline ∉ front ++ (id ++ [c]) := by
    simp only [List.mem_append, List.mem_singleton, not_or]
    exact ⟨⟨apart.2.1, endless.1, ending.2.1.symm⟩, apart.2.2.1, endless.2, ending.2.2.symm⟩
  have short : (front ++ (id ++ [c])).length ≤ 767 := by
    have bound := apart.2.2.2
    simp only [List.length_append, List.length_singleton]
    omega
  obtain ⟨tail, kept⟩ := keptMessage_front clean short back
  have whole : keptMessage (entry.message strerror) = front ++ (id ++ c :: tail) := by
    rw [← message]
    simpa using kept
  rw [fgets_ended, (parseLogLine_parts _ flag).2.2.1, messageOf_first, call]
  change (extractContainerId (keptMessage (entry.message strerror))).text = id
  rw [whole]
  exact extractContainerId_front apart.1 formed fits ending.1

/-- What is logged is read back: every line as it was written, and the lines of the manager as those of their container. -/
theorem logLine_round_trip :
    (∀ (stamp : Stamp) (eventType message rest : Text) (flag : Bool), EventText eventType → MessageText message →
      (readBack stamp eventType message rest flag).timestamp.text = stamp.1 ∧
      (readBack stamp eventType message rest flag).event.text = eventType ∧
      (readBack stamp eventType message rest flag).message.text = message ∧
      (readBack stamp eventType message rest flag).containerId.text = firstId message) ∧
    ∀ (strerror : Errno → Text) (stamp : Stamp) (entry : LogEvent) (id rest : Text) (flag : Bool), entry.subject = some id →
      IsContainerId id → id.length < 64 →
      (readBack stamp entry.eventType (entry.message strerror) rest flag).containerId.text = id := by
  constructor
  · intro stamp eventType message rest flag kind text
    rw [readBack_eq kind text]
    exact ⟨copyString_of_fits stamp.2.1, copyString_of_fits (Nat.lt_succ_of_le kind.size.2),
      copyString_of_fits (Nat.lt_succ_of_le text.short), extractContainerId_eq message⟩
  · intro strerror stamp entry id rest flag subject formed fits
    have read := containerId_of_subject strerror ⟨stamp, .manager entry⟩ rfl subject formed fits rest flag
    rw [← lineText_of_logLine] at read
    rw [readBack, logEventTypeVa, List.append_assoc]
    exact read

def sampleStamp : Stamp := ⟨lit "2024-01-31 09:05:00", by decide⟩

/-- An event type that ends with a colon, a message with separators and half an id, and a message of the manager. -/
theorem logLine_round_trip_two :
    ((readBack sampleStamp (lit "A] B:") (lit "x: container-a] container-12y") [] true).timestamp.text = sampleStamp.1 ∧
      (readBack sampleStamp (lit "A] B:") (lit "x: container-a] container-12y") [] true).event.text = lit "A] B:" ∧
      (readBack sampleStamp (lit "A] B:") (lit "x: container-a] container-12y") [] true).message.text =
        lit "x: container-a] container-12y" ∧
      (readBack sampleStamp (lit "A] B:") (lit "x: container-a] container-12y") [] true).containerId.text = lit "container-12") ∧
    (readBack sampleStamp (LogEvent.failedToStop (lit "container-0001") 7).eventType
      ((LogEvent.failedToStop (lit "container-0001") 7).message fun _ => []) [] true).containerId.text = lit "container-0001" := by
  have unbroken : ¬ lit ": " <:+: lit "A] B:" := by
    intro here
    have found := strstr_isSome_iff.mpr here
    revert found
    decide
  have first : firstId (lit "x: container-a] container-12y") = lit "container-12" := by decide
  rw [← first]
  constructor
  · exact logLine_round_trip.1 sampleStamp (lit "A] B:") (lit "x: container-a] container-12y") [] true
      ⟨by decide, by decide, unbroken⟩ ⟨by decide, by decide⟩
  · exact logLine_round_trip.2 (fun _ => []) sampleStamp (.failedToStop (lit "container-0001") 7) (lit "container-0001") [] true rfl
      ⟨lit "0001", by decide, rfl⟩ (by decide)

end ContainerRuntime.Logger
