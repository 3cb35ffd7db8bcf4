import ContainerRuntime.Logger.Records

/-! `logger_follow` next to other writers of `container.log`.

A writer appends one whole line at a time, and may do so between any two calls
of the follower. What the follower resumes from is a file offset: after the
first read it is the size of the file at the time of the seek, after a poll it
is the position that was really reached.
-/

set_option autoImplicit false

namespace ContainerRuntime.Logger

open CString

/-- What `log_event_type_va` writes in front of its newline. -/
abbrev Line := { text : Text // newline ∉ text ∧ nul ∉ text }

/-- The bytes of a file of whole lines. -/
def fileText (lines : List Line) : Text := lines.flatMap (·.1 ++ [newline])

/-- Where `logger_follow` stands, with the position of the stream it has open. -/
inductive FollowPlace where
  /-- About to open the log. -/
  | opening
  /-- In the loop of `logger_read_records`. -/
  | reading (position : Nat)
  /-- Its `fgets` has returned NULL; `fseek(file, 0, SEEK_END)` is next. -/
  | ended
  /-- `ftell(file)` is next. -/
  | sought (position : Nat)
  /-- At the top of the polling loop. -/
  | polling
  /-- `stat` has shown more than was read. -/
  | grown
  /-- `fseek(stream, offset, SEEK_SET)` is next. -/
  | opened
  /-- In the loop that reads the poll. -/
  | rereading (position : Nat)
  /-- `offset = ftell(stream)` is next. -/
  | reread (position : Nat)
  | returned
  deriving DecidableEq

structure FollowState where
  lines : List Line
  place : FollowPlace
  offset : Nat
  /-- The records parsed so far, by the first read and by all polls. -/
  records : List LogRecord
  /-- How many lines the file had when the follower last found nothing more in it. -/
  known : Nat
  deriving DecidableEq

/-- How the next call of the follower ends. -/
inductive Outcome where
  | succeeds | fails
  /-- `container_consume_interrupt`, at the top of the loop. -/
  | interrupted
  deriving DecidableEq

inductive FollowAct where
  | append (line : Line)
  | follower (outcome : Outcome)
  deriving DecidableEq

section

variable (filter : Option Text)

/-- The record that is made of a line read whole. -/
def recordOf (line : Line) : LogRecord :=
  parseLogLine (line.1 ++ [newline]) (lineMatchesContainer (line.1 ++ [newline]) filter)

/-- One `fgets` of a reading loop: the record and the position behind it, or nothing at the end of the file. -/
def readNext (text : Text) (position : Nat) : Option (LogRecord × Nat) :=
  if position < text.length then
    let piece := (fgets (bufferSize - 1) (text.drop position)).1
    some (parseLogLine piece (lineMatchesContainer piece filter), position + piece.length)
  else none

/-- The next call of `logger_follow`. -/
def followNext (outcome : Outcome) (s : FollowState) : FollowState :=
  let text := fileText s.lines
  match s.place with
  | .opening => { s with place := if outcome = .succeeds then .reading 0 else .returned }
  | .reading position =>
    match readNext filter text position with
    | some (record, next) =>
      -- There may be no memory for the record.
      if outcome = .fails then { s with place := .returned }
      else { s with place := .reading next, records := s.records ++ [record] }
    | none => { s with place := .ended, known := s.lines.length }
  | .ended => { s with place := if outcome = .succeeds then .sought text.length else .returned }
  | .sought position => { s with place := .polling, offset := position }
  | .polling =>
    match outcome with
    | .interrupted => { s with place := .returned }
    | .fails => s
    | .succeeds =>
      let offset := if text.length < s.offset then 0 else s.offset
      if offset < text.length then { s with place := .grown, offset := offset }
      else { s with offset := offset, known := s.lines.length }
  | .grown => { s with place := if outcome = .succeeds then .opened else .polling }
  | .opened => { s with place := if outcome = .succeeds then .rereading s.offset else .polling }
  | .rereading position =>
    match readNext filter text position with
    | some (record, next) => { s with place := .rereading next, records := s.records ++ [record] }
    | none => { s with place := .reread position, known := s.lines.length }
  | .reread position => { s with place := .polling, offset := position }
  | .returned => s

def followStep (s : FollowState) : FollowAct → FollowState
  | .append line => { s with lines := s.lines ++ [line] }
  | .follower outcome => followNext filter outcome s

/-- Any order of the follower's calls and of appends. -/
def followRun (s : FollowState) (acts : List FollowAct) : FollowState := acts.foldl (followStep filter) s

/-- `logger_follow` is called with this log. -/
def followStart (lines : List Line) : FollowState := ⟨lines, .opening, 0, [], 0⟩

/-- The records are those of the lines of the file up to some line, each once, and no line is missing that was there when
the follower last looked. -/
structure ReadsOnce (s : FollowState) : Prop where
  exact : s.records = (s.lines.take s.records.length).map (recordOf filter)
  complete : s.known ≤ s.records.length

/-- A line that `fgets` delivers in one piece. -/
def Short (line : Line) : Prop := line.1.length + 1 < bufferSize

instance : DecidablePred Short := fun _ => inferInstanceAs (Decidable (_ < _))

/-- Nothing is appended between the end of the first read and the seek behind it, and no line is longer than the buffer. -/
def Undisturbed (s : FollowState) : FollowAct → Prop
  | .append line => s.place ≠ .ended ∧ Short line
  | .follower _ => True

instance (s : FollowState) : DecidablePred (Undisturbed s)
  | .append _ => inferInstanceAs (Decidable (_ ∧ _))
  | .follower _ => inferInstanceAs (Decidable True)

def RunUndisturbed (s : FollowState) : List FollowAct → Prop
  | [] => True
  | act :: later => Undisturbed s act ∧ RunUndisturbed (followStep filter s act) later

instance decidableRunUndisturbed : (s : FollowState) → DecidablePred (RunUndisturbed filter s)
  | _, [] => inferInstanceAs (Decidable True)
  | s, act :: later =>
    have := decidableRunUndisturbed (followStep filter s act) later
    inferInstanceAs (Decidable (_ ∧ _))

end

/-! ## Positions in the file -/

theorem fileText_append (front back : List Line) : fileText (front ++ back) = fileText front ++ fileText back := List.flatMap_append

theorem fileText_cons (line : Line) (rest : List Line) : fileText (line :: rest) = line.1 ++ newline :: fileText rest := by
  simp [fileText]

/-- The position behind a number of lines. -/
def positionAt (lines : List Line) (count : Nat) : Nat := (fileText (lines.take count)).length

theorem positionAt_append {lines : List Line} {count : Nat} (inside : count ≤ lines.length) (line : Line) :
    positionAt (lines ++ [line]) count = positionAt lines count := by
  rw [positionAt, positionAt, List.take_append_of_le_length inside]

theorem fileText_drop (lines : List Line) (count : Nat) : (fileText lines).drop (positionAt lines count) = fileText (lines.drop count) := by
  have divided : fileText lines = fileText (lines.take count) ++ fileText (lines.drop count) := by
    rw [← fileText_append, List.take_append_drop]
  rw [divided, positionAt, List.drop_left]

/-- A position inside the file has a line behind it. -/
theorem lt_length_iff {lines : List Line} {count : Nat} (inside : count ≤ lines.length) :
    positionAt lines count < (fileText lines).length ↔ count < lines.length := by
  have divided : (fileText lines).length = positionAt lines count + (fileText (lines.drop count)).length := by
    rw [positionAt, ← List.length_append, ← fileText_append, List.take_append_drop]
  -- Every line has its newline, so a line that is left makes the file longer.
  constructor
  · intro before
    by_contra last
    rw [List.drop_of_length_le (by omega)] at divided
    simp only [fileText, List.flatMap_nil, List.length_nil] at divided before
    omega
  · intro before
    rw [List.drop_eq_getElem_cons before, fileText_cons, List.length_append, List.length_cons] at divided
    omega

theorem positionAt_le (lines : List Line) (count : Nat) : positionAt lines count ≤ (fileText lines).length := by
  have divided : (fileText lines).length = positionAt lines count + (fileText (lines.drop count)).length := by
    rw [positionAt, ← List.length_append, ← fileText_append, List.take_append_drop]
  omega

/-- Reading from behind a number of lines delivers the next one. -/
theorem readNext_line (filter : Option Text) {lines : List Line} {count : Nat} {line : Line} (here : lines[count]? = some line)
    (short : Short line) :
    readNext filter (fileText lines) (positionAt lines count) = some (recordOf filter line, positionAt lines (count + 1)) := by
  obtain ⟨before, same⟩ := List.getElem?_eq_some_iff.mp here
  have rest : (fileText lines).drop (positionAt lines count) = line.1 ++ newline :: fileText (lines.drop (count + 1)) := by
    rw [fileText_drop, List.drop_eq_getElem_cons before, same, fileText_cons]
  have call : fgets (bufferSize - 1) ((fileText lines).drop (positionAt lines count)) =
      (line.1 ++ [newline], fileText (lines.drop (count + 1))) := by
    rw [rest]
    exact fgets_line _ _ line.2.1 (by unfold Short at short; omega)
  have next : positionAt lines (count + 1) = positionAt lines count + (line.1 ++ [newline]).length := by
    rw [positionAt, positionAt, List.take_add_one, here, Option.toList_some, fileText_append, List.length_append]
    simp [fileText]
  rw [readNext, if_pos ((lt_length_iff (Nat.le_of_lt before)).mpr before), call, next, recordOf]

theorem readNext_end (filter : Option Text) (lines : List Line) {count : Nat} (inside : count ≤ lines.length) :
    readNext filter (fileText lines) (positionAt lines count) = none ↔ count = lines.length := by
  rw [readNext]
  split
  · rename_i before
    have := (lt_length_iff inside).mp before
    simp only [reduceCtorEq, false_iff]
    omega
  · rename_i behind
    rw [lt_length_iff inside] at behind
    simp only [true_iff]
    omega

/-! ## The invariant -/

/-- The position from which the follower goes on. Before the seek behind the first read it is the end of the file. -/
def FollowState.resumesAt (s : FollowState) : Option Nat :=
  match s.place with
  | .opening => some 0
  | .reading position | .sought position | .rereading position | .reread position => some position
  | .ended => some (fileText s.lines).length
  | .polling | .grown | .opened => some s.offset
  | .returned => none

/-- All lines in front of some position have been read once, and the follower goes on from there. -/
structure Caught (filter : Option Text) (s : FollowState) (count : Nat) : Prop where
  inside : count ≤ s.lines.length
  short : ∀ line ∈ s.lines, Short line
  records : s.records = (s.lines.take count).map (recordOf filter)
  known : s.known ≤ count
  resumes : ∀ position ∈ s.resumesAt, position = positionAt s.lines count

section

variable {filter : Option Text} {s : FollowState} {count : Nat}

theorem Caught.readsOnce (caught : Caught filter s count) : ReadsOnce filter s := by
  have length : s.records.length = count := by
    rw [caught.records, List.length_map, List.length_take, Nat.min_eq_left caught.inside]
  constructor
  · rw [length]
    exact caught.records
  · rw [length]
    exact caught.known

/-- The file grows behind what has been read. -/
theorem Caught.append (caught : Caught filter s count) {line : Line} (elsewhere : s.place ≠ .ended) (short : Short line) :
    Caught filter (followStep filter s (.append line)) count := by
  refine ⟨?_, ?_, ?_, caught.known, ?_⟩
  · simp only [followStep, List.length_append]
    exact Nat.le_add_right_of_le caught.inside
  · intro other member
    rcases List.mem_append.mp member with old | new
    · exact caught.short other old
    · rw [List.mem_singleton.mp new]
      exact short
  · simp only [followStep]
    rw [List.take_append_of_le_length caught.inside]
    exact caught.records
  · intro position found
    -- Only behind the end of the first read does the position depend on the size of the file.
    have same : position ∈ s.resumesAt := by
      unfold FollowState.resumesAt at found ⊢
      cases place : s.place <;> simp_all [followStep]
    simp only [followStep]
    rw [positionAt_append caught.inside]
    exact caught.resumes position same

/-- The follower moves on without reading. -/
theorem Caught.move (caught : Caught filter s count) {place : FollowPlace} {offset : Nat}
    (resumes : ∀ position ∈ ({ s with place := place, offset := offset } : FollowState).resumesAt, position = positionAt s.lines count) :
    Caught filter { s with place := place, offset := offset } count :=
  ⟨caught.inside, caught.short, caught.records, caught.known, resumes⟩

/-- Nothing is left to read. -/
theorem Caught.look (caught : Caught filter s count) {place : FollowPlace} {offset : Nat} (last : count = s.lines.length)
    (resumes : ∀ position ∈ ({ s with place := place, offset := offset } : FollowState).resumesAt, position = positionAt s.lines count) :
    Caught filter { s with place := place, offset := offset, known := s.lines.length } count :=
  ⟨caught.inside, caught.short, caught.records, Nat.le_of_eq last.symm, resumes⟩

/-- One call of a reading loop. -/
theorem Caught.read (caught : Caught filter s count) {position : Nat} (here : position = positionAt s.lines count) :
    (∃ record next, readNext filter (fileText s.lines) position = some (record, next) ∧ next = positionAt s.lines (count + 1) ∧
      ∀ place, (∀ later ∈ ({ s with place := place } : FollowState).resumesAt, later = next) →
        Caught filter { s with place := place, records := s.records ++ [record] } (count + 1)) ∨
    readNext filter (fileText s.lines) position = none ∧ count = s.lines.length := by
  subst here
  -- The count is at the end of the file, or there is one more line to deliver.
  by_cases last : count = s.lines.length
  · exact Or.inr ⟨(readNext_end filter s.lines caught.inside).mpr last, last⟩
  · have before : count < s.lines.length := Nat.lt_of_le_of_ne caught.inside last
    obtain ⟨line, found⟩ : ∃ line, s.lines[count]? = some line := ⟨_, List.getElem?_eq_getElem before⟩
    have short := caught.short line (List.mem_of_getElem? found)
    refine Or.inl ⟨_, _, readNext_line filter found short, rfl, ?_⟩
    intro place resumes
    refine ⟨before, caught.short, ?_, Nat.le_succ_of_le caught.known, resumes⟩
    simp only
    rw [List.take_add_one, found, Option.toList_some, List.map_append, caught.records]
    rfl

/-- A call of the follower keeps up with the file. -/
theorem Caught.follower (caught : Caught filter s count) (outcome : Outcome) :
    ∃ later, Caught filter (followNext filter outcome s) later := by
  -- One case for each call: it reads a line, finds none, or only moves on.
  have resumes := caught.resumes
  unfold FollowState.resumesAt at resumes
  unfold followNext
  cases place : s.place with
  | opening =>
    simp only [place, Option.mem_some, forall_eq'] at resumes ⊢
    refine ⟨count, caught.move ?_⟩
    by_cases went : outcome = .succeeds <;> simp [FollowState.resumesAt, went, ← resumes]
  | reading position =>
    simp only [place, Option.mem_some, forall_eq'] at resumes ⊢
    rcases caught.read resumes with ⟨record, next, found, -, moved⟩ | ⟨found, last⟩
    · simp only [found]
      split
      · refine ⟨count, caught.move ?_⟩
        simp [FollowState.resumesAt]
      · refine ⟨count + 1, moved _ ?_⟩
        simp [FollowState.resumesAt]
    · rw [found]
      refine ⟨count, caught.look last ?_⟩
      simp [FollowState.resumesAt, positionAt, last]
  | ended =>
    simp only [place, Option.mem_some, forall_eq'] at resumes ⊢
    refine ⟨count, caught.move ?_⟩
    by_cases went : outcome = .succeeds <;> simp [FollowState.resumesAt, went, ← resumes]
  | sought position =>
    simp only [place, Option.mem_some, forall_eq'] at resumes ⊢
    refine ⟨count, caught.move ?_⟩
    simp [FollowState.resumesAt, resumes]
  | polling =>
    simp only [place, Option.mem_some, forall_eq'] at resumes ⊢
    cases outcome with
    | interrupted =>
      refine ⟨count, caught.move ?_⟩
      simp [FollowState.resumesAt]
    | fails => exact ⟨count, caught⟩
    | succeeds =>
      -- The file is never shorter than what was read of it.
      have grown : ¬ (fileText s.lines).length < s.offset := by
        rw [resumes]
        exact Nat.not_lt.mpr (positionAt_le s.lines count)
      simp only [grown, if_false]
      split
      · refine ⟨count, caught.move ?_⟩
        simp [FollowState.resumesAt, resumes]
      · rename_i same
        rw [resumes, lt_length_iff caught.inside] at same
        refine ⟨count, caught.look (Nat.le_antisymm caught.inside (Nat.not_lt.mp same)) ?_⟩
        simp [FollowState.resumesAt, resumes]
  | grown =>
    simp only [place, Option.mem_some, forall_eq'] at resumes ⊢
    refine ⟨count, caught.move ?_⟩
    by_cases went : outcome = .succeeds <;> simp [FollowState.resumesAt, went, ← resumes]
  | opened =>
    simp only [place, Option.mem_some, forall_eq'] at resumes ⊢
    refine ⟨count, caught.move ?_⟩
    by_cases went : outcome = .succeeds <;> simp [FollowState.resumesAt, went, ← resumes]
  | rereading position =>
    simp only [place, Option.mem_some, forall_eq'] at resumes ⊢
    rcases caught.read resumes with ⟨record, next, found, -, moved⟩ | ⟨found, last⟩
    · rw [found]
      refine ⟨count + 1, moved _ ?_⟩
      simp [FollowState.resumesAt]
    · rw [found]
      refine ⟨count, caught.look last ?_⟩
      simp [FollowState.resumesAt, resumes]
  | reread position =>
    simp only [place, Option.mem_some, forall_eq'] at resumes ⊢
    refine ⟨count, caught.move ?_⟩
    simp [FollowState.resumesAt, resumes]
  | returned => exact ⟨count, caught⟩

theorem Caught.step (caught : Caught filter s count) {act : FollowAct} (undisturbed : Undisturbed s act) :
    ∃ later, Caught filter (followStep filter s act) later := by
  cases act with
  | append line => exact ⟨count, caught.append undisturbed.1 undisturbed.2⟩
  | follower outcome => exact caught.follower outcome

theorem Caught.run (caught : Caught filter s count) {acts : List FollowAct} (undisturbed : RunUndisturbed filter s acts) :
    ∃ later, Caught filter (followRun filter s acts) later := by
  -- Every step may change how many lines have been read, so the count is generalised.
  induction acts generalizing s count with
  | nil => exact ⟨count, caught⟩
  | cons act later ih =>
    obtain ⟨next, stepped⟩ := caught.step undisturbed.1
    exact ih stepped undisturbed.2

theorem RunUndisturbed.take {acts done : List FollowAct} (undisturbed : RunUndisturbed filter s acts) (earlier : done <+: acts) :
    RunUndisturbed filter s done := by
  induction done generalizing s acts with
  | nil => trivial
  | cons act done ih =>
    obtain ⟨rest, rfl⟩ := earlier
    exact ⟨undisturbed.1, ih undisturbed.2 (List.prefix_append _ _)⟩

end

theorem caught_start (filter : Option Text) {lines : List Line} (short : ∀ line ∈ lines, Short line) :
    Caught filter (followStart lines) 0 := by
  refine ⟨Nat.zero_le _, short, rfl, Nat.le_refl _, ?_⟩
  simp [FollowState.resumesAt, followStart, positionAt, fileText]

/-- A run in which nothing is appended between the end of the first read and the seek behind it has at every point parsed
the lines of the file once each, up to some line, and every line that was there when it last looked. -/
theorem follow_reads_once (filter : Option Text) (lines : List Line) (short : ∀ line ∈ lines, Short line) (acts : List FollowAct)
    (undisturbed : RunUndisturbed filter (followStart lines) acts) (done : List FollowAct) (earlier : done <+: acts) :
    ReadsOnce filter (followRun filter (followStart lines) done) := by
  obtain ⟨count, caught⟩ := (caught_start filter short).run (undisturbed.take earlier)
  exact caught.readsOnce

/-! A log of one line, and two lines that are appended to it. -/

def firstLine : Line := ⟨lit "[t] CONTAINER_CREATED: container-0001 name=a", by decide⟩
def secondLine : Line := ⟨lit "[t] CONTAINER_STARTED: container-0001 pid=7", by decide⟩
def thirdLine : Line := ⟨lit "[t] CONTAINER_DELETED: container-0001 deleted", by decide⟩

/-- Some calls of the follower that succeed. -/
def calls (count : Nat) : List FollowAct := List.replicate count (.follower .succeeds)

/-- One line is appended during the first read and one behind the seek. -/
def appendsAround : List FollowAct := calls 1 ++ [.append secondLine] ++ calls 4 ++ [.append thirdLine] ++ calls 7

/-- One line is appended behind the end of the first read and in front of the seek. -/
def appendsBetween : List FollowAct := calls 3 ++ [.append secondLine] ++ calls 2 ++ [.append thirdLine] ++ calls 6

theorem appendsAround_read :
    ReadsOnce none (followRun none (followStart [firstLine]) appendsAround) ∧
      (followRun none (followStart [firstLine]) appendsAround).records.length = 3 :=
  ⟨follow_reads_once none [firstLine] (by decide) appendsAround (by decide +kernel) appendsAround (List.prefix_refl _), by decide +kernel⟩

/-- The second line is skipped for good: the records are those of the first and the third. -/
theorem appendsBetween_skips :
    (followRun none (followStart [firstLine]) appendsBetween).lines = [firstLine, secondLine, thirdLine] ∧
      ¬ ReadsOnce none (followRun none (followStart [firstLine]) appendsBetween) := by
  refine ⟨by decide +kernel, ?_⟩
  intro once
  exact absurd once.exact (by decide +kernel)

end ContainerRuntime.Logger
