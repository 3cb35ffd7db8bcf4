import ContainerRuntime.Manager.Restart

/-! What `container_manager_init` accepts as `containers.meta`.

The file is meant to have one record a line, with 6, 7 or 10 fields. The loop
that reads it stops counting fields at ten and takes a line longer than its
buffer for several, so it accepts more than that; and it reads back what
`save_metadata` writes exactly where no text is empty or holds a separator.
-/

set_option autoImplicit false

namespace ContainerRuntime

open CString Cli Program
open Prog (read modify)

/-! ## The grammar -/

/-- The fields of a line: what stands between tabs in front of its first CR, less what is empty. -/
def lineFields (line : Text) : List Text := strtok tab (cutAt [carriageReturn] line)

/-- The line, without its newline, fits the buffer. -/
def FitsBuffer (line : Text) : Prop := line.length < metadataLineSize

instance : DecidablePred FitsBuffer := fun _ => inferInstanceAs (Decidable (_ < _))

/-- The record that a line stands for. -/
def grammarLine (line : Text) : Option Record := if FitsBuffer line then decodeFields (lineFields line) else none

/-- The records of a file, one for each line that is one. -/
def grammarRecords (file : Text) : List Record := (file.splitOn newline).filterMap grammarLine

/-- A number of fields that the loop accepts. -/
def Accepted (count : Nat) : Prop := count = 6 ∨ count = 7 ∨ count = 10

instance : DecidablePred Accepted := fun _ => inferInstanceAs (Decidable (_ ∨ _))

theorem decodeFields_isSome (fields : List Text) : (decodeFields fields).isSome = true ↔ Accepted fields.length := by
  rcases fields with - | ⟨-, - | ⟨-, - | ⟨-, - | ⟨-, - | ⟨-, - | ⟨-, - | ⟨-, - | ⟨-, - | ⟨-, - | ⟨-, - | ⟨-, rest⟩⟩⟩⟩⟩⟩⟩⟩⟩⟩⟩ <;>
    simp [decodeFields, Accepted]

/-- A line that the loop takes for something else: one that fits and has more than ten fields, or one that is longer than
the buffer and has a piece with an accepted number of fields, of which ten are counted. -/
def Misread (line : Text) : Prop :=
  FitsBuffer line ∧ 10 < (lineFields line).length ∨
    ¬ FitsBuffer line ∧ ∃ piece ∈ fgetsAll metadataLineSize line, Accepted (splitFields piece).length

instance : DecidablePred Misread := fun _ => inferInstanceAs (Decidable (_ ∨ _))

/-! ## The pieces of a line -/

theorem decodeLine_newline (piece : Text) : decodeLine (piece ++ [newline]) = decodeLine piece := by
  have cut : trimNewline (piece ++ [newline]) = trimNewline piece := cutAt_concat (by decide) piece
  rw [decodeLine, decodeLine, splitFields, splitFields, cut]

theorem decodeLine_nil : decodeLine [] = none := rfl

/-- What is read from one line. -/
def readLine (line : Text) : List Record := (fgetsAll metadataLineSize line).filterMap decodeLine

theorem decodeRegistry_eq (file : Text) : decodeRegistry file = (file.splitOn newline).flatMap readLine :=
  filterMap_fgetsAll decodeLine_newline decodeLine_nil file

theorem trimNewline_line {line : Text} (whole : newline ∉ line) : trimNewline line = cutAt [carriageReturn] line := by
  unfold trimNewline cutAt
  induction line with
  | nil => rfl
  | cons c rest ih =>
    simp only [List.mem_cons, not_or] at whole
    have other : c ≠ newline := fun same => whole.1 same.symm
    rw [List.takeWhile_cons, List.takeWhile_cons, ih whole.2]
    simp [other]

theorem splitFields_line {line : Text} (whole : newline ∉ line) : splitFields line = (lineFields line).take 10 := by
  rw [splitFields, trimNewline_line whole, lineFields]

theorem readLine_fits {line : Text} (whole : newline ∉ line) (fits : FitsBuffer line) :
    readLine line = (decodeFields ((lineFields line).take 10)).toList := by
  rw [readLine]
  by_cases empty : line = []
  · subst empty
    rfl
  · rw [metadataLineSize, fgetsAll_short whole (Nat.le_of_lt_succ fits) empty, ← splitFields_line whole, ← decodeLine]
    cases found : decodeLine line with
    | none => simp [found]
    | some record => simp [found]

/-- A line that is not misread gives its record. -/
theorem readLine_of_read {line : Text} (whole : newline ∉ line) (well : ¬ Misread line) :
    readLine line = (grammarLine line).toList := by
  by_cases fits : FitsBuffer line
  · have few : (lineFields line).length ≤ 10 := Nat.le_of_not_lt fun many => well (.inl ⟨fits, many⟩)
    rw [readLine_fits whole fits, grammarLine, if_pos fits, List.take_of_length_le few]
  · rw [grammarLine, if_neg fits, readLine, Option.toList_none, List.filterMap_eq_nil_iff]
    intro piece member
    have refused : ¬ Accepted (splitFields piece).length := fun accepted => well (.inr ⟨fits, piece, member, accepted⟩)
    rw [← decodeFields_isSome] at refused
    exact Option.not_isSome_iff_eq_none.mp refused

/-- A line that is misread gives a record that it does not stand for. -/
theorem readLine_of_misread {line : Text} (whole : newline ∉ line) (misread : Misread line) :
    grammarLine line = none ∧ 0 < (readLine line).length := by
  rcases misread with ⟨fits, many⟩ | ⟨long, piece, member, accepted⟩
  · have refused : decodeFields (lineFields line) = none := by
      apply Option.not_isSome_iff_eq_none.mp
      rw [decodeFields_isSome]
      rintro (six | seven | ten) <;> omega
    have taken : ((lineFields line).take 10).length = 10 := by
      rw [List.length_take]
      omega
    have found : (decodeFields ((lineFields line).take 10)).isSome = true :=
      (decodeFields_isSome _).mpr (.inr (.inr taken))
    refine ⟨by rw [grammarLine, if_pos fits, refused], ?_⟩
    rw [readLine_fits whole fits]
    obtain ⟨record, same⟩ := Option.isSome_iff_exists.mp found
    simp [same]
  · refine ⟨by rw [grammarLine, if_neg long], ?_⟩
    obtain ⟨record, same⟩ := Option.isSome_iff_exists.mp ((decodeFields_isSome _).mpr accepted)
    exact List.length_pos_of_mem (List.mem_filterMap.mpr ⟨piece, member, same⟩)

/-- The records that are read are those of the grammar, or more of them. -/
theorem decodeRegistry_grammar (file : Text) :
    ((∀ line ∈ file.splitOn newline, ¬ Misread line) ∧ decodeRegistry file = grammarRecords file) ∨
      (∃ line ∈ file.splitOn newline, Misread line) ∧ (grammarRecords file).length < (decodeRegistry file).length := by
  have each : ∀ line ∈ file.splitOn newline, newline ∉ line := fun line member => not_mem_of_mem_splitOn member
  have flat : grammarRecords file = (file.splitOn newline).flatMap fun line => (grammarLine line).toList :=
    List.filterMap_eq_flatMap_toList _ _
  rw [decodeRegistry_eq, flat]
  generalize file.splitOn newline = lines at each
  -- A misread line only adds records, so one of them is enough to make the list longer.
  induction lines with
  | nil => exact .inl ⟨nofun, rfl⟩
  | cons first rest ih =>
    have whole := each first List.mem_cons_self
    have later := ih fun line member => each line (List.mem_cons_of_mem _ member)
    rw [List.flatMap_cons, List.flatMap_cons]
    by_cases misread : Misread first
    · obtain ⟨none, some⟩ := readLine_of_misread whole misread
      refine .inr ⟨⟨first, List.mem_cons_self, misread⟩, ?_⟩
      rw [none, List.length_append, List.length_append, Option.toList_none, List.length_nil]
      rcases later with ⟨-, same⟩ | ⟨-, fewer⟩
      · rw [same]
        omega
      · omega
    · rw [readLine_of_read whole misread]
      rcases later with ⟨well, same⟩ | ⟨⟨line, member, bad⟩, fewer⟩
      · exact .inl ⟨List.forall_mem_cons.mpr ⟨misread, well⟩, by rw [same]⟩
      · refine .inr ⟨⟨line, List.mem_cons_of_mem _ member, bad⟩, ?_⟩
        rw [List.length_append, List.length_append]
        omega

/-! ## Start-up -/

/-- The container of a record: as it stands, or stopped because its process is not there. -/
def RestoredAs (record : Record) (c : Container) : Prop :=
  c = bare record ∨ record.state = .RUNNING ∧ c = retired (bare record)

theorem RestoredAs.retired {record : Record} {c : Container} (restored : RestoredAs record c) (running : c.state = .RUNNING) :
    RestoredAs record (ContainerRuntime.retired c) := by
  rcases restored with rfl | ⟨-, rfl⟩
  · exact .inr ⟨running, rfl⟩
  · cases running

theorem forall₂_replace {α β : Type} {R : α → β → Prop} {l : List α} {front back : List β} {b c : β}
    (all : List.Forall₂ R l (front ++ b :: back)) (replaced : ∀ a, R a b → R a c) : List.Forall₂ R l (front ++ c :: back) := by
  induction front generalizing l with
  | nil =>
    obtain ⟨a, rest, here, later, rfl⟩ := List.forall₂_cons_right_iff.mp all
    exact .cons (replaced a here) later
  | cons first front ih =>
    obtain ⟨a, rest, here, later, rfl⟩ := List.forall₂_cons_right_iff.mp all
    exact .cons here (ih later)

theorem restoredAs_of_retires {alive : Pid → Prop} {records : List Record} {after : List Container}
    (chain : Relation.ReflTransGen (Retires alive) (records.map bare) after) : List.Forall₂ RestoredAs records after := by
  -- Each link of the chain retires one record of the list.
  induction chain with
  | refl => exact List.forall₂_map_right_iff.mpr (List.forall₂_same.mpr fun record _ => .inl rfl)
  | tail _ step ih =>
    obtain ⟨front, back, c, running, -⟩ := step
    exact forall₂_replace ih fun record restored => restored.retired running

/-- A manager that is started on a host where no call fails restores one container for each line that is a record, in order
and nothing else, exactly if no line is misread. -/
theorem init_grammar_iff (file : Text) (w : World) (stored : w.disk = some file) (smooth : w.Smooth fun _ => False) :
    ∃ after, containerManagerInit w.crash = (.done true, after) ∧
      (List.Forall₂ RestoredAs (grammarRecords file) after.memory.registry ↔
        ∀ line ∈ file.splitOn newline, ¬ Misread line) := by
  obtain ⟨after, init, chain⟩ := init_of_smooth smooth stored
  refine ⟨after, init, ?_⟩
  have restored := restoredAs_of_retires chain
  rcases decodeRegistry_grammar file with ⟨well, same⟩ | ⟨⟨line, member, misread⟩, fewer⟩
  · rw [same] at restored
    exact ⟨fun _ => well, fun _ => restored⟩
  · constructor
    · intro exactly
      have one := exactly.length_eq
      have two := restored.length_eq
      omega
    · exact fun well => absurd misread (well line member)

/-- A host with this file, on which nothing happens and no call fails. -/
def hostOf (file : Text) : World := { World.initial (fun _ => Tick.calm) fun _ => none with disk := some file }

theorem hostOf_smooth (file : Text) : (hostOf file).Smooth fun _ => False :=
  ⟨fun _ _ => ⟨rfl, rfl, fun _ member => by cases member⟩, nofun⟩

/-- Two lines that are records, one with CR, and one that is not. -/
theorem plain_file_restored :
    let file := lit "container-0001\tweb\t-1\thost\t/srv\tSTOPPED\r\ncontainer-0002\tdb\nc\tx\t-1\ty\tz\tCREATED\tsh\t1\t2\t3"
    ∃ after, containerManagerInit (hostOf file).crash = (.done true, after) ∧
      (grammarRecords file).map (·.id.text) = [lit "container-0001", lit "c"] ∧
      List.Forall₂ RestoredAs (grammarRecords file) after.memory.registry := by
  intro file
  obtain ⟨after, init, exactly⟩ := init_grammar_iff file (hostOf file) rfl (hostOf_smooth file)
  exact ⟨after, init, by decide +kernel, exactly.mpr (by decide +kernel)⟩

/-- A line with eleven fields is restored from its first ten. -/
theorem eleven_fields_restored :
    let file := lit "container-0001\tweb\t-1\thost\t/srv\tSTOPPED\tsh\t0\t0\t0\tmore\n"
    grammarRecords file = [] ∧
      (containerManagerInit (hostOf file).crash).2.memory.registry.map (·.id.text) = [lit "container-0001"] := by
  decide +kernel

/-! ## The domain of the codec -/

/-- Every line that is saved fits one `fgets`, and the list that a manager restores from a saved one is the same exactly if
no text of it is empty or holds a tab, CR or LF. -/
theorem codec_exact (records : List Record) (w : World) (stored : w.disk = some (encodeRegistry records))
    (smooth : w.Smooth fun pid => ∃ record ∈ records, record.state = .RUNNING ∧ record.pid = pid) :
    (∀ record ∈ records, (record.line ++ [newline]).length ≤ 1023) ∧
      ∃ after, containerManagerInit w.crash = (.done true, after) ∧
        (after.memory.records = records ↔ ∀ record ∈ records, record.Filled ∧ record.Clean) := by
  constructor
  · intro record _
    have short := record.length_line_lt
    unfold metadataLineSize at short
    rw [List.length_append, List.length_singleton]
    omega
  obtain ⟨after, init, chain⟩ := init_of_smooth smooth stored
  refine ⟨after, init, fun same record member => ?_, fun good => ?_⟩
  · rw [← same] at member
    obtain ⟨c, listed, rfl⟩ := List.mem_map.mp member
    obtain ⟨d, there, texts⟩ := texts_of_retires chain c listed
    obtain ⟨found, decoded, rfl⟩ := List.mem_map.mp there
    have plain := decodeRegistry_plain decoded
    exact ⟨fun text inside => plain.1 text (texts ▸ inside), fun text inside => plain.2 text (texts ▸ inside)⟩
  · rw [decodeRegistry_encodeRegistry good] at chain
    have whole : after.memory.registry = records.map bare := by
      refine eq_of_retires (fun c member running => ?_) chain
      obtain ⟨record, listed, rfl⟩ := List.mem_map.mp member
      exact ⟨record, listed, running, rfl⟩
    rw [Memory.records, whole, List.map_map]
    exact List.map_id _

/-- One container that runs, and one whose name is empty. -/
theorem codec_exact_two :
    let spec : ContainerSpec := ⟨some (lit "web"), none, none, some (lit "sleep 9"), .unlimited⟩
    let first : Record := { createdRecord spec 1 Tick.calm.path.1 with state := .RUNNING, pid := 7 }
    let second : Record := { createdRecord spec 2 Tick.calm.path.1 with name := copyString 64 [] }
    let w := { hostOf (encodeRegistry [first, second]) with procs := fun pid => if pid = 7 then some ⟨none, false, none, false⟩ else none }
    ∃ after, containerManagerInit w.crash = (.done true, after) ∧ after.memory.records ≠ [first, second] := by
  intro spec first second w
  have smooth : w.Smooth fun pid => ∃ record ∈ [first, second], record.state = .RUNNING ∧ record.pid = pid := by
    refine ⟨fun _ _ => ⟨rfl, rfl, fun _ member => by cases member⟩, ?_⟩
    rintro pid ⟨record, member, running, rfl⟩
    rcases List.mem_cons.mp member with rfl | other
    · exact ⟨by decide, rfl⟩
    · rw [List.mem_singleton.mp other] at running
      cases running
  obtain ⟨-, after, init, exactly⟩ := codec_exact [first, second] w rfl smooth
  refine ⟨after, init, fun same => ?_⟩
  have filled := (exactly.mp same second (List.mem_cons_of_mem _ List.mem_cons_self)).1
  exact filled [] (by decide +kernel) rfl

end ContainerRuntime
