import ContainerRuntime.Logger.Records

/-! Which records `logs <id>` selects.

The filter looks for the id anywhere in the line, the id of a record is the
first one in its message. They agree on a line unless the requested id stands
in it elsewhere, behind another id of the message or as the front of a longer one.
-/

set_option autoImplicit false

namespace ContainerRuntime.Logger

open CString

/-- An id of the form `container-N`. -/
def IsContainerId (id : Text) : Prop := ∃ digits, Numeral digits ∧ id = idPrefix ++ digits

theorem isContainerId_ne_nil {id : Text} (formed : IsContainerId id) : id ≠ [] := by
  obtain ⟨digits, -, rfl⟩ := formed
  simp [idPrefix, lit]

/-! ## The ids in a text -/

/-- The id that a text begins with, with all of its digits. -/
def mentionAt (text : Text) : Option Text :=
  let digits := leadingDigits (text.drop idPrefix.length)
  if idPrefix.isPrefixOf text = true ∧ digits ≠ [] then some (idPrefix ++ digits) else none

/-- The ids in a text, in their order. -/
def mentions : Text → List Text
  | [] => []
  | c :: rest => (mentionAt (c :: rest)).toList ++ mentions rest

theorem mentionAt_eq_none {text : Text} (elsewhere : idPrefix.isPrefixOf text = false) : mentionAt text = none := by
  simp [mentionAt, elsewhere]

theorem idPrefix_append (rest : Text) : idPrefix ++ rest = 'c' :: (lit "ontainer-" ++ rest) := rfl

/-- No id begins inside the prefix of another, whose first letter does not come back. -/
theorem mentions_idPrefix (rest : Text) : mentions (idPrefix ++ rest) = (mentionAt (idPrefix ++ rest)).toList ++ mentions rest := by
  rw [idPrefix_append, mentions]
  rfl

/-- Nothing is mentioned in front of the first prefix. -/
theorem mentions_strstr (text : Text) : mentions text = ((strstr idPrefix text).map mentions).getD [] := by
  induction text with
  | nil => rfl
  | cons c rest ih =>
    unfold strstr
    by_cases here : idPrefix.isPrefixOf (c :: rest) = true
    · simp [here]
    · have elsewhere := Bool.eq_false_iff.mpr here
      rw [mentions, mentionAt_eq_none elsewhere, ih]
      simp [elsewhere]

/-- The loop finds the first of them. -/
theorem extractIdLoop_eq {rounds : Nat} {text : Text} (enough : text.length < rounds) :
    extractIdLoop rounds text = (mentions text).head? := by
  -- Each round goes past one prefix, so the text that is left gets shorter.
  induction rounds generalizing text with
  | zero => omega
  | succ rounds ih =>
    unfold extractIdLoop
    rw [mentions_strstr]
    cases found : strstr idPrefix text with
    | none => rfl
    | some cursor =>
      obtain ⟨⟨rest, rfl⟩, ends⟩ := strstr_some found
      have shorter : rest.length < rounds := by
        have bound := ends.length_le
        rw [List.length_append, show idPrefix.length = 10 from rfl] at bound
        omega
      have begins : idPrefix.isPrefixOf (idPrefix ++ rest) = true := by simp
      simp only [List.drop_left, Option.map_some, Option.getD_some, mentions_idPrefix, mentionAt, begins, true_and]
      by_cases bare : leadingDigits rest = []
      · simp [bare, ih shorter]
      · simp [bare]

theorem extractContainerId_eq (text : Text) : (extractContainerId text).text = ((mentions text).head?.map (snprintf 64)).getD [] := by
  unfold extractContainerId
  rw [extractIdLoop_eq (Nat.lt_succ_self _)]
  cases (mentions text).head? <;> rfl

/-- An id is read up to its last digit. -/
theorem mentionAt_some {text id : Text} (here : mentionAt text = some id) :
    IsContainerId id ∧ ∃ rest, text = id ++ rest ∧ leadingDigits rest = [] := by
  simp only [mentionAt] at here
  split at here
  · rename_i found
    obtain ⟨begins, some⟩ := found
    obtain ⟨tail, rfl⟩ := List.isPrefixOf_iff_prefix.mp begins
    rw [List.drop_left] at some here
    cases here
    refine ⟨⟨_, ⟨some, fun d inside => List.mem_takeWhile_imp inside⟩, rfl⟩, tail.dropWhile Char.isDigit, ?_, leadingDigits_rest tail⟩
    rw [List.append_assoc, leadingDigits, List.takeWhile_append_dropWhile]
  · cases here

theorem mem_mentions {text id : Text} (member : id ∈ mentions text) : IsContainerId id ∧ id <:+: text := by
  induction text with
  | nil => cases member
  | cons c rest ih =>
    rcases List.mem_append.mp member with here | later
    · obtain ⟨formed, tail, whole, -⟩ := mentionAt_some (Option.mem_toList.mp here)
      rw [whole]
      exact ⟨formed, (List.prefix_append _ _).isInfix⟩
    · obtain ⟨formed, inside⟩ := ih later
      exact ⟨formed, inside.trans (List.infix_cons (List.infix_refl _))⟩

/-- An id occurs in a text exactly where an id in it begins that way. -/
theorem infix_iff_mentions {id text : Text} (formed : IsContainerId id) : id <:+: text ↔ ∃ found ∈ mentions text, id <+: found := by
  obtain ⟨digits, numeral, rfl⟩ := formed
  constructor
  · intro inside
    -- The id is at the front of the text, or further on.
    induction text with
    | nil =>
      have empty := List.infix_nil.mp inside
      simp [idPrefix, lit] at empty
    | cons c rest ih =>
      rcases List.infix_cons_iff.mp inside with ⟨tail, whole⟩ | later
      · have begins : idPrefix.isPrefixOf (c :: rest) = true := by
          rw [← whole, List.append_assoc]
          simp
        have covered : digits <+: leadingDigits ((c :: rest).drop idPrefix.length) := by
          rw [← whole, List.append_assoc, List.drop_left, leadingDigits, List.takeWhile_append_of_pos numeral.2]
          exact List.prefix_append _ _
        have some : leadingDigits ((c :: rest).drop idPrefix.length) ≠ [] := by
          intro empty
          rw [empty] at covered
          exact numeral.1 (List.prefix_nil.mp covered)
        refine ⟨idPrefix ++ leadingDigits ((c :: rest).drop idPrefix.length), ?_, (List.prefix_append_right_inj _).mpr covered⟩
        simp [mentions, mentionAt, begins, some]
      · obtain ⟨found, member, begins⟩ := ih later
        exact ⟨found, List.mem_append_right _ member, begins⟩
  · rintro ⟨found, member, begins⟩
    exact begins.isInfix.trans (mem_mentions member).2

theorem mentions_eq_nil_iff {text : Text} : mentions text = [] ↔ ∀ id, IsContainerId id → ¬ id <:+: text := by
  constructor
  · intro none id formed here
    obtain ⟨found, member, -⟩ := (infix_iff_mentions formed).mp here
    rw [none] at member
    cases member
  · intro none
    apply List.eq_nil_iff_forall_not_mem.mpr
    intro id member
    obtain ⟨formed, here⟩ := mem_mentions member
    exact none id formed here

/-- An id in a text does not reach into the next one, whose first letter it does not have again. -/
theorem mentionAt_append (c : Char) (gap rest : Text) : mentionAt (c :: (gap ++ 'c' :: rest)) = mentionAt (c :: gap) := by
  have begins : idPrefix <+: c :: (gap ++ 'c' :: rest) ↔ idPrefix <+: c :: gap := by
    rw [show idPrefix = 'c' :: lit "ontainer-" from rfl, List.cons_prefix_cons, List.cons_prefix_cons,
      prefix_append_cons_iff (by decide)]
  by_cases here : idPrefix <+: c :: gap
  · obtain ⟨tail, whole⟩ := here
    have digits : leadingDigits (tail ++ 'c' :: rest) = leadingDigits tail := leadingDigits_append_other _ (by decide)
    rw [← List.cons_append, ← whole, List.append_assoc]
    simp [mentionAt, digits]
  · have there : ¬ idPrefix <+: c :: (gap ++ 'c' :: rest) := fun later => here (begins.mp later)
    rw [← List.isPrefixOf_iff_prefix, Bool.not_eq_true] at here there
    rw [mentionAt_eq_none here, mentionAt_eq_none there]

theorem mentions_append (gap rest : Text) : mentions (gap ++ 'c' :: rest) = mentions gap ++ mentions ('c' :: rest) := by
  induction gap with
  | nil => rfl
  | cons c gap ih => rw [List.cons_append, mentions, mentionAt_append, ih, ← List.append_assoc, ← mentions]

/-- The first id of a text has no id in front of it and no digit behind it. -/
theorem head?_mentions_iff {text found : Text} :
    (mentions text).head? = some found ↔
      IsContainerId found ∧ ∃ gap rest, text = gap ++ (found ++ rest) ∧ mentions gap = [] ∧ leadingDigits rest = [] := by
  constructor
  · intro head
    have formed := (mem_mentions (List.mem_of_mem_head? head)).1
    refine ⟨formed, ?_⟩
    induction text with
    | nil => cases head
    | cons c text ih =>
      rw [mentions] at head
      cases here : mentionAt (c :: text) with
      | some id =>
        rw [here] at head
        obtain rfl : id = found := Option.some.inj head
        obtain ⟨-, rest, whole, ended⟩ := mentionAt_some here
        exact ⟨[], rest, whole, rfl, ended⟩
      | none =>
        rw [here] at head
        obtain ⟨gap, rest, rfl, none, ended⟩ := ih head
        refine ⟨c :: gap, rest, rfl, ?_, ended⟩
        -- Where none begins in the whole text, none begins in the part in front of the id.
        obtain ⟨digits, -, rfl⟩ := formed
        rw [List.append_assoc, idPrefix_append, mentionAt_append] at here
        rw [mentions, here, none]
        rfl
  · rintro ⟨⟨digits, numeral, rfl⟩, gap, rest, rfl, none, ended⟩
    have all : leadingDigits (digits ++ rest) = digits := by
      rw [leadingDigits_numeral_append numeral.2, ended, List.append_nil]
    have first : mentionAt (idPrefix ++ (digits ++ rest)) = some (idPrefix ++ digits) := by
      simp [mentionAt, all, numeral.1]
    rw [List.append_assoc, idPrefix_append, mentions_append, none, List.nil_append, ← idPrefix_append, mentions_idPrefix, first]
    rfl

/-! ## One line -/

/-- `[stamp] TYPE: `, the front of a line. Neither part has the mark that ends it. -/
def IsFront (front : Text) : Prop :=
  ∃ stamp eventType, front = '[' :: stamp ++ (lit "] " ++ (eventType ++ lit ": ")) ∧
    ¬ lit "] " <:+: '[' :: stamp ∧ ¬ lit ": " <:+: eventType

/-- A text that does not begin with a stamp. -/
def Unstamped (text : Text) : Prop := text.head? = some '[' → ¬ lit "] " <:+: text

/-- A line up to its line end is a front and the message, or the message alone. -/
def Carries (line message : Text) : Prop :=
  (∃ front, IsFront front ∧ trimNewline line = front ++ message) ∨ Unstamped message ∧ trimNewline line = message

/-- The id stands in the message, with no id in front of it. -/
def Leads (id message : Text) : Prop :=
  ∃ gap rest, message = gap ++ (id ++ rest) ∧ (∀ other, IsContainerId other → ¬ other <:+: gap) ∧
    -- It is in the part of the message that is kept, and fits its own field.
    gap.length + id.length ≤ 767 ∧ id.length ≤ 63 ∧
    -- No digit comes behind it, unless one of the two is full.
    (leadingDigits rest = [] ∨ gap.length + id.length = 767 ∨ id.length = 63)

/-- A line in which the id stands is about that container. -/
def Clear (id line : Text) : Prop := id <:+: line → ∃ message, Carries line message ∧ Leads id message

/-- The message that `parse_log_line` stores for a line. -/
def messageOf (line : Text) : Text := (parseLogLine line false).message.text

theorem copyString_begins {size : Nat} [NeZero size] (text : Text) : (copyString size text).text <+: text :=
  List.take_prefix _ _

/-- What all records have in common: the message is a part of the line, and the id is looked for in it. -/
theorem parseLogLine_parts (line : Text) (flag : Bool) :
    (parseLogLine line flag).matchesFilter = flag ∧ (parseLogLine line flag).message.text = messageOf line ∧
      (parseLogLine line flag).containerId = extractContainerId (messageOf line) ∧ messageOf line <:+: line := by
  have cut : trimNewline (snprintf bufferSize line) <:+: line :=
    ((List.takeWhile_prefix _).trans (List.take_prefix _ _)).isInfix
  have whole : (copyString 768 (trimNewline (snprintf bufferSize line))).text <:+: line :=
    (copyString_begins _).isInfix.trans cut
  dsimp only [messageOf, parseLogLine]
  split
  · exact ⟨rfl, rfl, rfl, whole⟩
  · split
    · exact ⟨rfl, rfl, rfl, whole⟩
    · rename_i close found
      split
      · exact ⟨rfl, rfl, rfl, List.nil_infix⟩
      · rename_i separator later
        have ends : separator.drop 2 <:+ trimNewline (snprintf bufferSize line) :=
          (List.drop_suffix _ _).trans ((strstr_some later).2.trans ((List.drop_suffix _ _).trans (strstr_some found).2))
        exact ⟨rfl, rfl, rfl, (copyString_begins _).isInfix.trans (ends.isInfix.trans cut)⟩

/-- A line whose message begins with the id. -/
theorem clear_of_front {id front rest line : Text} (marked : IsFront front) (fits : id.length ≤ 63) (ended : leadingDigits rest = [])
    (shown : trimNewline line = front ++ (id ++ rest)) : Clear id line := by
  intro _
  refine ⟨id ++ rest, Or.inl ⟨front, marked, shown⟩, [], rest, rfl, ?_, ?_, fits, Or.inl ended⟩
  · exact fun other formed inside => isContainerId_ne_nil formed (List.infix_nil.mp inside)
  · rw [List.length_nil]
    omega

theorem Carries.infix {line message : Text} (carries : Carries line message) : message <:+: line := by
  have cut : trimNewline line <:+: line := (List.takeWhile_prefix _).isInfix
  rcases carries with ⟨front, -, trimmed⟩ | ⟨-, trimmed⟩
  · exact (List.IsSuffix.isInfix ⟨front, trimmed.symm⟩).trans cut
  · rwa [trimmed] at cut

/-- The record of a line has the message that the line carries, or what fits of it. -/
theorem messageOf_carried {line message : Text} (fits : line.length < bufferSize) (carries : Carries line message) :
    messageOf line = snprintf 768 message := by
  have whole : snprintf bufferSize line = line := snprintf_of_fits fits
  rcases carries with ⟨front, ⟨stamp, eventType, rfl, bracket, colon⟩, trimmed⟩ | ⟨unstamped, trimmed⟩
  · -- Both separators are found where the parts of the front end.
    have close : strstr (lit "] ") ('[' :: stamp ++ (lit "] " ++ (eventType ++ lit ": ")) ++ message) =
        some (lit "] " ++ (eventType ++ lit ": ") ++ message) := by
      rw [List.append_assoc]
      exact strstr_pair (by decide) bracket _
    have separator : strstr (lit ": ") (eventType ++ lit ": " ++ message) = some (lit ": " ++ message) := by
      rw [List.append_assoc]
      exact strstr_pair (by decide) colon _
    have opened : ('[' :: stamp ++ (lit "] " ++ (eventType ++ lit ": ")) ++ message).head? = some '[' := rfl
    have behind : (lit "] " ++ (eventType ++ lit ": ") ++ message).drop 2 = eventType ++ lit ": " ++ message := rfl
    have text : (lit ": " ++ message).drop 2 = message := rfl
    simp only [messageOf, parseLogLine, whole, trimmed, opened, close, separator, behind, text, ne_eq, not_true_eq_false, if_false]
    rfl
  · by_cases opened : message.head? = some '['
    · have absent : strstr (lit "] ") message = none := strstr_eq_none_iff.mpr (unstamped opened)
      simp only [messageOf, parseLogLine, whole, trimmed, opened, absent, ne_eq, not_true_eq_false, if_false]
      rfl
    · simp only [messageOf, parseLogLine, whole, trimmed, opened, ne_eq, not_false_eq_true, if_true]
      rfl

/-- A line that carries no message has a stamp and nothing that ends an event type. -/
theorem messageOf_uncarried {line : Text} (fits : line.length < bufferSize) (uncarried : ∀ message, ¬ Carries line message) :
    messageOf line = [] := by
  have whole : snprintf bufferSize line = line := snprintf_of_fits fits
  have stamped : ¬ Unstamped (trimNewline line) := fun unstamped => uncarried _ (Or.inr ⟨unstamped, rfl⟩)
  rw [Unstamped, Classical.not_imp, Classical.not_not] at stamped
  obtain ⟨opened, bracket⟩ := stamped
  obtain ⟨close, found⟩ := Option.isSome_iff_exists.mp (strstr_isSome_iff.mpr bracket)
  -- An event type that ends would make a front.
  have endless : strstr (lit ": ") (close.drop 2) = none := by
    rw [Option.eq_none_iff_forall_ne_some]
    intro separator later
    obtain ⟨⟨tail, rfl⟩, -⟩ := strstr_some found
    obtain ⟨before, parts, unbracketed⟩ := strstr_first (by decide) found
    obtain ⟨eventType, typed, colon⟩ := strstr_first (by decide) later
    obtain ⟨⟨message, rfl⟩, -⟩ := strstr_some later
    cases before with
    | nil => simp [parts, lit] at opened
    | cons first stamp =>
      obtain rfl : first = '[' := by simpa [parts] using opened
      apply uncarried message
      left
      refine ⟨_, ⟨stamp, eventType, rfl, unbracketed, colon⟩, ?_⟩
      rw [parts, show tail = eventType ++ (lit ": " ++ message) from typed]
      simp
  simp only [messageOf, parseLogLine, whole, opened, found, endless, ne_eq, not_true_eq_false, if_false]
  rfl

/-- The first id of a message as it is kept. -/
theorem extractContainerId_kept_iff {id message : Text} (formed : IsContainerId id) :
    (extractContainerId (snprintf 768 message)).text = id ↔ Leads id message := by
  rw [extractContainerId_eq]
  constructor
  · intro own
    cases head : (mentions (snprintf 768 message)).head? with
    | none =>
      rw [head] at own
      exact absurd own.symm (isContainerId_ne_nil formed)
    | some found =>
      obtain ⟨-, gap, rest, kept, none, ended⟩ := head?_mentions_iff.mp head
      rw [head] at own
      obtain rfl : found.take 63 = id := own
      have bound : gap.length + (found.length + rest.length) ≤ 767 := by
        rw [← List.length_append, ← List.length_append, ← kept]
        exact List.length_take_le _ _
      have parts : message = gap ++ (found.take 63 ++ (found.drop 63 ++ (rest ++ message.drop 767))) := by
        rw [← List.append_assoc (found.take 63), List.take_append_drop, ← List.append_assoc found, ← List.append_assoc gap, ← kept]
        exact (List.take_append_drop 767 message).symm
      refine ⟨gap, _, parts, mentions_eq_nil_iff.mp none, ?_, List.length_take_le _ _, ?_⟩
      · rw [List.length_take]
        omega
      · -- What ends the id is behind it, or the end of the field or of the message.
        by_cases full : 63 ≤ found.length
        · exact Or.inr (Or.inr (List.length_take_of_le full))
        · have short : found.length ≤ 63 := by omega
          rw [List.drop_eq_nil_of_le short, List.take_of_length_le short, List.nil_append]
          cases rest with
          | cons c rest =>
            left
            exact leadingDigits_cons_eq_nil_iff.mpr (leadingDigits_cons_eq_nil_iff.mp ended)
          | nil =>
            by_cases more : message.length ≤ 767
            · rw [List.drop_eq_nil_of_le more]
              exact Or.inl rfl
            · have all : (snprintf 768 message).length = 767 := List.length_take_of_le (by omega)
              rw [kept, List.append_nil, List.length_append] at all
              exact Or.inr (Or.inl all)
  · rintro ⟨gap, rest, rfl, none, early, fits, whole⟩
    obtain ⟨digits, numeral, rfl⟩ := formed
    generalize room : 767 - gap.length - (idPrefix ++ digits).length = size
    -- In what is kept, the first id begins with this one.
    have kept : snprintf 768 (gap ++ (idPrefix ++ digits ++ rest)) = gap ++ (idPrefix ++ digits ++ rest.take size) := by
      rw [snprintf, List.take_append, List.take_of_length_le (by omega), List.take_append, List.take_of_length_le (by omega), ← room]
    have head : (mentions (gap ++ (idPrefix ++ digits ++ rest.take size))).head? =
        some (idPrefix ++ digits ++ leadingDigits (rest.take size)) := by
      refine head?_mentions_iff.mpr ⟨⟨digits ++ leadingDigits (rest.take size), ⟨by simp [numeral.1], ?_⟩, by simp⟩, gap,
        (rest.take size).dropWhile Char.isDigit, ?_, mentions_eq_nil_iff.mpr none, leadingDigits_rest _⟩
      · intro c member
        exact (List.mem_append.mp member).elim (numeral.2 c) List.mem_takeWhile_imp
      · rw [List.append_assoc (idPrefix ++ digits), leadingDigits, List.takeWhile_append_dropWhile]
    rw [kept, head]
    change (idPrefix ++ digits ++ leadingDigits (rest.take size)).take 63 = _
    rcases whole with ended | full | full
    · have still : leadingDigits (rest.take size) = [] := by
        cases rest with
        | nil => rw [List.take_nil, ended]
        | cons c rest =>
          cases size with
          | zero => rfl
          | succ size => exact leadingDigits_cons_eq_nil_iff.mpr (leadingDigits_cons_eq_nil_iff.mp ended)
      rw [still, List.append_nil, List.take_of_length_le fits]
    · obtain rfl : size = 0 := by omega
      rw [List.take_zero, show leadingDigits [] = [] from rfl, List.append_nil, List.take_of_length_le fits]
    · rw [List.take_append_of_le_length (by omega), List.take_of_length_le fits]

/-- The id of a record is the one that leads the message of the line. -/
theorem containerId_eq_iff {id line : Text} (formed : IsContainerId id) (fits : line.length < bufferSize) :
    (extractContainerId (messageOf line)).text = id ↔ ∃ message, Carries line message ∧ Leads id message := by
  constructor
  · intro own
    by_cases carried : ∃ message, Carries line message
    · obtain ⟨message, carries⟩ := carried
      rw [messageOf_carried fits carries] at own
      exact ⟨message, carries, (extractContainerId_kept_iff formed).mp own⟩
    · rw [messageOf_uncarried fits (not_exists.mp carried)] at own
      exact absurd own.symm (isContainerId_ne_nil formed)
  · rintro ⟨message, carries, leads⟩
    rw [messageOf_carried fits carries]
    exact (extractContainerId_kept_iff formed).mpr leads

/-- The filter agrees with the id of the record exactly where the line is clear. -/
theorem clear_iff {id line : Text} (formed : IsContainerId id) (fits : line.length < bufferSize) :
    (parseLogLine line (lineMatchesContainer line (some id))).matchesFilter =
      decide ((parseLogLine line (lineMatchesContainer line (some id))).containerId.text = id) ↔ Clear id line := by
  obtain ⟨flag, -, field, -⟩ := parseLogLine_parts line (lineMatchesContainer line (some id))
  have given : id ≠ [] := isContainerId_ne_nil formed
  rw [flag, field, Clear, ← containerId_eq_iff formed fits]
  simp only [lineMatchesContainer, given, if_false]
  rw [Bool.eq_iff_iff, strstr_isSome_iff, decide_eq_true_iff]
  constructor
  · exact fun same => same.mp
  · intro clear
    refine ⟨clear, ?_⟩
    intro same
    -- The id of the record stands in the message, and that is a part of the line.
    obtain ⟨message, carries, gap, rest, rfl, -⟩ := (containerId_eq_iff formed fits).mp same
    exact List.IsInfix.trans ⟨gap, rest, by simp⟩ carries.infix

/-! ## The rows -/

theorem le_of_mem_matchIndexes {index found : Nat} {records : List LogRecord} (member : found ∈ matchIndexes index records) :
    index ≤ found := by
  induction records generalizing index with
  | nil => cases member
  | cons record rest ih =>
    unfold matchIndexes at member
    split at member
    · rcases List.mem_cons.mp member with rfl | later
      · exact Nat.le_refl _
      · exact Nat.le_of_succ_le (ih later)
    · exact Nat.le_of_succ_le (ih member)

theorem length_matchIndexes (index : Nat) (records : List LogRecord) :
    (matchIndexes index records).length = (records.filter (·.matchesFilter)).length := by
  induction records generalizing index with
  | nil => rfl
  | cons record rest ih =>
    unfold matchIndexes
    by_cases found : record.matchesFilter = true <;> simp [found, ih]

/-- An index that is still ahead is kept for later. -/
theorem renderRecords_ahead (catalog : LogCatalog) (index : Nat) (record : LogRecord) (rest : List LogRecord) {selected : List Nat}
    (ahead : ∀ next ∈ selected, index < next) :
    renderRecords catalog index (record :: rest) selected = renderRecords (catalogUpdate catalog record) (index + 1) rest selected := by
  cases selected with
  | nil => rfl
  | cons next later =>
    have different : next ≠ index := Nat.ne_of_gt (ahead next List.mem_cons_self)
    simp only [renderRecords, different, if_false]

/-- Every record with the catalog that the loop has reached there. -/
def rowsFrom (catalog : LogCatalog) : List LogRecord → List Row
  | [] => []
  | record :: rest => (record, catalogUpdate catalog record) :: rowsFrom (catalogUpdate catalog record) rest

/-- The cursor of the selection stands at the first index that is not behind the loop. -/
theorem renderRecords_rows (catalog : LogCatalog) (index skipped : Nat) (records : List LogRecord) :
    (renderRecords catalog index records ((matchIndexes index records).drop skipped)).1 =
      ((rowsFrom catalog records).filter (·.1.matchesFilter)).drop skipped := by
  induction records generalizing catalog index skipped with
  | nil => simp [renderRecords, rowsFrom]
  | cons record rest ih =>
    -- The indexes that are left are all ahead of the record at hand.
    have ahead : ∀ count, ∀ next ∈ (matchIndexes (index + 1) rest).drop count, index < next :=
      fun count next member => le_of_mem_matchIndexes (List.mem_of_mem_drop member)
    by_cases found : record.matchesFilter = true
    · rw [rowsFrom, List.filter_cons_of_pos (by exact found)]
      cases skipped with
      | zero =>
        have later := ih (catalogUpdate catalog record) (index + 1) 0
        rw [List.drop_zero, List.drop_zero] at later
        simp [matchIndexes, renderRecords, found, later]
      | succ skipped =>
        simp only [matchIndexes, found, if_true, List.drop_succ_cons]
        rw [renderRecords_ahead _ _ _ _ (ahead skipped), ih]
    · rw [rowsFrom, List.filter_cons_of_neg (by exact found)]
      simp only [matchIndexes, found, if_false, Bool.false_eq_true]
      rw [renderRecords_ahead _ _ _ _ (ahead skipped), ih]

theorem map_fst_rowsFrom (catalog : LogCatalog) (records : List LogRecord) : (rowsFrom catalog records).map Prod.fst = records := by
  induction records generalizing catalog with
  | nil => rfl
  | cons record rest ih => rw [rowsFrom, List.map_cons, ih]

/-- The loop prints the records that the filter selects, but for the ones that are left out in front. -/
theorem rows_renderRecords (catalog : LogCatalog) (index skipped : Nat) (records : List LogRecord) :
    (renderRecords catalog index records ((matchIndexes index records).drop skipped)).1.map Prod.fst =
      (records.filter (·.matchesFilter)).drop skipped := by
  have same : ((rowsFrom catalog records).filter (·.1.matchesFilter)).map Prod.fst = records.filter (·.matchesFilter) := by
    conv_rhs => rw [← map_fst_rowsFrom catalog records]
    rw [List.filter_map]
    rfl
  rw [renderRecords_rows, List.map_drop, same]

theorem rows_renderPoll (catalog : LogCatalog) (records : List LogRecord) :
    (renderPoll catalog records).1.map Prod.fst = records.filter (·.matchesFilter) := by
  induction records generalizing catalog with
  | nil => rfl
  | cons record rest ih =>
    by_cases found : record.matchesFilter = true <;> simp [renderPoll, found, ih]

theorem rows_renderPolls (filter : Option Text) (catalog : LogCatalog) (polls : List Text) :
    (renderPolls filter catalog polls).map Prod.fst = (polls.flatMap (readRecords filter)).filter (·.matchesFilter) := by
  induction polls generalizing catalog with
  | nil => rfl
  | cons read later ih => simp [renderPolls, rows_renderPoll, ih]

/-- The last of the records, all of them where the number is not positive. -/
def lastRecords (count : Int) (records : List LogRecord) : List LogRecord :=
  records.drop (if 0 < count ∧ count < records.length then records.length - count.toNat else 0)

theorem rows_renderHistory (filter : Option Text) (tailLines : Int) (text : Text) :
    (renderHistory filter tailLines text).1.map Prod.fst = lastRecords tailLines ((readRecords filter text).filter (·.matchesFilter)) := by
  simp only [renderHistory, buildSelection, rows_renderRecords, lastRecords, length_matchIndexes]

/-! ## The command -/

/-- The records that belong to a container. -/
def ownRecords (id : Text) (records : List LogRecord) : List LogRecord := records.filter (·.containerId.text = id)

/-- The records that `logs` is asked for: those of the container, the last of them for a tail. -/
def requestedRecords (id : Text) (follow : Bool) (tailLines : Int) (text : Text) (polls : List Text) : List LogRecord :=
  if follow then
    lastRecords tailLines (ownRecords id (readRecords (some id) text)) ++ ownRecords id (polls.flatMap (readRecords (some id)))
  else if 0 < tailLines then lastRecords tailLines (ownRecords id (readRecords (some id) text))
  else if tailLines = 0 then []
  else ownRecords id (readRecords (some id) text)

/-- `logs <id>` selects the records of the container, printed, as a tail and followed. -/
def FiltersExactly (id text : Text) (polls : List Text) : Prop :=
  ∀ (follow : Bool) (tailLines : Int), (logsCommand (some id) follow tailLines text polls).map Prod.fst = requestedRecords id follow tailLines text polls

theorem filter_eq_filter_iff {α : Type} {p q : α → Bool} {list : List α} : list.filter p = list.filter q ↔ ∀ a ∈ list, p a = q a := by
  constructor
  · intro same a member
    have both : a ∈ list.filter p ↔ a ∈ list.filter q := by rw [same]
    simp only [List.mem_filter, member, true_and] at both
    exact Bool.eq_iff_iff.mpr both
  · exact List.filter_congr

/-- The lines that the command reads of the log, and of what is appended while it follows. -/
def linesRead (text : Text) (polls : List Text) : List Text := linesOf text ++ polls.flatMap linesOf

theorem length_of_mem_linesOf {text line : Text} (member : line ∈ linesOf text) : line.length < bufferSize := by
  obtain ⟨piece, read, rfl⟩ := List.mem_map.mp member
  have short := length_of_mem_fgetsAll read
  have cut := (cstringAt_begins piece).length_le
  unfold bufferSize at short ⊢
  omega

theorem readRecords_matches_iff {id : Text} (formed : IsContainerId id) (text : Text) :
    (∀ record ∈ readRecords (some id) text, record.matchesFilter = decide (record.containerId.text = id)) ↔
      ∀ line ∈ linesOf text, Clear id line := by
  rw [readRecords, List.forall_mem_map]
  exact forall₂_congr fun line member => clear_iff formed (length_of_mem_linesOf member)

/-- The rows of `logs <id>` are the records of the container exactly where every line that is read is clear. -/
theorem filtersExactly_iff (id : Text) (formed : IsContainerId id) (text : Text) (polls : List Text) :
    FiltersExactly id text polls ↔ ∀ line ∈ linesRead text polls, Clear id line := by
  have lines : (∀ line ∈ linesRead text polls, Clear id line) ↔
      ∀ record ∈ readRecords (some id) text ++ polls.flatMap (readRecords (some id)),
        record.matchesFilter = decide (record.containerId.text = id) := by
    simp only [linesRead, List.forall_mem_append, List.forall_mem_flatMap, readRecords_matches_iff formed]
  rw [lines]
  constructor
  · intro exact_rows
    -- Following from the start shows the records of the file and of the polls, so it tells them all.
    have followed := exact_rows true 0
    rw [← filter_eq_filter_iff, List.filter_append, List.filter_append]
    simpa [logsCommand, loggerFollow, rows_renderHistory, rows_renderPolls, requestedRecords, lastRecords, ownRecords] using followed
  · intro agree follow tailLines
    obtain ⟨first, later⟩ := List.forall_mem_append.mp agree
    have history : (readRecords (some id) text).filter (·.matchesFilter) = ownRecords id (readRecords (some id) text) :=
      List.filter_congr first
    have polled : (polls.flatMap (readRecords (some id))).filter (·.matchesFilter) = ownRecords id (polls.flatMap (readRecords (some id))) :=
      List.filter_congr later
    have all : ∀ (count : Int) (records : List LogRecord), ¬ 0 < count → lastRecords count records = records := by
      intro count records none
      simp [lastRecords, none]
    unfold logsCommand requestedRecords
    cases follow with
    | true =>
      simp only [if_true, loggerFollow, List.map_append, rows_renderHistory, rows_renderPolls, history, polled]
      by_cases positive : 0 < tailLines
      · simp [positive]
      · rw [if_neg positive, all 0 _ (by decide), all tailLines _ positive]
    | false =>
      simp only [Bool.false_eq_true, if_false]
      by_cases positive : 0 < tailLines
      · rw [if_pos (Int.le_of_lt positive), if_pos positive, loggerTail, if_neg (by omega), rows_renderHistory, history]
      · by_cases zero : tailLines = 0
        · simp [zero, loggerTail]
        · rw [if_neg (by omega), if_neg positive, if_neg zero, loggerPrint, rows_renderHistory, history, all 0 _ (by decide)]

def sampleLog : Text :=
  lit "[2024-05-01 10:00:00] CONTAINER_CREATED: container-0001 name=web hostname=web rootfs=/srv command=/bin/sh\n" ++
  lit "[2024-05-01 10:00:01] ERROR: startup isolation failed for container-0002: cannot map ids\n" ++
  lit "[2024-05-01 10:00:02] CONTAINER_DELETED: container-0001 deleted\n"

/-- A log in which each line names one container, and another line that is read while following. -/
theorem sampleLog_filtered :
    FiltersExactly (lit "container-0001") sampleLog [lit "[2024-05-01 10:00:03] MANAGER: restored 1 container record(s)\n"] := by
  apply (filtersExactly_iff (lit "container-0001") ⟨lit "0001", by decide, rfl⟩ _ _).mpr
  have lines : linesRead sampleLog [lit "[2024-05-01 10:00:03] MANAGER: restored 1 container record(s)\n"] =
      [lit "[2024-05-01 10:00:00] CONTAINER_CREATED: container-0001 name=web hostname=web rootfs=/srv command=/bin/sh\n",
        lit "[2024-05-01 10:00:01] ERROR: startup isolation failed for container-0002: cannot map ids\n",
        lit "[2024-05-01 10:00:02] CONTAINER_DELETED: container-0001 deleted\n",
        lit "[2024-05-01 10:00:03] MANAGER: restored 1 container record(s)\n"] := by decide +kernel
  -- The others do not have the id.
  have absent : ∀ {line : Text}, (strstr (lit "container-0001") line).isSome = false → Clear (lit "container-0001") line := by
    intro line absent inside
    rw [strstr_isSome_iff.mpr inside] at absent
    cases absent
  rw [lines]
  simp only [List.forall_mem_cons, List.not_mem_nil, false_implies, implies_true, and_true]
  refine ⟨?_, absent (by decide +kernel), ?_, absent (by decide +kernel)⟩
  · have marked : IsFront (lit "[2024-05-01 10:00:00] CONTAINER_CREATED: ") :=
      ⟨lit "2024-05-01 10:00:00", lit "CONTAINER_CREATED", by decide +kernel, by decide +kernel, by decide +kernel⟩
    have ended : leadingDigits (lit " name=web hostname=web rootfs=/srv command=/bin/sh") = [] := by decide +kernel
    exact clear_of_front marked (by decide) ended (by decide +kernel)
  · have marked : IsFront (lit "[2024-05-01 10:00:02] CONTAINER_DELETED: ") :=
      ⟨lit "2024-05-01 10:00:02", lit "CONTAINER_DELETED", by decide +kernel, by decide +kernel, by decide +kernel⟩
    have ended : leadingDigits (lit " deleted") = [] := by decide +kernel
    exact clear_of_front marked (by decide) ended (by decide +kernel)

/-- The records of `container-10000` are selected for `container-1000`. -/
theorem longer_id_selected : IsContainerId (lit "container-1000") ∧
    ¬ FiltersExactly (lit "container-1000") (lit "[2024-05-01 10:00:00] CONTAINER_DELETED: container-10000 deleted\n") [] := by
  refine ⟨⟨lit "1000", by decide, rfl⟩, ?_⟩
  intro selected
  exact absurd (selected false (-1)) (by decide +kernel)

-- A line ends at its NUL, so this one has no front, and the first of its ids is that of another container.
example : ¬ FiltersExactly (lit "container-0001") (lit "[x container-0002 container-0001" ++ nul :: lit "] E: container-0001\n") [] := by
  intro selected
  exact absurd (selected false (-1)) (by decide +kernel)

end ContainerRuntime.Logger
