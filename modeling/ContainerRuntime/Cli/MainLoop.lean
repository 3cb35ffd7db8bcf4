import ContainerRuntime.Cli.Requests

/-! The read loop of `main`: from the bytes of standard input to argument vectors.

`fgets` fills a buffer of 256 bytes and `parse_command` stops at 32 arguments,
so a line is one command with all of its arguments only inside both bounds.
`Reads` is the grammar of a command line; the loop is compared with it line by
line.
-/

set_option autoImplicit false

namespace ContainerRuntime.Cli

open CString

/-! ## The loop -/

/-- `char line[256]`. -/
def lineSize : Nat := 256

/-- What the loop makes of one `fgets`: nothing of an empty line and of one without arguments. -/
def readVector (piece : Text) : Option (List Text) :=
  let line := cutAt [newline] piece
  if line = [] then none
  else
    match commandArgs line with
    | [] => none
    | command :: args => some (command :: args)

/-- The vector leaves the loop. -/
def exits (args : List Text) : Bool := args.head? = some Verb.exit.name

/-- A list up to its first element that stops, which is the last. -/
def upTo {α : Type} (stop : α → Bool) : List α → List α
  | [] => []
  | a :: rest => a :: if stop a then [] else upTo stop rest

/-- The argument vectors the loop dispatches for a standard input, until it ends or a vector leaves the loop. -/
def dispatched (stream : Text) : List (List Text) := upTo exits ((fgetsAll lineSize stream).filterMap readVector)

/-! ## The grammar of a command line -/

def Blank (text : Text) : Prop := ∀ c ∈ text, isBlank c = true

instance : DecidablePred Blank := fun text => List.decidableBAll (fun c => isBlank c = true) text

/-- A word that is not quoted. -/
def Word (text : Text) : Prop := text ≠ [] ∧ (∀ c ∈ text, isBlank c = false) ∧ ∀ c, text.head? = some c → isQuote c = false

/-- A text, its tokens, and the quote that is still open where it ends. -/
inductive Reads : Text → List Text → Option Char → Prop where
  | blank {text : Text} : Blank text → Reads text [] none
  | quoted {blanks inner rest : Text} {quote : Char} {later : List Text} {left : Option Char} : Blank blanks → isQuote quote = true →
      quote ∉ inner → Reads rest later left → Reads (blanks ++ quote :: (inner ++ quote :: rest)) (inner :: later) left
  | unclosed {blanks inner : Text} {quote : Char} : Blank blanks → isQuote quote = true → quote ∉ inner →
      Reads (blanks ++ quote :: inner) [inner] (some quote)
  | word {blanks word rest : Text} {c : Char} {later : List Text} {left : Option Char} : Blank blanks → Word word →
      isBlank c = true → Reads rest later left → Reads (blanks ++ (word ++ c :: rest)) (word :: later) left
  | last {blanks word : Text} : Blank blanks → Word word → Reads (blanks ++ word) [word] none

/-- All tokens of a text; each takes a character at least. -/
def allTokens (text : Text) : List Text := tokens text.length text

def openQuoteIn : Nat → Text → Option Char
  | 0, _ => none
  | room + 1, text =>
    match text.dropWhile isBlank with
    | [] => none
    | c :: rest =>
      if isQuote c then
        if c ∈ rest then openQuoteIn room ((rest.dropWhile (· ≠ c)).drop 1) else some c
      else openQuoteIn room (((c :: rest).dropWhile (!isBlank ·)).drop 1)

/-- The quote that is open where a text ends. -/
def openQuote (text : Text) : Option Char := openQuoteIn text.length text

theorem blank_nil : Blank [] := by
  intro c member
  cases member

theorem blank_append {front back : Text} : Blank (front ++ back) ↔ Blank front ∧ Blank back := by
  simp only [Blank, List.mem_append, or_imp, forall_and]

theorem blank_cons {c : Char} {rest : Text} : Blank (c :: rest) ↔ isBlank c = true ∧ Blank rest := by
  simp only [Blank, List.mem_cons, forall_eq_or_imp]

theorem not_isBlank_of_isQuote {c : Char} (quote : isQuote c = true) : isBlank c = false := by
  unfold isQuote at quote
  rcases (Bool.or_eq_true _ _).mp quote with double | single
  · rw [of_decide_eq_true double]
    rfl
  · rw [of_decide_eq_true single]
    rfl

theorem dropWhile_blank {blanks : Text} (blank : Blank blanks) (rest : Text) :
    (blanks ++ rest).dropWhile isBlank = rest.dropWhile isBlank := by
  rw [List.dropWhile_append, List.dropWhile_eq_nil_iff.mpr blank]
  rfl

theorem dropWhile_word {word : Text} (formed : Word word) (rest : Text) : (word ++ rest).dropWhile isBlank = word ++ rest := by
  obtain ⟨some, solid, -⟩ := formed
  cases word with
  | nil => exact absurd rfl some
  | cons c word => simp [solid c List.mem_cons_self]

theorem nextToken_blank {text : Text} (blank : Blank text) : nextToken text = none := by
  simp only [nextToken, List.dropWhile_eq_nil_iff.mpr blank]

theorem takeWhile_quoted {quote : Char} {inner : Text} (fresh : quote ∉ inner) :
    inner.takeWhile (· ≠ quote) = inner ∧ inner.dropWhile (· ≠ quote) = [] ∧
      ∀ rest, (inner ++ quote :: rest).takeWhile (· ≠ quote) = inner ∧
        (inner ++ quote :: rest).dropWhile (· ≠ quote) = quote :: rest := by
  have other : ∀ c ∈ inner, decide (c ≠ quote) = true := by
    intro c member
    simp only [ne_eq, decide_eq_true_eq]
    rintro rfl
    exact fresh member
  refine ⟨List.takeWhile_eq_self_iff.mpr other, List.dropWhile_eq_nil_iff.mpr other, ?_⟩
  intro rest
  rw [List.takeWhile_append_of_pos other, List.dropWhile_append_of_pos other]
  simp

theorem takeWhile_word {word : Text} (formed : Word word) :
    word.takeWhile (!isBlank ·) = word ∧ word.dropWhile (!isBlank ·) = [] ∧
      ∀ c rest, isBlank c = true → (word ++ c :: rest).takeWhile (!isBlank ·) = word ∧
        (word ++ c :: rest).dropWhile (!isBlank ·) = c :: rest := by
  have solid : ∀ c ∈ word, (!isBlank c) = true := by
    intro c member
    simp [formed.2.1 c member]
  refine ⟨List.takeWhile_eq_self_iff.mpr solid, List.dropWhile_eq_nil_iff.mpr solid, ?_⟩
  intro c rest blank
  rw [List.takeWhile_append_of_pos solid, List.dropWhile_append_of_pos solid]
  simp [blank]

theorem nextToken_quote {blanks rest : Text} {quote : Char} (blank : Blank blanks) (quotes : isQuote quote = true) :
    nextToken (blanks ++ quote :: rest) = some (rest.takeWhile (· ≠ quote), (rest.dropWhile (· ≠ quote)).drop 1) := by
  have start : (blanks ++ quote :: rest).dropWhile isBlank = quote :: rest := by
    rw [dropWhile_blank blank, List.dropWhile_cons, not_isBlank_of_isQuote quotes]
    rfl
  simp only [nextToken, start, quotes, if_true]

theorem nextToken_word {blanks word rest : Text} (blank : Blank blanks) (formed : Word word) :
    nextToken (blanks ++ (word ++ rest)) =
      some ((word ++ rest).takeWhile (!isBlank ·), ((word ++ rest).dropWhile (!isBlank ·)).drop 1) := by
  have start : (blanks ++ (word ++ rest)).dropWhile isBlank = word ++ rest := by
    rw [dropWhile_blank blank, dropWhile_word formed]
  obtain ⟨some, -, bare⟩ := formed
  cases word with
  | nil => exact absurd rfl some
  | cons c word =>
    rw [List.cons_append] at start ⊢
    simp only [nextToken, start, bare c rfl, Bool.false_eq_true, if_false]

/-- Every text is read in one of the five ways. -/
theorem reads_exists (text : Text) : ∃ found left, Reads text found left := by
  -- By induction on the length: what is behind the next token is shorter.
  induction size : text.length using Nat.strongRecOn generalizing text with
  | ind size_value ih =>
    subst size
    have divided := List.takeWhile_append_dropWhile (p := isBlank) (l := text)
    have blank : Blank (text.takeWhile isBlank) := fun c member => List.mem_takeWhile_imp member
    cases dropped : text.dropWhile isBlank with
    | nil => exact ⟨[], none, Reads.blank (List.dropWhile_eq_nil_iff.mp dropped)⟩
    | cons c rest =>
      rw [dropped] at divided
      rw [← divided] at ih ⊢
      have solid : isBlank c = false := by
        have head := List.head?_dropWhile_not isBlank text
        simpa [dropped] using head
      by_cases quote : isQuote c = true
      · by_cases closed : c ∈ rest
        · obtain ⟨inner, later, rfl, fresh⟩ := List.eq_append_cons_of_mem closed
          obtain ⟨found, left, reads⟩ := ih later.length (by simp only [List.length_append, List.length_cons]; omega) later rfl
          exact ⟨_, _, Reads.quoted blank quote fresh reads⟩
        · exact ⟨_, _, Reads.unclosed blank quote closed⟩
      · have split := List.takeWhile_append_dropWhile (p := (!isBlank ·)) (l := c :: rest)
        have formed : Word ((c :: rest).takeWhile (!isBlank ·)) := by
          refine ⟨by simp [solid], ?_, ?_⟩
          · intro d member
            simpa using List.mem_takeWhile_imp member
          · intro d head
            simp only [List.takeWhile_cons, solid, Bool.not_false, if_true, List.head?_cons, Option.some.injEq] at head
            rw [← head]
            simpa using quote
        cases behind : (c :: rest).dropWhile (!isBlank ·) with
        | nil =>
          rw [behind, List.append_nil] at split
          rw [← split]
          exact ⟨_, _, Reads.last blank formed⟩
        | cons d later =>
          rw [behind] at split
          have stop : isBlank d = true := by
            have head := List.head?_dropWhile_not (!isBlank ·) (c :: rest)
            rw [behind] at head
            simpa using head
          have shorter : later.length < (text.takeWhile isBlank ++ c :: rest).length := by
            rw [← split]
            simp only [List.length_append, List.length_cons]
            omega
          obtain ⟨found, left, reads⟩ := ih later.length shorter later rfl
          rw [← split]
          exact ⟨_, _, Reads.word blank formed stop reads⟩

/-- With room for some tokens the scan finds the first of them. -/
theorem tokens_of_reads {text : Text} {found : List Text} {left : Option Char} (reads : Reads text found left) (room : Nat) :
    tokens room text = found.take room := by
  induction reads generalizing room with
  | blank blank => cases room <;> simp [tokens, nextToken_blank blank]
  | @quoted _ _ rest _ _ _ blank quote fresh _ ih =>
    cases room with
    | zero => rfl
    | succ room =>
      obtain ⟨taken, dropped⟩ := (takeWhile_quoted fresh).2.2 rest
      simp only [tokens, nextToken_quote blank quote, taken, dropped, List.drop_one, List.tail_cons, ih, List.take_succ_cons]
  | unclosed blank quote fresh =>
    cases room with
    | zero => rfl
    | succ room =>
      obtain ⟨taken, dropped, -⟩ := takeWhile_quoted fresh
      simp only [tokens, nextToken_quote blank quote, taken, dropped, List.drop_nil, List.take_succ_cons, List.take_nil]
      cases room <;> rfl
  | @word _ _ rest c _ _ blank formed stop _ ih =>
    cases room with
    | zero => rfl
    | succ room =>
      obtain ⟨taken, dropped⟩ := (takeWhile_word formed).2.2 c rest stop
      simp only [tokens, nextToken_word blank formed, taken, dropped, List.drop_one, List.tail_cons, ih, List.take_succ_cons]
  | @last blanks word blank formed =>
    cases room with
    | zero => rfl
    | succ room =>
      obtain ⟨taken, dropped, -⟩ := takeWhile_word formed
      have next : nextToken (blanks ++ (word ++ [])) = _ := nextToken_word blank formed
      rw [List.append_nil] at next
      simp only [tokens, next, taken, dropped, List.drop_nil, List.take_succ_cons, List.take_nil]
      cases room <;> rfl

theorem Reads.length_le {text : Text} {found : List Text} {left : Option Char} (reads : Reads text found left) :
    found.length ≤ text.length := by
  induction reads with
  | blank _ => exact Nat.zero_le _
  | quoted _ _ _ _ ih =>
    simp only [List.length_append, List.length_cons]
    omega
  | unclosed _ _ _ =>
    simp only [List.length_append, List.length_cons, List.length_nil]
    omega
  | word _ _ _ _ ih =>
    simp only [List.length_append, List.length_cons]
    omega
  | last _ formed =>
    have some := List.length_pos_iff.mpr formed.1
    simp only [List.length_append, List.length_cons, List.length_nil]
    omega

theorem Reads.allTokens {text : Text} {found : List Text} {left : Option Char} (reads : Reads text found left) :
    allTokens text = found := by
  rw [Cli.allTokens, tokens_of_reads reads, List.take_of_length_le reads.length_le]

theorem openQuoteIn_word {blanks word rest : Text} (blank : Blank blanks) (formed : Word word) (room : Nat) :
    openQuoteIn (room + 1) (blanks ++ (word ++ rest)) = openQuoteIn room (((word ++ rest).dropWhile (!isBlank ·)).drop 1) := by
  have start : (blanks ++ (word ++ rest)).dropWhile isBlank = word ++ rest := by
    rw [dropWhile_blank blank, dropWhile_word formed]
  obtain ⟨some, -, bare⟩ := formed
  cases word with
  | nil => exact absurd rfl some
  | cons c word =>
    rw [List.cons_append] at start ⊢
    simp only [openQuoteIn, start, bare c rfl, Bool.false_eq_true, if_false]

theorem openQuoteIn_of_reads {text : Text} {found : List Text} {left : Option Char} (reads : Reads text found left) {room : Nat}
    (enough : text.length ≤ room) : openQuoteIn room text = left := by
  induction reads generalizing room with
  | blank blank =>
    cases room with
    | zero => rfl
    | succ room => simp only [openQuoteIn, List.dropWhile_eq_nil_iff.mpr blank]
  | @quoted blanks inner rest quote _ _ blank quotes fresh _ ih =>
    simp only [List.length_append, List.length_cons] at enough
    obtain ⟨room, rfl⟩ : ∃ less, room = less + 1 := ⟨room - 1, by omega⟩
    have start : (blanks ++ quote :: (inner ++ quote :: rest)).dropWhile isBlank = quote :: (inner ++ quote :: rest) := by
      rw [dropWhile_blank blank, List.dropWhile_cons, not_isBlank_of_isQuote quotes]
      rfl
    have closed : quote ∈ inner ++ quote :: rest := List.mem_append_right _ List.mem_cons_self
    simp only [openQuoteIn, start, quotes, closed, if_true, ((takeWhile_quoted fresh).2.2 rest).2, List.drop_one, List.tail_cons]
    exact ih (by omega)
  | @unclosed blanks inner quote blank quotes fresh =>
    simp only [List.length_append, List.length_cons] at enough
    obtain ⟨room, rfl⟩ : ∃ less, room = less + 1 := ⟨room - 1, by omega⟩
    have start : (blanks ++ quote :: inner).dropWhile isBlank = quote :: inner := by
      rw [dropWhile_blank blank, List.dropWhile_cons, not_isBlank_of_isQuote quotes]
      rfl
    simp only [openQuoteIn, start, quotes, fresh, if_true, if_false]
  | @word _ _ rest c _ _ blank formed stop _ ih =>
    simp only [List.length_append, List.length_cons] at enough
    obtain ⟨room, rfl⟩ : ∃ less, room = less + 1 := ⟨room - 1, by omega⟩
    rw [openQuoteIn_word blank formed, ((takeWhile_word formed).2.2 c rest stop).2]
    exact ih (by omega)
  | @last blanks word blank formed =>
    cases room with
    | zero => rfl
    | succ room =>
      have next : openQuoteIn (room + 1) (blanks ++ (word ++ [])) = _ := openQuoteIn_word blank formed room
      rw [List.append_nil, (takeWhile_word formed).2.1] at next
      rw [next]
      cases room <;> rfl

theorem reads (text : Text) : Reads text (allTokens text) (openQuote text) := by
  obtain ⟨found, left, reads⟩ := reads_exists text
  rw [reads.allTokens, openQuote, openQuoteIn_of_reads reads (Nat.le_refl _)]
  exact reads

theorem tokens_eq_take (room : Nat) (text : Text) : tokens room text = (allTokens text).take room := tokens_of_reads (reads text) room

theorem allTokens_eq_nil {text : Text} : allTokens text = [] ↔ Blank text := by
  constructor
  · intro none
    have found := reads text
    rw [none] at found
    generalize openQuote text = left at found
    cases found with
    | blank blank => exact blank
  · intro blank
    exact (Reads.blank blank).allTokens

/-! ## Lines as they are written -/

/-- An argument, and how it may be written. -/
inductive Spells : Text → Text → Prop where
  | bare {word : Text} : Word word → Spells word word
  | quoted {inner : Text} {quote : Char} : isQuote quote = true → quote ∉ inner → Spells inner (quote :: (inner ++ [quote]))

/-- The arguments of a line: there are blanks between them, and there may be some in front and behind. -/
inductive Writes : List Text → Text → Prop where
  | blank {blanks : Text} : Blank blanks → Writes [] blanks
  | last {blanks argument written trail : Text} : Blank blanks → Spells argument written → Blank trail →
      Writes [argument] (blanks ++ (written ++ trail))
  | next {blanks argument written rest : Text} {c : Char} {following : Text} {later : List Text} : Blank blanks →
      Spells argument written → isBlank c = true → Writes (following :: later) rest →
      Writes (argument :: following :: later) (blanks ++ (written ++ c :: rest))

theorem Reads.behind_blank {c : Char} {rest : Text} {found : List Text} {left : Option Char} (blank : isBlank c = true)
    (reads : Reads rest found left) : Reads (c :: rest) found left := by
  cases reads with
  | blank blanks => exact .blank (blank_cons.mpr ⟨blank, blanks⟩)
  | quoted blanks quote fresh later => exact .quoted (blank_cons.mpr ⟨blank, blanks⟩) quote fresh later
  | unclosed blanks quote fresh => exact .unclosed (blank_cons.mpr ⟨blank, blanks⟩) quote fresh
  | word blanks formed stop later => exact .word (blank_cons.mpr ⟨blank, blanks⟩) formed stop later
  | last blanks formed => exact .last (blank_cons.mpr ⟨blank, blanks⟩) formed

/-- What is written is read, whatever is behind the last argument being blanks. -/
theorem Writes.reads {arguments : List Text} {line : Text} (writes : Writes arguments line) : Reads line arguments none := by
  induction writes with
  | blank blanks => exact .blank blanks
  | @last _ _ _ trail blanks spells after =>
    cases spells with
    | bare formed =>
      cases trail with
      | nil =>
        rw [List.append_nil]
        exact .last blanks formed
      | cons c trail =>
        obtain ⟨stop, rest⟩ := blank_cons.mp after
        exact .word blanks formed stop (.blank rest)
    | quoted quote fresh =>
      rw [List.cons_append, List.append_assoc, List.singleton_append]
      exact .quoted blanks quote fresh (.blank after)
  | next blanks spells stop _ ih =>
    cases spells with
    | bare formed => exact .word blanks formed stop ih
    | quoted quote fresh =>
      rw [List.cons_append, List.append_assoc, List.singleton_append]
      exact .quoted blanks quote fresh (ih.behind_blank stop)

theorem not_mem_of_blank {text : Text} (blank : Blank text) : nul ∉ text := by
  intro member
  cases blank nul member

theorem Spells.clean {argument written : Text} (spells : Spells argument written) (clean : nul ∉ argument) : nul ∉ written := by
  cases spells with
  | bare _ => exact clean
  | @quoted quote quotes _ =>
    have other : nul ≠ quote := fun same => by
      rw [← same] at quotes
      cases quotes
    simp only [List.mem_cons, List.mem_append, List.not_mem_nil, or_false, not_or]
    exact ⟨other, clean, other⟩

theorem Writes.clean {arguments : List Text} {line : Text} (writes : Writes arguments line)
    (clean : ∀ argument ∈ arguments, nul ∉ argument) : nul ∉ line := by
  induction writes with
  | blank blanks => exact not_mem_of_blank blanks
  | last blanks spells after =>
    have inside := spells.clean (clean _ List.mem_cons_self)
    simp only [List.mem_append, not_or]
    exact ⟨not_mem_of_blank blanks, inside, not_mem_of_blank after⟩
  | @next _ _ _ _ c _ _ blanks spells stop _ ih =>
    have inside := spells.clean (clean _ List.mem_cons_self)
    have rest := ih fun argument member => clean argument (List.mem_cons_of_mem _ member)
    have other : nul ≠ c := fun same => by
      rw [← same] at stop
      cases stop
    simp only [List.mem_append, List.mem_cons, not_or]
    exact ⟨not_mem_of_blank blanks, inside, other, rest⟩

/-- The strings at the pointers are the arguments that were written, for all the NULs `parse_command` has put between them. -/
theorem parseCommand_of_writes {arguments : List Text} {line : Text} (writes : Writes arguments line)
    (room : arguments.length ≤ maxArgs) (clean : ∀ argument ∈ arguments, nul ∉ argument) :
    (parseCommand line maxArgs).2.map (cstringAt (parseCommand line maxArgs).1) = arguments := by
  have found : commandArgs line = tokens maxArgs line := commandArgs_eq_tokens (writes.clean clean)
  rw [tokens_of_reads writes.reads, List.take_of_length_le room] at found
  exact found

/-- A bare word, a quoted one with a blank in it, an empty one and one with the other quote. -/
theorem parseCommand_of_four :
    let line := lit " run \"my box\"\t'' \"it's\" "
    (parseCommand line maxArgs).2.map (cstringAt (parseCommand line maxArgs).1) =
      [lit "run", lit "my box", [], lit "it's"] := by
  refine parseCommand_of_writes ?_ (by decide) (by decide)
  have double : isQuote '"' = true := by decide
  have single : isQuote apostrophe = true := by decide
  have last : Writes [lit "it's"] (lit "\"it's\" ") :=
    .last blank_nil (.quoted double (by decide : '"' ∉ lit "it's")) (by decide : Blank [' '])
  have third : Writes [[], lit "it's"] (lit "'' \"it's\" ") :=
    .next blank_nil (.quoted single (by decide : apostrophe ∉ [])) (by decide : isBlank ' ' = true) last
  have second : Writes [lit "my box", [], lit "it's"] (lit "\"my box\"\t'' \"it's\" ") :=
    .next blank_nil (.quoted double (by decide : '"' ∉ lit "my box")) (by decide : isBlank '\t' = true) third
  have word : Word (lit "run") := by
    refine ⟨by decide, ?_, ?_⟩
    · have solid : (lit "run").all (!isBlank ·) = true := by decide
      simpa using solid
    · intro c first
      cases (show (lit "run").head? = some 'r' by decide).symm.trans first
      decide
  exact .next (by decide : Blank [' ']) (.bare word) (by decide : isBlank ' ' = true) second

/-! ## What stands behind a piece of a line -/

/-- The text adds nothing to the tokens in front of it, where a quote may be open. -/
def AddsNothing : Option Char → Text → Prop
  | none, back => Blank back
  | some quote, back => back = [] ∨ back.head? = some quote ∧ Blank back.tail

instance (left : Option Char) (back : Text) : Decidable (AddsNothing left back) := by
  cases left with
  | none => exact inferInstanceAs (Decidable (Blank back))
  | some quote => exact inferInstanceAs (Decidable (_ ∨ _))

theorem Word.append {word more : Text} (formed : Word word) (solid : ∀ c ∈ more, isBlank c = false) : Word (word ++ more) := by
  obtain ⟨some, first, bare⟩ := formed
  refine ⟨by simp [some], ?_, ?_⟩
  · intro c member
    rcases List.mem_append.mp member with inside | behind
    · exact first c inside
    · exact solid c behind
  · intro c head
    cases word with
    | nil => exact absurd rfl some
    | cons d word => exact bare c head

/-- More text is more tokens, or longer ones, unless it adds nothing. -/
theorem Reads.append {text : Text} {found : List Text} {left : Option Char} (first : Reads text found left) (back : Text) :
    found.length ≤ (Cli.allTokens (text ++ back)).length ∧ (Cli.allTokens (text ++ back) = found ↔ AddsNothing left back) := by
  -- Only the end of the line is open to what follows: the last word, or the quote that was not closed.
  induction first with
  | blank blank =>
    refine ⟨Nat.zero_le _, ?_⟩
    rw [allTokens_eq_nil, blank_append, and_iff_right blank, AddsNothing]
  | @quoted blanks inner rest quote _ _ blank quotes fresh _ ih =>
    have whole := Reads.quoted blank quotes fresh (reads (rest ++ back))
    have same : blanks ++ quote :: (inner ++ quote :: rest) ++ back = blanks ++ quote :: (inner ++ quote :: (rest ++ back)) := by simp
    rw [same, whole.allTokens, List.cons.injEq, and_iff_right rfl, List.length_cons, List.length_cons, Nat.add_le_add_iff_right]
    exact ih
  | @unclosed blanks inner quote blank quotes fresh =>
    by_cases closed : quote ∈ back
    · -- The quote is closed behind the text: what stands in front of it belongs to the last token.
      obtain ⟨more, rest, rfl, new⟩ := List.eq_append_cons_of_mem closed
      have whole : Reads (blanks ++ quote :: ((inner ++ more) ++ quote :: rest)) _ _ :=
        Reads.quoted blank quotes (by simp [fresh, new]) (reads rest)
      have same : blanks ++ quote :: inner ++ (more ++ quote :: rest) = blanks ++ quote :: ((inner ++ more) ++ quote :: rest) := by simp
      rw [same, whole.allTokens]
      refine ⟨by simp, ?_⟩
      rw [List.cons.injEq, allTokens_eq_nil, List.append_right_eq_self, AddsNothing]
      cases more with
      | nil => simp
      | cons c more =>
        have other : c ≠ quote := fun equal => new (equal ▸ List.mem_cons_self)
        simp [other]
    · have whole : Reads (blanks ++ quote :: (inner ++ back)) _ _ := Reads.unclosed blank quotes (by simp [fresh, closed])
      have same : blanks ++ quote :: inner ++ back = blanks ++ quote :: (inner ++ back) := by simp
      rw [same, whole.allTokens]
      refine ⟨by simp, ?_⟩
      rw [List.cons.injEq, and_iff_left rfl, List.append_right_eq_self, AddsNothing]
      constructor
      · exact Or.inl
      · rintro (none | ⟨head, -⟩)
        · exact none
        · exact absurd (List.mem_of_mem_head? head) closed
  | @word blanks word rest c _ _ blank formed stop _ ih =>
    have whole := Reads.word blank formed stop (reads (rest ++ back))
    have same : blanks ++ (word ++ c :: rest) ++ back = blanks ++ (word ++ c :: (rest ++ back)) := by simp
    rw [same, whole.allTokens, List.cons.injEq, and_iff_right rfl, List.length_cons, List.length_cons, Nat.add_le_add_iff_right]
    exact ih
  | @last blanks word blank formed =>
    -- The last word goes on up to the next blank.
    obtain ⟨more, behind, rfl, solid, stop⟩ : ∃ more behind, back = more ++ behind ∧ (∀ c ∈ more, isBlank c = false) ∧
        ∀ c, behind.head? = some c → isBlank c = true := by
      refine ⟨back.takeWhile (!isBlank ·), back.dropWhile (!isBlank ·), List.takeWhile_append_dropWhile.symm, ?_, ?_⟩
      · intro c member
        simpa using List.mem_takeWhile_imp member
      · intro c head
        have ended := List.head?_dropWhile_not (!isBlank ·) back
        simpa [head] using ended
    have longer := formed.append solid
    have blank_more : Blank more ↔ more = [] := by
      cases more with
      | nil => simp [blank_nil]
      | cons c more => simp [blank_cons, solid c List.mem_cons_self]
    rw [AddsNothing, blank_append, blank_more]
    cases behind with
    | nil =>
      have whole := Reads.last blank longer
      have same : blanks ++ word ++ (more ++ []) = blanks ++ (word ++ more) := by simp
      rw [same, whole.allTokens]
      simp [blank_nil]
    | cons c rest =>
      have space := stop c rfl
      have whole := Reads.word blank longer space (reads rest)
      have same : blanks ++ word ++ (more ++ c :: rest) = blanks ++ ((word ++ more) ++ c :: rest) := by simp
      rw [same, whole.allTokens]
      simp [blank_cons, space, allTokens_eq_nil]

theorem allTokens_blank_append {blanks : Text} (blank : Blank blanks) (rest : Text) : allTokens (blanks ++ rest) = allTokens rest := by
  have next : nextToken (blanks ++ rest) = nextToken rest := by
    unfold nextToken
    rw [dropWhile_blank blank]
  have skipped : ∀ room, tokens room (blanks ++ rest) = tokens room rest := by
    intro room
    cases room with
    | zero => rfl
    | succ room => simp only [tokens, next]
  rw [allTokens, skipped, tokens_eq_take, List.take_of_length_le]
  have bound := (reads rest).length_le
  rw [List.length_append]
  omega

/-! ## One line -/

/-- The vector a whole line stands for. -/
def wholeLine (line : Text) : Option (List Text) := if allTokens line = [] then none else some (allTokens line)

/-- The vectors the loop makes of the pieces of a line. -/
def lineVectors (line : Text) : List (List Text) := (fgetsAll lineSize line).filterMap readVector

/-- Where the piece with the first character that is not blank begins. -/
def pieceStart (line : Text) : Nat := (line.takeWhile isBlank).length / (lineSize - 1) * (lineSize - 1)

def firstPiece (line : Text) : Text := (line.drop (pieceStart line)).take (lineSize - 1)

def behindPiece (line : Text) : Text := line.drop (pieceStart line + (lineSize - 1))

/-- A line that the loop reads as it stands. It has no more tokens than there is room for, and what does not fit the buffer
together with its first token is blanks that no open quote takes in; behind `exit` it may also be the end of a quote. -/
def Intact (line : Text) : Prop :=
  (allTokens line).length ≤ maxArgs ∧ AddsNothing (openQuote (firstPiece line)) (behindPiece line) ∧
    (exits (allTokens line) = true ∨ Blank (behindPiece line))

instance : DecidablePred Intact := fun _ => inferInstanceAs (Decidable (_ ∧ _ ∧ _))

theorem addsNothing_nil (left : Option Char) : AddsNothing left [] := by
  cases left with
  | none => exact blank_nil
  | some quote => exact Or.inl rfl

theorem readVector_newline (piece : Text) : readVector (piece ++ [newline]) = readVector piece := by
  have cut : cutAt [newline] (piece ++ [newline]) = cutAt [newline] piece := cutAt_concat (by decide) piece
  rw [readVector, readVector, cut]

/-- A piece of a line is split without the buffer. -/
theorem readVector_piece {piece : Text} (whole : newline ∉ piece) (clean : nul ∉ piece) :
    readVector piece = if Blank piece then none else some ((allTokens piece).take maxArgs) := by
  have cut : cutAt [newline] piece = piece := by
    apply List.takeWhile_eq_self_iff.mpr
    intro c member
    simp only [List.mem_singleton, decide_eq_true_eq]
    rintro rfl
    exact whole member
  simp only [readVector, cut, commandArgs_eq_tokens clean, tokens_eq_take]
  by_cases blank : Blank piece
  · simp [allTokens_eq_nil.mpr blank, blank]
  · have some : allTokens piece ≠ [] := fun none => blank (allTokens_eq_nil.mp none)
    have full : piece ≠ [] := by
      rintro rfl
      exact blank blank_nil
    simp only [full, blank, if_false]
    cases found : allTokens piece with
    | nil => exact absurd found some
    | cons command args => rfl

theorem lineVectors_short {line : Text} (whole : newline ∉ line) (fits : line.length ≤ lineSize - 1) :
    lineVectors line = (readVector line).toList := by
  by_cases empty : line = []
  · subst empty
    rfl
  · rw [lineVectors, show lineSize = 254 + 2 from rfl, fgetsAll_short whole fits empty, List.filterMap_cons]
    cases readVector line <;> rfl

theorem lineVectors_long {front back : Text} (whole : newline ∉ front) (full : front.length = lineSize - 1) :
    lineVectors (front ++ back) = (readVector front).toList ++ lineVectors back := by
  rw [lineVectors, show lineSize = 254 + 2 from rfl, fgetsAll_long whole full, List.filterMap_cons, lineVectors]
  cases readVector front <;> rfl

/-- Only a blank line is skipped. -/
theorem lineVectors_eq_nil {line : Text} (whole : newline ∉ line) (clean : nul ∉ line) : lineVectors line = [] ↔ Blank line := by
  induction size : line.length using Nat.strongRecOn generalizing line with
  | ind size_value ih =>
    subst size
    by_cases fits : line.length ≤ lineSize - 1
    · rw [lineVectors_short whole fits, readVector_piece whole clean]
      by_cases blank : Blank line <;> simp [blank]
    · obtain ⟨front, back, rfl, full⟩ : ∃ front back, line = front ++ back ∧ front.length = lineSize - 1 :=
        ⟨line.take (lineSize - 1), line.drop (lineSize - 1), (List.take_append_drop _ _).symm, by rw [List.length_take]; omega⟩
      rw [List.mem_append, not_or] at whole clean
      have positive : 0 < lineSize - 1 := by decide
      have later := ih back.length (by rw [List.length_append]; omega) whole.2 clean.2 rfl
      rw [lineVectors_long whole.1 full, List.append_eq_nil_iff, later, blank_append, readVector_piece whole.1 clean.1]
      by_cases blank : Blank front <;> simp [blank]

/-- The first piece of a long line is blank: the rest of the line stands for all of it. -/
theorem pieces_blank {front : Text} (blank : Blank front) (full : front.length = lineSize - 1) (back : Text) :
    firstPiece (front ++ back) = firstPiece back ∧ behindPiece (front ++ back) = behindPiece back := by
  have count : ((front ++ back).takeWhile isBlank).length = (back.takeWhile isBlank).length + (lineSize - 1) := by
    rw [List.takeWhile_append_of_pos blank, List.length_append, full, Nat.add_comm]
  have start : pieceStart (front ++ back) = front.length + pieceStart back := by
    unfold pieceStart
    rw [count, Nat.add_div_right _ (by decide), full]
    simp only [lineSize]
    omega
  constructor
  · rw [firstPiece, start, List.drop_append, List.drop_of_length_le (Nat.le_add_right _ _), Nat.add_sub_cancel_left]
    rfl
  · rw [behindPiece, start, Nat.add_assoc, List.drop_append, List.drop_of_length_le (Nat.le_add_right _ _), Nat.add_sub_cancel_left]
    rfl

/-- It is not: the line begins in its first piece. -/
theorem pieces_solid {front : Text} (solid : ¬ Blank front) (full : front.length = lineSize - 1) (back : Text) :
    firstPiece (front ++ back) = front ∧ behindPiece (front ++ back) = back := by
  have count : ((front ++ back).takeWhile isBlank).length < lineSize - 1 := by
    by_contra many
    apply solid
    have inside := List.takeWhile_prefix (p := isBlank) (l := front ++ back)
    have covered : front <+: (front ++ back).takeWhile isBlank :=
      List.prefix_of_prefix_length_le (List.prefix_append front back) inside (by omega)
    exact fun c member => List.mem_takeWhile_imp (covered.subset member)
  have start : pieceStart (front ++ back) = 0 := by
    rw [pieceStart, Nat.div_eq_of_lt count, Nat.zero_mul]
  rw [firstPiece, behindPiece, start, ← full]
  simp

/-- What does not fit the buffer adds nothing to a line that fits. -/
theorem behindPiece_short {line : Text} (fits : line.length ≤ lineSize - 1) : behindPiece line = [] :=
  List.drop_of_length_le (by omega)

theorem take_eq_self {found : List Text} {room : Nat} : found.take room = found ↔ found.length ≤ room := by
  constructor
  · intro same
    rw [← same]
    exact List.length_take_le room found
  · exact List.take_of_length_le

theorem upTo_eq_singleton {args only : List Text} {later : List (List Text)} :
    upTo exits (args :: later) = [only] ↔ args = only ∧ (exits only = true ∨ later = []) := by
  simp only [upTo, List.cons.injEq]
  constructor
  · rintro ⟨rfl, rest⟩
    refine ⟨rfl, ?_⟩
    by_cases leaves : exits args = true
    · exact Or.inl leaves
    · rw [if_neg leaves] at rest
      cases later with
      | nil => exact Or.inr rfl
      | cons next later => cases rest
  · rintro ⟨rfl, leaves | rfl⟩
    · exact ⟨rfl, if_pos leaves⟩
    · refine ⟨rfl, ?_⟩
      split <;> rfl

/-- The loop makes of a line the vector it stands for exactly where the line is intact. -/
theorem lineVectors_iff {line : Text} (whole : newline ∉ line) (clean : nul ∉ line) :
    upTo exits (lineVectors line) = (wholeLine line).toList ↔ Intact line := by
  -- A blank first piece is skipped, and the rest of the line is a shorter line.
  induction size : line.length using Nat.strongRecOn generalizing line with
  | ind size_value ih =>
    subst size
    by_cases fits : line.length ≤ lineSize - 1
    · have nothing : AddsNothing (openQuote (firstPiece line)) [] := addsNothing_nil _
      rw [lineVectors_short whole fits, readVector_piece whole clean, Intact, behindPiece_short fits,
        and_iff_right nothing, and_iff_left (Or.inr blank_nil), wholeLine]
      by_cases blank : Blank line
      · simp [blank, allTokens_eq_nil.mpr blank, upTo]
      · have some : allTokens line ≠ [] := fun none => blank (allTokens_eq_nil.mp none)
        simp only [blank, some, if_false, Option.toList_some]
        rw [upTo_eq_singleton, take_eq_self, and_iff_left (Or.inr rfl)]
    · obtain ⟨front, back, rfl, full⟩ : ∃ front back, line = front ++ back ∧ front.length = lineSize - 1 :=
        ⟨line.take (lineSize - 1), line.drop (lineSize - 1), (List.take_append_drop _ _).symm, by rw [List.length_take]; omega⟩
      rw [List.mem_append, not_or] at whole clean
      have positive : 0 < lineSize - 1 := by decide
      rw [lineVectors_long whole.1 full, readVector_piece whole.1 clean.1, Intact]
      by_cases blank : Blank front
      · have later := ih back.length (by rw [List.length_append]; omega) whole.2 clean.2 rfl
        rw [(pieces_blank blank full back).1, (pieces_blank blank full back).2]
        simp only [blank, if_true, Option.toList_none, List.nil_append, wholeLine, allTokens_blank_append blank]
        exact later
      · have some : allTokens (front ++ back) ≠ [] := fun none => blank (blank_append.mp (allTokens_eq_nil.mp none)).1
        obtain ⟨more, same⟩ := (reads front).append back
        rw [(pieces_solid blank full back).1, (pieces_solid blank full back).2]
        simp only [blank, some, if_false, Option.toList_some, List.singleton_append, wholeLine]
        rw [upTo_eq_singleton, lineVectors_eq_nil whole.2 clean.2, ← and_assoc, and_congr_left_iff, ← same]
        intro _
        constructor
        · intro cut
          have few : (allTokens (front ++ back)).length ≤ maxArgs := by
            rw [← cut]
            exact List.length_take_le _ _
          refine ⟨few, ?_⟩
          rw [← cut, take_eq_self]
          omega
        · rintro ⟨few, equal⟩
          rw [equal] at few ⊢
          exact List.take_of_length_le few

/-! ## The stream -/

/-- The lines of the input that the loop gets to, each with the vectors it dispatches for it. -/
def lineRuns : List Text → List (Text × List (List Text))
  | [] => []
  | line :: rest =>
    let vectors := upTo exits (lineVectors line)
    (line, vectors) :: if vectors.any exits then [] else lineRuns rest

/-- One line, one command: the loop dispatches what the lines of the input stand for, and each line on its own is dispatched
once and with all of its tokens, or not at all. -/
structure OneLineOneCommand (stream : Text) : Prop where
  sequence : dispatched stream = upTo exits ((stream.splitOn newline).filterMap wholeLine)
  lines : ∀ run ∈ lineRuns (stream.splitOn newline), run.2 = [] ∨ run.2 = [allTokens run.1]

/-- The lines up to the first that leaves the loop. -/
def linesToExit (stream : Text) : List Text := upTo (fun line => exits (allTokens line)) (stream.splitOn newline)

theorem upTo_append {α : Type} (stop : α → Bool) (front back : List α) :
    upTo stop (front ++ back) = upTo stop front ++ if (upTo stop front).any stop then [] else upTo stop back := by
  induction front with
  | nil => rfl
  | cons a front ih =>
    simp only [List.cons_append, upTo, List.any_cons]
    by_cases stops : stop a = true
    · simp [stops]
    · simp [stops, ih]

/-- What the loop dispatches, line by line. -/
theorem dispatched_eq (stream : Text) : dispatched stream = (lineRuns (stream.splitOn newline)).flatMap (·.2) := by
  have pieces : (fgetsAll lineSize stream).filterMap readVector = (stream.splitOn newline).flatMap lineVectors :=
    @filterMap_fgetsAll _ 254 _ readVector_newline rfl stream
  rw [dispatched, pieces]
  generalize stream.splitOn newline = lines
  induction lines with
  | nil => rfl
  | cons line rest ih =>
    rw [List.flatMap_cons, upTo_append, lineRuns, List.flatMap_cons]
    congr 1
    split
    · rfl
    · exact ih

theorem lineVectors_head {line : Text} (whole : newline ∉ line) (clean : nul ∉ line)
    (single : upTo exits (lineVectors line) = [] ∨ upTo exits (lineVectors line) = [allTokens line]) :
    upTo exits (lineVectors line) = (wholeLine line).toList := by
  have skipped := lineVectors_eq_nil whole clean
  rcases single with none | one
  · have empty : lineVectors line = [] := by
      cases found : lineVectors line with
      | nil => rfl
      | cons args later => simp [found, upTo] at none
    rw [none, wholeLine, if_pos (allTokens_eq_nil.mpr (skipped.mp empty))]
    rfl
  · have some : allTokens line ≠ [] := by
      intro none
      rw [skipped.mpr (allTokens_eq_nil.mp none)] at one
      cases one
    rw [one, wholeLine, if_neg some]
    rfl

/-- A line that is read as it stands leaves the loop where its vector does. -/
theorem any_wholeLine (line : Text) : (wholeLine line).toList.any exits = exits (allTokens line) := by
  unfold wholeLine
  by_cases none : allTokens line = []
  · simp [none, exits]
  · simp [none]

/-- Every line up to the one that leaves the loop is dispatched as it stands, where it is intact. -/
theorem lineRuns_iff {lines : List Text} (whole : ∀ line ∈ lines, newline ∉ line) (clean : ∀ line ∈ lines, nul ∉ line) :
    (∀ run ∈ lineRuns lines, run.2 = [] ∨ run.2 = [allTokens run.1]) ↔
      ∀ line ∈ upTo (fun line => exits (allTokens line)) lines, Intact line := by
  -- Up to the first line that leaves the loop, each line is compared on its own.
  induction lines with
  | nil => simp [lineRuns, upTo]
  | cons line rest ih =>
    have first := lineVectors_iff (whole line List.mem_cons_self) (clean line List.mem_cons_self)
    have later := ih (fun other member => whole other (List.mem_cons_of_mem _ member))
      (fun other member => clean other (List.mem_cons_of_mem _ member))
    simp only [lineRuns, upTo, List.forall_mem_cons]
    constructor
    · rintro ⟨single, runs⟩
      have read := lineVectors_head (whole line List.mem_cons_self) (clean line List.mem_cons_self) single
      refine ⟨first.mp read, ?_⟩
      rw [read, any_wholeLine] at runs
      split
      · simp
      · rename_i stays
        rw [if_neg stays] at runs
        exact later.mp runs
    · rintro ⟨intact, lines⟩
      have read := first.mpr intact
      rw [read, any_wholeLine]
      constructor
      · unfold wholeLine
        split
        · exact Or.inl rfl
        · exact Or.inr rfl
      · split
        · simp
        · rename_i stays
          rw [if_neg stays] at lines
          exact later.mpr lines

/-- Intact lines are dispatched in their order. -/
theorem flatMap_lineRuns {lines : List Text} (whole : ∀ line ∈ lines, newline ∉ line) (clean : ∀ line ∈ lines, nul ∉ line)
    (intact : ∀ line ∈ upTo (fun line => exits (allTokens line)) lines, Intact line) :
    (lineRuns lines).flatMap (·.2) = upTo exits (lines.filterMap wholeLine) := by
  induction lines with
  | nil => rfl
  | cons line rest ih =>
    simp only [upTo, List.forall_mem_cons] at intact
    have read := (lineVectors_iff (whole line List.mem_cons_self) (clean line List.mem_cons_self)).mpr intact.1
    have split : (line :: rest).filterMap wholeLine = (wholeLine line).toList ++ rest.filterMap wholeLine := by
      rw [List.filterMap_cons]
      cases wholeLine line <;> rfl
    have once : upTo exits (wholeLine line).toList = (wholeLine line).toList := by
      cases wholeLine line <;> simp [upTo]
    rw [split, upTo_append, once, any_wholeLine, lineRuns, List.flatMap_cons, read, any_wholeLine]
    congr 1
    split
    · rfl
    · rename_i stays
      rw [if_neg stays] at intact
      exact ih (fun other member => whole other (List.mem_cons_of_mem _ member))
        (fun other member => clean other (List.mem_cons_of_mem _ member)) intact.2

/-- The main loop reads the stream as it was written exactly where each line, up to the first `exit`, is intact. -/
theorem oneLineOneCommand_iff (stream : Text) (clean : nul ∉ stream) :
    OneLineOneCommand stream ↔ ∀ line ∈ linesToExit stream, Intact line := by
  have whole : ∀ line ∈ stream.splitOn newline, newline ∉ line := fun line member => not_mem_of_mem_splitOn member
  have lines_clean : ∀ line ∈ stream.splitOn newline, nul ∉ line := fun line member inside => clean (mem_of_mem_splitOn member inside)
  have lines := lineRuns_iff whole lines_clean
  constructor
  · intro once
    exact lines.mp once.lines
  · intro intact
    refine ⟨?_, lines.mpr intact⟩
    rw [dispatched_eq]
    exact flatMap_lineRuns whole lines_clean intact

/-- An input with a command, a line of blanks that is longer than the buffer, and the end of the loop. -/
theorem short_lines_dispatched :
    OneLineOneCommand (lit "run a 'b c' / sh\n" ++ List.replicate 300 ' ' ++ lit "\nexit now\nlist") :=
  (oneLineOneCommand_iff _ (by decide +kernel)).mpr (by decide +kernel)

/-- A `create` with a name of 248 characters fills the buffer: what follows it is run as a command of its own. -/
theorem tail_dispatched :
    nul ∉ lit "create " ++ List.replicate 248 'n' ++ lit "exit\n" ∧
    ¬ OneLineOneCommand (lit "create " ++ List.replicate 248 'n' ++ lit "exit\n") := by
  refine ⟨by decide +kernel, ?_⟩
  intro once
  exact absurd once.sequence (by decide +kernel)

end ContainerRuntime.Cli
