import ContainerRuntime.CString.Lines

/-! `parse_command`: the command line is split in place.

The scan writes a NUL over the character behind each token and stores a pointer
to its start; the arguments are the strings found at those pointers when the
scan is over. `tokens` is the same splitting without the buffer.
-/

set_option autoImplicit false

namespace ContainerRuntime.Cli

open CString

def isBlank (c : Char) : Bool := c = ' ' || c = '\t'

def isQuote (c : Char) : Bool := c = '"' || c = apostrophe

/-- The line buffer, divided at the cursor. -/
structure Scan where
  before : Text
  rest : Text

def Scan.buffer (scan : Scan) : Text := scan.before ++ scan.rest

/-- `*cursor++ = '\0'` unless the line has ended. -/
def terminate (before : Text) : Text → Scan
  | [] => ⟨before, []⟩
  | _ :: rest => ⟨before ++ [nul], rest⟩

/-- One round of the loop: the pointer to the next token and the scan behind it. -/
def scanToken (scan : Scan) : Option (Nat × Scan) :=
  let before := scan.before ++ scan.rest.takeWhile isBlank
  match scan.rest.dropWhile isBlank with
  | [] => none
  | c :: rest =>
    if isQuote c then
      some ((before ++ [c]).length,
        terminate (before ++ [c] ++ rest.takeWhile (· ≠ c)) (rest.dropWhile (· ≠ c)))
    else
      some (before.length,
        terminate (before ++ (c :: rest).takeWhile (!isBlank ·)) ((c :: rest).dropWhile (!isBlank ·)))

/-- The loop with room for a number of arguments: the final buffer and the pointers into it. -/
def parseLoop : Nat → Scan → Text × List Nat
  | 0, scan => (scan.buffer, [])
  | room + 1, scan =>
    match scanToken scan with
    | none => (scan.buffer, [])
    | some (start, next) => ((parseLoop room next).1, start :: (parseLoop room next).2)

def parseCommand (line : Text) (maxArgs : Nat) : Text × List Nat := parseLoop maxArgs ⟨[], line⟩

/-- `char *args[32]`. -/
def maxArgs : Nat := 32

/-- The argument strings the main loop sees for one input line. -/
def commandArgs (line : Text) : List Text :=
  (parseCommand line maxArgs).2.map (cstringAt (parseCommand line maxArgs).1)

/-! ## Splitting without the buffer -/

def nextToken (text : Text) : Option (Text × Text) :=
  match text.dropWhile isBlank with
  | [] => none
  | c :: rest =>
    if isQuote c then some (rest.takeWhile (· ≠ c), (rest.dropWhile (· ≠ c)).drop 1)
    else some ((c :: rest).takeWhile (!isBlank ·), ((c :: rest).dropWhile (!isBlank ·)).drop 1)

def tokens : Nat → Text → List Text
  | 0, _ => []
  | room + 1, text =>
    match nextToken text with
    | none => []
    | some (token, rest) => token :: tokens room rest

theorem terminate_rest (before rest : Text) : (terminate before rest).rest = rest.drop 1 := by
  cases rest <;> rfl

theorem terminate_before (before rest : Text) : ∃ mark, (terminate before rest).before = before ++ mark ∧
    (mark = [] ∧ rest = [] ∨ mark = [nul]) := by
  cases rest with
  | nil => exact ⟨[], by simp [terminate], Or.inl ⟨rfl, rfl⟩⟩
  | cons c rest => exact ⟨[nul], rfl, Or.inr rfl⟩

/-- A round of the scan finds the next token at its pointer: it is followed by a NUL, or ends the line. -/
theorem scanToken_some {scan next : Scan} {start : Nat} (found : scanToken scan = some (start, next)) :
    ∃ token front mark, nextToken scan.rest = some (token, next.rest) ∧
      next.before = front ++ token ++ mark ∧ start = front.length ∧ scan.before <+: front ∧
      (mark = [] ∧ next.rest = [] ∨ mark = [nul]) ∧ ∀ c ∈ token, c ∈ scan.rest := by
  simp only [scanToken] at found
  cases dropped : scan.rest.dropWhile isBlank with
  | nil => simp [dropped] at found
  | cons c rest =>
    have inside : ∀ d ∈ c :: rest, d ∈ scan.rest := fun d member =>
      (List.dropWhile_suffix isBlank).subset (dropped ▸ member)
    simp only [dropped] at found
    split at found
    · rename_i quote
      simp only [Option.some.injEq, Prod.mk.injEq] at found
      obtain ⟨rfl, rfl⟩ := found
      obtain ⟨mark, written, ended⟩ := terminate_before
        (scan.before ++ scan.rest.takeWhile isBlank ++ [c] ++ rest.takeWhile (· ≠ c)) (rest.dropWhile (· ≠ c))
      refine ⟨rest.takeWhile (· ≠ c), scan.before ++ scan.rest.takeWhile isBlank ++ [c], mark, ?_, written, rfl,
        ?_, ?_, ?_⟩
      · simp only [nextToken, dropped, quote, if_true, terminate_rest]
      · rw [List.append_assoc]; exact List.prefix_append _ _
      · rw [terminate_rest]
        exact ended.imp_left fun both => ⟨both.1, by rw [both.2]; rfl⟩
      · intro d member
        exact inside d (List.mem_cons_of_mem c ((List.takeWhile_prefix _).subset member))
    · rename_i bare
      simp only [Option.some.injEq, Prod.mk.injEq] at found
      obtain ⟨rfl, rfl⟩ := found
      obtain ⟨mark, written, ended⟩ := terminate_before
        (scan.before ++ scan.rest.takeWhile isBlank ++ (c :: rest).takeWhile (!isBlank ·))
        ((c :: rest).dropWhile (!isBlank ·))
      refine ⟨(c :: rest).takeWhile (!isBlank ·), scan.before ++ scan.rest.takeWhile isBlank, mark, ?_, written, rfl,
        List.prefix_append _ _, ?_, ?_⟩
      · simp only [nextToken, dropped, bare, terminate_rest]
        rfl
      · rw [terminate_rest]
        exact ended.imp_left fun both => ⟨both.1, by rw [both.2]; rfl⟩
      · intro d member
        exact inside d ((List.takeWhile_prefix _).subset member)

theorem scanToken_none {scan : Scan} (found : scanToken scan = none) : nextToken scan.rest = none := by
  simp only [scanToken] at found
  cases dropped : scan.rest.dropWhile isBlank with
  | nil => simp [nextToken, dropped]
  | cons c rest =>
    simp only [dropped] at found
    split at found <;> cases found

theorem nextToken_rest_subset {text token rest : Text} (found : nextToken text = some (token, rest)) :
    ∀ c ∈ rest, c ∈ text := by
  intro d member
  unfold nextToken at found
  cases dropped : text.dropWhile isBlank with
  | nil => simp [dropped] at found
  | cons c tail =>
    have inside : ∀ d ∈ c :: tail, d ∈ text := fun d member =>
      (List.dropWhile_suffix isBlank).subset (dropped ▸ member)
    simp only [dropped] at found
    split at found
    · simp only [Option.some.injEq, Prod.mk.injEq] at found
      rw [← found.2] at member
      exact inside d (List.mem_cons_of_mem c ((List.dropWhile_suffix _).subset (List.mem_of_mem_drop member)))
    · simp only [Option.some.injEq, Prod.mk.injEq] at found
      rw [← found.2] at member
      exact inside d ((List.dropWhile_suffix _).subset (List.mem_of_mem_drop member))

/-- Reading a string at its pointer stops at the mark behind it. -/
theorem cstringAt_token {front token mark rest : Text} (clean : nul ∉ token)
    (ended : mark = [] ∧ rest = [] ∨ ∃ more, mark ++ rest = nul :: more) :
    cstringAt (front ++ token ++ mark ++ rest) front.length = token := by
  have kept : ∀ c ∈ token, decide (c ≠ nul) = true := by
    intro c member
    simp only [ne_eq, decide_eq_true_eq]
    rintro rfl
    exact clean member
  unfold cstringAt
  rw [List.append_assoc, List.append_assoc, List.drop_left, List.takeWhile_append_of_pos kept]
  rcases ended with ⟨rfl, rfl⟩ | ⟨more, same⟩
  · simp
  · simp [same]

theorem parseLoop_prefix (room : Nat) (scan : Scan) : scan.before <+: (parseLoop room scan).1 := by
  induction room generalizing scan with
  | zero => exact List.prefix_append _ _
  | succ room ih =>
    unfold parseLoop
    split
    · exact List.prefix_append _ _
    · rename_i start next found
      obtain ⟨token, front, mark, _, written, _, front_prefix, _, _⟩ := scanToken_some found
      refine front_prefix.trans (List.IsPrefix.trans ?_ (ih next))
      rw [written, List.append_assoc]
      exact List.prefix_append _ _

theorem parseLoop_ended (room : Nat) (before : Text) : (parseLoop room ⟨before, []⟩).1 = before := by
  cases room <;> simp [parseLoop, scanToken, Scan.buffer]

/-- The strings at the pointers are the tokens, although the buffer was overwritten while it was scanned. -/
theorem parseLoop_tokens (room : Nat) (scan : Scan) (clean : nul ∉ scan.rest) :
    (parseLoop room scan).2.map (cstringAt (parseLoop room scan).1) = tokens room scan.rest := by
  induction room generalizing scan with
  | zero => rfl
  | succ room ih =>
    cases found : scanToken scan with
    | none => simp only [parseLoop, tokens, found, scanToken_none found, List.map_nil]
    | some pair =>
      obtain ⟨start, next⟩ := pair
      obtain ⟨token, front, mark, same, written, rfl, _, ended, inside⟩ := scanToken_some found
      have cleanToken : nul ∉ token := fun member => clean (inside nul member)
      have cleanRest : nul ∉ next.rest := fun member => clean (nextToken_rest_subset same nul member)
      obtain ⟨more, extended⟩ := parseLoop_prefix room next
      simp only [parseLoop, tokens, found, same, List.map_cons, ih next cleanRest]
      congr 1
      -- The pointer of this token: everything written later lies behind its mark.
      rcases ended with ⟨rfl, finished⟩ | rfl
      · have stop : (parseLoop room next).1 = next.before := by
          have whole : next = ⟨next.before, []⟩ := by rw [← finished]
          rw [whole]
          exact parseLoop_ended room next.before
        rw [stop, written, ← List.append_nil (front ++ token ++ [])]
        exact cstringAt_token cleanToken (Or.inl ⟨rfl, rfl⟩)
      · rw [← extended, written]
        exact cstringAt_token cleanToken (Or.inr ⟨more, rfl⟩)

theorem commandArgs_eq_tokens {line : Text} (clean : nul ∉ line) : commandArgs line = tokens maxArgs line :=
  parseLoop_tokens maxArgs ⟨[], line⟩ clean

theorem length_commandArgs_le (line : Text) : (commandArgs line).length ≤ maxArgs := by
  have pointers : ∀ room scan, (parseLoop room scan).2.length ≤ room := by
    intro room
    induction room with
    | zero => intro scan; simp [parseLoop]
    | succ room ih =>
      intro scan
      unfold parseLoop
      split
      · simp
      · rename_i start next _
        simpa using ih next
  simpa [commandArgs, parseCommand] using pointers maxArgs ⟨[], line⟩

end ContainerRuntime.Cli
