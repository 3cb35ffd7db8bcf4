import Mathlib.Algebra.Order.Ring.Nat
import Mathlib.Data.List.Basic

/-! How a POSIX shell reads one line.

The reader takes a line that is one simple command, and whose words stand for
themselves once their quotes are removed. Whatever is expanded, executed,
redirected, matched against file names or left out makes it give up.
-/

set_option autoImplicit false

namespace Shell

/-- A character of a word. -/
structure Letter where
  char : Char
  quoted : Bool
  deriving DecidableEq

abbrev Word := List Letter

/-- Where the reader stands. -/
inductive Mode where
  | free
  | single
  | double
  /-- Behind a backslash, in front of which this mode held. -/
  | escaped (inDouble : Bool)
  deriving DecidableEq

structure Reader where
  mode : Mode
  /-- The word that has begun. -/
  word : Option Word
  words : List Word
  deriving DecidableEq

def isBlank (c : Char) : Bool := c = ' ' || c = '\t'

def backslash : Char := Char.ofNat 92
def singleQuote : Char := Char.ofNat 39
def doubleQuote : Char := Char.ofNat 34
def backquote : Char := Char.ofNat 96
def newline : Char := Char.ofNat 10

def isQuote (c : Char) : Bool := c = backslash || c = singleQuote || c = doubleQuote

/-- The characters of the operators, and those that begin an expansion, wherever they stand. -/
def isActive (c : Char) : Bool :=
  c ∈ ['|', '&', ';', '<', '>', '(', ')', '$', backquote, newline]

namespace Reader

def start : Reader := ⟨.free, none, []⟩

/-- The word has another letter. -/
def push (r : Reader) (c : Char) (quoted : Bool) : Reader := { r with word := some (r.word.getD [] ++ [⟨c, quoted⟩]) }

/-- The word has begun, if it had not yet. -/
def opened (r : Reader) (mode : Mode) : Reader := { r with mode := mode, word := some (r.word.getD []) }

/-- The word is complete, if there is one. -/
def closed (r : Reader) : Reader :=
  match r.word with
  | none => r
  | some word => { r with word := none, words := r.words ++ [word] }

def step (r : Reader) (c : Char) : Option Reader :=
  match r.mode with
  | .free =>
    if isBlank c then some r.closed
    else if isActive c then none
    else if c = backslash then some { r with mode := .escaped false }
    else if c = singleQuote then some (r.opened .single)
    else if c = doubleQuote then some (r.opened .double)
    -- A comment, and a home directory.
    else if r.word = none ∧ (c = '#' ∨ c = '~') then none
    else some (r.push c false)
  | .single => if c = singleQuote then some { r with mode := .free } else some (r.push c true)
  | .double =>
    if c = doubleQuote then some { r with mode := .free }
    else if c = '$' ∨ c = backquote then none
    else if c = backslash then some { r with mode := .escaped true }
    else some (r.push c true)
  | .escaped false => if c = newline then some { r with mode := .free } else some ({ r with mode := .free }.push c true)
  | .escaped true =>
    if c = newline then some { r with mode := .double }
    else if c = '$' ∨ c = backquote ∨ c = doubleQuote ∨ c = backslash then some ({ r with mode := .double }.push c true)
    else some (({ r with mode := .double }.push backslash true).push c true)

def run (r : Reader) (text : List Char) : Option Reader := text.foldlM step r

/-- The words, unless a quote is open. -/
def finish (r : Reader) : Option (List Word) := if r.mode = .free then some r.closed.words else none

end Reader

/-- An open bracket has its closing one: in the same component, and not as its first character. -/
def closes (rest : Word) : Bool :=
  let members := if rest.head? = some ⟨'!', false⟩ then rest.drop 1 else rest
  ((members.takeWhile (·.char ≠ '/')).drop 1).contains ⟨']', false⟩

/-- The word is a pattern for file names. -/
def patterned : Word → Bool
  | [] => false
  | ⟨c, quoted⟩ :: rest => !quoted && (c = '*' || c = '?' || c = '[' && closes rest) || patterned rest

def reserved : List (List Char) :=
  ["!", "\x7b", "\x7d", "case", "do", "done", "elif", "else", "esac", "fi", "for", "if", "in", "then", "until",
    "while"].map String.toList

def text (word : Word) : List Char := word.map (·.char)

/-- The first word is the name of a command. -/
def isCommandName (word : Word) : Bool := !word.contains ⟨'=', false⟩ && !(reserved.contains (text word) && word.all (!·.quoted))

/-- The words of a line, if it is one simple command and they stand for themselves. -/
def readCommand (line : List Char) : Option (List (List Char)) :=
  match (Reader.start.run line).bind Reader.finish with
  | none | some [] => none
  | some (first :: rest) =>
    if isCommandName first && (first :: rest).all (!patterned ·) then some ((first :: rest).map text) else none

/-- The letters of a text without quotes. -/
def plainly (line : List Char) : Word := line.map (⟨·, false⟩)

/-- A character that does not stand for itself. -/
def isSpecial (c : Char) : Bool := isBlank c || isQuote c || isActive c

/-! ## Letters are never more than characters -/

namespace Reader

/-- The letters read so far, with the backslash of which it is not known yet whether it is one. -/
def letters (r : Reader) : Nat :=
  (r.words.map List.length).sum + (r.word.getD []).length + if r.mode = .escaped true then 1 else 0

theorem letters_push (r : Reader) (c : Char) (quoted : Bool) : (r.push c quoted).letters = r.letters + 1 := by
  by_cases pending : r.mode = .escaped true <;> simp [letters, push, pending] <;> omega

theorem letters_closed (r : Reader) : r.closed.letters = r.letters := by
  unfold closed
  cases begun : r.word <;> simp [letters, begun]

/-- A character that is special outside quotes is no letter there. -/
theorem letters_special {r after : Reader} {c : Char} (free : r.mode = .free) (special : isSpecial c = true)
    (step : r.step c = some after) : after.letters = r.letters := by
  simp only [isSpecial, isQuote, Bool.or_eq_true, decide_eq_true_eq] at special
  simp only [Reader.step, free] at step
  split at step
  · cases step
    exact letters_closed r
  split at step
  · cases step
  split at step
  · cases step
    simp [letters, free]
  split at step
  · cases step
    simp [letters, opened, free]
  split at step
  · cases step
    simp [letters, opened, free]
  · grind

/-- Any other character is a letter there, if the reader goes on. -/
theorem step_plain {r after : Reader} {c : Char} (free : r.mode = .free) (plain : isSpecial c = false)
    (step : r.step c = some after) : after = r.push c false := by
  simp only [isSpecial, isQuote, Bool.or_eq_false_iff, decide_eq_false_iff_not] at plain
  obtain ⟨⟨blank, ⟨noBackslash, noSingle⟩, noDouble⟩, active⟩ := plain
  simp only [Reader.step, free, blank, active, Bool.false_eq_true, if_false, if_neg noBackslash, if_neg noSingle,
    if_neg noDouble] at step
  split at step
  · cases step
  · exact (Option.some.inj step).symm

theorem letters_step {r after : Reader} {c : Char} (step : r.step c = some after) : after.letters ≤ r.letters + 1 := by
  obtain ⟨mode, word, words⟩ := r
  cases mode with
  | free =>
    cases special : isSpecial c with
    | true => exact Nat.le_succ_of_le (Nat.le_of_eq (letters_special rfl special step))
    | false => exact Nat.le_of_eq (step_plain rfl special step ▸ letters_push _ c false)
  | single =>
    simp only [Reader.step] at step
    split at step <;> cases step
    · simp [letters]
    · exact Nat.le_of_eq (letters_push _ c true)
  | double =>
    simp only [Reader.step] at step
    split at step
    · cases step
      simp [letters]
    split at step
    · cases step
    split at step <;> cases step
    · simp [letters]
    · exact Nat.le_of_eq (letters_push _ c true)
  | escaped inDouble =>
    cases inDouble with
    | false =>
      simp only [Reader.step] at step
      split at step <;> cases step
      · simp [letters]
      · rw [letters_push]
        simp [letters]
    | true =>
      simp only [Reader.step] at step
      split at step
      · cases step
        simp [letters]
        omega
      split at step <;> cases step
      · rw [letters_push]
        simp [letters]
      · -- The backslash was counted when it was read.
        rw [letters_push, letters_push]
        simp [letters]

theorem letters_run {r after : Reader} {line : List Char} (run : r.run line = some after) :
    after.letters ≤ r.letters + line.length := by
  induction line generalizing r with
  | nil =>
    cases run
    exact Nat.le_refl _
  | cons c rest ih =>
    obtain ⟨next, first, later⟩ := Option.bind_eq_some_iff.mp run
    have one := letters_step first
    have others := ih later
    rw [List.length_cons]
    omega

/-- Outside quotes, a special character costs a letter. -/
theorem letters_run_lt {r after : Reader} {line : List Char} (free : r.mode = .free) (run : r.run line = some after)
    (some_special : ∃ c ∈ line, isSpecial c = true) : after.letters < r.letters + line.length := by
  induction line generalizing r with
  | nil =>
    obtain ⟨c, absent, _⟩ := some_special
    cases absent
  | cons c rest ih =>
    obtain ⟨next, first, later⟩ := Option.bind_eq_some_iff.mp run
    rw [List.length_cons]
    cases special : isSpecial c with
    | true =>
      have none := letters_special free special first
      have others := letters_run later
      omega
    | false =>
      have one := step_plain free special first
      have rest_special : ∃ d ∈ rest, isSpecial d = true := by
        obtain ⟨d, member, marked⟩ := some_special
        rcases List.mem_cons.mp member with rfl | later
        · cases special.symm.trans marked
        · exact ⟨d, later, marked⟩
      have others := ih (one ▸ free) later rest_special
      rw [one, letters_push] at others
      omega

theorem letters_finish {r : Reader} {words : List Word} (finish : r.finish = some words) :
    (words.map List.length).sum = r.letters := by
  unfold Reader.finish at finish
  split at finish
  · rename_i free
    cases finish
    have done : r.closed.word = none := by
      unfold closed
      cases begun : r.word <;> simp [begun]
    have mode : r.closed.mode = .free := by
      unfold closed
      cases r.word <;> exact free
    rw [← letters_closed r]
    simp [letters, done, mode]
  · cases finish

theorem run_append (r : Reader) (front back : List Char) : r.run (front ++ back) = (r.run front).bind (·.run back) :=
  List.foldlM_append

/-- A word without special characters, once it has begun. -/
theorem run_plain {r : Reader} {word : Word} (free : r.mode = .free) (begun : r.word = some word) {line : List Char}
    (plain : ∀ c ∈ line, isSpecial c = false) : r.run line = some { r with word := some (word ++ plainly line) } := by
  induction line generalizing r word with
  | nil =>
    rw [plainly, List.map_nil, List.append_nil, ← begun]
    rfl
  | cons c rest ih =>
    obtain ⟨here, later⟩ := List.forall_mem_cons.mp plain
    have pushed : r.step c = some (r.push c false) := by
      simp only [isSpecial, isQuote, Bool.or_eq_false_iff, decide_eq_false_iff_not] at here
      simp [Reader.step, free, begun, here]
    have begun' : (r.push c false).word = some (word ++ [⟨c, false⟩]) := by
      rw [push, begun]
      rfl
    rw [run, List.foldlM_cons, pushed]
    have done := ih (r := r.push c false) free begun' later
    rw [List.append_assoc] at done
    exact done

end Reader

/-! ## Two words -/

@[simp] theorem text_plainly (line : List Char) : text (plainly line) = line := by
  rw [text, plainly, List.map_map]
  exact List.map_id line

theorem readCommand_length {line : List Char} {r : Reader} (run : Reader.start.run line = some r) {words : List (List Char)}
    (read : readCommand line = some words) : (words.map List.length).sum = r.letters := by
  unfold readCommand at read
  rw [run, Option.bind_some] at read
  split at read
  · cases read
  · cases read
  · rename_i first rest finished
    split at read
    · cases read
      rw [← Reader.letters_finish finished, List.map_map]
      congr 2
      funext word
      exact List.length_map _
    · cases read

/-- The name of a command and one word behind it: the word is read as it stands if and only if none of its characters
means anything to the shell. -/
theorem readCommand_two_iff {name line : List Char} {first : Char} {rest : List Char}
    (named : Reader.start.run (name ++ [' ']) = some ⟨.free, none, [plainly name]⟩)
    (command : isCommandName (plainly name) = true ∧ patterned (plainly name) = false)
    (begins : line = first :: rest) (noComment : first ≠ '#') (noHome : first ≠ '~') :
    readCommand (name ++ [' '] ++ line) = some [name, line] ↔
      (∀ c ∈ line, isSpecial c = false) ∧ patterned (plainly line) = false := by
  have behind : Reader.start.run (name ++ [' '] ++ line) = (Reader.mk .free none [plainly name]).run line := by
    rw [Reader.run_append, named]
    rfl
  have letters : (Reader.mk .free none [plainly name]).letters = name.length := by
    simp [Reader.letters, plainly]
  -- What is left of the line when none of its characters is special.
  have reads (plain : ∀ c ∈ line, isSpecial c = false) :
      (Reader.start.run (name ++ [' '] ++ line)).bind Reader.finish = some [plainly name, plainly line] := by
    subst begins
    obtain ⟨here, later⟩ := List.forall_mem_cons.mp plain
    have pushed : (Reader.mk .free none [plainly name]).step first =
        some ⟨.free, some [⟨first, false⟩], [plainly name]⟩ := by
      simp only [isSpecial, isQuote, Bool.or_eq_false_iff, decide_eq_false_iff_not] at here
      simp [Reader.step, here, noComment, noHome, Reader.push]
    rw [behind, Reader.run, List.foldlM_cons, pushed]
    have done := Reader.run_plain (r := ⟨.free, some [⟨first, false⟩], [plainly name]⟩) rfl rfl later
    exact congrArg (Option.bind · Reader.finish) done
  constructor
  · intro read
    have plain : ∀ c ∈ line, isSpecial c = false := by
      by_contra special
      simp only [not_forall, Bool.not_eq_false] at special
      obtain ⟨c, member, special⟩ := special
      cases run : Reader.start.run (name ++ [' '] ++ line) with
      | none =>
        rw [readCommand, run] at read
        cases read
      | some r =>
        have whole := readCommand_length run read
        rw [behind] at run
        have less := Reader.letters_run_lt rfl run ⟨c, member, special⟩
        rw [letters] at less
        simp only [List.map_cons, List.map_nil, List.sum_cons, List.sum_nil] at whole
        omega
    refine ⟨plain, ?_⟩
    rw [readCommand, reads plain] at read
    simp only at read
    split at read
    · rename_i ready
      simp only [List.all_cons, Bool.and_eq_true, Bool.not_eq_true'] at ready
      exact ready.2.2.1
    · cases read
  · rintro ⟨plain, noPattern⟩
    rw [readCommand, reads plain]
    simp [command, noPattern]

end Shell
