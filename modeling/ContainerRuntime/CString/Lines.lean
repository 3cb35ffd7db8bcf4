import ContainerRuntime.CString.Tokens
import Mathlib.Data.List.TakeWhile

/-! Reading a stream by `fgets`: a call returns at most `limit` characters and
stops behind a newline, so a long line arrives in several pieces. -/

set_option autoImplicit false

namespace ContainerRuntime.CString

def newline : Char := '\n'

/-- One `fgets` call with a buffer of `limit + 1` bytes: what it stores and what is left. -/
def fgets : Nat → Text → Text × Text
  | 0, text => ([], text)
  | _ + 1, [] => ([], [])
  | limit + 1, c :: rest =>
    if c = newline then ([c], rest)
    else (c :: (fgets limit rest).1, (fgets limit rest).2)

/-- Call `fgets` until the end of the stream, at most `fuel` times. -/
def fgetsLoop (limit : Nat) : Nat → Text → List Text
  | 0, _ => []
  | _ + 1, [] => []
  | fuel + 1, c :: rest => (fgets limit (c :: rest)).1 :: fgetsLoop limit fuel (fgets limit (c :: rest)).2

/-- All pieces a `while (fgets(line, size, file) != NULL)` loop sees. -/
def fgetsAll (size : Nat) (text : Text) : List Text := fgetsLoop (size - 1) text.length text

theorem fgets_append (limit : Nat) (text : Text) : (fgets limit text).1 ++ (fgets limit text).2 = text := by
  induction limit generalizing text with
  | zero => rfl
  | succ limit ih =>
    cases text with
    | nil => rfl
    | cons c rest =>
      unfold fgets
      split
      · rfl
      · simp only [List.cons_append, ih rest]

theorem length_fgets_le (limit : Nat) (text : Text) : (fgets limit text).1.length ≤ limit := by
  induction limit generalizing text with
  | zero => exact Nat.le_refl 0
  | succ limit ih =>
    cases text with
    | nil => exact Nat.zero_le _
    | cons c rest =>
      unfold fgets
      split
      · exact Nat.succ_le_succ (Nat.zero_le limit)
      · exact Nat.succ_le_succ (ih rest)

theorem length_fgets_rest_lt (limit : Nat) (c : Char) (rest : Text) :
    (fgets (limit + 1) (c :: rest)).2.length < (c :: rest).length := by
  unfold fgets
  split
  · simp
  · have total := congrArg List.length (fgets_append limit rest)
    simp only [List.length_append, List.length_cons] at total ⊢
    omega

/-- Fuel beyond the length of the stream is not used. -/
theorem fgetsLoop_fuel (limit : Nat) {fuel : Nat} {text : Text} (enough : text.length ≤ fuel) :
    fgetsLoop (limit + 1) fuel text = fgetsLoop (limit + 1) text.length text := by
  induction fuel using Nat.strongRecOn generalizing text with
  | ind fuel ih =>
    cases text with
    | nil => cases fuel <;> rfl
    | cons c rest =>
      cases fuel with
      | zero => simp at enough
      | succ fuel =>
        have shorter := length_fgets_rest_lt limit c rest
        simp only [List.length_cons] at shorter enough
        simp only [fgetsLoop, List.length_cons]
        by_cases full : rest.length = fuel
        · rw [full]
        · rw [ih fuel (by omega) (by omega), ih rest.length (by omega) (by omega)]

/-- A line that fits is delivered whole, with its newline. -/
theorem fgets_line (limit : Nat) {line : Text} (rest : Text) (whole : newline ∉ line)
    (fits : line.length < limit) : fgets limit (line ++ newline :: rest) = (line ++ [newline], rest) := by
  induction line generalizing limit with
  | nil =>
    cases limit with
    | zero => simp at fits
    | succ limit => simp [fgets]
  | cons c line ih =>
    cases limit with
    | zero => simp at fits
    | succ limit =>
      simp only [List.mem_cons, not_or] at whole
      simp only [List.length_cons, Nat.add_lt_add_iff_right] at fits
      have different : c ≠ newline := fun same => whole.1 same.symm
      simp only [List.cons_append, fgets, different, if_false, ih limit whole.2 fits]

theorem fgetsAll_line {size : Nat} {line : Text} (rest : Text) (whole : newline ∉ line)
    (fits : line.length + 1 < size) :
    fgetsAll size (line ++ newline :: rest) = (line ++ [newline]) :: fgetsAll size rest := by
  obtain ⟨limit, rfl⟩ : ∃ limit, size = limit + 2 := ⟨size - 2, by omega⟩
  have call := fgets_line (limit + 1) rest whole (by omega)
  have unfolded : ∀ fuel, fgetsLoop (limit + 1) (fuel + 1) (line ++ newline :: rest) =
      (fgets (limit + 1) (line ++ newline :: rest)).1 ::
        fgetsLoop (limit + 1) fuel (fgets (limit + 1) (line ++ newline :: rest)).2 := by
    intro fuel
    cases line <;> rfl
  have count : (line ++ newline :: rest).length = line.length + rest.length + 1 := by
    simp only [List.length_append, List.length_cons]
    omega
  simp only [fgetsAll, Nat.add_succ_sub_one, count, unfolded, call]
  rw [fgetsLoop_fuel limit (by omega)]

/-- A stream of short lines is read line by line. -/
theorem fgetsAll_lines {size : Nat} {lines : List Text}
    (short : ∀ line ∈ lines, newline ∉ line ∧ line.length + 1 < size) :
    fgetsAll size (lines.flatMap (· ++ [newline])) = lines.map (· ++ [newline]) := by
  induction lines with
  | nil => rfl
  | cons line rest ih =>
    obtain ⟨whole, fits⟩ := short line List.mem_cons_self
    have tail := ih fun other member => short other (List.mem_cons_of_mem line member)
    simp only [List.flatMap_cons, List.append_assoc, List.singleton_append, List.map_cons]
    rw [fgetsAll_line _ whole fits, tail]

/-! ## Lines and pieces

Where the newline at the end of a piece does not count, a stream is read as its
lines one by one, each in its own pieces.
-/

/-- A piece that fills the buffer ends there. -/
theorem fgets_full (limit : Nat) {front : Text} (rest : Text) (whole : newline ∉ front) (full : front.length = limit) :
    fgets limit (front ++ rest) = (front, rest) := by
  induction front generalizing limit with
  | nil =>
    subst full
    rfl
  | cons c front ih =>
    subst full
    simp only [List.mem_cons, not_or] at whole
    have different : c ≠ newline := fun same => whole.1 same.symm
    simp only [List.cons_append, List.length_cons, fgets, different, if_false, ih _ whole.2 rfl]

/-- The next piece of a stream that is not at its end. -/
theorem fgetsAll_next {limit : Nat} {text piece rest : Text} (some : text ≠ []) (call : fgets (limit + 1) text = (piece, rest)) :
    fgetsAll (limit + 2) text = piece :: fgetsAll (limit + 2) rest := by
  cases text with
  | nil => exact absurd rfl some
  | cons c tail =>
    have shorter := length_fgets_rest_lt limit c tail
    simp only [call, List.length_cons] at shorter
    have first : fgetsAll (limit + 2) (c :: tail) = piece :: fgetsLoop (limit + 1) tail.length rest := by
      simp only [fgetsAll, Nat.add_succ_sub_one, List.length_cons, fgetsLoop, call]
    rw [first, fgetsLoop_fuel limit (by omega)]
    rfl

@[simp] theorem fgetsAll_nil (size : Nat) : fgetsAll size [] = [] := rfl

/-- A text without newlines that fits the buffer is one piece. -/
theorem fgetsAll_short {limit : Nat} {line : Text} (whole : newline ∉ line) (fits : line.length ≤ limit + 1) (some : line ≠ []) :
    fgetsAll (limit + 2) line = [line] := by
  have read : ∀ (room : Nat) (text : Text), newline ∉ text → text.length ≤ room → fgets room text = (text, []) := by
    intro room text
    induction text generalizing room with
    | nil => cases room <;> exact fun _ _ => rfl
    | cons c text ih =>
      intro whole fits
      cases room with
      | zero => simp at fits
      | succ room =>
        simp only [List.mem_cons, not_or] at whole
        have different : c ≠ newline := fun same => whole.1 same.symm
        simp only [fgets, different, if_false, ih room whole.2 (by simpa using fits)]
  rw [fgetsAll_next some (read _ line whole fits), fgetsAll_nil]

/-- A text without newlines that does not fit is cut. -/
theorem fgetsAll_long {limit : Nat} {front back : Text} (whole : newline ∉ front) (full : front.length = limit + 1) :
    fgetsAll (limit + 2) (front ++ back) = front :: fgetsAll (limit + 2) back := by
  refine fgetsAll_next ?_ (fgets_full _ back whole full)
  intro empty
  rw [List.append_eq_nil_iff.mp empty |>.1] at full
  cases full

/-- A line on its own, and what follows it. -/
theorem filterMap_fgetsAll_line {β : Type} {limit : Nat} {read : Text → Option β} (ended : ∀ piece, read (piece ++ [newline]) = read piece)
    (empty : read [] = none) {line : Text} (rest : Text) (whole : newline ∉ line) :
    (fgetsAll (limit + 2) (line ++ newline :: rest)).filterMap read =
      (fgetsAll (limit + 2) line).filterMap read ++ (fgetsAll (limit + 2) rest).filterMap read := by
  induction size : line.length using Nat.strongRecOn generalizing line with
  | ind size_value ih =>
    subst size
    by_cases short : line.length < limit + 1
    · rw [fgetsAll_line rest whole (by omega), List.filterMap_cons, ended]
      by_cases none : line = []
      · rw [none, empty]
        rfl
      · rw [fgetsAll_short whole (Nat.le_of_lt short) none]
        cases found : read line with
        | none => simp [found]
        | some value => simp [found]
    · obtain ⟨front, back, rfl, full⟩ : ∃ front back, line = front ++ back ∧ front.length = limit + 1 :=
        ⟨line.take (limit + 1), line.drop (limit + 1), (List.take_append_drop _ _).symm, by rw [List.length_take]; omega⟩
      have front_whole : newline ∉ front := fun inside => whole (List.mem_append_left _ inside)
      have back_whole : newline ∉ back := fun inside => whole (List.mem_append_right _ inside)
      have later := ih back.length (by rw [List.length_append]; omega) back_whole rfl
      rw [List.append_assoc, fgetsAll_long front_whole full, fgetsAll_long front_whole full]
      rw [List.filterMap_cons, List.filterMap_cons, later]
      cases read front <;> rfl

/-- The whole stream. -/
theorem filterMap_fgetsAll {β : Type} {limit : Nat} {read : Text → Option β} (ended : ∀ piece, read (piece ++ [newline]) = read piece)
    (empty : read [] = none) (text : Text) :
    (fgetsAll (limit + 2) text).filterMap read =
      (text.splitOn newline).flatMap fun line => (fgetsAll (limit + 2) line).filterMap read := by
  induction size : text.length using Nat.strongRecOn generalizing text with
  | ind size_value ih =>
    subst size
    by_cases last : newline ∈ text
    · obtain ⟨line, rest, rfl, whole⟩ := List.eq_append_cons_of_mem last
      have later := ih rest.length (by rw [List.length_append, List.length_cons]; omega) rest rfl
      rw [filterMap_fgetsAll_line ended empty rest whole, later, List.splitOn_append_cons_self, List.splitOn_eq_singleton whole]
      rfl
    · rw [List.splitOn_eq_singleton last]
      simp

/-! ## A line among others -/

/-- What follows a newline stays in the stream. -/
theorem fgets_ended (limit : Nat) (line rest : Text) :
    fgets limit (line ++ newline :: rest) =
      ((fgets limit (line ++ [newline])).1, (fgets limit (line ++ [newline])).2 ++ rest) := by
  induction limit generalizing line with
  | zero => simp [fgets]
  | succ limit ih =>
    cases line with
    | nil => simp [fgets]
    | cons c line =>
      simp only [List.cons_append, fgets]
      split
      · simp
      · simp only [ih line]

/-- A text that ends with a newline is read on its own. -/
theorem fgetsAll_ended {limit : Nat} (line rest : Text) :
    fgetsAll (limit + 2) (line ++ newline :: rest) = fgetsAll (limit + 2) (line ++ [newline]) ++ fgetsAll (limit + 2) rest := by
  -- By induction on the length: the rest behind the first piece ends with the same newline.
  induction size : line.length using Nat.strongRecOn generalizing line with
  | ind size_value ih =>
    subst size
    have parts := fgets_append (limit + 1) (line ++ [newline])
    have own : fgetsAll (limit + 2) (line ++ [newline]) = (fgets (limit + 1) (line ++ [newline])).1 ::
        fgetsAll (limit + 2) (fgets (limit + 1) (line ++ [newline])).2 := fgetsAll_next (by simp) rfl
    rw [fgetsAll_next (by simp) (fgets_ended (limit + 1) line rest), own]
    rcases List.eq_nil_or_concat (fgets (limit + 1) (line ++ [newline])).2 with done | ⟨left, last, more⟩
    · rw [done]
      rfl
    · -- What is left of the text ends with the same newline, and is shorter.
      have shorter : (fgets (limit + 1) (line ++ [newline])).2.length < (line ++ [newline]).length := by
        cases line with
        | nil => exact length_fgets_rest_lt limit newline []
        | cons c line => exact length_fgets_rest_lt limit c (line ++ [newline])
      rw [more, List.concat_eq_append, ← List.append_assoc] at parts
      obtain rfl : last = newline := (List.append_inj_right' parts rfl |> List.singleton_inj.mp)
      rw [more] at shorter
      simp only [List.concat_eq_append, List.length_append, List.length_singleton, Nat.add_lt_add_iff_right] at shorter
      rw [more, List.concat_eq_append, List.append_assoc, List.singleton_append, ih left.length shorter left rfl]
      rfl

theorem infix_of_mem_fgetsAll {size : Nat} {text piece : Text} (member : piece ∈ fgetsAll size text) : piece <:+: text := by
  have within : ∀ (fuel : Nat) (text : Text), ∀ piece ∈ fgetsLoop (size - 1) fuel text, piece <:+: text := by
    intro fuel
    induction fuel with
    | zero => intro text piece member; cases member
    | succ fuel ih =>
      intro text piece member
      cases text with
      | nil => cases member
      | cons c rest =>
        have parts := fgets_append (size - 1) (c :: rest)
        rcases List.mem_cons.mp member with rfl | later
        · exact List.IsPrefix.isInfix ⟨_, parts⟩
        · exact (ih _ piece later).trans (List.IsSuffix.isInfix ⟨_, parts⟩)
  exact within _ _ piece member

theorem length_of_mem_fgetsAll {size : Nat} {text piece : Text} (member : piece ∈ fgetsAll size text) : piece.length ≤ size - 1 := by
  have short : ∀ (fuel : Nat) (text : Text), ∀ piece ∈ fgetsLoop (size - 1) fuel text, piece.length ≤ size - 1 := by
    intro fuel
    induction fuel with
    | zero => intro text piece member; cases member
    | succ fuel ih =>
      intro text piece member
      cases text with
      | nil => cases member
      | cons c rest =>
        rcases List.mem_cons.mp member with rfl | later
        · exact length_fgets_le _ _
        · exact ih _ piece later
  exact short _ _ piece member

/-- Behind the first piece of a line. -/
theorem fgets_rest (limit : Nat) {line : Text} (whole : newline ∉ line) :
    (fgets limit (line ++ [newline])).2 = (line ++ [newline]).drop limit := by
  induction line generalizing limit with
  | nil => cases limit <;> simp [fgets]
  | cons c line ih =>
    cases limit with
    | zero => rfl
    | succ limit =>
      simp only [List.mem_cons, not_or] at whole
      have different : c ≠ newline := fun same => whole.1 same.symm
      simp only [List.cons_append, fgets, different, if_false, ih limit whole.2, List.drop_succ_cons]

/-- `line[strcspn(line, reject)] = '\0'`: the part in front of the first rejected character. -/
def cutAt (reject : List Char) (line : Text) : Text := line.takeWhile (· ∉ reject)

/-- A fixed text is seen to be clean by going through it. -/
theorem clean_of_all {reject line : List Char} (all : line.all (· ∉ reject) = true) : ∀ c ∈ line, c ∉ reject :=
  fun c member => of_decide_eq_true (List.all_eq_true.mp all c member)

theorem not_mem_cutAt {reject : List Char} {line : Text} {c : Char} (rejected : c ∈ reject) :
    c ∉ cutAt reject line := by
  intro member
  have kept := List.mem_takeWhile_imp member
  simp [rejected] at kept

theorem cutAt_append {reject : List Char} {line rest : Text} {c : Char}
    (clean : ∀ d ∈ line, d ∉ reject) (rejected : c ∈ reject) :
    cutAt reject (line ++ c :: rest) = line := by
  have front : ∀ d ∈ line, (decide (d ∉ reject)) = true := fun d member => by simpa using clean d member
  rw [cutAt, List.takeWhile_append_of_pos front]
  simp [rejected]

theorem cutAt_concat {reject : List Char} {c : Char} (rejected : c ∈ reject) (line : Text) :
    cutAt reject (line ++ [c]) = cutAt reject line := by
  unfold cutAt
  induction line with
  | nil => simp [rejected]
  | cons d rest ih => rw [List.cons_append, List.takeWhile_cons, List.takeWhile_cons, ih]

/-- Where the newline is rejected, the first piece is as good as the text. -/
theorem cutAt_fgets {reject : List Char} (ends : newline ∈ reject) (limit : Nat) (text : Text) :
    cutAt reject (fgets limit text).1 = (cutAt reject text).take limit := by
  unfold cutAt
  induction limit generalizing text with
  | zero => simp [fgets]
  | succ limit ih =>
    cases text with
    | nil => simp [fgets]
    | cons c rest =>
      unfold fgets
      by_cases last : c = newline
      · simp [last, ends]
      · rw [if_neg last]
        by_cases rejected : c ∈ reject
        · simp [rejected]
        · simp only [List.takeWhile_cons, rejected, not_false_eq_true, decide_true, if_true, List.take_succ_cons, ih rest]

/-- What is cut off does not reach into a clean text in front of it. -/
theorem cutAt_front {reject : List Char} {front : Text} (clean : ∀ c ∈ front, c ∉ reject) (rest : Text) :
    cutAt reject (front ++ rest) = front ++ cutAt reject rest :=
  List.takeWhile_append_of_pos fun c member => by simpa using clean c member

/-- What is behind the first NUL of a buffer is cut off as well. -/
theorem cutAt_cstringAt (reject : List Char) (buffer : Text) : cutAt reject (cstringAt buffer 0) = cutAt (nul :: reject) buffer := by
  rw [cutAt, cutAt, cstringAt, List.drop_zero, List.takeWhile_takeWhile]
  congr 1
  funext c
  simp [and_comm]

theorem cstringAt_front {front : Text} (clean : nul ∉ front) (rest : Text) : cstringAt (front ++ rest) 0 = front ++ cstringAt rest 0 :=
  List.takeWhile_append_of_pos fun c member => by simpa using ne_of_mem_of_not_mem member clean

theorem cstringAt_begins (buffer : Text) : cstringAt buffer 0 <+: buffer := List.takeWhile_prefix _

end ContainerRuntime.CString
