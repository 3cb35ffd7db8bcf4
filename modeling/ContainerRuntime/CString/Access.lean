import ContainerRuntime.CString.Numerals

/-! Strings in memory, with the positions that a function looks at.

A search goes from a position to the NUL of the string that starts there, or to
what it finds; the positions it has read are kept beside its result. What lies
behind the NUL is in memory too, and a pointer may get there.
-/

set_option autoImplicit false

namespace ContainerRuntime.CString

/-- A result and the positions that were read for it. -/
structure Looked (α : Type) where
  value : α
  reads : List Nat

/-- One byte; where no memory is known there is nothing but NULs. -/
def byteAt (memory : Text) (position : Nat) : Char := memory.getD position nul

/-- `strchr`. -/
def strchr (memory : Text) (c : Char) (start : Nat) : Looked (Option Nat) :=
  let string := cstringAt memory start
  let front := string.takeWhile (· ≠ c)
  ⟨if c ∈ string then some (start + front.length) else none, List.range' start (front.length + 1)⟩

/-- `strrchr`, which always goes to the NUL. -/
def strrchr (memory : Text) (c : Char) (start : Nat) : Looked (Option Nat) :=
  let string := cstringAt memory start
  ⟨if c ∈ string then some (start + (string.length - 1 - (string.reverse.takeWhile (· ≠ c)).length)) else none,
    List.range' start (string.length + 1)⟩

/-- How many bytes a conversion of `strtol` and its like looks at: it stops at the first that is no part of the number. -/
def numeralReach (text : Text) : Nat :=
  let visible := text.dropWhile isspace
  (text.length - (takeSign visible).2.length) + (leadingDigits (takeSign visible).2).length + 1

/-- A conversion of the string at a position. -/
def convertAt {α : Type} (convert : Text → α) (memory : Text) (start : Nat) : Looked α :=
  ⟨convert (cstringAt memory start), List.range' start (numeralReach (cstringAt memory start))⟩

/-! ## Where the searches stop -/

theorem cstringAt_at {before string after : Text} (clean : nul ∉ string) :
    cstringAt (before ++ (string ++ nul :: after)) before.length = string := by
  have kept : ∀ c ∈ string, decide (c ≠ nul) = true := by
    intro c member
    simp only [ne_eq, decide_eq_true_eq]
    rintro rfl
    exact clean member
  unfold cstringAt
  rw [List.drop_left, List.takeWhile_append_of_pos kept]
  simp

theorem length_takeSign_le (text : Text) : (takeSign text).2.length ≤ text.length := by
  unfold takeSign
  split
  · exact Nat.le_succ _
  · exact Nat.le_succ _
  · exact Nat.le_refl _

theorem numeralReach_le (text : Text) : numeralReach text ≤ text.length + 1 := by
  have sign := length_takeSign_le (text.dropWhile isspace)
  have visible := (List.dropWhile_suffix (l := text) isspace).length_le
  have digits : (leadingDigits (takeSign (text.dropWhile isspace)).2).length ≤ (takeSign (text.dropWhile isspace)).2.length :=
    (List.takeWhile_prefix _).length_le
  simp only [numeralReach]
  omega

/-- What lies behind a NUL is in no string that starts in front of it. -/
theorem cstringAt_inside {before after : Text} {start : Nat} (inside : start ≤ before.length) :
    cstringAt (before ++ nul :: after) start = (before.drop start).takeWhile (· ≠ nul) := by
  have parts : (before ++ nul :: after).drop start = before.drop start ++ nul :: after := List.drop_append_of_le_length inside
  rw [cstringAt, parts]
  induction before.drop start with
  | nil => simp
  | cons c rest ih => rw [List.cons_append, List.takeWhile_cons, List.takeWhile_cons, ih]

theorem length_cstringAt_le {before after : Text} {start : Nat} (inside : start ≤ before.length) :
    start + (cstringAt (before ++ nul :: after) start).length ≤ before.length := by
  have bound := (List.takeWhile_prefix (l := before.drop start) (· ≠ nul)).length_le
  rw [List.length_drop] at bound
  rw [cstringAt_inside inside]
  omega

/-- Any text ends in a string, at its first NUL or at the one behind it. -/
theorem exists_string (text after : Text) :
    ∃ string rest, text ++ nul :: after = string ++ nul :: rest ∧ nul ∉ string ∧ string <+: text := by
  by_cases inside : nul ∈ text
  · obtain ⟨string, rest, rfl, clean⟩ := List.eq_append_cons_of_mem inside
    exact ⟨string, rest ++ nul :: after, by simp, clean, List.prefix_append _ _⟩
  · exact ⟨text, after, rfl, inside, List.prefix_refl _⟩

section

variable {memory : Text} {c : Char} {start : Nat}

theorem strchr_reads {position : Nat} (member : position ∈ (strchr memory c start).reads) :
    position ≤ start + (cstringAt memory start).length := by
  have bound : ((cstringAt memory start).takeWhile (· ≠ c)).length ≤ (cstringAt memory start).length :=
    (List.takeWhile_prefix _).length_le
  obtain ⟨-, below⟩ := List.mem_range'_1.mp member
  omega

theorem strrchr_reads {position : Nat} (member : position ∈ (strrchr memory c start).reads) :
    position ≤ start + (cstringAt memory start).length := by
  obtain ⟨-, below⟩ := List.mem_range'_1.mp member
  omega

theorem convertAt_reads {α : Type} {convert : Text → α} {position : Nat} (member : position ∈ (convertAt convert memory start).reads) :
    position ≤ start + (cstringAt memory start).length := by
  have bound := numeralReach_le (cstringAt memory start)
  obtain ⟨-, below⟩ := List.mem_range'_1.mp member
  omega

/-- A search looks at the position it starts from. -/
theorem start_mem_strchr : start ∈ (strchr memory c start).reads :=
  List.mem_range'_1.mpr ⟨Nat.le_refl _, by omega⟩

/-- The first place of a character. -/
theorem strchr_first {front back : Text} (string : cstringAt memory start = front ++ c :: back) (first : c ∉ front) :
    (strchr memory c start).value = some (start + front.length) := by
  have other : ∀ d ∈ front, decide (d ≠ c) = true := by
    intro d member
    simp only [ne_eq, decide_eq_true_eq]
    rintro rfl
    exact first member
  simp only [strchr, string, List.mem_append, List.mem_cons, true_or, or_true, if_true]
  rw [List.takeWhile_append_of_pos other, List.takeWhile_cons_of_neg (by simp), List.append_nil]

theorem strchr_absent (absent : c ∉ cstringAt memory start) : (strchr memory c start).value = none := by
  simp only [strchr, absent, if_false]

/-- The last place of a character. -/
theorem strrchr_last {front back : Text} (string : cstringAt memory start = front ++ c :: back) (last : c ∉ back) :
    (strrchr memory c start).value = some (start + front.length) := by
  have other : ∀ d ∈ back.reverse, decide (d ≠ c) = true := by
    intro d member
    simp only [ne_eq, decide_eq_true_eq]
    rintro rfl
    exact last (List.mem_reverse.mp member)
  have turned : (front ++ c :: back).reverse = back.reverse ++ c :: front.reverse := by simp
  simp only [strrchr, string, List.mem_append, List.mem_cons, true_or, or_true, if_true, turned]
  rw [List.takeWhile_append_of_pos other, List.takeWhile_cons_of_neg (by simp), List.append_nil, List.length_reverse,
    List.length_append, List.length_cons]
  congr 2
  omega

end

end ContainerRuntime.CString
