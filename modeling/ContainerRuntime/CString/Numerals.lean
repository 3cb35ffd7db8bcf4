import ContainerRuntime.CString.Tokens
import Mathlib.Data.List.TakeWhile
import Mathlib.Data.Int.Basic
import Mathlib.Algebra.Order.Ring.Int

/-! Decimal text: the integer conversions of `printf`, `strtoul`, `atoi` and `sscanf`.

`long` has 64 bits and `int` has 32. The readers skip white space, take one
optional sign and as many digits as follow; what comes after is not inspected.
-/

set_option autoImplicit false

namespace ContainerRuntime.CString

def ulongMax : Nat := 2 ^ 64 - 1
def uintSize : Nat := 2 ^ 32
def intMax : Nat := 2 ^ 31 - 1

/-- The conversion `%u`. -/
def showUnsigned (n : Nat) : Text := Nat.toDigits 10 n

/-- The conversion `%d`. -/
def showInt (n : Int) : Text :=
  if n < 0 then '-' :: showUnsigned n.natAbs else showUnsigned n.natAbs

/-- The conversion `%04d` of a number that is not negative. -/
def showPadded (n : Nat) : Text :=
  List.replicate (4 - (showUnsigned n).length) '0' ++ showUnsigned n

def isspace (c : Char) : Bool := c = ' ' || (9 ≤ c.toNat && c.toNat ≤ 13)

/-- The optional sign of a numeral and what follows it. -/
def takeSign : Text → Bool × Text
  | '-' :: rest => (true, rest)
  | '+' :: rest => (false, rest)
  | text => (false, text)

def leadingDigits (text : Text) : Text := text.takeWhile Char.isDigit

/-- `strtoul(text, NULL, 10)`: saturates, and negates modulo 2^64 after a minus sign. -/
def strtoul (text : Text) : Nat :=
  let (negative, body) := takeSign (text.dropWhile isspace)
  let value := Nat.ofDigitChars 10 (leadingDigits body) 0
  if ulongMax < value then ulongMax
  else if negative then (ulongMax + 1 - value) % (ulongMax + 1)
  else value

/-- `strtol(text, NULL, 10)`, saturating at both ends. -/
def strtol (text : Text) : Int :=
  let (negative, body) := takeSign (text.dropWhile isspace)
  let value := Nat.ofDigitChars 10 (leadingDigits body) 0
  if negative then (if 2 ^ 63 < value then -2 ^ 63 else -(value : Int))
  else (if 2 ^ 63 ≤ value then 2 ^ 63 - 1 else (value : Int))

/-- `atoi`: the `long` of `strtol` narrowed to `int`. -/
def atoi (text : Text) : Int := (strtol text).bmod uintSize

/-- The conversion `%d` of `sscanf` behind a literal: the literal must match and
at least one digit must follow the sign. -/
def scanInt (literal text : Text) : Option Int :=
  if literal.isPrefixOf text then
    let rest := text.drop literal.length
    if leadingDigits (takeSign (rest.dropWhile isspace)).2 = [] then none else some (atoi rest)
  else none

/-- A decimal numeral: digits only, and at least one. -/
def Numeral (text : Text) : Prop := text ≠ [] ∧ ∀ c ∈ text, c.isDigit = true

instance (text : Text) : Decidable (Numeral text) :=
  -- Characters are a finite type: the quantifier is decided over the text, not over all of them.
  decidable_of_iff (text ≠ [] ∧ text.all Char.isDigit = true) (by simp [Numeral])

def numeralValue (text : Text) : Nat := Nat.ofDigitChars 10 text 0

/-! ## Digits are not mistaken for space, sign or separator -/

theorem isspace_of_isDigit {c : Char} (digit : c.isDigit = true) : isspace c = false := by
  have bounds : 48 ≤ c.toNat ∧ c.toNat ≤ 57 := by
    simpa [Char.isDigit, Char.le_def, UInt32.le_iff_toNat_le] using digit
  have notBlank : c ≠ ' ' := by
    rintro rfl
    exact absurd digit (by decide)
  simp only [isspace, notBlank, decide_false, Bool.false_or, Bool.and_eq_false_iff,
    decide_eq_false_iff_not]
  omega

theorem dropWhile_isspace_of_head {c : Char} {rest : Text} (visible : isspace c = false) :
    (c :: rest).dropWhile isspace = c :: rest := by
  simp [visible]

theorem takeSign_of_isDigit {c : Char} {rest : Text} (digit : c.isDigit = true) :
    takeSign (c :: rest) = (false, c :: rest) := by
  unfold takeSign
  split
  · rename_i same
    cases same
    exact absurd digit (by decide)
  · rename_i same
    cases same
    exact absurd digit (by decide)
  · rfl

theorem leadingDigits_of_numeral {text : Text} (numeral : Numeral text) :
    leadingDigits text = text :=
  List.takeWhile_eq_self_iff.mpr numeral.2

/-- What the sign and digit readers see in front of a numeral. -/
theorem takeSign_numeral_append {text : Text} (numeral : Numeral text) (rest : Text) :
    takeSign ((text ++ rest).dropWhile isspace) = (false, text ++ rest) := by
  obtain ⟨given, digits⟩ := numeral
  cases text with
  | nil => exact absurd rfl given
  | cons first more =>
    have digit := digits first List.mem_cons_self
    rw [List.cons_append, dropWhile_isspace_of_head (isspace_of_isDigit digit), takeSign_of_isDigit digit]

theorem takeSign_numeral {text : Text} (numeral : Numeral text) :
    takeSign (text.dropWhile isspace) = (false, text) := by
  have alone := takeSign_numeral_append numeral []
  rwa [List.append_nil] at alone

/-- A numeral ends in front of the first character that is no digit. -/
theorem leadingDigits_append {digits rest : Text} {c : Char} (all : ∀ d ∈ digits, d.isDigit = true) (other : c.isDigit = false) :
    leadingDigits (digits ++ c :: rest) = digits := by
  rw [leadingDigits, List.takeWhile_append_of_pos all, List.takeWhile_cons_of_neg (by simp [other]), List.append_nil]

theorem leadingDigits_append_other (text : Text) {rest : Text} {c : Char} (other : c.isDigit = false) :
    leadingDigits (text ++ c :: rest) = leadingDigits text := by
  unfold leadingDigits
  induction text with
  | nil => simp [other]
  | cons d text ih => rw [List.cons_append, List.takeWhile_cons, List.takeWhile_cons, ih]

theorem leadingDigits_numeral_append {digits : Text} (all : ∀ d ∈ digits, d.isDigit = true) (rest : Text) :
    leadingDigits (digits ++ rest) = digits ++ leadingDigits rest := List.takeWhile_append_of_pos all

theorem leadingDigits_cons_eq_nil_iff {c : Char} {rest : Text} : leadingDigits (c :: rest) = [] ↔ c.isDigit = false := by
  rw [leadingDigits, List.takeWhile_cons]
  cases c.isDigit <;> simp

/-- A numeral is read up to its last digit. -/
theorem leadingDigits_rest (text : Text) : leadingDigits (text.dropWhile Char.isDigit) = [] := by
  unfold leadingDigits
  induction text with
  | nil => rfl
  | cons c text ih =>
    by_cases digit : c.isDigit = true
    · simpa [digit] using ih
    · simp [digit]

theorem strtoul_numeral {text : Text} (numeral : Numeral text) (fits : numeralValue text ≤ ulongMax) :
    strtoul text = numeralValue text := by
  unfold numeralValue at fits ⊢
  simp only [strtoul, takeSign_numeral numeral, leadingDigits_of_numeral numeral,
    Nat.not_lt.mpr fits, if_false, Bool.false_eq_true]

/-! ## Printed numbers read back -/

theorem numeral_showUnsigned (n : Nat) : Numeral (showUnsigned n) :=
  ⟨Nat.toDigits_ne_nil, fun _ member => Nat.isDigit_of_mem_toDigits (by decide) (by decide) member⟩

theorem not_mem_showUnsigned {c : Char} (other : c.isDigit = false) (n : Nat) : c ∉ showUnsigned n := by
  intro member
  have digit := (numeral_showUnsigned n).2 c member
  rw [other] at digit
  cases digit

@[simp] theorem numeralValue_showUnsigned (n : Nat) : numeralValue (showUnsigned n) = n :=
  Nat.ofDigitChars_ten_toDigits

theorem strtol_showUnsigned {n : Nat} (fits : n < 2 ^ 63) : strtol (showUnsigned n) = n := by
  have value := numeralValue_showUnsigned n
  unfold numeralValue at value
  simp only [strtol, takeSign_numeral (numeral_showUnsigned n),
    leadingDigits_of_numeral (numeral_showUnsigned n), value, Bool.false_eq_true, if_false]
  rw [if_neg (by omega)]

theorem strtol_negative {n : Nat} (fits : n ≤ 2 ^ 63) :
    strtol ('-' :: showUnsigned n) = -(n : Int) := by
  have value := numeralValue_showUnsigned n
  unfold numeralValue at value
  have visible : isspace '-' = false := by decide
  simp only [strtol, dropWhile_isspace_of_head visible, takeSign,
    leadingDigits_of_numeral (numeral_showUnsigned n), value, if_true]
  rw [if_neg (by omega)]

/-- What `%d` prints: a numeral, behind a minus sign for a negative number. -/
theorem showInt_cases (n : Int) : showInt n = showUnsigned n.natAbs ∨ showInt n = '-' :: showUnsigned n.natAbs := by
  unfold showInt
  split
  · exact Or.inr rfl
  · exact Or.inl rfl

/-- The reader stops behind a printed number. -/
theorem strtol_showInt_append (n : Int) {rest : Text} {c : Char} (other : c.isDigit = false) :
    strtol (showInt n ++ c :: rest) = strtol (showInt n) := by
  have numeral := numeral_showUnsigned n.natAbs
  have visible : isspace '-' = false := by decide
  have ends : leadingDigits (showUnsigned n.natAbs ++ c :: rest) = showUnsigned n.natAbs := leadingDigits_append numeral.2 other
  rcases showInt_cases n with printed | printed
  · rw [printed]
    simp only [strtol, takeSign_numeral_append numeral, takeSign_numeral numeral, ends, leadingDigits_of_numeral numeral]
  · rw [printed]
    simp only [strtol, List.cons_append, dropWhile_isspace_of_head visible, takeSign, ends, leadingDigits_of_numeral numeral]

theorem strtoul_showUnsigned_append (n : Nat) {rest : Text} {c : Char} (other : c.isDigit = false) :
    strtoul (showUnsigned n ++ c :: rest) = strtoul (showUnsigned n) := by
  have numeral := numeral_showUnsigned n
  have ends : leadingDigits (showUnsigned n ++ c :: rest) = showUnsigned n := leadingDigits_append numeral.2 other
  simp only [strtoul, takeSign_numeral_append numeral, takeSign_numeral numeral, ends, leadingDigits_of_numeral numeral]

theorem strtoul_showUnsigned {n : Nat} (fits : n < 2 ^ 64) : strtoul (showUnsigned n) = n := by
  have value := strtoul_numeral (numeral_showUnsigned n) (by rw [numeralValue_showUnsigned, ulongMax]; omega)
  rwa [numeralValue_showUnsigned] at value

theorem strtol_showInt {n : Int} (low : -2 ^ 63 ≤ n) (high : n < 2 ^ 63) : strtol (showInt n) = n := by
  unfold showInt
  by_cases negative : n < 0
  · rw [if_pos negative, strtol_negative (by omega)]
    omega
  · rw [if_neg negative, strtol_showUnsigned (by omega)]
    omega

theorem length_showUnsigned_le {n : Nat} (fits : n < uintSize) : (showUnsigned n).length ≤ 10 := by
  rw [showUnsigned, Nat.length_toDigits_le_iff (by decide) (by decide)]
  unfold uintSize at fits
  omega

theorem isDigit_of_mem_showPadded {n : Nat} {c : Char} (member : c ∈ showPadded n) :
    c.isDigit = true := by
  rcases List.mem_append.mp member with zero | digit
  · rw [List.eq_of_mem_replicate zero]
    decide
  · exact (numeral_showUnsigned n).2 c digit

theorem numeral_showPadded (n : Nat) : Numeral (showPadded n) :=
  ⟨by simp [showPadded, (numeral_showUnsigned n).1], fun _ member => isDigit_of_mem_showPadded member⟩

@[simp] theorem numeralValue_showPadded (n : Nat) : numeralValue (showPadded n) = n := by
  have value := numeralValue_showUnsigned n
  unfold numeralValue at value ⊢
  rw [showPadded, Nat.ofDigitChars_append, Nat.ofDigitChars_replicate_zero, Nat.mul_zero, value]

theorem showPadded_injective {n m : Nat} (same : showPadded n = showPadded m) : n = m := by
  rw [← numeralValue_showPadded n, same, numeralValue_showPadded]

theorem length_showPadded_le {n : Nat} (fits : n < uintSize) : (showPadded n).length ≤ 10 := by
  have digits := length_showUnsigned_le fits
  simp only [showPadded, List.length_append, List.length_replicate]
  omega

theorem atoi_showPadded {n : Nat} (fits : n ≤ intMax) : atoi (showPadded n) = n := by
  have value := numeralValue_showPadded n
  unfold numeralValue at value
  unfold intMax at fits
  have read : strtol (showPadded n) = n := by
    simp only [strtol, takeSign_numeral (numeral_showPadded n),
      leadingDigits_of_numeral (numeral_showPadded n), value, Bool.false_eq_true, if_false]
    rw [if_neg (by omega)]
  rw [atoi, read]
  exact Int.bmod_eq_of_le (by simp only [uintSize]; omega) (by simp only [uintSize]; omega)

/-- `sscanf` inverts a padded number printed behind its literal. -/
theorem scanInt_showPadded (literal : Text) {n : Nat} (fits : n ≤ intMax) :
    scanInt literal (literal ++ showPadded n) = some (n : Int) := by
  have matched : literal.isPrefixOf (literal ++ showPadded n) = true := by simp
  simp only [scanInt, matched, if_true, List.drop_left, takeSign_numeral (numeral_showPadded n),
    leadingDigits_of_numeral (numeral_showPadded n), (numeral_showPadded n).1, if_false,
    atoi_showPadded fits]

end ContainerRuntime.CString
