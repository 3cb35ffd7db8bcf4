import Mathlib.Order.Basic
import Mathlib.Data.Nat.Init

/-! What an infinite run comes to.

Conditions are stated of the points of time of one run. The rule for progress
is the usual one: a condition that is kept until something else holds, and that
is left whenever a certain move is made, is left in the end if the move is made
again and again.
-/

set_option autoImplicit false

/-- Whenever `P` holds, `Q` holds then or later. -/
def LeadsTo (P Q : Nat → Prop) : Prop := ∀ n, P n → ∃ m, n ≤ m ∧ Q m

/-- It happens again and again. -/
def Recurs (move : Nat → Prop) : Prop := ∀ n, ∃ m, n ≤ m ∧ move m

namespace LeadsTo

variable {P Q R move : Nat → Prop}

theorem trans (first : LeadsTo P Q) (second : LeadsTo Q R) : LeadsTo P R := by
  intro n holds
  obtain ⟨m, later, reached⟩ := first n holds
  obtain ⟨l, last, done⟩ := second m reached
  exact ⟨l, Nat.le_trans later last, done⟩

theorem of_imp (implies : ∀ n, P n → Q n) : LeadsTo P Q := fun n holds => ⟨n, Nat.le_refl n, implies n holds⟩

/-- Progress by a move that recurs. -/
theorem ensures (stays : ∀ n, P n → P (n + 1) ∨ Q (n + 1)) (recurs : Recurs move)
    (moves : ∀ n, P n → move n → Q (n + 1)) : LeadsTo P Q := by
  intro n holds
  obtain ⟨m, later, made⟩ := recurs n
  obtain ⟨d, rfl⟩ := Nat.exists_eq_add_of_le later
  induction d generalizing n with
  | zero => exact ⟨n + 1, Nat.le_succ n, moves n holds made⟩
  | succ d ih =>
    rcases stays n holds with kept | left
    · have made : move (n + 1 + d) := by rwa [Nat.add_right_comm]
      obtain ⟨m, later, reached⟩ := ih (n + 1) kept (Nat.le_add_right _ _) made
      exact ⟨m, Nat.le_trans (Nat.le_succ n) later, reached⟩
    · exact ⟨n + 1, Nat.le_succ n, left⟩

/-- What is kept until something else holds is kept for ever, or left. -/
theorem kept_or_left (stays : ∀ n, P n → P (n + 1) ∨ R (n + 1)) {n : Nat} (holds : P n) :
    (∀ m, n ≤ m → P m) ∨ ∃ m, n ≤ m ∧ R m := by
  by_cases left : ∃ m, n ≤ m ∧ R m
  · exact .inr left
  · left
    intro m later
    induction m, later using Nat.le_induction with
    | base => exact holds
    | succ m later ih =>
      rcases stays m ih with kept | gone
      · exact kept
      · exact absurd ⟨m + 1, Nat.le_succ_of_le later, gone⟩ left

/-- Both cases lead to the same. -/
theorem or (first : LeadsTo P R) (second : LeadsTo Q R) : LeadsTo (fun n => P n ∨ Q n) R := by
  intro n holds
  rcases holds with left | right
  · exact first n left
  · exact second n right

end LeadsTo
