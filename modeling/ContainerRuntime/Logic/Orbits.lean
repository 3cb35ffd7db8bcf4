import Mathlib.Data.Set.Finite.Lattice
import Mathlib.Data.Set.Finite.Basic
import Mathlib.Order.Preorder.Finite
import Mathlib.Data.Fintype.EquivFin
import Mathlib.Data.Fintype.Pi

/-! Deterministic runs that end or come round.

`next` gives the state behind a state, or nothing. In a finite set of states a
run that meets no state twice has an end, and one that does has none.
-/

set_option autoImplicit false

namespace Orbit

variable {σ : Type} (next : σ → Option σ)

/-- The state after so many steps, if the run gets that far. -/
def after (s : σ) : Nat → Option σ
  | 0 => some s
  | n + 1 => (after s n).bind next

variable {next} {s : σ}

theorem after_add (m n : Nat) : after next s (m + n) = (after next s m).bind fun t => after next t n := by
  induction n with
  | zero => cases after next s m <;> simp [after]
  | succ n ih =>
    rw [Nat.add_succ, after, ih, Option.bind_assoc]
    rfl

/-- A run from its second state on. -/
theorem after_next {t : σ} (first : next s = some t) (n : Nat) : after next s (n + 1) = after next t n := by
  rw [Nat.add_comm, after_add]
  simp [after, first]

/-- A run does not start again behind its end. -/
theorem ended {m n : Nat} (later : m ≤ n) (ends : after next s m = none) : after next s n = none := by
  obtain ⟨d, rfl⟩ := Nat.exists_eq_add_of_le later
  rw [after_add, ends]
  rfl

theorem ends_at {n : Nat} {t : σ} (here : after next s n = some t) (last : next t = none) : after next s (n + 1) = none := by
  rw [after, here]
  exact last

/-- A run has one end. -/
theorem end_unique {m n : Nat} {t u : σ} (first : after next s m = some t) (last : next t = none)
    (second : after next s n = some u) (last' : next u = none) : t = u := by
  rcases Nat.lt_trichotomy m n with less | same | more
  · rw [ended less (ends_at first last)] at second
    cases second
  · subst same
    exact Option.some.inj (first.symm.trans second)
  · rw [ended more (ends_at second last')] at first
    cases first

/-- What every step keeps holds all along the run. -/
theorem keeps {P : σ → Prop} (step : ∀ t u, P t → next t = some u → P u) (start : P s) {n : Nat} {t : σ}
    (here : after next s n = some t) : P t := by
  induction n generalizing t with
  | zero =>
    cases here
    exact start
  | succ n ih =>
    obtain ⟨before, there, moved⟩ := Option.bind_eq_some_iff.mp here
    exact step before t (ih there) moved

/-- Once a state has come back, it comes back for ever. -/
theorem recurs {i j : Nat} {t : σ} (first : after next s i = some t) (again : after next s j = some t) (later : i < j) (k : Nat) :
    after next s (i + k * (j - i)) = some t := by
  -- One lap leads from the state to itself.
  have lap : after next t (j - i) = some t := by
    have split := @after_add _ next s i (j - i)
    rw [Nat.add_sub_cancel' (Nat.le_of_lt later), again, first] at split
    exact split.symm
  induction k with
  | zero => simpa using first
  | succ k ih =>
    rw [Nat.succ_mul, ← Nat.add_assoc, after_add, ih]
    exact lap

/-- Within finitely many states, the run ends if and only if it meets none of them twice. -/
theorem ends_iff {states : Set σ} (finite : states.Finite) (inside : ∀ n t, after next s n = some t → t ∈ states) :
    (∃ n, after next s n = none) ↔ ∀ i j t, i < j → after next s i = some t → after next s j ≠ some t := by
  constructor
  · rintro ⟨n, ends⟩ i j t later first again
    -- A state that has come back is met behind any end.
    have round := recurs first again later n
    have far : n ≤ i + n * (j - i) := by
      have positive : 1 ≤ j - i := by omega
      have many := Nat.mul_le_mul_left n positive
      omega
    rw [ended far ends] at round
    cases round
  · intro once
    by_contra endless
    have goes (n : Nat) : ∃ t, after next s n = some t := Option.ne_none_iff_exists'.mp fun ends => endless ⟨n, ends⟩
    choose visited here using goes
    obtain ⟨i, j, later, same⟩ := finite.exists_lt_map_eq_of_forall_mem fun n => inside n (visited n) (here n)
    exact once i j (visited i) later (here i) (same ▸ here j)

/-- The functions that have finitely many values each, and all but finitely often the same ones, are finitely many. -/
theorem finite_variants {α β : Type} (f : α → β) {places : Set α} {values : Set β} (few : places.Finite) (known : values.Finite) :
    {g : α → β | ∀ a, g a = f a ∨ a ∈ places ∧ g a ∈ values}.Finite := by
  have bounded := few.to_subtype
  have tables : {h : places → β | ∀ a : places, h a ∈ insert (f a) values}.Finite := Set.Finite.pi' fun a => known.insert (f a)
  refine Set.Finite.of_injOn (f := fun g (a : places) => g a) ?_ ?_ tables
  · intro g varies a
    rcases varies a with same | ⟨-, member⟩
    · exact .inl same
    · exact .inr member
  · intro g varies h varies' same
    funext a
    by_cases place : a ∈ places
    · exact congrFun same ⟨a, place⟩
    · rw [(varies a).resolve_right fun changed => place changed.1, (varies' a).resolve_right fun changed => place changed.1]

end Orbit
