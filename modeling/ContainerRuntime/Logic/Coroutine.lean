import Mathlib.Data.List.Basic

/-! Sequential code that makes calls, and what the calls it has made tell.

A code either returns or makes a call and goes on with the answer. Who answers
is left open, so that several codes can be run side by side. What a code does
is specified over its history: a guard for every call it makes, given the
calls before it, and a condition on the history it returns with.
-/

set_option autoImplicit false

namespace Coroutine

inductive Code (Call : Type) (Answer : Call → Type) (α : Type) where
  | ret (value : α)
  | call (c : Call) (next : Answer c → Code Call Answer α)

/-- A call and its answer. -/
structure Done (Call : Type) (Answer : Call → Type) where
  call : Call
  answer : Answer call

variable {Call : Type} {Answer : Call → Type} {α β : Type}

instance [DecidableEq Call] [∀ c, DecidableEq (Answer c)] : DecidableEq (Done Call Answer)
  | ⟨c, a⟩, ⟨d, b⟩ => decidable_of_iff (∃ same : c = d, same ▸ a = b) <| by
    constructor
    · rintro ⟨rfl, rfl⟩
      rfl
    · intro same
      cases same
      exact ⟨rfl, rfl⟩

namespace Code

def bind (p : Code Call Answer α) (f : α → Code Call Answer β) : Code Call Answer β :=
  match p with
  | ret value => f value
  | call c next => call c fun answer => bind (next answer) f

instance : Monad (Code Call Answer) where
  pure := ret
  bind := bind

/-- One call. -/
def make (c : Call) : Code Call Answer (Answer c) := call c ret

/-- After the history `h`, every call keeps to the guard, and every return meets the condition. -/
def Obeys (guard : List (Done Call Answer) → Call → Prop) (post : α → List (Done Call Answer) → Prop) :
    List (Done Call Answer) → Code Call Answer α → Prop
  | h, ret value => post value h
  | h, call c next => guard h c ∧ ∀ answer, Obeys guard post (h ++ [⟨c, answer⟩]) (next answer)

namespace Obeys

variable {guard : List (Done Call Answer) → Call → Prop} {h : List (Done Call Answer)}
variable {after : α → List (Done Call Answer) → Prop} {last : β → List (Done Call Answer) → Prop}

theorem bind {p : Code Call Answer α} {f : α → Code Call Answer β} (first : Obeys guard after h p)
    (next : ∀ value h, after value h → Obeys guard last h (f value)) : Obeys guard last h (p >>= f) := by
  induction p generalizing h with
  | ret value => exact next value h first
  | call c rest ih => exact ⟨first.1, fun answer => ih answer (first.2 answer)⟩

theorem post {p : Code Call Answer α} {weaker : α → List (Done Call Answer) → Prop} (obeys : Obeys guard after h p)
    (implies : ∀ value h, after value h → weaker value h) : Obeys guard weaker h p := by
  induction p generalizing h with
  | ret value => exact implies value h obeys
  | call c rest ih => exact ⟨obeys.1, fun answer => ih answer (obeys.2 answer)⟩

/-- What another development says of the returns may be used as well. -/
theorem and_post {other : List (Done Call Answer) → Call → Prop} {also : α → List (Done Call Answer) → Prop}
    {p : Code Call Answer α} (obeys : Obeys guard after h p) (knows : Obeys other also h p) :
    Obeys guard (fun value h => after value h ∧ also value h) h p := by
  induction p generalizing h with
  | ret value => exact ⟨obeys, knows⟩
  | call c rest ih => exact ⟨obeys.1, fun answer => ih answer (obeys.2 answer) (knows.2 answer)⟩

end Obeys

end Code

end Coroutine
