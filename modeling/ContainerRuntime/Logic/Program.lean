import Mathlib.Logic.Relation

/-! Sequential programs over a state that others move too, and may be cut short.

A program either completes with a value or is cut between two of its actions;
the state it leaves is kept in both cases. A specification relates the two
levels of a design: started in a state that satisfies `P`, the program moves
the state along a chain of abstract steps `R`, and if it completes, `Q` holds.
An invariant of `R` then holds wherever the program was cut.
-/

set_option autoImplicit false

namespace Program

inductive Outcome (α : Type) where
  | done (value : α)
  | cut
  deriving DecidableEq

def Prog (σ α : Type) : Type := σ → Outcome α × σ

variable {σ α β : Type}

namespace Prog

def pure (value : α) : Prog σ α := fun s => (.done value, s)

def bind (p : Prog σ α) (f : α → Prog σ β) : Prog σ β := fun s =>
  match p s with
  | (.done value, t) => f value t
  | (.cut, t) => (.cut, t)

instance : Monad (Prog σ) where
  pure := Prog.pure
  bind := Prog.bind

theorem bind_apply (p : Prog σ α) (f : α → Prog σ β) (s : σ) :
    (p >>= f) s = match p s with
      | (.done value, t) => f value t
      | (.cut, t) => (.cut, t) := rfl

/-- Both parts of a program that completes complete. -/
theorem bind_done {p : Prog σ α} {f : α → Prog σ β} {s t : σ} {b : β} (completes : (p >>= f) s = (.done b, t)) :
    ∃ a u, p s = (.done a, u) ∧ f a u = (.done b, t) := by
  rw [bind_apply] at completes
  rcases result : p s with ⟨a | -, u⟩
  · rw [result] at completes
    exact ⟨a, u, rfl, completes⟩
  · rw [result] at completes
    cases completes

/-- A value read off the state. -/
def read (f : σ → α) : Prog σ α := fun s => (.done (f s), s)

/-- One action on the state. -/
def modify (f : σ → σ) : Prog σ Unit := fun s => (.done (), f s)

/-- The body, once for every element. -/
def forEach (body : α → Prog σ Unit) : List α → Prog σ Unit
  | [] => Prog.pure ()
  | first :: rest => do
    body first
    forEach body rest

end Prog

/-- Started in `P`, the program follows `R`, and it completes in `Q` if it completes. -/
def Spec (R : σ → σ → Prop) (P : σ → Prop) (p : Prog σ α) (Q : α → σ → Prop) : Prop :=
  ∀ s, P s → Relation.ReflTransGen R s (p s).2 ∧ ∀ a, (p s).1 = .done a → Q a (p s).2

namespace Spec

variable {R : σ → σ → Prop} {P P' : σ → Prop} {Q Q' : α → σ → Prop} {p : Prog σ α}

theorem pure {value : α} (post : ∀ s, P s → Q value s) : Spec R P (Pure.pure value : Prog σ α) Q := by
  intro s pre
  refine ⟨.refl, fun a done => ?_⟩
  cases done
  exact post s pre

theorem bind {f : α → Prog σ β} {S : β → σ → Prop} (first : Spec R P p Q) (next : ∀ a, Spec R (Q a) (f a) S) :
    Spec R P (p >>= f) S := by
  intro s pre
  obtain ⟨chain, post⟩ := first s pre
  rw [Prog.bind_apply]
  rcases result : p s with ⟨outcome, t⟩
  rw [result] at chain post
  cases outcome with
  | done a =>
    obtain ⟨later, finished⟩ := next a t (post a rfl)
    exact ⟨chain.trans later, finished⟩
  | cut => exact ⟨chain, fun a done => by cases done⟩

theorem conseq (spec : Spec R P p Q) (pre : ∀ s, P' s → P s) (post : ∀ a s, Q a s → Q' a s) :
    Spec R P' p Q' := fun s holds =>
  ⟨(spec s (pre s holds)).1, fun a done => post a _ ((spec s (pre s holds)).2 a done)⟩

/-- More steps may be allowed. -/
theorem mono {R' : σ → σ → Prop} (spec : Spec R P p Q) (more : ∀ s t, R s t → R' s t) : Spec R' P p Q :=
  fun s holds => ⟨Relation.ReflTransGen.mono more _ _ (spec s holds).1, (spec s holds).2⟩

theorem pre (spec : Spec R P p Q) (weaker : ∀ s, P' s → P s) : Spec R P' p Q :=
  spec.conseq weaker fun _ _ holds => holds

theorem post (spec : Spec R P p Q) (weaker : ∀ a s, Q a s → Q' a s) : Spec R P p Q' :=
  spec.conseq (fun _ holds => holds) weaker

/-- Two things known of one program. -/
theorem and {R' : σ → σ → Prop} {S : α → σ → Prop} (spec : Spec R P p Q) (other : Spec R' P' p S) :
    Spec R (fun s => P s ∧ P' s) p fun a s => Q a s ∧ S a s := fun s holds =>
  ⟨(spec s holds.1).1, fun a done => ⟨(spec s holds.1).2 a done, (other s holds.2).2 a done⟩⟩

/-- One of two things known of one program. -/
theorem or (spec : Spec R P p Q) (other : Spec R P' p Q') :
    Spec R (fun s => P s ∨ P' s) p fun a s => Q a s ∨ Q' a s := by
  rintro s (holds | holds)
  · exact ⟨(spec s holds).1, fun a done => .inl ((spec s holds).2 a done)⟩
  · exact ⟨(other s holds).1, fun a done => .inr ((other s holds).2 a done)⟩

/-- What one action does, besides. -/
theorem modify_also {f : σ → σ} {S T : σ → Prop} (spec : Spec R P (Prog.modify f) fun _ => S)
    (also : ∀ s, P s → T (f s)) : Spec R P (Prog.modify f) fun _ s => S s ∧ T s := fun s pre =>
  ⟨(spec s pre).1, fun a done => ⟨(spec s pre).2 a done, also s pre⟩⟩

/-- A fact about the starting state may be assumed. -/
theorem given (fact : Prop) (known : ∀ s, P s → fact) (spec : fact → Spec R P p Q) : Spec R P p Q :=
  fun s pre => spec (known s pre) s pre

theorem read {f : σ → α} (post : ∀ s, P s → Q (f s) s) : Spec R P (Prog.read f) Q := by
  intro s pre
  refine ⟨.refl, fun a done => ?_⟩
  cases done
  exact post s pre

theorem modify {f : σ → σ} {Q : Unit → σ → Prop} (step : ∀ s, P s → R s (f s))
    (post : ∀ s, P s → Q () (f s)) : Spec R P (Prog.modify f) Q := by
  intro s pre
  refine ⟨.single (step s pre), fun a done => ?_⟩
  cases done
  exact post s pre

theorem modify_step {f : σ → σ} {S : σ → Prop} (step : ∀ s, P s → R s (f s) ∧ S (f s)) : Spec R P (Prog.modify f) fun _ => S :=
  modify (fun s pre => (step s pre).1) fun s pre => (step s pre).2

/-- Reading what is known already. -/
theorem bind_read {f : σ → α} {next : α → Prog σ β} {S : β → σ → Prop} (value : α) (known : ∀ s, P s → f s = value)
    (rest : Spec R P (next value) S) : Spec R P (Prog.read f >>= next) S := by
  apply bind (Q := fun a s => P s ∧ a = value) (read fun s pre => ⟨pre, known s pre⟩)
  intro a
  apply given (a = value) (fun _ pre => pre.2)
  intro same
  subst same
  exact rest.pre fun _ pre => pre.1

theorem bind_read_any {f : σ → α} {next : α → Prog σ β} {S : β → σ → Prop} (rest : ∀ value, Spec R P (next value) S) :
    Spec R P (Prog.read f >>= next) S :=
  bind (Q := fun _ => P) (read fun _ pre => pre) rest

theorem bind_modify {f : σ → σ} {next : Unit → Prog σ β} {M : σ → Prop} {S : β → σ → Prop}
    (step : ∀ s, P s → R s (f s)) (post : ∀ s, P s → M (f s)) (rest : Spec R M (next ()) S) :
    Spec R P (Prog.modify f >>= next) S :=
  bind (modify step post) fun _ => rest

/-- The starting value of a part of the state may be fixed. -/
theorem fix {γ : Type} (part : σ → γ) (spec : ∀ value, Spec R (fun s => P s ∧ part s = value) p Q) :
    Spec R P p Q := fun s pre => spec (part s) s ⟨pre, rfl⟩

/-- A loop keeps what each round of it keeps. -/
theorem forEach {I : σ → Prop} {body : α → Prog σ Unit} {items : List α}
    (round : ∀ item ∈ items, Spec R I (body item) fun _ => I) : Spec R I (Prog.forEach body items) fun _ => I := by
  induction items with
  | nil => exact pure fun _ holds => holds
  | cons first rest ih =>
    exact bind (round first List.mem_cons_self) fun _ =>
      ih fun item member => round item (List.mem_cons_of_mem first member)

/-- A loop over positions advances what holds of the ones behind it. -/
theorem forEach_range' {I : Nat → σ → Prop} {body : Nat → Prog σ Unit} (count start : Nat)
    (round : ∀ k, start ≤ k → k < start + count → Spec R (I k) (body k) fun _ => I (k + 1)) :
    Spec R (I start) (Prog.forEach body (List.range' start count)) fun _ => I (start + count) := by
  induction count generalizing start with
  | zero => exact pure fun _ holds => holds
  | succ count ih =>
    apply bind (round start (Nat.le_refl _) (by omega))
    intro _
    have rest := ih (start + 1) fun k low high => round k (by omega) (by omega)
    rwa [Nat.add_assoc, Nat.add_comm 1 count] at rest

theorem forEach_range {I : Nat → σ → Prop} {body : Nat → Prog σ Unit} {count : Nat}
    (round : ∀ k < count, Spec R (I k) (body k) fun _ => I (k + 1)) :
    Spec R (I 0) (Prog.forEach body (List.range count)) fun _ => I count := by
  have loop : Spec R (I 0) (Prog.forEach body (List.range' 0 count)) fun _ => I (0 + count) :=
    forEach_range' count 0 fun k _ high => round k (by omega)
  rwa [Nat.zero_add, ← List.range_eq_range'] at loop

end Spec

/-- An invariant of the abstract steps holds wherever a program leaves the state. -/
theorem Spec.invariant {R : σ → σ → Prop} {P I : σ → Prop} {Q : α → σ → Prop} {p : Prog σ α}
    (spec : Spec R P p Q) (closed : ∀ s t, R s t → I s → I t) {s : σ} (pre : P s) (start : I s) : I (p s).2 := by
  have chain := (spec s pre).1
  generalize (p s).2 = t at chain
  induction chain with
  | refl => exact start
  | tail _ step ih => exact closed _ _ step ih

/-- And so it may be assumed and asserted beside the rest. -/
theorem Spec.keeping {R : σ → σ → Prop} {P I : σ → Prop} {Q : α → σ → Prop} {p : Prog σ α} (spec : Spec R P p Q)
    (closed : ∀ s t, R s t → I s → I t) : Spec R (fun s => P s ∧ I s) p fun a s => Q a s ∧ I s := fun s holds =>
  ⟨(spec s holds.1).1, fun a done => ⟨(spec s holds.1).2 a done, spec.invariant closed holds.1 holds.2⟩⟩

/-! ## Completion -/

/-- Started in `P`, the program completes, and it does so in `Q`. -/
def Completes (P : σ → Prop) (p : Prog σ α) (Q : α → σ → Prop) : Prop :=
  ∀ s, P s → ∃ a t, p s = (.done a, t) ∧ Q a t

namespace Completes

variable {P P' : σ → Prop} {Q Q' : α → σ → Prop} {p : Prog σ α}

theorem pure {value : α} (post : ∀ s, P s → Q value s) : Completes P (Pure.pure value : Prog σ α) Q :=
  fun s pre => ⟨value, s, rfl, post s pre⟩

theorem read {f : σ → α} (post : ∀ s, P s → Q (f s) s) : Completes P (Prog.read f) Q :=
  fun s pre => ⟨f s, s, rfl, post s pre⟩

theorem modify {f : σ → σ} {Q : Unit → σ → Prop} (post : ∀ s, P s → Q () (f s)) : Completes P (Prog.modify f) Q :=
  fun s pre => ⟨(), f s, rfl, post s pre⟩

theorem bind {f : α → Prog σ β} {S : β → σ → Prop} (first : Completes P p Q)
    (next : ∀ a, Completes (Q a) (f a) S) : Completes P (p >>= f) S := by
  intro s pre
  obtain ⟨a, t, done, post⟩ := first s pre
  obtain ⟨b, u, later, finished⟩ := next a t post
  refine ⟨b, u, ?_, finished⟩
  rw [Prog.bind_apply, done]
  exact later

theorem conseq (completes : Completes P p Q) (pre : ∀ s, P' s → P s) (post : ∀ a s, Q a s → Q' a s) :
    Completes P' p Q' := by
  intro s holds
  obtain ⟨a, t, done, finished⟩ := completes s (pre s holds)
  exact ⟨a, t, done, post a t finished⟩

/-- A fact about the starting state may be assumed. -/
theorem given {fact : Prop} (known : ∀ s, P s → fact) (completes : fact → Completes P p Q) : Completes P p Q :=
  fun s pre => completes (known s pre) s pre

end Completes

end Program
