import ContainerRuntime.Logic.Program

/-! Sequential programs that can fail, and what holds where they end.

A postcondition has two parts, one for a program that returns a value and one
for a program that fails. A program that is cut short ends nowhere.
-/

set_option autoImplicit false

namespace Program

variable {σ ε α β : Type}

/-- What is done where an operation has failed. -/
def recover (p : ExceptT ε (Prog σ) α) (handle : ε → ExceptT ε (Prog σ) α) : ExceptT ε (Prog σ) α := fun s =>
  match p s with
  | (.done (.error error), t) => handle error t
  | other => other

/-- Started in `P`, the program returns in `Q` if it returns, and fails in `E` if it fails. -/
structure Ends (P : σ → Prop) (p : ExceptT ε (Prog σ) α) (Q : α → σ → Prop) (E : ε → σ → Prop) : Prop where
  returns : ∀ s a t, P s → p s = (.done (.ok a), t) → Q a t
  fails : ∀ s error t, P s → p s = (.done (.error error), t) → E error t

namespace Ends

variable {P P' : σ → Prop} {Q Q' : α → σ → Prop} {E E' : ε → σ → Prop} {p : ExceptT ε (Prog σ) α}

theorem bind_apply (p : ExceptT ε (Prog σ) α) (f : α → ExceptT ε (Prog σ) β) (s : σ) :
    (p >>= f : ExceptT ε (Prog σ) β) s = match p s with
      | (.done (.ok a), t) => f a t
      | (.done (.error error), t) => (.done (.error error), t)
      | (.cut, t) => (.cut, t) := by
  change Prog.bind p _ s = _
  unfold Prog.bind
  rcases p s with ⟨⟨error | a⟩ | -, t⟩ <;> rfl

theorem pure {value : α} (post : ∀ s, P s → Q value s) : Ends P (Pure.pure value : ExceptT ε (Prog σ) α) Q E where
  returns s a t pre done := by
    cases done
    exact post _ pre
  fails s error t pre done := by cases done

theorem bind {f : α → ExceptT ε (Prog σ) β} {S : β → σ → Prop} (first : Ends P p Q E)
    (next : ∀ a, Ends (Q a) (f a) S E) : Ends P (p >>= f) S E where
  returns s b u pre done := by
    rw [bind_apply] at done
    rcases result : p s with ⟨⟨error | a⟩ | -, t⟩ <;> rw [result] at done
    · cases done
    · exact (next a).returns t b u (first.returns s a t pre result) done
    · cases done
  fails s error u pre done := by
    rw [bind_apply] at done
    rcases result : p s with ⟨⟨other | a⟩ | -, t⟩ <;> rw [result] at done
    · cases done
      exact first.fails s error u pre result
    · exact (next a).fails t error u (first.returns s a t pre result) done
    · cases done

theorem conseq (ends : Ends P p Q E) (pre : ∀ s, P' s → P s) (post : ∀ a s, Q a s → Q' a s)
    (failed : ∀ error s, E error s → E' error s) : Ends P' p Q' E' where
  returns s a t holds done := post a t (ends.returns s a t (pre s holds) done)
  fails s error t holds done := failed error t (ends.fails s error t (pre s holds) done)

theorem pre (ends : Ends P p Q E) (weaker : ∀ s, P' s → P s) : Ends P' p Q E :=
  ends.conseq weaker (fun _ _ holds => holds) fun _ _ holds => holds

theorem post (ends : Ends P p Q E) (weaker : ∀ a s, Q a s → Q' a s) : Ends P p Q' E :=
  ends.conseq (fun _ holds => holds) weaker fun _ _ holds => holds

/-- One of two things known of one program. -/
theorem or (ends : Ends P p Q E) (other : Ends P' p Q' E') :
    Ends (fun s => P s ∨ P' s) p (fun a s => Q a s ∨ Q' a s) fun error s => E error s ∨ E' error s where
  returns s a t holds done := holds.imp (ends.returns s a t · done) (other.returns s a t · done)
  fails s error t holds done := holds.imp (ends.fails s error t · done) (other.fails s error t · done)

/-- The value may be chosen. -/
theorem exists_ {γ : Type} {R : γ → σ → Prop} (ends : ∀ value, Ends (R value) p Q E) :
    Ends (fun s => ∃ value, R value s) p Q E where
  returns s a t holds done := holds.elim fun value pre => (ends value).returns s a t pre done
  fails s error t holds done := holds.elim fun value pre => (ends value).fails s error t pre done

/-- A failure is handled where it leaves the state. -/
theorem recover {handle : ε → ExceptT ε (Prog σ) α} (ends : Ends P p Q E) (handled : ∀ error, Ends (E error) (handle error) Q E') :
    Ends P (Program.recover p handle) Q E' where
  returns s a t pre done := by
    unfold Program.recover at done
    split at done
    · rename_i error middle failed
      exact (handled error).returns middle a t (ends.fails s error middle pre failed) done
    · exact ends.returns s a t pre done
  fails s error t pre done := by
    unfold Program.recover at done
    split at done
    · rename_i other middle failed
      exact (handled other).fails middle error t (ends.fails s other middle pre failed) done
    · rename_i failed
      exact absurd done (failed error t)

end Ends

end Program
