import Mathlib.Data.List.Basic
import Mathlib.Logic.Function.Basic

/-! Chains of pointers.

`next` is a field of the nodes of a heap; the addresses are of any type, and the
null pointer is `none`.
-/

set_option autoImplicit false

variable {Addr : Type}

/-- The nodes that a traversal meets from one pointer on, up to another. -/
def Chain (next : Addr → Option Addr) : Option Addr → List Addr → Option Addr → Prop
  | first, [], last => first = last
  | first, node :: rest, last => first = some node ∧ Chain next (next node) rest last

namespace Chain

variable {next other : Addr → Option Addr} {first last : Option Addr} {nodes : List Addr}

@[simp] theorem nil_iff : Chain next first [] last ↔ first = last := Iff.rfl

@[simp] theorem cons_iff {node : Addr} {rest : List Addr} :
    Chain next first (node :: rest) last ↔ first = some node ∧ Chain next (next node) rest last := Iff.rfl

theorem append_iff {front back : List Addr} :
    Chain next first (front ++ back) last ↔ ∃ mid, Chain next first front mid ∧ Chain next mid back last := by
  induction front generalizing first with
  | nil => simp
  | cons node front ih =>
    simp only [List.cons_append, cons_iff, ih]
    constructor
    · rintro ⟨here, mid, before, behind⟩
      exact ⟨mid, ⟨here, before⟩, behind⟩
    · rintro ⟨mid, ⟨here, before⟩, behind⟩
      exact ⟨here, mid, before, behind⟩

/-- A chain depends on the pointers of its own nodes only. -/
theorem congr (same : ∀ node ∈ nodes, next node = other node) :
    Chain next first nodes last ↔ Chain other first nodes last := by
  induction nodes generalizing first with
  | nil => rfl
  | cons node rest ih =>
    obtain ⟨here, behind⟩ := List.forall_mem_cons.mp same
    rw [cons_iff, cons_iff, here, ih behind]

theorem update [DecidableEq Addr] {node : Addr} {value : Option Addr} (outside : node ∉ nodes) :
    Chain (Function.update next node value) first nodes last ↔ Chain next first nodes last := by
  apply congr
  intro a member
  have apart : a ≠ node := fun same => outside (same ▸ member)
  exact Function.update_of_ne apart value next

/-- The first pointer is that of the first node. -/
theorem first_eq (chain : Chain next first nodes none) : first = nodes.head? := by
  cases nodes with
  | nil => exact chain
  | cons node rest => exact chain.1

/-- What a traversal up to the null pointer meets is one list. -/
theorem unique {nodes' : List Addr} (chain : Chain next first nodes none) (chain' : Chain next first nodes' none) :
    nodes = nodes' := by
  induction nodes generalizing first nodes' with
  | nil =>
    cases nodes' with
    | nil => rfl
    | cons node rest => cases chain.symm.trans chain'.1
  | cons node rest ih =>
    cases nodes' with
    | nil => cases chain'.symm.trans chain.1
    | cons node' rest' =>
      cases chain.1.symm.trans chain'.1
      rw [ih chain.2 chain'.2]

/-- The last node is linked to another pointer. -/
theorem relink [DecidableEq Addr] {front : List Addr} {node : Addr} {value : Option Addr}
    (chain : Chain next first (front ++ [node]) last) (outside : node ∉ front) :
    Chain (Function.update next node value) first (front ++ [node]) value := by
  rw [append_iff] at chain ⊢
  obtain ⟨mid, before, here, _⟩ := chain
  exact ⟨mid, (update outside).mpr before, here, by simp⟩

/-- A node is left out: the one in front of it is linked to the one behind it. -/
theorem unlink [DecidableEq Addr] {front back : List Addr} {node : Addr}
    (chain : Chain next first (front ++ node :: back) last) (distinct : (front ++ node :: back).Nodup) {before : Addr}
    {rest : List Addr} (ends : front = rest ++ [before]) :
    Chain (Function.update next before (next node)) first (front ++ back) last := by
  subst ends
  obtain ⟨mid, ahead, here, behind⟩ := append_iff.mp chain
  have split := List.nodup_append.mp distinct
  have outside : before ∉ rest := by
    have own := split.1
    rw [List.nodup_append] at own
    exact fun member => own.2.2 before member before (List.mem_singleton_self _) rfl
  have apart : before ∉ back := fun member => split.2.2 before (by simp) before (by simp [member]) rfl
  exact append_iff.mpr ⟨next node, relink ahead outside, (update apart).mpr behind⟩

end Chain
