import Mathlib.Data.List.Nodup

/-! Lists changed at one position. -/

set_option autoImplicit false

namespace List

variable {α : Type}

/-- A position cuts the list in two, and the changes made there leave both parts alone. -/
theorem split_at {l : List α} {i : Nat} {a : α} (here : l[i]? = some a) :
    ∃ front back, l = front ++ a :: back ∧ i = front.length ∧ (∀ f : α → α, l.modify i f = front ++ f a :: back) ∧
      l.eraseIdx i = front ++ back := by
  obtain ⟨inside, same⟩ := getElem?_eq_some_iff.mp here
  refine ⟨l.take i, l.drop (i + 1), ?_, ?_, ?_, eraseIdx_eq_take_drop_succ l i⟩
  · rw [← same, ← drop_eq_getElem_cons inside, take_append_drop]
  · rw [length_take, Nat.min_eq_left (Nat.le_of_lt inside)]
  · intro f
    rw [modify_eq_take_cons_drop inside, same]

/-- Among the elements that satisfy `p`, a value of `g` occurs at one position only. -/
theorem position_unique {β : Type} {p : α → Bool} {g : α → β} {l : List α} (distinct : ((l.filter p).map g).Nodup)
    {i j : Nat} {a b : α} (first : l[i]? = some a) (second : l[j]? = some b) (here : p a = true) (there : p b = true)
    (same : g a = g b) : i = j := by
  induction l generalizing i j with
  | nil => cases first
  | cons head tail ih =>
    have rest : ((tail.filter p).map g).Nodup := distinct.sublist (((sublist_cons_self head tail).filter p).map g)
    -- The head's value does not come back later.
    have apart : ∀ {k : Nat} {c : α}, p head = true → tail[k]? = some c → p c = true → g head ≠ g c := by
      intro k c chosen later kept clash
      rw [filter_cons_of_pos chosen, map_cons, nodup_cons] at distinct
      exact distinct.1 (mem_map.mpr ⟨c, mem_filter.mpr ⟨mem_of_getElem? later, kept⟩, clash.symm⟩)
    cases i with
    | zero =>
      cases first
      cases j with
      | zero => rfl
      | succ j => exact absurd same (apart here second there)
    | succ i =>
      cases j with
      | zero =>
        cases second
        exact absurd same.symm (apart there first here)
      | succ j => rw [ih rest first second]

/-- What holds of all elements and of a new last one. -/
theorem forall_mem_concat {P : α → Prop} {l : List α} {a : α} (all : ∀ b ∈ l, P b) (last : P a) : ∀ b ∈ l ++ [a], P b :=
  forall_mem_append.mpr ⟨all, forall_mem_singleton.mpr last⟩

/-- An element of a list with a new last one is that one, or was there before. -/
theorem concat_split {l before after : List α} {a e : α} (parts : l ++ [a] = before ++ e :: after) :
    before = l ∧ e = a ∨ ∃ rest, l = before ++ e :: rest := by
  rcases eq_nil_or_concat after with rfl | ⟨rest, last, rfl⟩
  · obtain ⟨same, last⟩ := append_inj' parts rfl
    exact .inl ⟨same.symm, (cons.inj last).1.symm⟩
  · have shifted : l ++ [a] = (before ++ e :: rest) ++ [last] := by
      rw [parts, concat_eq_append, append_assoc, cons_append]
    exact .inr ⟨rest, (append_inj' shifted rfl).1⟩

theorem getElem?_concat_cases {l : List α} {i : Nat} {a b : α} (here : (l ++ [a])[i]? = some b) :
    l[i]? = some b ∨ b = a := by
  rw [getElem?_append] at here
  split at here
  · exact .inl here
  · exact .inr (mem_singleton.mp (mem_of_getElem? here))

/-- The element behind a front part is changed. -/
theorem modify_middle (front back : List α) (a : α) (f : α → α) :
    (front ++ a :: back).modify front.length f = front ++ f a :: back := by
  induction front with
  | nil => rfl
  | cons b rest ih => rw [cons_append, length_cons, modify_succ_cons, ih, cons_append]

/-- A view by key that only the steps of this key change is a view of the fold over these steps. -/
theorem foldl_filter_view {σ κ ν : Type} [DecidableEq κ] {step : σ → α → σ} (key : α → κ) (view : σ → ν) (k : κ)
    (own : ∀ s t a, key a = k → view s = view t → view (step s a) = view (step t a))
    (other : ∀ s a, key a ≠ k → view (step s a) = view s) {s t : σ} (same : view s = view t) (l : List α) :
    view (l.foldl step s) = view ((l.filter (key · = k)).foldl step t) := by
  induction l generalizing s t with
  | nil => exact same
  | cons a rest ih =>
    by_cases here : key a = k
    · rw [filter_cons_of_pos (by simpa using here)]
      exact ih (own s t a here same)
    · rw [filter_cons_of_neg (by simpa using here)]
      exact ih ((other s a here).trans same)

/-- What every step keeps, a run of them keeps. -/
theorem foldlM_keeps {σ : Type} {step : σ → α → Option σ} {P : σ → Prop}
    (keeps : ∀ s a t, P s → step s a = some t → P t) {s t : σ} {l : List α} (start : P s)
    (run : l.foldlM step s = some t) : P t := by
  induction l generalizing s with
  | nil => exact Option.some.inj run ▸ start
  | cons a rest ih =>
    obtain ⟨u, first, later⟩ := Option.bind_eq_some_iff.mp run
    exact ih (keeps s a u start first) later

/-- What stands behind a position stays there when the list grows. -/
theorem IsPrefix.drop_subset {l l' : List α} (grows : l <+: l') (n : Nat) : l.drop n ⊆ l'.drop n := by
  obtain ⟨later, rfl⟩ := grows
  rw [drop_append]
  exact subset_append_left _ _

end List
