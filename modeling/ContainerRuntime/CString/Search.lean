import ContainerRuntime.CString.Numerals

/-! Where `strstr` finds a text. -/

set_option autoImplicit false

namespace ContainerRuntime.CString

theorem strstr_isSome_iff {needle text : Text} : (strstr needle text).isSome = true ↔ needle <:+: text := by
  induction text with
  | nil =>
    unfold strstr
    split <;> simp_all
  | cons c rest ih =>
    unfold strstr
    rw [List.infix_cons_iff]
    split
    · rename_i here
      simp only [Option.isSome_some, true_iff]
      exact Or.inl (List.isPrefixOf_iff_prefix.mp here)
    · rename_i elsewhere
      rw [ih]
      constructor
      · exact Or.inr
      · rintro (here | later)
        · exact absurd (List.isPrefixOf_iff_prefix.mpr here) elsewhere
        · exact later

/-- What is found begins with the text that was looked for, and ends the text it was found in. -/
theorem strstr_some {needle text found : Text} (here : strstr needle text = some found) : needle <+: found ∧ found <:+ text := by
  induction text with
  | nil =>
    unfold strstr at here
    split at here
    · rename_i empty
      cases here
      rw [empty]
      exact ⟨List.prefix_refl _, List.suffix_refl _⟩
    · cases here
  | cons c rest ih =>
    unfold strstr at here
    split at here
    · rename_i begins
      cases here
      exact ⟨List.isPrefixOf_iff_prefix.mp begins, List.suffix_refl _⟩
    · obtain ⟨begins, ends⟩ := ih here
      exact ⟨begins, ends.trans (List.suffix_cons c rest)⟩

/-- The needle is not in front of the place where it is found. -/
theorem strstr_first {needle text found : Text} (given : needle ≠ []) (here : strstr needle text = some found) :
    ∃ front, text = front ++ found ∧ ¬ needle <:+: front := by
  induction text with
  | nil => simp [strstr, given] at here
  | cons c rest ih =>
    unfold strstr at here
    split at here
    · obtain rfl := Option.some.inj here
      exact ⟨[], rfl, fun inside => given (List.infix_nil.mp inside)⟩
    · rename_i elsewhere
      obtain ⟨front, rfl, absent⟩ := ih here
      refine ⟨c :: front, rfl, ?_⟩
      intro inside
      rcases List.infix_cons_iff.mp inside with begins | later
      · apply elsewhere
        rw [List.isPrefixOf_iff_prefix, ← List.cons_append]
        exact begins.trans (List.prefix_append _ _)
      · exact absent later

theorem strstr_eq_none_iff {needle text : Text} : strstr needle text = none ↔ ¬ needle <:+: text := by
  rw [← strstr_isSome_iff]
  cases strstr needle text <;> simp

/-- A character that the needle does not have is not crossed. -/
theorem prefix_append_cons_iff {needle body rest : Text} {mark : Char} (apart : mark ∉ needle) :
    needle <+: body ++ mark :: rest ↔ needle <+: body := by
  constructor
  · intro begins
    by_cases short : needle.length ≤ body.length
    · exact List.prefix_of_prefix_length_le begins (List.prefix_append _ _) short
    · obtain ⟨tail, whole⟩ := begins
      exfalso
      apply apart
      have inside : (needle ++ tail)[body.length]? = some mark := by
        rw [whole]
        simp
      rw [List.getElem?_append_left (by omega)] at inside
      exact List.mem_of_getElem? inside
  · intro begins
    exact begins.trans (List.prefix_append _ _)

/-- The search goes on behind a character that the needle does not have. -/
theorem strstr_append_cons {needle body rest : Text} {mark : Char} (apart : mark ∉ needle) (some : needle ≠ []) :
    strstr needle (body ++ mark :: rest) =
      match strstr needle body with
      | .some found => .some (found ++ mark :: rest)
      | none => strstr needle rest := by
  induction body with
  | nil =>
    have elsewhere : needle.isPrefixOf (mark :: rest) = false := by
      rw [Bool.eq_false_iff]
      intro here
      have begins : needle <+: [] ++ mark :: rest := List.isPrefixOf_iff_prefix.mp here
      exact some (List.prefix_nil.mp ((prefix_append_cons_iff apart).mp begins))
    simp only [List.nil_append, strstr, elsewhere, Bool.false_eq_true, if_false, some]
  | cons c body ih =>
    have same : needle.isPrefixOf (c :: (body ++ mark :: rest)) = needle.isPrefixOf (c :: body) := by
      have both : needle <+: (c :: body) ++ mark :: rest ↔ needle <+: c :: body := prefix_append_cons_iff apart
      rw [← List.isPrefixOf_iff_prefix, ← List.isPrefixOf_iff_prefix] at both
      exact Bool.eq_iff_iff.mpr both
    simp only [List.cons_append, strstr, same]
    by_cases here : needle.isPrefixOf (c :: body) = true
    · simp [here]
    · simp only [here, Bool.false_eq_true, if_false, ih]

/-- The search goes on behind a text without the first character of the needle. -/
theorem strstr_skip {c : Char} {needle front rest : Text} (apart : c ∉ front) :
    strstr (c :: needle) (front ++ rest) = strstr (c :: needle) rest := by
  induction front with
  | nil => rfl
  | cons d front ih =>
    simp only [List.mem_cons, not_or] at apart
    have elsewhere : (c :: needle).isPrefixOf (d :: (front ++ rest)) = false := by
      rw [Bool.eq_false_iff]
      intro here
      exact apart.1 (List.cons_prefix_cons.mp (List.isPrefixOf_iff_prefix.mp here)).1
    rw [List.cons_append, strstr, elsewhere, if_neg Bool.false_ne_true, ih apart.2]

theorem strstr_self {c : Char} {needle rest : Text} : strstr (c :: needle) (c :: needle ++ rest) = some (c :: needle ++ rest) := by
  have here : (c :: needle).isPrefixOf (c :: needle ++ rest) = true := List.isPrefixOf_iff_prefix.mpr (List.prefix_append _ _)
  rw [List.cons_append] at here ⊢
  rw [strstr, here, if_pos rfl]

/-- Two different characters are found at once behind a text without them, though it may end with the first. -/
theorem strstr_pair {c d : Char} (apart : c ≠ d) {front : Text} (absent : ¬ [c, d] <:+: front) (rest : Text) :
    strstr [c, d] (front ++ c :: d :: rest) = some (c :: d :: rest) := by
  induction front with
  | nil => exact strstr_self
  | cons first front ih =>
    have later : ¬ [c, d] <:+: front := fun here => absent (here.trans (List.suffix_cons _ _).isInfix)
    have elsewhere : [c, d].isPrefixOf (first :: (front ++ c :: d :: rest)) = false := by
      rw [Bool.eq_false_iff]
      intro here
      obtain ⟨rfl, next⟩ := List.cons_prefix_cons.mp (List.isPrefixOf_iff_prefix.mp here)
      cases front with
      | nil => exact apart (List.cons_prefix_cons.mp next).1.symm
      | cons second front =>
        obtain ⟨rfl, -⟩ := List.cons_prefix_cons.mp next
        exact absent ⟨[], front, rfl⟩
    rw [List.cons_append, strstr, elsewhere, if_neg Bool.false_ne_true, ih later]

/-! ## Texts without a needle -/

/-- A needle that does not begin in the front of a text is behind it. -/
theorem infix_skip {c : Char} {needle front rest : Text} (apart : c ∉ front) (here : c :: needle <:+: front ++ rest) :
    c :: needle <:+: rest := by
  rw [← strstr_isSome_iff, strstr_skip apart] at here
  exact strstr_isSome_iff.mp here

theorem not_infix_of_not_mem {needle text : Text} {c : Char} (inside : c ∈ needle) (apart : c ∉ text) : ¬ needle <:+: text :=
  fun here => apart (here.subset inside)

/-- A character that may only end the needle divides a text for it. -/
theorem infix_split {needle front back : Text} {mark : Char} (apart : mark ∉ needle.dropLast)
    (here : needle <:+: front ++ mark :: back) : needle <:+: front ++ [mark] ∨ needle <:+: back := by
  obtain ⟨before, after, whole⟩ := here
  -- The needle ends in front of the mark or with it, begins behind it, or goes across it.
  by_cases early : before.length + needle.length ≤ front.length + 1
  · left
    have covered : before ++ needle <+: front ++ [mark] := by
      have parts : front ++ mark :: back = (front ++ [mark]) ++ back := by simp
      rw [parts] at whole
      exact List.prefix_of_prefix_length_le ⟨after, whole⟩ (List.prefix_append _ _) (by simpa using early)
    exact (List.suffix_append before needle).isInfix.trans covered.isInfix
  · by_cases late : front.length + 1 ≤ before.length
    · right
      have parts : front ++ mark :: back = (front ++ [mark]) ++ back := by simp
      have skipped : needle ++ after = back.drop (before.length - (front.length + 1)) := by
        have dropped := congrArg (List.drop before.length) whole
        rw [List.append_assoc, List.drop_left, parts, List.drop_append] at dropped
        rw [dropped, List.drop_eq_nil_of_le (by simpa using late), List.nil_append]
        simp
      exact (List.IsPrefix.isInfix ⟨after, skipped⟩).trans (List.drop_suffix _ _).isInfix
    · -- The mark would be inside the needle.
      exfalso
      apply apart
      have place : (before ++ needle ++ after)[front.length]? = some mark := by
        rw [whole]
        simp
      rw [List.getElem?_append_left (by simp only [List.length_append]; omega), List.getElem?_append_right (by omega)] at place
      have inside : needle.dropLast[front.length - before.length]? = some mark := by
        rw [List.getElem?_dropLast, if_pos (by omega)]
        exact place
      exact List.mem_of_getElem? inside

/-- A character that the needle does not have does not complete it. -/
theorem infix_concat {needle text : Text} {mark : Char} (apart : mark ∉ needle) (some : needle ≠ [])
    (here : needle <:+: text ++ [mark]) : needle <:+: text := by
  rw [← strstr_isSome_iff, strstr_append_cons apart some] at here
  rw [← strstr_isSome_iff]
  cases found : strstr needle text with
  | some rest => rfl
  | none =>
    rw [found] at here
    simp [strstr, some] at here

/-- A needle in a text that is divided by such characters stands in one of the parts. -/
theorem infix_segments {needle : Text} {segments : List (Text × Char)} {last : Text}
    (apart : ∀ segment ∈ segments, segment.2 ∉ needle.dropLast)
    (here : needle <:+: segments.flatMap (fun segment => segment.1 ++ [segment.2]) ++ last) :
    (∃ segment ∈ segments, needle <:+: segment.1 ++ [segment.2]) ∨ needle <:+: last := by
  induction segments with
  | nil => exact Or.inr here
  | cons segment rest ih =>
    have parts : (segment :: rest).flatMap (fun segment => segment.1 ++ [segment.2]) ++ last =
        segment.1 ++ segment.2 :: (rest.flatMap (fun segment => segment.1 ++ [segment.2]) ++ last) := by simp
    rw [parts] at here
    rcases infix_split (apart segment List.mem_cons_self) here with first | later
    · exact Or.inl ⟨segment, List.mem_cons_self, first⟩
    · rcases ih (fun other member => apart other (List.mem_cons_of_mem _ member)) later with ⟨other, member, found⟩ | found
      · exact Or.inl ⟨other, List.mem_cons_of_mem _ member, found⟩
      · exact Or.inr found

end ContainerRuntime.CString
