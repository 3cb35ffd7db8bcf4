import Mathlib.Data.List.Basic

/-! Character strings as the C library sees them, and its tokenizer.

A string is the list of characters before its terminating NUL. Buffer sizes are
explicit: a bounded copy keeps the part that fits in front of the terminator.
-/

set_option autoImplicit false

namespace ContainerRuntime.CString

abbrev Text := List Char

/-- The character `'`, written by its code. -/
def apostrophe : Char := Char.ofNat 39

def nul : Char := Char.ofNat 0

/-- A string literal of the source. -/
def lit (text : String) : Text := text.toList

/-- `snprintf(dst, size, "%s", src)`: what a buffer of `size` bytes holds afterwards. -/
def snprintf (size : Nat) (src : Text) : Text := src.take (size - 1)

theorem snprintf_of_fits {size : Nat} {src : Text} (fits : src.length < size) :
    snprintf size src = src := by
  unfold snprintf
  exact List.take_of_length_le (by omega)

theorem length_snprintf_lt {size : Nat} (src : Text) (positive : 0 < size) :
    (snprintf size src).length < size := by
  simp only [snprintf, List.length_take]
  omega

theorem snprintf_ne_nil {size : Nat} {src : Text} (room : 1 < size) (given : src ≠ []) :
    snprintf size src ≠ [] := by
  cases src with
  | nil => exact absurd rfl given
  | cons first rest =>
    obtain ⟨n, rfl⟩ : ∃ n, size = n + 2 := ⟨size - 2, by omega⟩
    simp [snprintf]

theorem mem_of_mem_snprintf {size : Nat} {src : Text} {c : Char} (member : c ∈ snprintf size src) :
    c ∈ src := List.mem_of_mem_take member

/-- The first place where `needle` occurs. -/
def strstr (needle : Text) : Text → Option Text
  | [] => if needle = [] then some [] else none
  | c :: rest => if needle.isPrefixOf (c :: rest) then some (c :: rest) else strstr needle rest

/-- The C string that starts at `offset` of a buffer. -/
def cstringAt (buffer : Text) (offset : Nat) : Text :=
  (buffer.drop offset).takeWhile (· ≠ nul)

/-! ## Splitting at one delimiter -/

theorem not_mem_of_mem_splitOn {d : Char} {text piece : Text} (member : piece ∈ text.splitOn d) :
    d ∉ piece := by
  induction text generalizing piece with
  | nil =>
    simp only [List.splitOn_nil, List.mem_singleton] at member
    simp [member]
  | cons first rest ih =>
    rw [List.splitOn_cons_eq_if_modifyHead] at member
    split at member
    · rcases List.mem_cons.mp member with rfl | member
      · simp
      · exact ih member
    · rename_i different
      cases pieces : rest.splitOn d with
      | nil => exact absurd pieces (List.splitOn_ne_nil d rest)
      | cons head tail =>
        rw [pieces] at member ih
        rcases List.mem_cons.mp member with rfl | member
        · have clean := ih (List.mem_cons_self)
          simp only [beq_iff_eq] at different
          simp only [List.mem_cons, not_or]
          exact ⟨fun same => different same.symm, clean⟩
        · exact ih (List.mem_cons_of_mem head member)

theorem mem_of_mem_splitOn {d c : Char} {text piece : Text} (member : piece ∈ text.splitOn d)
    (inside : c ∈ piece) : c ∈ text := by
  induction text generalizing piece with
  | nil =>
    simp only [List.splitOn_nil, List.mem_singleton] at member
    simp [member] at inside
  | cons first rest ih =>
    rw [List.splitOn_cons_eq_if_modifyHead] at member
    split at member
    · rcases List.mem_cons.mp member with rfl | member
      · simp at inside
      · exact List.mem_cons_of_mem first (ih member inside)
    · cases pieces : rest.splitOn d with
      | nil => exact absurd pieces (List.splitOn_ne_nil d rest)
      | cons head tail =>
        rw [pieces] at member ih
        rcases List.mem_cons.mp member with rfl | member
        · rcases List.mem_cons.mp inside with rfl | inside
          · exact List.mem_cons_self
          · exact List.mem_cons_of_mem first (ih List.mem_cons_self inside)
        · exact List.mem_cons_of_mem first (ih (List.mem_cons_of_mem head member) inside)

/-- All tokens of repeated `strtok` calls with a one-character delimiter set:
adjacent delimiters are merged, so no token is empty. -/
def strtok (delim : Char) (text : Text) : List Text :=
  (text.splitOn delim).filter (· ≠ [])

theorem strtok_token {d : Char} {text token : Text} (member : token ∈ strtok d text) :
    token ≠ [] ∧ d ∉ token := by
  simp only [strtok, List.mem_filter, decide_eq_true_eq] at member
  exact ⟨member.2, not_mem_of_mem_splitOn member.1⟩

theorem mem_of_mem_strtok {d c : Char} {text token : Text} (member : token ∈ strtok d text)
    (inside : c ∈ token) : c ∈ text :=
  mem_of_mem_splitOn (List.mem_filter.mp member).1 inside

theorem strtok_append_cons (d : Char) (front back : Text) :
    strtok d (front ++ d :: back) = strtok d front ++ strtok d back := by
  simp only [strtok, List.splitOn_append_cons_self, List.filter_append]

theorem strtok_cons_self (d : Char) (text : Text) : strtok d (d :: text) = strtok d text :=
  strtok_append_cons d [] text

/-- The characters of joined parts are theirs, or the separator. -/
theorem mem_intercalate {sep c : Char} {parts : List Text} (member : c ∈ [sep].intercalate parts) :
    c = sep ∨ ∃ part ∈ parts, c ∈ part := by
  induction parts with
  | nil => simp at member
  | cons first rest ih =>
    cases rest with
    | nil => exact Or.inr ⟨first, by simp, by simpa using member⟩
    | cons second rest =>
      rw [List.intercalate_cons_cons] at member
      simp only [List.append_assoc, List.mem_append, List.mem_singleton] at member
      rcases member with inside | same | later
      · exact Or.inr ⟨first, List.mem_cons_self, inside⟩
      · exact Or.inl same
      · rcases ih later with same | ⟨part, listed, inside⟩
        · exact Or.inl same
        · exact Or.inr ⟨part, List.mem_cons_of_mem first listed, inside⟩

/-- The delimiter joins back exactly what `strtok` can deliver. -/
theorem strtok_intercalate (d : Char) {tokens : List Text}
    (good : ∀ token ∈ tokens, token ≠ [] ∧ d ∉ token) :
    strtok d ([d].intercalate tokens) = tokens := by
  cases tokens with
  | nil => simp [strtok]
  | cons first rest =>
    unfold strtok
    rw [List.splitOn_intercalate d (fun token member => (good token member).2) (by simp)]
    exact List.filter_eq_self.mpr fun token member => by simpa using (good token member).1

theorem strtok_singleton {d : Char} {token : Text} (given : token ≠ []) (whole : d ∉ token) :
    strtok d token = [token] := by
  simp [strtok, List.splitOn_eq_singleton whole, given]

end ContainerRuntime.CString
