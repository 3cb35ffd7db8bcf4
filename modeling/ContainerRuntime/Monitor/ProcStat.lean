import Mathlib.Data.List.GetD
import ContainerRuntime.CString.Access
import ContainerRuntime.CString.Lines
import ContainerRuntime.Host.Basic

/-! `parse_proc_stat`: the fields of `/proc/<pid>/stat`, found in the buffer it was read to.

The name of the command may have anything in it, so the fields are counted from
the last closing parenthesis. Two characters are skipped behind it and two
behind the state, whether or not the string goes on there.
-/

set_option autoImplicit false

namespace ContainerRuntime.Monitor

open CString

/-- `char buffer[4096]`. -/
def bufferSize : Nat := 4096

/-- The bytes of a file that `fread` delivers. -/
def delivered (file : Text) : Text := file.take (bufferSize - 1)

/-- `read_file_to_buffer`, for a file that can be read; behind the NUL there is what was in memory before. -/
def readFileToBuffer (file junk : Text) : Text := delivered file ++ nul :: junk

/-- The part of `MonitorStats` that comes from the file. -/
structure MonitorStats where
  state : Char
  utimeTicks : Nat
  stimeTicks : Nat
  vsizeBytes : Nat
  rssPages : Int
  threads : Int
  deriving DecidableEq

/-- The pointers of the token loop, the memory it leaves and the positions it reads. -/
structure Split where
  pointers : List Nat
  memory : Text
  reads : List Nat

/-- The token loop, with room for a number of pointers: each space that ends a token becomes a NUL. -/
def tokenLoop : Nat → Text → Nat → Split
  | 0, memory, _ => ⟨[], memory, []⟩
  | room + 1, memory, cursor =>
    let space := strchr memory ' ' cursor
    match space.value with
    | none => ⟨[cursor], memory, space.reads⟩
    | some position =>
      let later := tokenLoop room (memory.set position nul) (position + 1)
      ⟨cursor :: later.pointers, later.memory, space.reads ++ later.reads⟩

/-- What `parse_proc_stat` returns, what it leaves in `out`, and the positions of the buffer it reads. -/
structure StatRun where
  result : Except Errno Unit
  out : MonitorStats
  reads : List Nat

/-- `char *tokens[64]`. -/
def maxTokens : Nat := 64

/-- `parse_proc_stat` from the assignment of `rest` on, which points behind the parenthesis and the space. -/
def parseRest (memory : Text) (out : MonitorStats) (searched : List Nat) (rest : Nat) : StatRun :=
  let state := byteAt memory rest
  if state = nul then ⟨.error Errno.EPROTO, out, searched ++ [rest]⟩
  else
    let split := tokenLoop maxTokens memory (rest + 2)
    let scanned := searched ++ [rest] ++ split.reads
    if split.pointers.length < 21 then ⟨.error Errno.EPROTO, { out with state := state }, scanned⟩
    else
      let token := fun i => split.pointers.getD i 0
      let utime := convertAt strtoul split.memory (token 10)
      let stime := convertAt strtoul split.memory (token 11)
      let threads := convertAt strtol split.memory (token 16)
      let vsize := convertAt strtoul split.memory (token 19)
      let rss := convertAt strtol split.memory (token 20)
      ⟨.ok (), ⟨state, utime.value, stime.value, vsize.value, rss.value, threads.value⟩,
        scanned ++ utime.reads ++ stime.reads ++ threads.reads ++ vsize.reads ++ rss.reads⟩

/-- `parse_proc_stat`, from the buffer on. -/
def parseProcStat (memory : Text) (out : MonitorStats) : StatRun :=
  let left := strchr memory '(' 0
  let right := strrchr memory ')' 0
  let searched := left.reads ++ right.reads
  match left.value, right.value with
  | some leftParen, some rightParen =>
    if rightParen ≤ leftParen then ⟨.error Errno.EPROTO, out, searched⟩
    else parseRest memory out searched (rightParen + 2)
  | _, _ => ⟨.error Errno.EPROTO, out, searched⟩

/-! ## The token loop -/

/-- A text cut at its spaces into a number of pieces at most; the last has what is left. -/
def pieces : Nat → Text → List Text
  | 0, _ => []
  | room + 1, text =>
    if ' ' ∈ text then text.takeWhile (· ≠ ' ') :: pieces room ((text.dropWhile (· ≠ ' ')).drop 1) else [text]

theorem pieces_cons (room : Nat) {front : Text} (back : Text) (whole : ' ' ∉ front) :
    pieces (room + 1) (front ++ ' ' :: back) = front :: pieces room back := by
  have other : ∀ c ∈ front, decide (c ≠ ' ') = true := by
    intro c member
    simp only [ne_eq, decide_eq_true_eq]
    rintro rfl
    exact whole member
  have there : ' ' ∈ front ++ ' ' :: back := List.mem_append_right _ List.mem_cons_self
  rw [pieces, if_pos there, List.takeWhile_append_of_pos other, List.dropWhile_append_of_pos other]
  simp

theorem pieces_last (room : Nat) {text : Text} (whole : ' ' ∉ text) : pieces (room + 1) text = [text] := by
  rw [pieces, if_neg whole]

theorem infix_of_mem_pieces {room : Nat} {text piece : Text} (member : piece ∈ pieces room text) : piece <:+: text := by
  induction room generalizing text with
  | zero => cases member
  | succ room ih =>
    unfold pieces at member
    split at member
    · rcases List.mem_cons.mp member with rfl | later
      · exact (List.takeWhile_prefix _).isInfix
      · exact (ih later).trans ((List.drop_suffix _ _).trans (List.dropWhile_suffix _)).isInfix
    · cases List.mem_singleton.mp member
      exact List.infix_refl _

/-- The loop cuts the string at its cursor and stays inside it. -/
structure Cuts (room : Nat) (before string after : Text) (split : Split) : Prop where
  tokens : split.pointers.map (cstringAt split.memory) = pieces room string
  inside : ∀ position ∈ split.pointers, position ≤ before.length + string.length
  reads : ∀ position ∈ split.reads, position ≤ before.length + string.length
  memory : ∃ cut, split.memory = before ++ (cut ++ nul :: after) ∧ cut.length = string.length

theorem tokenLoop_cuts (room : Nat) (before string after : Text) (clean : nul ∉ string) :
    Cuts room before string after (tokenLoop room (before ++ (string ++ nul :: after)) before.length) := by
  induction room generalizing before string with
  | zero => exact ⟨rfl, nofun, nofun, string, rfl, rfl⟩
  | succ room ih =>
    have here : cstringAt (before ++ (string ++ nul :: after)) before.length = string := cstringAt_at clean
    have reads : ∀ position ∈ (strchr (before ++ (string ++ nul :: after)) ' ' before.length).reads,
        position ≤ before.length + string.length := by
      intro position member
      have bound := strchr_reads member
      rwa [here] at bound
    by_cases spaced : ' ' ∈ string
    · obtain ⟨front, back, rfl, whole⟩ := List.eq_append_cons_of_mem spaced
      have found := strchr_first here whole
      -- The space becomes the NUL of the token in front of it, and the rest of the string is behind it.
      have cut : (before ++ (front ++ ' ' :: back ++ nul :: after)).set (before.length + front.length) nul =
          (before ++ (front ++ [nul])) ++ (back ++ nul :: after) := by
        simp
      have next : before.length + front.length + 1 = (before ++ (front ++ [nul])).length := by
        simp [Nat.add_assoc]
      have clear : nul ∉ front ∧ nul ∉ back := by
        simp only [List.mem_append, List.mem_cons, not_or] at clean
        exact ⟨clean.1, clean.2.2⟩
      have later := ih (before ++ (front ++ [nul])) back clear.2
      have loop : tokenLoop (room + 1) (before ++ (front ++ ' ' :: back ++ nul :: after)) before.length =
          let later := tokenLoop room ((before ++ (front ++ [nul])) ++ (back ++ nul :: after)) (before ++ (front ++ [nul])).length
          ⟨before.length :: later.pointers, later.memory,
            (strchr (before ++ (front ++ ' ' :: back ++ nul :: after)) ' ' before.length).reads ++ later.reads⟩ := by
        rw [tokenLoop]
        simp only [found, cut, next]
      rw [loop]
      generalize tokenLoop room ((before ++ (front ++ [nul])) ++ (back ++ nul :: after)) (before ++ (front ++ [nul])).length = rest
        at later ⊢
      obtain ⟨kept, memory, size⟩ := later.memory
      have length : (before ++ (front ++ [nul])).length + back.length = before.length + (front ++ ' ' :: back).length := by
        simp only [List.length_append, List.length_cons, List.length_nil]
        omega
      have first : cstringAt rest.memory before.length = front := by
        have parts : rest.memory = before ++ (front ++ nul :: (kept ++ nul :: after)) := by
          rw [memory]
          simp
        rw [parts]
        exact cstringAt_at clear.1
      refine ⟨?_, ?_, ?_, front ++ nul :: kept, ?_, ?_⟩
      · rw [List.map_cons, first, pieces_cons room back whole, later.tokens]
      · intro position member
        rcases List.mem_cons.mp member with rfl | behind
        · exact Nat.le_add_right _ _
        · exact length ▸ later.inside position behind
      · intro position member
        rcases List.mem_append.mp member with early | behind
        · exact reads position early
        · exact length ▸ later.reads position behind
      · rw [memory]
        simp
      · simp [size]
    · have found : (strchr (before ++ (string ++ nul :: after)) ' ' before.length).value = none :=
        strchr_absent (by rwa [here])
      have loop : tokenLoop (room + 1) (before ++ (string ++ nul :: after)) before.length =
          ⟨[before.length], before ++ (string ++ nul :: after), (strchr (before ++ (string ++ nul :: after)) ' ' before.length).reads⟩ := by
        rw [tokenLoop]
        simp only [found]
      rw [loop]
      refine ⟨?_, ?_, reads, string, rfl, rfl⟩
      · rw [List.map_cons, List.map_nil, here, pieces_last room spaced]
      · intro position member
        rw [List.mem_singleton.mp member]
        exact Nat.le_add_right _ _

/-! ## Inside the buffer -/

/-- The closing parenthesis that `parse_proc_stat` accepts: the last one, if it is behind the first opening one. -/
def closing (content : Text) : Option Nat :=
  match (strchr (content ++ [nul]) '(' 0).value, (strrchr (content ++ [nul]) ')' 0).value with
  | some leftParen, some rightParen => if rightParen ≤ leftParen then none else some rightParen
  | _, _ => none

/-- There is room for both skips: the two characters behind the parenthesis, and two more unless the content ends there. -/
def Covered (content : Text) : Prop :=
  ∀ paren, closing content = some paren →
    paren + 2 ≤ content.length ∧ (byteAt content (paren + 2) = nul ∨ paren + 4 ≤ content.length)

/-- The values are read off the content: the state is one of its characters, and the numbers stand in it. -/
def TakenFrom (content : Text) (out : MonitorStats) : Prop :=
  out.state ∈ content ∧ ∃ utime stime vsize rss threads : Text,
    (∀ text ∈ [utime, stime, vsize, rss, threads], text <:+: content) ∧
    out = ⟨out.state, strtoul utime, strtoul stime, strtoul vsize, strtol rss, strtol threads⟩

/-- Nothing behind the NUL of the content is read, and what is reported comes from the content. -/
def Contained (content : Text) (run : StatRun) : Prop :=
  (∀ position ∈ run.reads, position ≤ content.length) ∧
    (run.result = .error Errno.EPROTO ∨ run.result = .ok () ∧ TakenFrom content run.out)

section

variable (content junk : Text)

/-- The searches for the parentheses see the content only. -/
theorem searched_content :
    (strchr (content ++ nul :: junk) '(' 0).value = (strchr (content ++ [nul]) '(' 0).value ∧
      (strrchr (content ++ nul :: junk) ')' 0).value = (strrchr (content ++ [nul]) ')' 0).value ∧
      ∀ position ∈ (strchr (content ++ nul :: junk) '(' 0).reads ++ (strrchr (content ++ nul :: junk) ')' 0).reads,
        position ≤ content.length := by
  have string : cstringAt (content ++ nul :: junk) 0 = cstringAt (content ++ [nul]) 0 := by
    rw [cstringAt_inside (Nat.zero_le _), cstringAt_inside (Nat.zero_le _)]
  have bound : 0 + (cstringAt (content ++ nul :: junk) 0).length ≤ content.length := length_cstringAt_le (Nat.zero_le _)
  refine ⟨?_, ?_, ?_⟩
  · simp only [strchr, string]
  · simp only [strrchr, string]
  · intro position member
    rcases List.mem_append.mp member with left | right
    · exact (strchr_reads left).trans bound
    · exact (strrchr_reads right).trans bound

/-- The positions that the two searches read. -/
def searchReads : List Nat := (strchr (content ++ nul :: junk) '(' 0).reads ++ (strrchr (content ++ nul :: junk) ')' 0).reads

/-- Without such a parenthesis the content is refused; behind one the fields are read. -/
theorem parseProcStat_eq (out : MonitorStats) :
    parseProcStat (content ++ nul :: junk) out =
      match closing content with
      | some paren => parseRest (content ++ nul :: junk) out (searchReads content junk) (paren + 2)
      | none => ⟨.error Errno.EPROTO, out, searchReads content junk⟩ := by
  obtain ⟨left, right, -⟩ := searched_content content junk
  simp only [parseProcStat, closing, left, right, searchReads]
  cases (strchr (content ++ [nul]) '(' 0).value with
  | none => rfl
  | some leftParen =>
    cases (strrchr (content ++ [nul]) ')' 0).value with
    | none => rfl
    | some rightParen => by_cases before : rightParen ≤ leftParen <;> simp [before]

end

/-- A byte of the content, or its NUL, is the same whatever lies behind. -/
theorem byteAt_content {content : Text} (junk : Text) {position : Nat} (inside : position ≤ content.length) :
    byteAt (content ++ nul :: junk) position = byteAt content position := by
  unfold byteAt
  rcases Nat.lt_or_eq_of_le inside with within | rfl
  · rw [List.getD_append _ _ _ _ within]
  · rw [List.getD_append_right _ _ _ _ (Nat.le_refl _), List.getD_eq_default _ _ (Nat.le_refl _), Nat.sub_self]
    rfl

/-- The fields are in the content where the skips are. -/
theorem parseRest_contained {content : Text} (junk : Text) (out : MonitorStats) {searched : List Nat} {rest : Nat}
    (before : ∀ position ∈ searched, position ≤ content.length) (first : rest ≤ content.length)
    (second : byteAt content rest = nul ∨ rest + 2 ≤ content.length) :
    Contained content (parseRest (content ++ nul :: junk) out searched rest) := by
  have state := byteAt_content junk first
  have early : ∀ position ∈ searched ++ [rest], position ≤ content.length := by
    intro position member
    rcases List.mem_append.mp member with known | last
    · exact before position known
    · rw [List.mem_singleton.mp last]
      exact first
  unfold parseRest
  by_cases ended : byteAt content rest = nul
  · simp only [state, ended, if_true]
    exact ⟨early, .inl rfl⟩
  · have room := second.resolve_left ended
    have inside : rest < content.length := by omega
    have taken : byteAt content rest ∈ content := by
      rw [byteAt, List.getD_eq_getElem _ _ inside]
      exact List.getElem_mem inside
    obtain ⟨string, after, parts, clean, begins⟩ := exists_string (content.drop (rest + 2)) junk
    have memory : content ++ nul :: junk = content.take (rest + 2) ++ (string ++ nul :: after) := by
      rw [← parts, ← List.append_assoc, List.take_append_drop]
    have start : (content.take (rest + 2)).length = rest + 2 := List.length_take_of_le room
    have cuts := tokenLoop_cuts maxTokens (content.take (rest + 2)) string after clean
    rw [← memory, start] at cuts
    have size : rest + 2 + string.length ≤ content.length := by
      have bound := begins.length_le
      rw [List.length_drop] at bound
      omega
    simp only [state, ended, if_false]
    generalize tokenLoop maxTokens (content ++ nul :: junk) (rest + 2) = split at cuts ⊢
    obtain ⟨cut, left, length⟩ := cuts.memory
    rw [← List.append_assoc] at left
    have ends : (content.take (rest + 2) ++ cut).length ≤ content.length := by
      rw [List.length_append, start, length]
      exact size
    have scanned : ∀ position ∈ searched ++ [rest] ++ split.reads, position ≤ content.length := by
      intro position member
      rcases List.mem_append.mp member with known | last
      · exact early position known
      · exact (cuts.reads position last).trans (start.symm ▸ size)
    by_cases few : split.pointers.length < 21
    · simp only [few, if_true]
      exact ⟨scanned, .inl rfl⟩
    · simp only [few, if_false]
      -- Each pointer is to a piece of the string, and its conversion stops at the NUL behind it.
      have token : ∀ i < 21, cstringAt split.memory (split.pointers.getD i 0) <:+: content := by
        intro i small
        rw [List.getD_eq_getElem _ _ (by omega)]
        have member : cstringAt split.memory split.pointers[i] ∈ split.pointers.map (cstringAt split.memory) :=
          List.mem_map_of_mem (List.getElem_mem _)
        rw [cuts.tokens] at member
        exact (infix_of_mem_pieces member).trans (begins.isInfix.trans (List.drop_suffix _ _).isInfix)
      have read : ∀ i < 21, ∀ {α : Type} (convert : Text → α),
          ∀ position ∈ (convertAt convert split.memory (split.pointers.getD i 0)).reads, position ≤ content.length := by
        intro i small α convert position member
        have pointer : split.pointers.getD i 0 ≤ (content.take (rest + 2) ++ cut).length := by
          rw [List.getD_eq_getElem _ _ (by omega), List.length_append, length]
          exact cuts.inside _ (List.getElem_mem _)
        have bound := convertAt_reads member
        rw [left] at bound
        exact bound.trans ((length_cstringAt_le pointer).trans ends)
      refine ⟨?_, .inr ⟨rfl, taken, _, _, _, _, _, ?_, rfl⟩⟩
      · refine List.forall_mem_append.mpr ⟨?_, read 20 (by decide) _⟩
        refine List.forall_mem_append.mpr ⟨?_, read 19 (by decide) _⟩
        refine List.forall_mem_append.mpr ⟨?_, read 16 (by decide) _⟩
        refine List.forall_mem_append.mpr ⟨?_, read 11 (by decide) _⟩
        exact List.forall_mem_append.mpr ⟨scanned, read 10 (by decide) _⟩
      · simp only [List.forall_mem_cons, List.not_mem_nil, false_implies, implies_true, and_true]
        exact ⟨token 10 (by decide), token 11 (by decide), token 19 (by decide), token 20 (by decide), token 16 (by decide)⟩

/-- The state is read wherever the first skip leads, and the rest wherever the second does. -/
theorem parseRest_reads (memory : Text) (out : MonitorStats) (searched : List Nat) (rest : Nat) :
    rest ∈ (parseRest memory out searched rest).reads ∧
      (byteAt memory rest ≠ nul → rest + 2 ∈ (parseRest memory out searched rest).reads) := by
  have first : rest + 2 ∈ (tokenLoop maxTokens memory (rest + 2)).reads := by
    rw [maxTokens, tokenLoop]
    cases (strchr memory ' ' (rest + 2)).value with
    | none => exact start_mem_strchr
    | some position => exact List.mem_append_left _ start_mem_strchr
  unfold parseRest
  by_cases ended : byteAt memory rest = nul
  · simp [ended]
  · by_cases few : (tokenLoop maxTokens memory (rest + 2)).pointers.length < 21
    · simp [ended, few, first]
    · simp [ended, few, first]

/-- The content of a file is parsed inside its buffer exactly where it covers both skips. -/
theorem parseProcStat_contained_iff (file : Text) :
    (∀ junk out, Contained (delivered file) (parseProcStat (readFileToBuffer file junk) out)) ↔ Covered (delivered file) := by
  simp only [readFileToBuffer]
  generalize delivered file = content
  constructor
  · intro contained paren closed
    have reads := (contained [] ⟨nul, 0, 0, 0, 0, 0⟩).1
    simp only [parseProcStat_eq, closed] at reads
    obtain ⟨first, second⟩ := parseRest_reads (content ++ [nul]) ⟨nul, 0, 0, 0, 0, 0⟩ (searchReads content []) (paren + 2)
    have inside := reads _ first
    refine ⟨inside, ?_⟩
    by_cases ended : byteAt content (paren + 2) = nul
    · exact .inl ended
    · exact .inr (reads _ (second (by rwa [byteAt_content [] inside])))
  · intro covered junk out
    have searched := (searched_content content junk).2.2
    rw [parseProcStat_eq]
    cases closed : closing content with
    | none => exact ⟨searched, .inl rfl⟩
    | some paren =>
      obtain ⟨first, second⟩ := covered paren closed
      exact parseRest_contained junk out searched first second

/-- A line that ends with the parenthesis is read past its NUL. -/
theorem cut_line_overread :
    ¬ ∀ junk out, Contained (delivered (lit "1 (a)")) (parseProcStat (readFileToBuffer (lit "1 (a)") junk) out) := by
  intro contained
  have read : 6 ∈ (parseProcStat (readFileToBuffer (lit "1 (a)") []) ⟨nul, 0, 0, 0, 0, 0⟩).reads := by decide
  have bound := (contained [] ⟨nul, 0, 0, 0, 0, 0⟩).1 6 read
  revert bound
  decide

/-! ## The lines of the kernel -/

/-- A line of the kernel: the pid, the name of the command, the state, the fields from the fourth on, and what ends the line. -/
structure StatLine where
  pid : Nat
  comm : Text
  state : Char
  fields : List Text
  ending : Text

namespace StatLine

def text (line : StatLine) : Text :=
  showUnsigned line.pid ++ ' ' :: '(' :: (line.comm ++ ')' :: ' ' :: line.state :: ' ' :: ([' '].intercalate line.fields ++ line.ending))

/-- The field of a number, from the fourth on. -/
def field (line : StatLine) (number : Nat) : Option Text := line.fields[number - 4]?

/-- The name may have anything in it; the fields behind it are as `proc` prints them. -/
structure Formed (line : StatLine) : Prop where
  comm : nul ∉ line.comm
  state : line.state ≠ nul ∧ line.state ≠ ')'
  fields : ∀ field ∈ line.fields, ' ' ∉ field ∧ ')' ∉ field ∧ nul ∉ field
  many : 24 ≤ line.fields.length + 3
  ending : line.ending = [] ∨ line.ending = [newline]

end StatLine

/-- Fields that are joined by spaces are cut apart again, up to the last there is room for. -/
theorem pieces_intercalate {room i : Nat} {fields : List Text} {field ending : Text} (whole : ∀ field ∈ fields, ' ' ∉ field)
    (unspaced : ' ' ∉ ending) (here : fields[i]? = some field) (roomy : i + 1 < room) :
    ∃ tail, (tail = [] ∨ tail = ending) ∧ (pieces room ([' '].intercalate fields ++ ending))[i]? = some (field ++ tail) := by
  induction fields generalizing room i with
  | nil => cases here
  | cons first rest ih =>
    obtain ⟨room, rfl⟩ : ∃ less, room = less + 1 := ⟨room - 1, by omega⟩
    have single : ' ' ∉ first := whole first List.mem_cons_self
    cases rest with
    | nil =>
      cases i with
      | zero =>
        cases here
        have joined : ' ' ∉ field ++ ending := by
          simp only [List.mem_append, not_or]
          exact ⟨single, unspaced⟩
        refine ⟨ending, .inr rfl, ?_⟩
        rw [List.intercalate_singleton, pieces_last room joined]
        rfl
      | succ i => cases here
    | cons second rest =>
      have parts : [' '].intercalate (first :: second :: rest) ++ ending =
          first ++ ' ' :: ([' '].intercalate (second :: rest) ++ ending) := by
        simp [List.intercalate_cons_cons]
      rw [parts, pieces_cons room _ single]
      cases i with
      | zero =>
        cases here
        exact ⟨[], .inl rfl, by simp⟩
      | succ i =>
        exact ih (fun other member => whole other (List.mem_cons_of_mem _ member)) here (by omega)

/-- The last closing parenthesis is the accepted one wherever one is opened in front of it. -/
theorem closing_last {front back : Text} (clean : nul ∉ front ++ ')' :: back) (last : ')' ∉ back) (opened : '(' ∈ front) :
    closing (front ++ ')' :: back) = some front.length := by
  obtain ⟨first, later, rfl, earliest⟩ := List.eq_append_cons_of_mem opened
  have string : cstringAt (first ++ '(' :: later ++ ')' :: back ++ [nul]) 0 = first ++ '(' :: later ++ ')' :: back :=
    @cstringAt_at [] _ _ clean
  have opens : cstringAt (first ++ '(' :: later ++ ')' :: back ++ [nul]) 0 = first ++ '(' :: (later ++ ')' :: back) :=
    string.trans (List.append_assoc _ _ _)
  have left := strchr_first opens earliest
  have right := strrchr_last string last
  have behind : ¬ 0 + (first ++ '(' :: later).length ≤ 0 + first.length := by
    simp only [List.length_append, List.length_cons]
    omega
  simp only [closing, left, right, behind, if_false]
  rw [Nat.zero_add]

namespace StatLine

variable {line : StatLine}

/-- What stands in front of the parenthesis that closes the name. -/
def front (line : StatLine) : Text := showUnsigned line.pid ++ ' ' :: '(' :: line.comm

/-- What stands behind the state and its space. -/
def back (line : StatLine) : Text := [' '].intercalate line.fields ++ line.ending

theorem text_parts (line : StatLine) : line.text = line.front ++ ')' :: ' ' :: line.state :: ' ' :: line.back := by
  simp [text, front, back]

theorem Formed.not_mem_back (formed : line.Formed) : nul ∉ line.back ∧ ')' ∉ line.back := by
  have ends : nul ∉ line.ending ∧ ')' ∉ line.ending := by
    rcases formed.ending with none | one
    · simp [none]
    · rw [one]
      decide
  have apart : ∀ c, c ≠ ' ' → (∀ field ∈ line.fields, c ∉ field) → c ∉ line.ending → c ∉ line.back := by
    intro c visible absent unended member
    rcases List.mem_append.mp member with joined | ended
    · rcases mem_intercalate joined with space | ⟨field, known, inside⟩
      · exact visible space
      · exact absent field known inside
    · exact unended ended
  exact ⟨apart nul (by decide) (fun field known => (formed.fields field known).2.2) ends.1,
    apart ')' (by decide) (fun field known => (formed.fields field known).2.1) ends.2⟩

theorem Formed.clean (formed : line.Formed) : nul ∉ line.text := by
  have number : nul ∉ showUnsigned line.pid := not_mem_showUnsigned (by decide) _
  have space : nul ≠ ' ' := by decide
  have opened : nul ≠ '(' := by decide
  have closed : nul ≠ ')' := by decide
  simp only [text_parts, front, List.mem_append, List.mem_cons, number, formed.comm, space, opened, closed, formed.state.1.symm,
    formed.not_mem_back.1, or_self, not_false_eq_true]

theorem Formed.closing (formed : line.Formed) : closing line.text = some line.front.length := by
  have last : ')' ∉ ' ' :: line.state :: ' ' :: line.back := by
    simp only [List.mem_cons, formed.state.2.symm, formed.not_mem_back.2, or_false]
    decide
  have clean := formed.clean
  rw [text_parts] at clean ⊢
  exact closing_last clean last (by simp [front])

end StatLine

/-- A token that is a field, or a field and the end of the line. -/
def Holds (split : Split) (i : Nat) (field : Text) : Prop :=
  i < split.pointers.length ∧ ∃ tail, (tail = [] ∨ tail = [newline]) ∧ cstringAt split.memory (split.pointers.getD i 0) = field ++ tail

theorem Holds.strtoul {split : Split} {i : Nat} {n : UInt64} (holds : Holds split i (showUnsigned n.toNat)) :
    (convertAt strtoul split.memory (split.pointers.getD i 0)).value = n.toNat := by
  obtain ⟨-, tail, ends, token⟩ := holds
  have value : CString.strtoul (showUnsigned n.toNat) = n.toNat := strtoul_showUnsigned n.toNat_lt
  rcases ends with rfl | rfl
  · rw [convertAt, token, List.append_nil, value]
  · rw [convertAt, token, strtoul_showUnsigned_append n.toNat (by decide), value]

theorem Holds.strtol {split : Split} {i : Nat} {n : Int64} (holds : Holds split i (showInt n.toInt)) :
    (convertAt strtol split.memory (split.pointers.getD i 0)).value = n.toInt := by
  obtain ⟨-, tail, ends, token⟩ := holds
  have value : CString.strtol (showInt n.toInt) = n.toInt := strtol_showInt n.le_toInt n.toInt_lt
  rcases ends with rfl | rfl
  · rw [convertAt, token, List.append_nil, value]
  · rw [convertAt, token, strtol_showInt_append n.toInt (by decide), value]

/-- The loop leaves a pointer to each of the fields there is room for. -/
theorem holds_of_field {line : StatLine} (formed : line.Formed) {split : Split} {before after : Text}
    (cuts : Cuts maxTokens before line.back after split) {number : Nat} {field : Text} (here : line.field number = some field)
    (roomy : number - 4 + 1 < maxTokens) : Holds split (number - 4) field := by
  have unspaced : ' ' ∉ line.ending := by
    rcases formed.ending with none | one
    · simp [none]
    · rw [one]
      decide
  obtain ⟨tail, ends, piece⟩ := pieces_intercalate (fun field known => (formed.fields field known).1) unspaced here roomy
  change (pieces maxTokens line.back)[number - 4]? = some (field ++ tail) at piece
  rw [← cuts.tokens, List.getElem?_map, Option.map_eq_some_iff] at piece
  obtain ⟨pointer, place, string⟩ := piece
  have ended : tail = [] ∨ tail = [newline] := by
    rcases ends with none | rfl
    · exact .inl none
    · exact formed.ending
  obtain ⟨inside, value⟩ := List.getElem?_eq_some_iff.mp place
  refine ⟨inside, tail, ended, ?_⟩
  rw [List.getD_eq_getElem _ _ inside, value, string]

/-- Whatever the command is called, the fields are found at their places. -/
theorem parseProcStat_line {line : StatLine} (formed : line.Formed) (short : line.text.length < bufferSize)
    (utime stime vsize : UInt64) (threads rss : Int64)
    (utimeField : line.field 14 = some (showUnsigned utime.toNat)) (stimeField : line.field 15 = some (showUnsigned stime.toNat))
    (threadsField : line.field 20 = some (showInt threads.toInt)) (vsizeField : line.field 23 = some (showUnsigned vsize.toNat))
    (rssField : line.field 24 = some (showInt rss.toInt)) (junk : Text) (out : MonitorStats) :
    (parseProcStat (readFileToBuffer line.text junk) out).result = .ok () ∧
      (parseProcStat (readFileToBuffer line.text junk) out).out =
        ⟨line.state, utime.toNat, stime.toNat, vsize.toNat, rss.toInt, threads.toInt⟩ := by
  have whole : delivered line.text = line.text := List.take_of_length_le (by unfold bufferSize at *; omega)
  rw [readFileToBuffer, whole, parseProcStat_eq, formed.closing]
  -- The state is two behind the parenthesis, and the fields are two behind the state.
  have memory : line.text ++ nul :: junk =
      (line.front ++ [')', ' ', line.state, ' ']) ++ (line.back ++ nul :: junk) := by
    rw [StatLine.text_parts]
    simp
  have state : byteAt (line.text ++ nul :: junk) (line.front.length + 2) = line.state := by
    rw [memory, byteAt, List.append_assoc, List.getD_append_right _ _ _ _ (Nat.le_add_right _ _), Nat.add_sub_cancel_left]
    rfl
  have start : line.front.length + 2 + 2 = (line.front ++ [')', ' ', line.state, ' ']).length := by simp
  have cuts := tokenLoop_cuts maxTokens (line.front ++ [')', ' ', line.state, ' ']) line.back junk formed.not_mem_back.1
  rw [← memory, ← start] at cuts
  simp only [parseRest, state, formed.state.1, if_false]
  generalize tokenLoop maxTokens (line.text ++ nul :: junk) (line.front.length + 2 + 2) = split at cuts ⊢
  have atUtime : Holds split 10 _ := holds_of_field formed cuts utimeField (by decide)
  have atStime : Holds split 11 _ := holds_of_field formed cuts stimeField (by decide)
  have atThreads : Holds split 16 _ := holds_of_field formed cuts threadsField (by decide)
  have atVsize : Holds split 19 _ := holds_of_field formed cuts vsizeField (by decide)
  have atRss : Holds split 20 _ := holds_of_field formed cuts rssField (by decide)
  -- The last of the fields that are read is the twenty-first token.
  have enough : ¬ split.pointers.length < 21 := Nat.not_lt.mpr atRss.1
  simp only [enough, if_false, atUtime.strtoul, atStime.strtoul, atThreads.strtol, atVsize.strtoul, atRss.strtol, and_self]

/-- A process that calls itself after the fields behind its name. -/
def disguised : StatLine :=
  ⟨42, lit "a) R 1 (b", 'S', ["1", "42", "42", "0", "-1", "0", "5", "0", "0", "0", "17", "4", "0", "0", "20", "0", "3", "0", "99", "8192", "-2"].map lit,
    [newline]⟩

theorem disguised_formed : disguised.Formed where
  comm := by decide
  state := by decide
  fields := by decide
  many := by decide
  ending := .inr rfl

/-- Its numbers are those of the kernel. -/
theorem parseProcStat_disguised :
    (parseProcStat (readFileToBuffer disguised.text (lit "junk")) ⟨nul, 0, 0, 0, 0, 0⟩).out = ⟨'S', 17, 4, 8192, -2, 3⟩ :=
  (parseProcStat_line disguised_formed (by decide) 17 4 8192 3 (-2)
    (by decide) (by decide) (by decide) (by decide) (by decide) _ _).2

end ContainerRuntime.Monitor
