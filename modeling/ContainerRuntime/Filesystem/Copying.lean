import ContainerRuntime.Filesystem.Prepare
import ContainerRuntime.Logic.Lists

/-! `copy_file_contents`, call by call.

The source is a regular file and nobody else changes it, so a `read` returns 0
at its end only. Beyond that the kernel answers as it likes: it moves fewer
bytes than it was asked for, it says EINTR, or it fails.
-/

set_option autoImplicit false

namespace ContainerRuntime.Filesystem

open CString Program

/-! ## The loops -/

/-- What `read` and `write` return. -/
inductive Answer where
  | count (bytes : Nat)
  | error (errno : Errno)
  deriving DecidableEq

/-- The call that comes next, or the end. -/
inductive Stand where
  | reading
  | writing
  | returned (result : Except Errno Unit)
  deriving DecidableEq

/-- The variables of `copy_file_contents`, and what the two descriptors have left and have taken. -/
structure Copying where
  buffer : Text
  bytesRead : Nat
  offset : Nat
  stand : Stand
  unread : Text
  appended : Text
  deriving DecidableEq

/-- `sizeof(buffer)`. -/
def copyBufferSize : Nat := 8192

namespace Copying

/-- `read` has put this many bytes into the buffer, and leaves those behind them as they were. -/
def filled (c : Copying) (bytes : Nat) : Copying :=
  { c with buffer := c.unread.take bytes ++ c.buffer.drop bytes, bytesRead := bytes, offset := 0, stand := .writing,
           unread := c.unread.drop bytes }

/-- `write` has taken this many bytes from `buffer + offset` on. -/
def drained (c : Copying) (bytes : Nat) : Copying :=
  { c with offset := c.offset + bytes
           stand := if c.offset + bytes < c.bytesRead then .writing else .reading
           appended := c.appended ++ (c.buffer.drop c.offset).take bytes }

/-- A call has failed; it is made again after EINTR. -/
def refused (c : Copying) (error : Errno) : Copying :=
  if error = Errno.EINTR then c else { c with stand := .returned (.error error) }

/-- One call of the function, if the kernel can give this answer to it. -/
def step (c : Copying) : Answer → Option Copying
  | .count bytes =>
    match c.stand with
    | .reading =>
      if bytes = 0 then if c.unread = [] then some { c with stand := .returned (.ok ()) } else none
      else if bytes ≤ copyBufferSize ∧ bytes ≤ c.unread.length then some (c.filled bytes)
      else none
    | .writing => if bytes ≤ c.bytesRead - c.offset then some (c.drained bytes) else none
    | .returned _ => none
  | .error error =>
    match c.stand with
    | .returned _ => none
    | _ => some (c.refused error)

def run (c : Copying) (answers : List Answer) : Option Copying := answers.foldlM step c

/-- The function has been called; the buffer holds anything. -/
def start (source junk : Text) : Copying := ⟨junk, 0, 0, .reading, source, []⟩

/-- Read, and not written yet. -/
def pending (c : Copying) : Text := (c.buffer.take c.bytesRead).drop c.offset

/-- No byte is lost and none comes twice. -/
structure Exact (source : Text) (c : Copying) : Prop where
  whole : c.appended ++ c.pending ++ c.unread = source
  /-- The buffer is empty whenever `read` is called, and when the function succeeds. -/
  emptied : c.stand = .reading ∨ c.stand = .returned (.ok ()) → c.bytesRead ≤ c.offset
  finished : c.stand = .returned (.ok ()) → c.unread = []

theorem pending_of_le {c : Copying} (done : c.bytesRead ≤ c.offset) : c.pending = [] := by
  apply List.drop_eq_nil_of_le
  rw [List.length_take]
  omega

theorem exact_start (source junk : Text) : Exact source (start source junk) :=
  ⟨rfl, fun _ => Nat.le_refl 0, fun ended => by cases ended⟩

theorem pending_filled {c : Copying} {bytes : Nat} (there : bytes ≤ c.unread.length) :
    (c.filled bytes).pending = c.unread.take bytes := by
  have size : (c.unread.take bytes).length = bytes := by rw [List.length_take, Nat.min_eq_left there]
  unfold pending filled
  rw [List.drop_zero, List.take_append_of_le_length (Nat.le_of_eq size.symm), List.take_take, Nat.min_self]

theorem Exact.filled {source : Text} {c : Copying} (exact : Exact source c) {bytes : Nat} (reads : c.stand = .reading)
    (there : bytes ≤ c.unread.length) : Exact source (c.filled bytes) := by
  refine ⟨?_, fun stand => ?_, fun stand => by cases stand⟩
  · have whole := exact.whole
    rw [pending_of_le (exact.emptied (.inl reads)), List.append_nil] at whole
    rw [pending_filled there, List.append_assoc]
    exact (congrArg (c.appended ++ ·) (List.take_append_drop bytes c.unread)).trans whole
  · rcases stand with stand | stand <;> cases stand

/-- What `write` takes is what was pending first. -/
theorem drained_pending {c : Copying} {bytes : Nat} (asked : bytes ≤ c.bytesRead - c.offset) :
    (c.drained bytes).appended ++ (c.drained bytes).pending = c.appended ++ c.pending := by
  have taken : (c.buffer.drop c.offset).take bytes = c.pending.take bytes := by
    unfold pending
    rw [List.drop_take, List.take_take, Nat.min_eq_left asked]
  have left : (c.drained bytes).pending = c.pending.drop bytes := by
    unfold pending drained
    rw [List.drop_drop]
  rw [left]
  unfold drained
  rw [taken, List.append_assoc, List.take_append_drop]

theorem Exact.drained {source : Text} {c : Copying} (exact : Exact source c) {bytes : Nat}
    (asked : bytes ≤ c.bytesRead - c.offset) : Exact source (c.drained bytes) := by
  refine ⟨?_, fun stand => ?_, fun stand => ?_⟩
  · rw [drained_pending asked]
    exact exact.whole
  · unfold Copying.drained at stand ⊢
    simp only at stand ⊢
    split at stand
    · rcases stand with stand | stand <;> cases stand
    · omega
  · unfold Copying.drained at stand
    simp only at stand
    split at stand <;> cases stand

theorem Exact.refused {source : Text} {c : Copying} (exact : Exact source c) (error : Errno) :
    Exact source (c.refused error) := by
  unfold Copying.refused
  split
  · exact exact
  · refine ⟨exact.whole, fun stand => ?_, fun stand => by cases stand⟩
    rcases stand with stand | stand <;> cases stand

theorem Exact.step {source : Text} {c d : Copying} (exact : Exact source c) {answer : Answer}
    (step : c.step answer = some d) : Exact source d := by
  cases answer with
  | error error =>
    cases stand : c.stand with
    | reading | writing =>
      simp only [Copying.step, stand] at step
      cases step
      exact exact.refused error
    | returned result => simp [Copying.step, stand] at step
  | count bytes =>
    cases stand : c.stand with
    | reading =>
      simp only [Copying.step, stand] at step
      split at step
      · -- The end of the source.
        split at step
        · rename_i ended
          cases step
          exact ⟨exact.whole, fun _ => exact.emptied (.inl stand), fun _ => ended⟩
        · cases step
      · split at step
        · rename_i there
          cases step
          exact exact.filled stand there.2
        · cases step
    | writing =>
      simp only [Copying.step, stand] at step
      split at step
      · rename_i asked
        cases step
        exact exact.drained asked
      · cases step
    | returned result => simp [Copying.step, stand] at step

theorem Exact.run {source junk : Text} {answers : List Answer} {c : Copying}
    (run : (start source junk).run answers = some c) : Exact source c :=
  List.foldlM_keeps (fun _ _ _ exact step => exact.step step) (exact_start source junk) run

/-- Whatever the kernel answers: the bytes that the destination has got are the first bytes of the source, and
all of them once the function has returned 0. -/
theorem copies_exactly {source junk : Text} {answers : List Answer} {c : Copying}
    (run : (start source junk).run answers = some c) :
    c.appended <+: source ∧ (c.stand = .returned (.ok ()) → c.appended = source) := by
  have exact := Exact.run run
  constructor
  · refine ⟨c.pending ++ c.unread, ?_⟩
    rw [← List.append_assoc]
    exact exact.whole
  · intro succeeded
    have whole := exact.whole
    rw [pending_of_le (exact.emptied (.inr succeeded)), exact.finished succeeded] at whole
    simpa using whole

/-- Two interrupted calls, short reads and a short write. -/
def interruptedAnswers : List Answer :=
  [.error Errno.EINTR, .count 3, .count 1, .error Errno.EINTR, .count 2, .count 2, .count 2, .count 0]

theorem copies_exactly_interrupted :
    ∃ c, (start (lit "abcde") []).run interruptedAnswers = some c ∧ c.stand = .returned (.ok ()) ∧
      c.appended <+: lit "abcde" ∧ (c.stand = .returned (.ok ()) → c.appended = lit "abcde") :=
  ⟨_, rfl, rfl, copies_exactly (show (start (lit "abcde") []).run interruptedAnswers = some _ from rfl)⟩

/-! ## The copy as one step -/

theorem run_append (c : Copying) (front back : List Answer) : c.run (front ++ back) = (c.run front).bind (·.run back) :=
  List.foldlM_append

/-- A kernel that moves all it can brings the copy to its end. -/
theorem exists_run (c : Copying) (reads : c.stand = .reading) :
    ∃ answers d, c.run answers = some d ∧ d.stand = .returned (.ok ()) := by
  induction size : c.unread.length using Nat.strong_induction_on generalizing c with
  | h n ih =>
    by_cases ended : c.unread = []
    · refine ⟨[.count 0], { c with stand := .returned (.ok ()) }, ?_, rfl⟩
      simp [run, step, reads, ended]
    · have some_left : 0 < c.unread.length := List.length_pos_iff.mpr ended
      let bytes := min copyBufferSize c.unread.length
      have positive : 0 < bytes := by
        unfold bytes copyBufferSize
        omega
      have filled : c.step (.count bytes) = some (c.filled bytes) := by
        have fits : bytes ≤ copyBufferSize ∧ bytes ≤ c.unread.length := by omega
        simp [step, reads, Nat.ne_of_gt positive, fits]
      have drained : (c.filled bytes).step (.count bytes) = some ((c.filled bytes).drained bytes) := by
        simp [step, Copying.filled]
      have less : ((c.filled bytes).drained bytes).unread.length < n := by
        unfold Copying.drained Copying.filled
        simp only [List.length_drop]
        omega
      have again : ((c.filled bytes).drained bytes).stand = .reading := by simp [Copying.drained, Copying.filled]
      obtain ⟨answers, d, later, succeeded⟩ := ih _ less _ again rfl
      refine ⟨[.count bytes, .count bytes] ++ answers, d, ?_, succeeded⟩
      rw [run_append]
      simp only [run, List.foldlM_cons, List.foldlM_nil, filled, drained, Option.bind_eq_bind, Option.bind_some,
        Option.pure_def]
      exact later

end Copying

/-- The fault that stands for the end of a run. -/
def Copying.fault (c : Copying) (result : Except Errno Unit) : Fault :=
  ⟨match result with | .ok _ => none | .error error => some error, c.appended.length⟩

/-- A run that ends is what `copyFileContents` does as one step, for the fault that stands for it. -/
theorem copyFileContents_of_run {source : Loc} {target : Touch} {m : Machine} {mode : Nat} {content junk : Text}
    {answers : List Answer} {c : Copying} {result : Except Errno Unit}
    (file : m.tree.node source = some (.file mode content)) (run : (Copying.start content junk).run answers = some c)
    (ended : c.stand = .returned result) (fault : m.faults m.clock = c.fault result) :
    copyFileContents source target m = (.done result, m.later.written target c.appended) := by
  have exact := Copying.copies_exactly run
  unfold copyFileContents
  simp only [file, fault, Copying.fault]
  cases result with
  | ok done => rw [exact.2 ended]
  | error error =>
    have same : content.take c.appended.length = c.appended := (List.prefix_iff_eq_take.mp exact.1).symm
    rw [same]

end ContainerRuntime.Filesystem
