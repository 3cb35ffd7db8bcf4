import ContainerRuntime.Namespace.ExecReport

/-! A start whose `execvp` has failed returns.

The child has nothing left to wait for, so it writes its report and exits. Then
no process but the manager has an end of the pipes open, and nothing the manager
calls can block any more.
-/

set_option autoImplicit false

namespace ContainerRuntime.Namespace

open CString Coroutine

/-! ## Calls that are answered -/

/-- A call that may have to wait. -/
def Call.Waits : Call → Prop
  | .read _ _ | .waitpid _ => True
  | _ => False

namespace System

theorem reply_prompt (s : System) (k : Nat) (who : Party) (fate : Fate) {c : Call} (prompt : ¬ c.Waits) : ∃ answer, s.reply k who fate c = some answer := by
  unfold reply
  cases failure : fate.fail with
  | none =>
    cases c with
    | read => exact absurd trivial prompt
    | waitpid => exact absurd trivial prompt
    | write pipe bytes =>
      simp only [succeed]
      split
      · split <;> exact ⟨_, rfl⟩
      · exact ⟨_, rfl⟩
    | _ => exact ⟨_, rfl⟩
  | some error =>
    cases c with
    | read => exact absurd trivial prompt
    | _ => exact ⟨_, rfl⟩

variable {s : System} {k : Nat} {start : Start} {fate : Fate}

theorem childTurn_call {c : Call} {next : c.Answer → Code Nat} {fds : List Held} {answer : c.Answer}
    (here : s.starts k = some start) (child : start.child = some ⟨.running (.call c next), fds⟩)
    (answered : s.reply k .child fate c = some answer) : s.step (.child k fate) = s.childMade k ⟨c, answer⟩ (next answer) := by
  simp [step, childTurn, System.child, here, child, answered]

theorem childTurn_ret {value : Nat} {fds : List Held} (here : s.starts k = some start)
    (child : start.child = some ⟨.running (.ret value), fds⟩) : s.step (.child k fate) = s.childGone k := by
  simp [step, childTurn, System.child, here, child]

theorem parentTurn_call {c : Call} {next : c.Answer → Code (Except Int32 NamespaceStartResult)} {answer : c.Answer}
    (up : s.up = true) (here : s.starts (s.count - 1) = some start) (code : start.code = .call c next)
    (answered : s.reply (s.count - 1) .parent fate c = some answer) :
    s.step (.parent fate) = s.parentMade (s.count - 1) ⟨c, answer⟩ (next answer) := by
  obtain ⟨config, held, pipes, child⟩ := start
  cases code
  simp [step, parentTurn, up, here, answered]

end System

/-- A child has ends of its own pipes open only. -/
theorem System.Wired.own_ends {s : System} (wired : s.Wired) {j k : Nat} {fd : End} (holds : Holds (s.childFds j) k fd) :
    j = k ∧ s.childAlive k = true := by
  obtain ⟨held, member, rfl, -⟩ := holds
  cases there : s.child j with
  | none =>
    rw [System.childFds, there] at member
    cases member
  | some child =>
    obtain ⟨start, here, born⟩ := Option.bind_eq_some_iff.mp there
    rw [System.childFds, there] at member
    have owned : ∀ held ∈ childTable j (history s.trace j .child), j = held.start := by
      intro held listed
      have base := (wired.mem_table.mp listed).1
      simp only [inherited, List.mem_cons, List.not_mem_nil, or_false] at base
      rcases base with rfl | rfl | rfl | rfl | rfl | rfl <;> rfl
    obtain ⟨stage, fds⟩ := child
    cases stage with
    | running code =>
      have same : j = held.start := owned held (wired.running j start code fds here born ▸ member)
      refine ⟨same, ?_⟩
      rw [← same, System.childAlive, there]
    | executed =>
      have listed : held ∈ fds := member
      rw [wired.executed j start fds here born] at listed
      have same := owned held (List.mem_filter.mp listed).1
      refine ⟨same, ?_⟩
      rw [← same, System.childAlive, there]
    | dead =>
      have listed : held ∈ fds := member
      rw [wired.dead j start fds here born] at listed
      cases listed

/-- Without its child, the manager is not kept waiting. -/
theorem System.Wired.parent_answered {s : System} (wired : s.Wired) {start : Start} {c : Call} {fate : Fate}
    {next : c.Answer → Code (Except Int32 NamespaceStartResult)} (up : s.up = true)
    (here : s.starts (s.count - 1) = some start) (code : start.code = .call c next)
    (gone : s.childAlive (s.count - 1) = false) (uninterrupted : fate.fail ≠ some (.ofNat Errno.EINTR)) :
    ∃ answer, s.reply (s.count - 1) .parent fate c = some answer := by
  have sighted := wired.closing _ start here
  rw [code] at sighted
  cases c with
  | read pipe count =>
    obtain ⟨⟨reading, unwritten⟩, -⟩ := sighted
    rw [← wired.parent up] at reading unwritten
    have closed : ¬ s.Open (s.count - 1) ⟨pipe, .writing⟩ := by
      rintro (own | ⟨j, -, other⟩)
      · exact unwritten own
      · exact absurd ((wired.own_ends other).2.symm.trans gone) (by decide)
    cases failure : fate.fail with
    | none =>
      simp only [System.reply, failure, System.succeed, System.table, reading, if_true, closed, if_false]
      split <;> exact ⟨_, rfl⟩
    | some error =>
      have different : error ≠ .ofNat Errno.EINTR := fun same => uninterrupted (same ▸ failure)
      simp only [System.reply, failure, different, if_false]
      exact ⟨_, rfl⟩
  | waitpid pid =>
    cases failure : fate.fail with
    | none =>
      simp only [System.reply, failure, System.succeed, gone, Bool.false_eq_true, if_false]
      exact ⟨_, rfl⟩
    | some error =>
      simp only [System.reply, failure]
      exact ⟨_, rfl⟩
  | _ => exact System.reply_prompt _ _ _ _ (by simp [Call.Waits])

/-- Only the last start has not returned. -/
def System.Single (s : System) : Prop := ∀ k start, s.starts k = some start → start.outcome = none → k = s.count - 1

theorem System.Single.step {s : System} (single : s.Single) (turn : Turn) : (s.step turn).Single := by
  intro k start there pending
  have taken := s.step_cases turn
  generalize s.step turn = next at taken there ⊢
  cases taken with
  | nothing => exact single k start there pending
  | start config up idle =>
    rcases Sound.lookup_update there with ⟨rfl, rfl⟩ | ⟨-, there⟩
    · exact (Nat.add_sub_cancel _ _).symm
    · -- The manager begins another start when the last one has returned.
      obtain rfl := single k start there pending
      rw [System.idle, there] at idle
      obtain ⟨held, code, pipes, child⟩ := start
      cases code with
      | ret value => cases pending
      | call c next => cases idle
  | parent fate before c next answer up known code answered =>
    rw [System.parentMade_starts known] at there
    rcases Sound.lookup_update there with ⟨rfl, -⟩ | ⟨-, there⟩
    · rfl
    · exact single k start there pending
  | child j fate before c next fds answer known running answered =>
    rw [System.childMade_starts known running] at there
    rcases Sound.lookup_update there with ⟨rfl, rfl⟩ | ⟨-, there⟩
    · exact single _ before known pending
    · exact single k start there pending
  | exits j fate before value fds known running =>
    rw [System.childGone_starts known] at there
    rcases Sound.lookup_update there with ⟨rfl, rfl⟩ | ⟨-, there⟩
    · exact single _ before known pending
    · exact single k start there pending
  | childDies j =>
    cases known : s.starts j with
    | none =>
      rw [System.childGone_of_none known] at there
      exact single k start there pending
    | some before =>
      rw [System.childGone_starts known] at there
      rcases Sound.lookup_update there with ⟨rfl, rfl⟩ | ⟨-, there⟩
      · exact single _ before known pending
      · exact single k start there pending
  | parentDies => exact single k start there pending

theorem System.step_trace (s : System) (turn : Turn) : s.trace ⊆ (s.step turn).trace := by
  have taken := s.step_cases turn
  generalize s.step turn = next at taken
  cases taken with
  | nothing => exact List.Subset.refl _
  | start config up idle => exact List.Subset.refl _
  | parent fate before c next answer up known code answered => exact List.subset_append_left _ _
  | child j fate before c next fds answer known running answered => exact List.subset_append_left _ _
  | exits j fate before value fds known running => exact List.Subset.refl _
  | childDies j => exact List.Subset.refl _
  | parentDies => exact List.Subset.refl _

theorem System.step_up {s : System} {turn : Turn} (up : s.up = true) (lives : turn ≠ .parentDies) : (s.step turn).up = true := by
  have taken := s.step_cases turn
  generalize s.step turn = next at taken
  cases taken with
  | parentDies => exact absurd rfl lives
  | _ => exact up

/-! ## Infinite runs -/

/-- The system after the first turns of a schedule. -/
def reached (schedule : Nat → Turn) (n : Nat) : System := System.initial.run ((List.range n).map schedule)

theorem reached_succ (schedule : Nat → Turn) (n : Nat) :
    reached schedule (n + 1) = (reached schedule n).step (schedule n) := by
  simp [reached, System.run, List.range_succ]

/-- The manager lives, and is not interrupted for ever; and the child of the start `k` gets its turns. -/
structure Fair (schedule : Nat → Turn) (k : Nat) : Prop where
  lives : ∀ n, schedule n ≠ .parentDies
  parent : Recurs fun n => ∃ fate : Fate, schedule n = .parent fate ∧ fate.fail ≠ some (.ofNat Errno.EINTR)
  child : Recurs fun n => ∃ fate : Fate, schedule n = .child k fate

theorem System.Candid.reached {schedule : Nat → Turn} {n : Nat}
    (steady : ∀ m < n, (Namespace.reached schedule m).Steady (schedule m)) : (Namespace.reached schedule n).Candid := by
  induction n with
  | zero => exact .initial
  | succ n ih =>
    rw [reached_succ]
    exact (ih fun m before => steady m (Nat.lt_succ_of_lt before)).step (steady n (Nat.lt_succ_self n))

theorem System.Single.reached (schedule : Nat → Turn) (n : Nat) : (Namespace.reached schedule n).Single := by
  induction n with
  | zero => exact fun _ _ here => nomatch here
  | succ n ih =>
    rw [reached_succ]
    exact ih.step (schedule n)

section Progress

variable {schedule : Nat → Turn} {k : Nat} {failure : Done}

/-- A start of which the child has made this call. -/
structure At (schedule : Nat → Turn) (k : Nat) (failure : Done) (P : Start → Prop) (n : Nat) : Prop where
  failed : failure ∈ history (reached schedule n).trace k .child
  here : ∃ start, (reached schedule n).starts k = some start ∧ P start

theorem At.imp {P Q : Start → Prop} {n : Nat} (now : At schedule k failure P n) (implies : ∀ start, P start → Q start) :
    At schedule k failure Q n :=
  ⟨now.failed, now.here.imp fun start ⟨here, holds⟩ => ⟨here, implies start holds⟩⟩

theorem At.failed_succ {P : Start → Prop} {n : Nat} (now : At schedule k failure P n) :
    failure ∈ history (reached schedule (n + 1)).trace k .child := by
  rw [mem_history, reached_succ]
  exact System.step_trace _ _ (mem_history.mp now.failed)

theorem At.succ {P Q : Start → Prop} {n : Nat} (candid : (reached schedule n).Candid) (now : At schedule k failure P n)
    (kept : ∀ start after, (reached schedule n).starts k = some start → P start →
      StartStep (reached schedule n) k start (schedule n) after → Q after) : At schedule k failure Q (n + 1) := by
  obtain ⟨start, here, holds⟩ := now.here
  obtain ⟨after, there, stepped⟩ := candid.wired.sound.step_start here (schedule n)
  refine ⟨now.failed_succ, after, ?_, kept start after here holds stepped⟩
  rw [reached_succ]
  exact there

theorem At.or {P Q : Start → Prop} {n : Nat} (now : At schedule k failure (fun start => P start ∨ Q start) n) :
    At schedule k failure P n ∨ At schedule k failure Q n := by
  obtain ⟨failed, start, here, holds | holds⟩ := now
  · exact .inl ⟨failed, start, here, holds⟩
  · exact .inr ⟨failed, start, here, holds⟩

def Start.Running (code : Code Nat) (start : Start) : Prop := ∃ fds, start.child = some ⟨.running code, fds⟩

def Start.Lost (start : Start) : Prop := start.child = some .gone

/-- The child is lost, or has gone on from this code. -/
def Start.Moved (code : Code Nat) (start : Start) : Prop :=
  start.Lost ∨ ∃ c next answer, code = .call c next ∧ start.Running (next answer)

section Child

variable {argv : List Text} {error : Int32}

/-- After its `execvp` has failed, a call leaves the child running. -/
theorem restage_failed {s : System} (candid : s.Candid) {start : Start} {c : Call} {next : c.Answer → Code Nat} {fds : List Held}
    (answer : c.Answer) (here : s.starts k = some start) (child : start.child = some ⟨.running (.call c next), fds⟩)
    (failed : (⟨.execvp argv, .error error⟩ : Done) ∈ history s.trace k .child) :
    System.restage (next answer) ⟨c, answer⟩ (System.retable k ⟨c, answer⟩ fds) =
      ⟨.running (next answer), System.retable k ⟨c, answer⟩ fds⟩ := by
  rcases System.restage_cases (next answer) ⟨c, answer⟩ (System.retable k ⟨c, answer⟩ fds) with same | ⟨⟨other, executed⟩, -⟩
  · exact same
  · cases executed
    have obeys := candid.wired.sound.child k start _ fds here child
    exact absurd (List.mem_map_of_mem failed) (obeys.1.2.2.2 argv)

theorem child_stays {n : Nat} {code : Code Nat} (candid : (reached schedule n).Candid)
    (now : At schedule k ⟨.execvp argv, .error error⟩ (Start.Running code) n) :
    At schedule k ⟨.execvp argv, .error error⟩ (Start.Running code) (n + 1) ∨
      At schedule k ⟨.execvp argv, .error error⟩ (Start.Moved code) (n + 1) := by
  refine (now.succ candid fun start after here ⟨fds, child⟩ stepped => ?_).or
  cases stepped with
  | same => exact .inl ⟨fds, child⟩
  | parent fate c next answer made held =>
    rcases candid.wired.sound.rechild_born here held child with same | ⟨-, gone⟩
    · exact .inl ⟨fds, same⟩
    · exact .inr (.inl gone)
  | child fate c next answer fds' made running =>
    cases child.symm.trans running
    have stage := restage_failed candid answer here running now.failed
    exact .inr (.inr ⟨c, next, answer, rfl, _, congrArg some stage⟩)
  | gone =>
    right
    left
    simp [Start.Lost, child]

theorem child_moves {n : Nat} {code : Code Nat} {fate : Fate} (candid : (reached schedule n).Candid)
    (now : At schedule k ⟨.execvp argv, .error error⟩ (Start.Running code) n) (turn : schedule n = .child k fate) :
    At schedule k ⟨.execvp argv, .error error⟩ (Start.Moved code) (n + 1) := by
  obtain ⟨start, here, fds, child⟩ := now.here
  refine ⟨now.failed_succ, ?_⟩
  rw [reached_succ, turn]
  cases code with
  | ret value =>
    rw [System.childTurn_ret here child, System.childGone_starts here]
    exact ⟨_, Function.update_self _ _ _, .inl (by simp [Start.Lost, child])⟩
  | call c next =>
    have obeys := candid.wired.sound.child k start _ fds here child
    have prompt : ¬ c.Waits := by
      intro waits
      cases c with
      | read pipe count =>
        -- The token is read before anything else.
        have first : history (reached schedule n).trace k .child = [] := obeys.1.2.2
        have failed := now.failed
        rw [first] at failed
        cases failed
      | waitpid pid => exact obeys.1
      | _ => exact waits
    obtain ⟨answer, answered⟩ := System.reply_prompt (reached schedule n) k .child fate prompt
    rw [System.childTurn_call here child answered, System.childMade_starts here child]
    have stage := restage_failed candid answer here child now.failed
    exact ⟨_, Function.update_self _ _ _, .inr ⟨c, next, answer, rfl, _, congrArg some stage⟩⟩

/-- The child exits. -/
theorem child_exits (candid : ∀ n, (reached schedule n).Candid) (fair : Fair schedule k) (code : Code Nat) :
    LeadsTo (At schedule k ⟨.execvp argv, .error error⟩ (Start.Running code))
      (At schedule k ⟨.execvp argv, .error error⟩ Start.Lost) := by
  have progress : ∀ code, LeadsTo (At schedule k ⟨.execvp argv, .error error⟩ (Start.Running code))
      (At schedule k ⟨.execvp argv, .error error⟩ (Start.Moved code)) := fun code =>
    .ensures (fun n now => child_stays (candid n) now) fair.child fun n now ⟨fate, turn⟩ => child_moves (candid n) now turn
  induction code with
  | ret value =>
    refine (progress _).trans (.of_imp fun n now => now.imp ?_)
    rintro start (lost | ⟨c, next, answer, same, -⟩)
    · exact lost
    · cases same
  | call c next ih =>
    apply (progress _).trans
    intro n now
    rcases now.or with lost | ⟨failed, start, here, _, _, answer, same, running⟩
    · exact ⟨n, Nat.le_refl n, lost⟩
    · cases same
      exact ih answer n ⟨failed, start, here, running⟩

end Child

section Parent

/-- The manager has this much left to do, and no child any more. -/
def Start.Pending (code : Code (Except Int32 NamespaceStartResult)) (start : Start) : Prop := start.code = code ∧ start.Lost

def Start.Advanced (code : Code (Except Int32 NamespaceStartResult)) (start : Start) : Prop :=
  ∃ c next answer, code = .call c next ∧ start.Pending (next answer)

def Start.Returned (start : Start) : Prop := ∃ value, start.outcome = some value

theorem parent_stays {n : Nat} {code : Code (Except Int32 NamespaceStartResult)} (candid : (reached schedule n).Candid)
    (now : At schedule k failure (Start.Pending code) n) :
    At schedule k failure (Start.Pending code) (n + 1) ∨ At schedule k failure (Start.Advanced code) (n + 1) := by
  refine (now.succ candid fun start after here ⟨held, lost⟩ stepped => ?_).or
  cases stepped with
  | same => exact .inl ⟨held, lost⟩
  | parent fate c next answer made called =>
    refine .inr ⟨c, next, answer, held.symm.trans called, rfl, ?_⟩
    rcases candid.wired.sound.rechild_born here called lost with same | ⟨-, gone⟩
    · exact same
    · exact gone
  | child fate c next answer fds made running => cases lost.symm.trans running
  | gone => exact .inl ⟨held, by rw [Start.Lost, lost]; rfl⟩

theorem parent_moves {n : Nat} {c : Call} {next : c.Answer → Code (Except Int32 NamespaceStartResult)} {fate : Fate}
    (candid : (reached schedule n).Candid) (up : (reached schedule n).up = true)
    (now : At schedule k failure (Start.Pending (.call c next)) n) (turn : schedule n = .parent fate)
    (uninterrupted : fate.fail ≠ some (.ofNat Errno.EINTR)) :
    At schedule k failure (Start.Advanced (.call c next)) (n + 1) := by
  obtain ⟨start, here, held, lost⟩ := now.here
  refine ⟨now.failed_succ, ?_⟩
  have pending : start.outcome = none := by rw [Start.outcome, held]
  obtain rfl := System.Single.reached schedule n k start here pending
  have gone : (reached schedule n).childAlive ((reached schedule n).count - 1) = false := by
    simp [System.childAlive, System.child, here, Start.Lost, Child.gone] at lost ⊢
    simp [lost]
  obtain ⟨answer, answered⟩ := candid.wired.parent_answered up here held gone uninterrupted
  rw [reached_succ, turn, System.parentTurn_call up here held answered, System.parentMade_starts here]
  refine ⟨_, Function.update_self _ _ _, c, next, answer, rfl, rfl, ?_⟩
  rcases candid.wired.sound.rechild_born here held lost with same | ⟨-, gone⟩
  · exact same
  · exact gone

/-- The manager returns. -/
theorem parent_returns (candid : ∀ n, (reached schedule n).Candid) (up : ∀ n, (reached schedule n).up = true)
    (fair : Fair schedule k) (code : Code (Except Int32 NamespaceStartResult)) :
    LeadsTo (At schedule k failure (Start.Pending code)) (At schedule k failure Start.Returned) := by
  induction code with
  | ret value =>
    refine .of_imp fun n now => now.imp fun start pending => ⟨value, ?_⟩
    rw [Start.outcome, pending.1]
  | call c next ih =>
    have progress : LeadsTo (At schedule k failure (Start.Pending (.call c next)))
        (At schedule k failure (Start.Advanced (.call c next))) :=
      .ensures (fun n now => parent_stays (candid n) now) fair.parent fun n now ⟨fate, turn, uninterrupted⟩ =>
        parent_moves (candid n) (up n) now turn uninterrupted
    apply progress.trans
    intro n now
    obtain ⟨failed, start, here, _, _, answer, same, pending⟩ := now
    cases same
    exact ih answer n ⟨failed, start, here, pending⟩

end Parent

/-- After `execvp` has failed, the child of the start is running or lost. -/
theorem running_or_lost {s : System} (candid : s.Candid) {start : Start} {argv : List Text} {error : Int32}
    (here : s.starts k = some start) (failed : (⟨.execvp argv, .error error⟩ : Done) ∈ history s.trace k .child) :
    (∃ code, start.Running code) ∨ start.Lost := by
  cases born : start.child with
  | none =>
    rw [candid.wired.sound.unborn k start here born] at failed
    cases failed
  | some child =>
    obtain ⟨stage, fds⟩ := child
    cases stage with
    | running code => exact .inl ⟨code, fds, born⟩
    | executed =>
      obtain ⟨other, value, made⟩ := (candid.frank k start here).executed fds born
      cases candid.execvp_once failed made rfl rfl
    | dead =>
      rw [candid.wired.dead k start fds here born] at born
      exact .inr born

end Progress

/-- While no child is killed between its status and the outcome of `execvp`, and no report is lost, a start that returns 0
has executed its command, and one whose `execvp` has failed returns that `errno`, and nothing else. -/
theorem exec_outcome_reported (schedule : Nat → Turn) :
    (∀ n, (∀ m < n, (reached schedule m).Steady (schedule m)) → ∀ k start, (reached schedule n).starts k = some start →
      (∀ result, start.outcome = some (.ok result) →
        ∃ argv, Succeeded (history (reached schedule n).trace k .child) (.execvp argv)) ∧
      ∀ argv error value, (⟨.execvp argv, .error error⟩ : Done) ∈ history (reached schedule n).trace k .child →
        start.outcome = some value → value = .error error) ∧
    ((∀ n, (reached schedule n).Steady (schedule n)) → ∀ k, Fair schedule k → ∀ n argv error,
      (⟨.execvp argv, .error error⟩ : Done) ∈ history (reached schedule n).trace k .child →
      ∃ m start, (reached schedule m).starts k = some start ∧ start.outcome = some (.error error)) := by
  constructor
  · intro n steady k start here
    have candid := System.Candid.reached steady
    exact ⟨fun result returned => candid.executed_of_success here returned,
      fun argv error value failed returned => candid.error_of_failure here failed returned⟩
  · intro steady k fair n argv error failed
    have candid : ∀ n, (reached schedule n).Candid := fun n => .reached fun m _ => steady m
    have up : ∀ n, (reached schedule n).up = true := by
      intro n
      induction n with
      | zero => rfl
      | succ n ih =>
        rw [reached_succ]
        exact System.step_up ih (fair.lives n)
    -- The start is on record, for its child has made a call.
    obtain ⟨start, -, here, -⟩ := (candid n).wired.sound.child_guarded failed
    have lost : ∃ m, n ≤ m ∧ At schedule k ⟨.execvp argv, .error error⟩ Start.Lost m := by
      rcases running_or_lost (candid n) here failed with ⟨code, running⟩ | lost
      · exact child_exits candid fair code n ⟨failed, start, here, running⟩
      · exact ⟨n, Nat.le_refl n, failed, start, here, lost⟩
    obtain ⟨m, -, failed, start, here, lost⟩ := lost
    obtain ⟨l, -, failed, start, here, value, returned⟩ :=
      parent_returns candid up fair start.code m ⟨failed, start, here, rfl, lost⟩
    refine ⟨l, start, here, ?_⟩
    rw [returned, (candid l).error_of_failure here failed returned]

/-- `execvp` fails with ENOENT, while manager and child take turns. -/
theorem exec_failure_reported :
    let config : NamespaceConfig := ⟨some (lit "web"), lit "/srv/web", lit "sleep 9", .unlimited⟩
    let schedule : Nat → Turn := fun n =>
      if n = 0 then .start config else if n % 2 = 1 then .parent ⟨none, 12, 7⟩
      else .child 0 ⟨if n = 50 then some 2 else none, 12, 7⟩
    ∃ m start, (reached schedule m).starts 0 = some start ∧ start.outcome = some (.error 2) := by
  intro config schedule
  have odd : ∀ n, schedule (2 * n + 1) = .parent ⟨none, 12, 7⟩ := by
    intro n
    have first : 2 * n + 1 ≠ 0 := by omega
    have second : (2 * n + 1) % 2 = 1 := by omega
    simp only [schedule, first, second, if_false, if_true]
  have even : ∀ n, ∃ fate, schedule (2 * n + 2) = .child 0 fate := by
    intro n
    have first : 2 * n + 2 ≠ 0 := by omega
    have second : (2 * n + 2) % 2 ≠ 1 := by omega
    simp only [schedule, first, second, if_false]
    exact ⟨_, rfl⟩
  have steady : ∀ n, (reached schedule n).Steady (schedule n) := by
    intro n
    by_cases failing : n = 50
    · subst failing
      decide +kernel
    by_cases zero : n = 0
    · subst zero
      decide +kernel
    by_cases parent : n % 2 = 1
    · have turn : schedule n = .parent ⟨none, 12, 7⟩ := by simp only [schedule, zero, parent, if_false, if_true]
      rw [turn]
      intro c _
      cases c with
      | read pipe count => exact ⟨.inl rfl, fun _ => by decide⟩
      | _ => trivial
    · have turn : schedule n = .child 0 ⟨none, 12, 7⟩ := by simp only [schedule, zero, parent, failing, if_false]
      rw [turn]
      exact fun _ _ _ => rfl
  have fair : Fair schedule 0 := by
    refine ⟨fun n => ?_, fun n => ⟨2 * n + 1, by omega, _, odd n, nofun⟩, fun n => ?_⟩
    · simp only [schedule]
      split
      · exact nofun
      · split <;> exact nofun
    · obtain ⟨fate, turn⟩ := even n
      exact ⟨2 * n + 2, by omega, fate, turn⟩
  exact (exec_outcome_reported schedule).2 steady 0 fair 51 [lit "sleep", lit "9"] 2 (by decide +kernel)

/-- The child is killed between its status and `execvp`: the start returns 0, and no command was executed. -/
theorem killed_child_reported_started :
    let config : NamespaceConfig := ⟨some (lit "web"), lit "/srv/web", lit "sleep 9", .unlimited⟩
    let calm : Fate := ⟨none, 12, 7⟩
    let s := System.initial.run ([.start config] ++ List.replicate 15 (.parent calm) ++ List.replicate 13 (.child 0 calm) ++
      [.childDies 0] ++ List.replicate 4 (.parent calm))
    (∃ start, s.starts 0 = some start ∧ start.outcome = some (.ok ⟨7, 1⟩)) ∧
      ¬ ∃ argv, Succeeded (history s.trace 0 .child) (.execvp argv) := by
  intro config calm s
  have returned : (s.starts 0).bind Start.outcome = some (.ok ⟨7, 1⟩) := by decide +kernel
  have unsettled : (history s.trace 0 .child).any Done.settles = false := by decide +kernel
  refine ⟨Option.bind_eq_some_iff.mp returned, ?_⟩
  rintro ⟨argv, value, executed⟩
  exact List.any_eq_false.mp unsettled _ executed rfl

end ContainerRuntime.Namespace
