import ContainerRuntime.Namespace.Attention

/-! Every start returns.

The manager waits three times: for the status of the child, for the outcome of
`execvp`, and for the child to be gone. The child waits once, for its token, and
then goes on by itself until it is gone or has become its program. So only the
last wait can be for ever: for a program of which the status was lost.
-/

set_option autoImplicit false

namespace ContainerRuntime.Namespace

open CString Coroutine

/-! ## Calls that are answered -/

namespace System.Minded

variable {s : System} {k : Nat} {start : Start} {fate : Fate}

/-- The token is there when the child asks for it. -/
theorem token_waiting (minded : s.Minded) (here : s.starts k = some start) (told : ¬ NoToken (history s.trace k .parent))
    (fresh : history s.trace k .child = []) : s.contents k .continue ≠ [] := by
  have sound := minded.wired.sound
  have undrawn : drawn s.trace k .continue = [] := by
    apply List.flatMap_eq_nil_iff.mpr
    intro e member
    by_cases own : e.start = k
    · subst own
      rw [if_pos rfl, List.eq_nil_iff_forall_not_mem]
      intro b inside
      obtain ⟨count, read⟩ := e.done.mem_taken inside
      obtain ⟨before, after, parts⟩ := List.append_of_mem member
      obtain ⟨_, -, kept, -⟩ := sound.guarded before e after parts
      cases party : e.party with
      | parent =>
        rw [party, read] at kept
        rcases kept with ⟨other, -⟩ | ⟨other, -⟩ <;> cases other
      | child =>
        have made : e.done ∈ history s.trace e.start .child := by
          rw [mem_history, ← party]
          exact member
        rw [fresh] at made
        cases made
    · rw [if_neg own]
  intro empty
  have flow := sound.flow k start .continue here
  rw [undrawn, ← System.Sound.contents_eq here, empty, List.append_nil] at flow
  apply told
  rintro bytes ⟨value, written⟩
  obtain ⟨before, after, parts⟩ := List.append_of_mem (mem_history.mp written)
  obtain ⟨_, -, kept, -⟩ := sound.guarded _ _ _ parts
  obtain ⟨-, rfl, -⟩ := kept
  have put : token ∈ poured s.trace k .continue := by
    refine List.mem_flatMap.mpr ⟨_, mem_history.mp written, ?_⟩
    rw [if_pos rfl]
    exact List.mem_cons_self
  rw [← flow] at put
  cases put

/-- A child that has been told to go on is not kept waiting. -/
theorem child_answered (minded : s.Minded) {c : Call} {next : c.Answer → Code Nat} {fds : List Held} (here : s.starts k = some start)
    (child : start.child = some ⟨.running (.call c next), fds⟩) (told : ¬ NoToken (history s.trace k .parent))
    (uninterrupted : fate.fail ≠ some (.ofNat Errno.EINTR)) : ∃ answer, s.reply k .child fate c = some answer := by
  have obeys := minded.wired.sound.child k start _ fds here child
  cases c with
  | read pipe count =>
    obtain ⟨rfl, rfl, fresh⟩ := obeys.1
    have ready := minded.token_waiting here told fresh
    have readable : Holds (s.table k .child) k ⟨.continue, .reading⟩ := by
      have table : s.childFds k = fds := by simp [System.childFds, System.child, here, child]
      rw [System.table, table, minded.wired.running k start _ fds here child, fresh]
      exact ⟨⟨k, ⟨.continue, .reading⟩, false⟩, by simp [childTable, inherited], rfl, rfl⟩
    cases failure : fate.fail with
    | none =>
      simp only [System.reply, failure, System.succeed, readable, if_true]
      split
      · rename_i empty
        exact absurd empty ready
      · exact ⟨_, rfl⟩
    | some error =>
      have different : error ≠ .ofNat Errno.EINTR := fun same => uninterrupted (same ▸ failure)
      simp only [System.reply, failure, different, if_false]
      exact ⟨_, rfl⟩
  | waitpid pid => exact obeys.1.elim
  | _ => exact System.reply_prompt _ _ _ _ (by simp [Call.Waits])

end System.Minded

/-- The child has become its program. -/
def Start.Executed (start : Start) : Prop := ∃ fds, start.child = some ⟨.executed, fds⟩

/-- The child is gone, or it has become its program. -/
def Start.Settled (start : Start) : Prop := start.Lost ∨ start.Executed

namespace System.Minded

variable {s : System} {start : Start} {fate : Fate}

/-- Nobody but a child that runs can write to the pipes the manager reads. -/
theorem unwritable (minded : s.Minded) {k : Nat} (here : s.starts k = some start) (settled : start.Settled) {pipe : Pipe}
    (reported : pipe ≠ .continue) (j : Nat) : ¬ Holds (s.childFds j) k ⟨pipe, .writing⟩ := by
  intro holds
  obtain ⟨rfl, -⟩ := minded.wired.own_ends holds
  rcases settled with lost | ⟨fds, executed⟩
  · have gone : start.child = some .gone := lost
    have table : s.childFds j = [] := by simp [System.childFds, System.child, here, gone, Child.gone]
    rw [table] at holds
    obtain ⟨held, member, -⟩ := holds
    cases member
  · have table : s.childFds j = fds := by simp [System.childFds, System.child, here, executed]
    rw [table, minded.wired.executed j start fds here executed] at holds
    obtain ⟨held, member, -, same⟩ := holds
    obtain ⟨listed, kept⟩ := List.mem_filter.mp member
    obtain ⟨original, opened⟩ := minded.wired.mem_table.mp listed
    have closed := ((minded.joined j start here).executed fds executed).2
    simp only [inherited, List.mem_cons, List.not_mem_nil, or_false] at original
    rcases original with rfl | rfl | rfl | rfl | rfl | rfl
    · cases same
    · exact opened closed
    · cases same
    · simp at kept
    · cases same
    · cases same
      exact reported rfl

/-- The manager's reads are answered then. -/
theorem read_answered (minded : s.Minded) {pipe : Pipe} {count : Nat}
    {next : (Call.read pipe count).Answer → Code (Except Int32 NamespaceStartResult)} (up : s.up = true)
    (here : s.starts (s.count - 1) = some start) (code : start.code = .call (.read pipe count) next) (settled : start.Settled)
    (uninterrupted : fate.fail ≠ some (.ofNat Errno.EINTR)) :
    ∃ answer, s.reply (s.count - 1) .parent fate (.read pipe count) = some answer := by
  have sighted := minded.wired.closing _ start here
  have obeys := minded.wired.sound.parent _ start here
  rw [code] at sighted obeys
  obtain ⟨⟨reading, unwritten⟩, -⟩ := sighted
  rw [← minded.wired.parent up] at reading unwritten
  have reported : pipe ≠ .continue := by
    rintro rfl
    rcases obeys.1 with ⟨other, -⟩ | ⟨other, -⟩ <;> cases other
  have closed : ¬ s.Open (s.count - 1) ⟨pipe, .writing⟩ := by
    rintro (own | ⟨j, -, other⟩)
    · exact unwritten own
    · exact minded.unwritable here settled reported j other
  cases failure : fate.fail with
  | none =>
    simp only [System.reply, failure, System.succeed, System.table, reading, if_true, closed, if_false]
    split <;> exact ⟨_, rfl⟩
  | some error =>
    have different : error ≠ .ofNat Errno.EINTR := fun same => uninterrupted (same ▸ failure)
    simp only [System.reply, failure, different, if_false]
    exact ⟨_, rfl⟩

/-- A status that was sent, and is not known to the manager, was lost on one side. -/
theorem status_lost (minded : s.Minded) {k : Nat} (here : s.starts k = some start)
    (unread : Unread (history s.trace k .parent)) (said : SaidReady (history s.trace k .child)) :
    (∃ count, Failed (history s.trace k .parent) (.read .status count)) ∨
      ∃ bytes, Failed (history s.trace k .child) (.write .status bytes) := by
  have sound := minded.wired.sound
  obtain ⟨unready, whole | ⟨count, ended | failed⟩⟩ := unread
  · obtain ⟨status, ready, called⟩ := said
    obtain ⟨⟨_, answer⟩, made, rfl⟩ := List.mem_map.mp called
    cases answer with
    | error error => exact .inr ⟨status.bytes, error, made⟩
    | ok value =>
      have flow := sound.flow_report here .status (by decide)
      rw [sound.poured_of_report (by decide) made] at flow
      have all : taken (history s.trace k .parent) .status = status.bytes := by
        apply List.IsPrefix.eq_of_length_le ⟨_, flow⟩
        rwa [NamespaceStatus.length_bytes]
      apply absurd _ unready
      rw [ReadReady, all, NamespaceStatus.ofBytes_bytes]
      exact ⟨rfl, ready⟩
  · exact .inr (((minded.joined k start here).ended count ended).1 said)
  · exact .inl ⟨count, failed⟩

end System.Minded

/-! ## Infinite runs -/

/-- There is somebody to read what the call writes. -/
def System.Hears (s : System) : Call → Prop
  | .write pipe _ => s.Open (s.count - 1) ⟨pipe, .reading⟩
  | _ => True

instance (s : System) : DecidablePred s.Hears
  | .write pipe _ => inferInstanceAs (Decidable (s.Open (s.count - 1) ⟨pipe, .reading⟩))
  | .pipe _ | .closeOnExec _ | .clone | .close _ | .read _ _ | .writeTextFile _ | .kill _ | .waitpid _ | .setgid | .setuid
  | .sethostname _ | .filesystemIsolateRootfs _ | .remountProc | .networkSetupLoopback | .resourceApplyLimits _ | .setpgid
  | .getpid | .execvp _ => isTrue trivial

/-- The manager lives, it and the child of the start `k` are not interrupted for ever, and the manager's
signals reach its child. -/
structure Attended (schedule : Nat → Turn) (k : Nat) : Prop where
  lives : ∀ n, schedule n ≠ .parentDies
  /-- No write of it is its end: one that nobody can read raises SIGPIPE, and the manager does not catch that. -/
  heard : ∀ n fate, schedule n = .parent fate → fate.fail = none →
    ∀ c ∈ (reached schedule n).parentCall, (reached schedule n).Hears c
  parent : Recurs fun n => ∃ fate : Fate, schedule n = .parent fate ∧ fate.fail ≠ some (.ofNat Errno.EINTR)
  child : Recurs fun n => ∃ fate : Fate, schedule n = .child k fate ∧ fate.fail ≠ some (.ofNat Errno.EINTR)
  kills : ∀ n fate pid, schedule n = .parent fate → (reached schedule n).parentCall = some (.kill pid) → fate.fail = none

section Progress

variable {schedule : Nat → Turn} {k : Nat}

/-- The start is on record at this time, and the condition holds of it. -/
def Seen (schedule : Nat → Turn) (k : Nat) (P : Start → Prop) (n : Nat) : Prop :=
  ∃ start, (reached schedule n).starts k = some start ∧ P start

theorem Seen.imp {P Q : Start → Prop} {n : Nat} (seen : Seen schedule k P n) (implies : ∀ start, P start → Q start) :
    Seen schedule k Q n := by
  obtain ⟨start, here, holds⟩ := seen
  exact ⟨start, here, implies start holds⟩

theorem Seen.and {P Q : Start → Prop} {n : Nat} (seen : Seen schedule k P n) (also : Seen schedule k Q n) :
    Seen schedule k (fun start => P start ∧ Q start) n := by
  obtain ⟨start, here, first⟩ := seen
  obtain ⟨other, there, second⟩ := also
  cases here.symm.trans there
  exact ⟨start, here, first, second⟩

theorem Seen.or {P Q : Start → Prop} {n : Nat} (seen : Seen schedule k (fun start => P start ∨ Q start) n) :
    Seen schedule k P n ∨ Seen schedule k Q n := by
  obtain ⟨start, here, holds | holds⟩ := seen
  · exact .inl ⟨start, here, holds⟩
  · exact .inr ⟨start, here, holds⟩

theorem Seen.succ {P Q : Start → Prop} {n : Nat} (seen : Seen schedule k P n)
    (kept : ∀ start after, (reached schedule n).starts k = some start → P start →
      StartStep (reached schedule n) k start (schedule n) after → Q after) : Seen schedule k Q (n + 1) := by
  obtain ⟨start, here, holds⟩ := seen
  obtain ⟨after, there, stepped⟩ := (System.Minded.reached schedule n).wired.sound.step_start here (schedule n)
  refine ⟨after, ?_, kept start after here holds stepped⟩
  rw [reached_succ]
  exact there

/-- The child of the start `k` has been told to go on. -/
def Told (schedule : Nat → Turn) (k : Nat) (n : Nat) : Prop := ¬ NoToken (history (reached schedule n).trace k .parent)

theorem Told.succ {n : Nat} (told : Told schedule k n) : Told schedule k (n + 1) := by
  intro untold
  apply told
  rintro bytes ⟨value, member⟩
  apply untold bytes
  refine ⟨value, ?_⟩
  rw [reached_succ, mem_history]
  exact System.step_trace _ _ (mem_history.mp member)

/-- The child has gone on from this code. -/
def Start.Onward (code : Code Nat) (start : Start) : Prop :=
  start.Settled ∨ ∃ c next answer, code = .call c next ∧ start.Running (next answer)

theorem onward_restage {c : Call} {next : c.Answer → Code Nat} (answer : c.Answer) (fds : List Held) (start : Start)
    (child : start.child = some (System.restage (next answer) ⟨c, answer⟩ fds)) : start.Onward (.call c next) := by
  rcases System.restage_cases (next answer) ⟨c, answer⟩ fds with same | ⟨-, same⟩
  · exact .inr ⟨c, next, answer, rfl, fds, child.trans (congrArg some same)⟩
  · exact .inl (.inr ⟨_, child.trans (congrArg some same)⟩)

theorem child_kept {n : Nat} {code : Code Nat} (seen : Seen schedule k (Start.Running code) n) :
    Seen schedule k (Start.Running code) (n + 1) ∨ Seen schedule k (Start.Onward code) (n + 1) := by
  refine (seen.succ fun start after here ⟨fds, child⟩ stepped => ?_).or
  cases stepped with
  | same => exact .inl ⟨fds, child⟩
  | parent fate c next answer made held =>
    rcases (System.Minded.reached schedule n).wired.sound.rechild_born here held child with same | ⟨-, gone⟩
    · exact .inl ⟨fds, same⟩
    · exact .inr (.inl (.inl gone))
  | child fate c next answer fds' made running =>
    cases child.symm.trans running
    exact .inr (onward_restage answer _ _ rfl)
  | gone =>
    right
    left
    left
    simp [Start.Lost, child]

theorem child_goes_on {n : Nat} {code : Code Nat} {fate : Fate} (told : Told schedule k n)
    (seen : Seen schedule k (Start.Running code) n) (turn : schedule n = .child k fate)
    (uninterrupted : fate.fail ≠ some (.ofNat Errno.EINTR)) : Seen schedule k (Start.Onward code) (n + 1) := by
  obtain ⟨start, here, fds, child⟩ := seen
  rw [Seen, reached_succ, turn]
  cases code with
  | ret value =>
    rw [System.childTurn_ret here child, System.childGone_starts here]
    exact ⟨_, Function.update_self _ _ _, .inl (.inl (by simp [Start.Lost, child]))⟩
  | call c next =>
    obtain ⟨answer, answered⟩ := (System.Minded.reached schedule n).child_answered here child told uninterrupted
    rw [System.childTurn_call here child answered, System.childMade_starts here child]
    exact ⟨_, Function.update_self _ _ _, onward_restage answer _ _ rfl⟩

/-- A child that has been told to go on comes to an end, or to its program. -/
theorem child_settles (attended : Attended schedule k) (code : Code Nat) :
    LeadsTo (fun n => Told schedule k n ∧ Seen schedule k (Start.Running code) n) (Seen schedule k Start.Settled) := by
  have progress : ∀ code, LeadsTo (fun n => Told schedule k n ∧ Seen schedule k (Start.Running code) n)
      (fun n => Told schedule k n ∧ Seen schedule k (Start.Onward code) n) := by
    intro code
    apply LeadsTo.ensures _ attended.child
    · rintro n ⟨told, seen⟩ ⟨fate, turn, uninterrupted⟩
      exact ⟨told.succ, child_goes_on told seen turn uninterrupted⟩
    · rintro n ⟨told, seen⟩
      exact (child_kept seen).imp (fun kept => ⟨told.succ, kept⟩) fun left => ⟨told.succ, left⟩
  induction code with
  | ret value =>
    apply (progress _).trans
    apply LeadsTo.of_imp
    rintro n ⟨-, start, here, settled | ⟨c, next, answer, same, -⟩⟩
    · exact ⟨start, here, settled⟩
    · cases same
  | call c next ih =>
    apply (progress _).trans
    rintro n ⟨told, start, here, settled | ⟨_, _, answer, same, running⟩⟩
    · exact ⟨n, Nat.le_refl n, start, here, settled⟩
    · cases same
      exact ih answer n ⟨told, start, here, running⟩

/-! ## The manager -/

/-- The manager has this much left to do. -/
def Start.Facing (code : Code (Except Int32 NamespaceStartResult)) (start : Start) : Prop := start.code = code

/-- It has gone on from this code. -/
def Start.Past (code : Code (Except Int32 NamespaceStartResult)) (start : Start) : Prop :=
  ∃ c next answer, code = .call c next ∧ start.code = next answer

theorem parent_kept {n : Nat} {code : Code (Except Int32 NamespaceStartResult)} (seen : Seen schedule k (Start.Facing code) n) :
    Seen schedule k (Start.Facing code) (n + 1) ∨ Seen schedule k (Start.Past code) (n + 1) := by
  refine (seen.succ fun start after here held stepped => ?_).or
  cases stepped with
  | same => exact .inl held
  | parent fate c next answer made called => exact .inr ⟨c, next, answer, held.symm.trans called, rfl⟩
  | child fate c next answer fds made running => exact .inl held
  | gone => exact .inl held

theorem settled_kept {n : Nat} (seen : Seen schedule k Start.Settled n) : Seen schedule k Start.Settled (n + 1) := by
  refine seen.succ fun start after here settled stepped => ?_
  cases stepped with
  | same => exact settled
  | parent fate c next answer made called =>
    rcases settled with lost | ⟨fds, executed⟩
    · rcases (System.Minded.reached schedule n).wired.sound.rechild_born here called lost with same | ⟨-, gone⟩
      · exact .inl same
      · exact .inl gone
    · rcases (System.Minded.reached schedule n).wired.sound.rechild_born here called executed with same | ⟨-, gone⟩
      · exact .inr ⟨fds, same⟩
      · exact .inl gone
  | child fate c next answer fds made running =>
    rcases settled with lost | ⟨fds', executed⟩
    · cases (lost : start.child = some .gone).symm.trans running
    · cases executed.symm.trans running
  | gone =>
    left
    rcases settled with lost | ⟨fds, executed⟩
    · rw [Start.Lost, show start.child = some .gone from lost]
      rfl
    · simp [Start.Lost, executed]

theorem lost_kept {n : Nat} (seen : Seen schedule k Start.Lost n) : Seen schedule k Start.Lost (n + 1) := by
  refine seen.succ fun start after here lost stepped => ?_
  have gone : start.child = some .gone := lost
  cases stepped with
  | same => exact lost
  | parent fate c next answer made called =>
    rcases (System.Minded.reached schedule n).wired.sound.rechild_born here called gone with same | ⟨-, gone⟩
    · exact same
    · exact gone
  | child fate c next answer fds made running => cases gone.symm.trans running
  | gone => simp [Start.Lost, gone]

theorem up_always (attended : Attended schedule k) (n : Nat) : (reached schedule n).up = true := by
  induction n with
  | zero => rfl
  | succ n ih =>
    rw [reached_succ]
    exact System.step_up ih (attended.lives n)

/-- The manager is past a call that is answered, whatever holds beside it meanwhile. -/
theorem parent_leaves {P : Start → Prop} {c : Call} {next : c.Answer → Code (Except Int32 NamespaceStartResult)}
    (attended : Attended schedule k) (kept : ∀ n, Seen schedule k P n → Seen schedule k P (n + 1))
    (answers : ∀ n start fate, (reached schedule n).starts k = some start → k = (reached schedule n).count - 1 →
      start.code = .call c next → P start → fate.fail ≠ some (.ofNat Errno.EINTR) →
      ∃ answer, (reached schedule n).reply k .parent fate c = some answer) :
    LeadsTo (fun n => Seen schedule k (Start.Facing (.call c next)) n ∧ Seen schedule k P n)
      (Seen schedule k (Start.Past (.call c next))) := by
  apply LeadsTo.ensures _ attended.parent
  · rintro n ⟨facing, holds⟩ ⟨fate, turn, uninterrupted⟩
    obtain ⟨start, here, code, met⟩ := facing.and holds
    have pending : start.outcome = none := by rw [Start.outcome, show start.code = .call c next from code]
    have last := System.Single.reached schedule n k start here pending
    obtain ⟨answer, answered⟩ := answers n start fate here last code met uninterrupted
    subst last
    rw [Seen, reached_succ, turn, System.parentTurn_call (up_always attended n) here code answered,
      System.parentMade_starts here]
    exact ⟨_, Function.update_self _ _ _, c, next, answer, rfl, rfl⟩
  · rintro n ⟨facing, holds⟩
    exact (parent_kept facing).imp (fun facing => ⟨facing, kept n holds⟩) id

/-- The manager's signals have reached the child. -/
theorem kill_succeeded (attended : Attended schedule k) {n : Nat} {pid : Pid}
    (called : Call.kill pid ∈ calls (history (reached schedule n).trace k .parent)) :
    ∃ pid, Succeeded (history (reached schedule n).trace k .parent) (.kill pid) := by
  induction n with
  | zero => cases called
  | succ n ih =>
    have kept : ∀ {pid}, Succeeded (history (reached schedule n).trace k .parent) (.kill pid) →
        ∃ pid, Succeeded (history (reached schedule (n + 1)).trace k .parent) (.kill pid) := by
      rintro pid ⟨value, member⟩
      rw [reached_succ]
      exact ⟨pid, value, mem_history.mpr (System.step_trace _ _ (mem_history.mp member))⟩
    have taken := (reached schedule n).step_cases (schedule n)
    rw [reached_succ] at called kept ⊢
    generalize turn_eq : schedule n = turn at taken called kept ⊢
    generalize (reached schedule n).step turn = after at taken called kept ⊢
    cases taken with
    | parent fate start c next answer up here code answered =>
      by_cases own : (reached schedule n).count - 1 = k
      · subst own
        simp only [System.parentMade, System.record, System.change, history_self, calls_append] at called ⊢
        rcases List.mem_append.mp called with old | last
        · obtain ⟨pid, done⟩ := ih old
          exact ⟨pid, done.concat⟩
        · obtain rfl : c = .kill pid := (List.mem_singleton.mp last).symm
          have smooth := attended.kills n fate pid turn_eq (System.Candid.parentCall_eq here code)
          simp only [System.reply, smooth, System.succeed, Option.some.injEq] at answered
          subst answered
          exact ⟨pid, .last (c := .kill pid) ()⟩
      · simp only [System.parentMade, System.record, System.change] at called
        rw [history_other (by simp [own])] at called
        obtain ⟨pid, done⟩ := ih called
        exact kept done
    | child j fate start c next fds answer here child answered =>
      simp only [System.childMade, System.record, System.change] at called
      rw [history_other (by simp)] at called
      obtain ⟨pid, done⟩ := ih called
      exact kept done
    | _ =>
      obtain ⟨pid, done⟩ := ih called
      exact kept done

/-- A child that has been told to go on settles while the manager waits for it, or the manager is past its wait. -/
theorem settles_or_leaves (attended : Attended schedule k) {code : Code (Except Int32 NamespaceStartResult)} {n : Nat}
    (facing : Seen schedule k (Start.Facing code) n) (briefed : Briefed (history (reached schedule n).trace k .parent)) :
    ∃ m, n ≤ m ∧ (Seen schedule k (Start.Facing code) m ∧ Seen schedule k Start.Settled m ∨
      Seen schedule k (Start.Past code) m) := by
  obtain ⟨start, here, held⟩ := facing
  obtain ⟨⟨stage, fds⟩, born⟩ :=
    Option.ne_none_iff_exists'.mp (((System.Minded.reached schedule n).joined k start here).born briefed.1)
  have settled : ∃ m, n ≤ m ∧ Seen schedule k Start.Settled m := by
    cases stage with
    | running code => exact child_settles attended code n ⟨briefed.2, start, here, fds, born⟩
    | executed => exact ⟨n, Nat.le_refl n, start, here, .inr ⟨fds, born⟩⟩
    | dead =>
      rw [(System.Minded.reached schedule n).wired.dead k start fds here born] at born
      exact ⟨n, Nat.le_refl n, start, here, .inl born⟩
  obtain ⟨m, later, settled⟩ := settled
  rcases LeadsTo.kept_or_left (fun _ seen => parent_kept seen) ⟨start, here, held⟩ with kept | ⟨l, after, past⟩
  · exact ⟨m, later, .inl ⟨kept m later, settled⟩⟩
  · exact ⟨l, after, .inr past⟩

theorem waitpid_answered {s : System} {start : Start} {pid : Pid} (here : s.starts k = some start) (lost : start.Lost)
    (fate : Fate) : ∃ answer, s.reply k .parent fate (.waitpid pid) = some answer := by
  have gone : start.child = some .gone := lost
  have dead : s.childAlive k = false := by simp [System.childAlive, System.child, here, gone, Child.gone]
  cases failure : fate.fail with
  | none =>
    simp only [System.reply, failure, System.succeed, dead, Bool.false_eq_true, if_false]
    exact ⟨_, rfl⟩
  | some error =>
    simp only [System.reply, failure]
    exact ⟨_, rfl⟩

/-- The manager waits for the child to be gone, and the child has become its program. -/
def Start.Hung (start : Start) : Prop :=
  (∃ pid next, start.code = .call (.waitpid pid) next) ∧ start.Executed

/-- The child's status did not reach the manager: it could not be written, or not be read. -/
def Unheard (schedule : Nat → Turn) (k n : Nat) : Prop :=
  (∃ count, Failed (history (reached schedule n).trace k .parent) (.read .status count)) ∨
    ∃ bytes, Failed (history (reached schedule n).trace k .child) (.write .status bytes)

/-- For ever the manager waits for a program whose status it has not heard. -/
def Abandoned (schedule : Nat → Turn) (k n : Nat) : Prop :=
  Unheard schedule k n ∧ ∀ m, n ≤ m → Seen schedule k Start.Hung m

theorem past_lost (attended : Attended schedule k) {pid : Pid} {next : _ → Code (Except Int32 NamespaceStartResult)} :
    LeadsTo (fun n => Seen schedule k (Start.Facing (.call (.waitpid pid) next)) n ∧ Seen schedule k Start.Lost n)
      (Seen schedule k (Start.Past (.call (.waitpid pid) next))) :=
  parent_leaves attended (fun _ => lost_kept) fun _ _ fate here _ _ lost _ => waitpid_answered here lost fate

theorem executed_kept {n : Nat} (seen : Seen schedule k Start.Executed n) :
    Seen schedule k Start.Executed (n + 1) ∨ Seen schedule k Start.Lost (n + 1) :=
  ((settled_kept (seen.imp fun _ executed => .inr executed)).imp fun _ settled => settled.symm).or

/-- The last wait ends with the child, or never. -/
theorem past_waitpid (attended : Attended schedule k) {pid : Pid} {next : _ → Code (Except Int32 NamespaceStartResult)} {n : Nat}
    (facing : Seen schedule k (Start.Facing (.call (.waitpid pid) next)) n) (settled : Seen schedule k Start.Settled n) :
    ∃ m, n ≤ m ∧ (Seen schedule k (Start.Past (.call (.waitpid pid) next)) m ∨ Abandoned schedule k m) := by
  have minded := System.Minded.reached schedule n
  obtain ⟨start, here, code, lost | ⟨fds, executed⟩⟩ := facing.and settled
  · obtain ⟨m, later, past⟩ := past_lost attended n ⟨facing, start, here, lost⟩
    exact ⟨m, later, .inl past⟩
  have attends := minded.attends k start here
  rw [show start.code = .call (.waitpid pid) next from code] at attends
  rcases attends.1 with ⟨⟨pid, killed⟩, -⟩ | ⟨-, unread⟩
  · obtain ⟨pid, succeeded⟩ := kill_succeeded attended killed
    cases executed.symm.trans ((minded.joined k start here).killed pid succeeded)
  -- The program runs for ever, or is gone some day.
  let waiting := Seen schedule k (Start.Facing (.call (.waitpid pid) next))
  let past := Seen schedule k (Start.Past (.call (.waitpid pid) next))
  have stays : ∀ m, waiting m ∧ Seen schedule k Start.Executed m →
      waiting (m + 1) ∧ Seen schedule k Start.Executed (m + 1) ∨
        (waiting (m + 1) ∧ Seen schedule k Start.Lost (m + 1) ∨ past (m + 1)) := by
    rintro m ⟨facing, runs⟩
    rcases parent_kept facing with facing | past
    · rcases executed_kept runs with runs | lost
      · exact .inl ⟨facing, runs⟩
      · exact .inr (.inl ⟨facing, lost⟩)
    · exact .inr (.inr past)
  rcases LeadsTo.kept_or_left (P := fun m => waiting m ∧ Seen schedule k Start.Executed m)
    (R := fun m => waiting m ∧ Seen schedule k Start.Lost m ∨ past m) stays ⟨facing, start, here, fds, executed⟩ with always | ⟨m, later, lost | past⟩
  · obtain ⟨argv, done⟩ := ((minded.joined k start here).executed fds executed).1
    have said := minded.wired.sound.saidReady_of_execvp done.mem_calls
    refine ⟨n, Nat.le_refl n, .inr ⟨minded.status_lost here unread said, fun m later => ?_⟩⟩
    obtain ⟨facing, runs⟩ := always m later
    exact (facing.and runs).imp fun start holds => ⟨⟨pid, next, holds.1⟩, holds.2⟩
  · obtain ⟨l, after, past⟩ := past_lost attended m lost
    exact ⟨l, Nat.le_trans later after, .inl past⟩
  · exact ⟨m, later, .inl past⟩

theorem parent_passes (attended : Attended schedule k) (c : Call) (next : c.Answer → Code (Except Int32 NamespaceStartResult)) :
    LeadsTo (Seen schedule k (Start.Facing (.call c next)))
      (fun n => Seen schedule k (Start.Past (.call c next)) n ∨ Abandoned schedule k n) := by
  intro n facing
  obtain ⟨start, here, code⟩ := facing
  have minded := System.Minded.reached schedule n
  have attends := minded.attends k start here
  rw [show start.code = .call c next from code] at attends
  by_cases waits : c.Waits
  · cases c with
    | read pipe count =>
      have briefed : Briefed (history (reached schedule n).trace k .parent) := attends.1
      obtain ⟨m, later, ⟨facing, settled⟩ | past⟩ := settles_or_leaves attended ⟨start, here, code⟩ briefed
      · obtain ⟨l, after, past⟩ := parent_leaves attended (fun _ => settled_kept)
          (fun m start fate here last code met uninterrupted => by
            subst last
            exact (System.Minded.reached schedule m).read_answered (up_always attended m) here code met uninterrupted)
          m ⟨facing, settled⟩
        exact ⟨l, Nat.le_trans later after, .inl past⟩
      · exact ⟨m, later, .inl past⟩
    | waitpid pid =>
      rcases attends.1 with ⟨⟨pid, killed⟩, -⟩ | ⟨briefed, -⟩
      · obtain ⟨pid, succeeded⟩ := kill_succeeded attended killed
        have lost := (minded.joined k start here).killed pid succeeded
        obtain ⟨m, later, past⟩ := past_lost attended n ⟨⟨start, here, code⟩, start, here, lost⟩
        exact ⟨m, later, .inl past⟩
      · obtain ⟨m, later, ⟨facing, settled⟩ | past⟩ := settles_or_leaves attended ⟨start, here, code⟩ briefed
        · obtain ⟨l, after, outcome⟩ := past_waitpid attended facing settled
          exact ⟨l, Nat.le_trans later after, outcome⟩
        · exact ⟨m, later, .inl past⟩
    | _ => exact waits.elim
  · obtain ⟨m, later, past⟩ := parent_leaves (P := fun _ => True) attended (fun _ seen => seen.succ fun _ _ _ _ _ => trivial)
      (fun m start fate here last code _ _ => System.reply_prompt (reached schedule m) k .parent fate waits)
      n ⟨⟨start, here, code⟩, start, here, trivial⟩
    exact ⟨m, later, .inl past⟩

theorem returns_or_abandoned (attended : Attended schedule k) (code : Code (Except Int32 NamespaceStartResult)) :
    LeadsTo (Seen schedule k (Start.Facing code)) (fun n => Seen schedule k Start.Returned n ∨ Abandoned schedule k n) := by
  induction code with
  | ret value =>
    apply LeadsTo.of_imp
    intro n facing
    left
    apply facing.imp
    intro start code
    exact ⟨value, by rw [Start.outcome, show start.code = .ret value from code]⟩
  | call c next ih =>
    apply (parent_passes attended c next).trans
    apply LeadsTo.or
    · rintro n ⟨start, here, _, _, answer, same, code⟩
      cases same
      exact ih answer n ⟨start, here, code⟩
    · exact LeadsTo.of_imp fun n abandoned => .inr abandoned

end Progress

/-- Whatever fails, and however the turns of the manager, of the child and of all other children fall: a start
returns, unless the manager has not heard the status of a child and waits for its program, which runs for ever. -/
theorem start_returns (schedule : Nat → Turn) (k : Nat) (attended : Attended schedule k) {n : Nat} {start : Start}
    (here : (reached schedule n).starts k = some start) :
    (∃ m after value, n ≤ m ∧ (reached schedule m).starts k = some after ∧ after.outcome = some value) ∨
      ∃ m, n ≤ m ∧ Unheard schedule k m ∧ ∀ l, m ≤ l → ∃ after, (reached schedule l).starts k = some after ∧ after.Hung := by
  obtain ⟨m, later, ⟨after, there, value, returned⟩ | ⟨unheard, hung⟩⟩ :=
    returns_or_abandoned attended start.code n ⟨start, here, rfl⟩
  · exact .inl ⟨m, after, value, later, there, returned⟩
  · exact .inr ⟨m, later, unheard, hung⟩

/-- A start that has failed leaves no process behind, unless the manager could not wait for it. -/
theorem failed_start_leaves_none (turns : List Turn) :
    let s := System.initial.run turns
    ∀ k start error, s.starts k = some start → start.outcome = some (.error error) → s.childAlive k = true →
      (∃ pid, Failed (history s.trace k .parent) (.waitpid pid)) ∧ ∀ pid, ¬ Succeeded (history s.trace k .parent) (.kill pid) := by
  intro s k start error here returned alive
  have minded : s.Minded := System.Minded.initial.run turns
  have joined := minded.joined k start here
  have attends := minded.attends k start here
  rw [Start.code_of_outcome returned] at attends
  have present : start.child ≠ some .gone := by
    intro gone
    simp [System.childAlive, System.child, here, gone, Child.gone] at alive
  obtain ⟨child, born⟩ : ∃ child, start.child = some child := by
    cases there : start.child with
    | none => simp [System.childAlive, System.child, here, there] at alive
    | some child => exact ⟨child, rfl⟩
  obtain ⟨pid, called⟩ := attends (minded.wired.sound.cloned k start child here born)
  obtain ⟨⟨_, answer⟩, made, rfl⟩ := List.mem_map.mp called
  constructor
  · cases answer with
    | error error => exact ⟨pid, error, made⟩
    | ok value => exact absurd (joined.reaped pid ⟨value, made⟩) present
  · exact fun pid killed => present (joined.killed pid killed)

/-- The status cannot be read, and the wait for the child is interrupted. -/
def interruptedTurns : List Turn :=
  [.start ⟨some (lit "web"), lit "/srv/web", lit "sleep 9", .unlimited⟩] ++ List.replicate 13 (.parent ⟨none, 12, 7⟩) ++
    [.parent ⟨some 5, 12, 7⟩, .parent ⟨none, 12, 7⟩, .parent ⟨none, 12, 7⟩, .parent ⟨some 4, 12, 7⟩]

theorem interrupted_start_leaves_child :
    (∃ pid, Failed (history (System.initial.run interruptedTurns).trace 0 .parent) (.waitpid pid)) ∧
      ∀ pid, ¬ Succeeded (history (System.initial.run interruptedTurns).trace 0 .parent) (.kill pid) := by
  have returned : ((System.initial.run interruptedTurns).starts 0).bind Start.outcome = some (.error (.ofNat Errno.EPROTO)) := by
    decide +kernel
  obtain ⟨start, here, outcome⟩ := Option.bind_eq_some_iff.mp returned
  exact failed_start_leaves_none interruptedTurns 0 start _ here outcome (by decide +kernel)

/-- Manager and child in turns; the manager's call at the time `bad` fails with EIO. -/
def takingTurns (bad : Nat) : Nat → Turn := fun n =>
  if n = 0 then .start ⟨some (lit "web"), lit "/srv/web", lit "sleep 9", .unlimited⟩
  else if n % 2 = 1 then .parent ⟨if n = bad then some 5 else none, 12, 7⟩
  else .child 0 ⟨none, 12, 7⟩

theorem takingTurns_cases (bad : Nat) {n : Nat} (later : 0 < n) :
    (∃ fate : Fate, takingTurns bad n = .parent fate ∧ (n ≠ bad → fate.fail = none) ∧ fate.fail ≠ some (.ofNat Errno.EINTR)) ∨
      ∃ fate : Fate, takingTurns bad n = .child 0 fate ∧ fate.fail = none := by
  have first : n ≠ 0 := by omega
  by_cases odd : n % 2 = 1
  · left
    refine ⟨⟨if n = bad then some 5 else none, 12, 7⟩, by simp only [takingTurns, first, odd, if_true, if_false], ?_, ?_⟩
    · exact fun other => if_neg other
    · simp only
      split <;> decide
  · exact .inr ⟨⟨none, 12, 7⟩, by simp only [takingTurns, first, odd, if_false], rfl⟩

/-- The last start has returned, or waits for its child; and the child has become its program. -/
def Start.rests (start : Start) : Bool :=
  match start.code, start.child with
  | .ret _, some ⟨.executed, _⟩ | .call (.waitpid _) _, some ⟨.executed, _⟩ => true
  | _, _ => false

/-- While the program runs, nothing but its end or a signal changes anything then. -/
theorem System.step_rests {s : System} {start : Start} (here : s.starts (s.count - 1) = some start) (rests : start.rests = true)
    {turn : Turn} (calm : ∃ fate : Fate, fate.fail = none ∧ (turn = .parent fate ∨ turn = .child (s.count - 1) fate)) :
    s.step turn = s := by
  obtain ⟨config, code, pipes, child⟩ := start
  unfold Start.rests at rests
  obtain ⟨fate, unfailed, rfl | rfl⟩ := calm
  · split at rests
    · rename_i value fds returned executed
      cases returned
      simp [System.step, System.parentTurn, here]
    · rename_i pid next fds waits executed
      cases waits
      cases executed
      have alive : s.childAlive (s.count - 1) = true := by simp [System.childAlive, System.child, here]
      have blocks : s.reply (s.count - 1) .parent fate (.waitpid pid) = none := by
        simp only [System.reply, unfailed, System.succeed, alive, if_true]
      simp [System.step, System.parentTurn, here, blocks]
    · cases rests
  · have executed : ∃ fds, child = some ⟨.executed, fds⟩ := by
      split at rests
      · rename_i executed
        exact ⟨_, executed⟩
      · rename_i executed
        exact ⟨_, executed⟩
      · cases rests
    obtain ⟨fds, rfl⟩ := executed
    simp [System.step, System.childTurn, System.child, here]

theorem takingTurns_rests {bad last : Nat} (later : bad < last)
    (rests : ((reached (takingTurns bad) last).starts 0).any Start.rests = true)
    (one : (reached (takingTurns bad) last).count = 1) {n : Nat} (beyond : last ≤ n) :
    reached (takingTurns bad) n = reached (takingTurns bad) last := by
  induction n, beyond using Nat.le_induction with
  | base => rfl
  | succ n beyond ih =>
    obtain ⟨start, here, rests⟩ := (Option.any_eq_true _ _).mp rests
    have last : (reached (takingTurns bad) last).starts ((reached (takingTurns bad) last).count - 1) = some start := by
      rw [one]
      exact here
    rw [reached_succ, ih]
    apply System.step_rests last rests
    rw [one]
    rcases takingTurns_cases bad (n := n) (by omega) with ⟨fate, parent, smooth, -⟩ | ⟨fate, child, unfailed⟩
    · exact ⟨fate, smooth (by omega), .inl parent⟩
    · exact ⟨fate, unfailed, .inr child⟩

theorem takingTurns_attended {bad : Nat} (spared : ∀ pid, (reached (takingTurns bad) bad).parentCall ≠ some (.kill pid))
    (heard : ∀ n, ∀ c ∈ (reached (takingTurns bad) n).parentCall, (reached (takingTurns bad) n).Hears c) :
    Attended (takingTurns bad) 0 := by
  refine ⟨fun n => ?_, fun n _ _ _ => heard n, fun n => ⟨2 * n + 1, by omega, ?_⟩, fun n => ⟨2 * n + 2, by omega, ?_⟩,
    fun n fate pid turn call => ?_⟩
  · simp only [takingTurns]
    split
    · exact nofun
    · split <;> exact nofun
  · have first : 2 * n + 1 ≠ 0 := by omega
    have odd : (2 * n + 1) % 2 = 1 := by omega
    refine ⟨⟨if 2 * n + 1 = bad then some 5 else none, 12, 7⟩, by simp only [takingTurns, first, odd, if_true, if_false], ?_⟩
    simp only
    split <;> decide
  · have first : 2 * n + 2 ≠ 0 := by omega
    have even : (2 * n + 2) % 2 ≠ 1 := by omega
    exact ⟨⟨none, 12, 7⟩, by simp only [takingTurns, first, even, if_false], nofun⟩
  · rcases Nat.eq_zero_or_pos n with rfl | later
    · cases turn
    · rcases takingTurns_cases bad later with ⟨other, parent, smooth, -⟩ | ⟨other, child, -⟩
      · cases parent.symm.trans turn
        apply smooth
        rintro rfl
        exact spared pid call
      · cases child.symm.trans turn

theorem takingTurns_heard (n : Nat) :
    ∀ c ∈ (reached (takingTurns 0) n).parentCall, (reached (takingTurns 0) n).Hears c := by
  have early : ∀ n < 55, ∀ c ∈ (reached (takingTurns 0) n).parentCall, (reached (takingTurns 0) n).Hears c := by
    decide +kernel
  rcases Nat.lt_or_ge n 55 with soon | beyond
  · exact early n soon
  · rw [takingTurns_rests (by decide) (by decide +kernel) (by decide +kernel) (Nat.le_trans (Nat.le_succ 54) beyond)]
    exact early 54 (by decide)

/-- Nothing fails, and the start returns. -/
theorem start_returns_untroubled :
    (∃ m after value, 1 ≤ m ∧ (reached (takingTurns 0) m).starts 0 = some after ∧ after.outcome = some value) ∨
      ∃ m, 1 ≤ m ∧ Unheard (takingTurns 0) 0 m ∧
        ∀ l, m ≤ l → ∃ after, (reached (takingTurns 0) l).starts 0 = some after ∧ after.Hung := by
  have attended : Attended (takingTurns 0) 0 := takingTurns_attended (fun _ => nofun) takingTurns_heard
  exact start_returns (takingTurns 0) 0 attended rfl

/-- Where the status cannot be read, the manager waits for `sleep` as long as it runs. -/
example : ∀ n, 51 ≤ n → ((reached (takingTurns 31) n).starts 0).any (fun start => start.rests && start.outcome.isNone) = true := by
  intro n later
  rw [takingTurns_rests (by decide) (by decide +kernel) (by decide +kernel) later]
  decide +kernel

end ContainerRuntime.Namespace
