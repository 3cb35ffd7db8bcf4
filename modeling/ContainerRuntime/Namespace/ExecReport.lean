import ContainerRuntime.Logic.LeadsTo
import ContainerRuntime.Namespace.Descriptors
import ContainerRuntime.Namespace.Sandbox

/-! What a start reports about `execvp`.

The manager takes end-of-file on the exec pipe for success: the end of the pipe
that the child keeps is closed by `execvp`. It is closed as well when the child
dies, so the report is true only of children that are not lost between their
status and the outcome of `execvp`.
-/

set_option autoImplicit false

namespace ContainerRuntime.Namespace

open CString Coroutine

/-! ## Steady turns -/

/-- A write the manager depends on: of a status with `ready` set, or of the `errno` of `execvp`. -/
def Call.vital : Call → Bool
  | .write .status bytes => (NamespaceStatus.ofBytes bytes).ready ≠ 0
  | .write .exec _ => true
  | _ => false

/-- The child has sent a status with `ready` set. -/
def Done.saysReady : Done → Bool
  | ⟨.write .status bytes, .ok _⟩ => (NamespaceStatus.ofBytes bytes).ready ≠ 0
  | _ => false

/-- `execvp` has succeeded, or its `errno` has been sent. -/
def Done.settles : Done → Bool
  | ⟨.execvp _, .ok _⟩ | ⟨.write .exec _, .ok _⟩ => true
  | _ => false

theorem Done.of_saysReady {d : Done} (ready : d.saysReady = true) :
    ∃ bytes, d = ⟨.write .status bytes, .ok ()⟩ ∧ (NamespaceStatus.ofBytes bytes).ready ≠ 0 := by
  unfold saysReady at ready
  split at ready
  · exact ⟨_, rfl, by simpa using ready⟩
  · cases ready

theorem Done.of_settles {d : Done} (settled : d.settles = true) :
    (∃ argv, d = ⟨.execvp argv, .ok ()⟩) ∨ ∃ bytes, d = ⟨.write .exec bytes, .ok ()⟩ := by
  unfold settles at settled
  split at settled
  · exact .inl ⟨_, rfl⟩
  · exact .inr ⟨_, rfl⟩
  · cases settled

/-- The manager counts on the child to execute its command, or to say why not. -/
def Exposed (h : List Done) : Prop := h.any Done.saysReady = true ∧ h.any Done.settles = false

instance (h : List Done) : Decidable (Exposed h) :=
  inferInstanceAs (Decidable (h.any Done.saysReady = true ∧ h.any Done.settles = false))

namespace System

/-- What the child is about to call. -/
def childCall (s : System) (k : Nat) : Option Call :=
  match s.child k with
  | some ⟨.running (.call c _), _⟩ => some c
  | _ => none

/-- What the manager is about to call. -/
def parentCall (s : System) : Option Call :=
  match s.starts (s.count - 1) with
  | some ⟨_, .call c _, _, _⟩ => some c
  | _ => none

/-- A read that is at most interrupted, and does not split an `int`. -/
def Fate.Smooth (fate : Fate) : Call → Prop
  | .read pipe _ =>
    (fate.fail = none ∨ fate.fail = some (.ofNat Errno.EINTR)) ∧ (pipe = .exec → 4 ≤ fate.bytes)
  | _ => True

instance (fate : Fate) : DecidablePred (Fate.Smooth fate)
  | .read pipe _ => inferInstanceAs (Decidable
      ((fate.fail = none ∨ fate.fail = some (.ofNat Errno.EINTR)) ∧ (pipe = .exec → 4 ≤ fate.bytes)))
  | .pipe _ | .closeOnExec _ | .clone | .close _ | .write _ _ | .writeTextFile _ | .kill _ | .waitpid _ | .setgid | .setuid
  | .sethostname _ | .filesystemIsolateRootfs _ | .remountProc | .networkSetupLoopback | .resourceApplyLimits _ | .setpgid
  | .getpid | .execvp _ => isTrue trivial

/-- The turn does not kill a child the manager counts on, and does not make a report get lost. -/
def Steady (s : System) : Turn → Prop
  | .childDies k => ¬ Exposed (history s.trace k .child)
  | .child k fate => ∀ c ∈ s.childCall k, c.vital = true → fate.fail = none
  | .parent fate => ∀ c ∈ s.parentCall, Fate.Smooth fate c
  | .start _ | .parentDies => True

instance (s : System) : DecidablePred s.Steady
  | .childDies k => inferInstanceAs (Decidable (¬ Exposed (history s.trace k .child)))
  | .child k fate => inferInstanceAs (Decidable (∀ c ∈ s.childCall k, c.vital = true → fate.fail = none))
  | .parent fate => inferInstanceAs (Decidable (∀ c ∈ s.parentCall, Fate.Smooth fate c))
  | .start _ | .parentDies => isTrue trivial

end System

/-! ## Who still has an end open -/

namespace System.Sound

variable {s : System}

/-- A call of the child, with the guard it has kept to. -/
theorem child_guarded (sound : s.Sound) {k : Nat} {d : Done} (made : d ∈ history s.trace k .child) :
    ∃ start h, s.starts k = some start ∧ h ⊆ history s.trace k .child ∧ childGuard start.config h d.call := by
  obtain ⟨before, after, parts⟩ := List.append_of_mem (mem_history.mp made)
  obtain ⟨start, here, kept, -⟩ := sound.guarded _ _ _ parts
  refine ⟨start, _, here, ?_, kept⟩
  rw [parts]
  exact history_subset _ _

theorem calls_subset {h more : List Done} (subset : h ⊆ more) : calls h ⊆ calls more := List.map_subset _ subset

/-- The child closes a pipe after its report. -/
theorem reported_of_closed (sound : s.Sound) {k : Nat} {pipe : Pipe} (reported : pipe ≠ .continue)
    (closed : Call.close ⟨pipe, .writing⟩ ∈ calls (history s.trace k .child)) :
    ∃ bytes, Call.write pipe bytes ∈ calls (history s.trace k .child) := by
  obtain ⟨⟨_, answer⟩, made, rfl⟩ := List.mem_map.mp closed
  obtain ⟨start, h, -, subset, kept⟩ := sound.child_guarded made
  rcases kept with same | ⟨same, bytes, written⟩ | ⟨same, bytes, written⟩
  · cases same
  · cases same
    exact ⟨bytes, calls_subset subset written⟩
  · cases same
    exact ⟨bytes, calls_subset subset written⟩

theorem saidReady_of_sent (sound : s.Sound) {k : Nat} (ready : (history s.trace k .child).any Done.saysReady = true) :
    SaidReady (history s.trace k .child) := by
  obtain ⟨d, made, sent⟩ := List.any_eq_true.mp ready
  obtain ⟨bytes, rfl, ready⟩ := Done.of_saysReady sent
  obtain ⟨_, _, -, -, -, status, rfl, -⟩ := sound.child_guarded made
  rw [NamespaceStatus.ofBytes_bytes] at ready
  exact ⟨status, ready, List.mem_map_of_mem made⟩

/-- Only a child that was told to go on says that it is ready. -/
theorem told_of_saidReady (sound : s.Sound) {k : Nat} (said : SaidReady (history s.trace k .child)) :
    ¬ NoToken (history s.trace k .parent) := by
  intro untold
  obtain ⟨status, ready, called⟩ := said
  obtain ⟨⟨_, answer⟩, made, rfl⟩ := List.mem_map.mp called
  obtain ⟨start, h, here, subset, -, other, encoded, blank | ⟨-, complete⟩⟩ := sound.child_guarded made
  · rw [NamespaceStatus.bytes_injective encoded] at ready
    exact ready blank
  · obtain ⟨more, read⟩ := complete.told
    have got : token ∈ drawn s.trace k .continue := by
      refine List.mem_flatMap.mpr ⟨_, mem_history.mp (subset read), ?_⟩
      rw [if_pos rfl]
      exact List.mem_cons_self
    have empty := sound.flow k start .continue here
    rw [sound.poured_continue untold] at empty
    rw [(List.append_eq_nil_iff.mp empty).1] at got
    cases got

/-- `execvp` is called by a child that has said so. -/
theorem saidReady_of_execvp (sound : s.Sound) {k : Nat} {argv : List Text}
    (called : Call.execvp argv ∈ calls (history s.trace k .child)) : SaidReady (history s.trace k .child) := by
  obtain ⟨⟨_, answer⟩, made, rfl⟩ := List.mem_map.mp called
  obtain ⟨start, h, -, subset, -, -, ⟨status, ready, said⟩, -⟩ := sound.child_guarded made
  exact ⟨status, ready, calls_subset subset said⟩

end System.Sound

namespace System.Wired

variable {s : System}

/-- A child that has not reported on a pipe can do so. -/
theorem holds_report (wired : s.Wired) {k : Nat} {start : Start} {code : Code Nat} {fds : List Held} {pipe : Pipe}
    (here : s.starts k = some start) (child : start.child = some ⟨.running code, fds⟩) (reported : pipe ≠ .continue)
    (unreported : ∀ bytes, Call.write pipe bytes ∉ calls (history s.trace k .child)) :
    Holds (s.childFds k) k ⟨pipe, .writing⟩ := by
  have table : s.childFds k = fds := by simp [System.childFds, System.child, here, child]
  have opened : Call.close ⟨pipe, .writing⟩ ∉ calls (history s.trace k .child) := by
    intro closed
    obtain ⟨bytes, written⟩ := wired.sound.reported_of_closed reported closed
    exact unreported bytes written
  rw [table, wired.running k start code fds here child]
  cases pipe with
  | status => exact ⟨⟨k, ⟨.status, .writing⟩, false⟩, wired.mem_table.mpr ⟨by simp [inherited], opened⟩, rfl, rfl⟩
  | exec => exact ⟨⟨k, ⟨.exec, .writing⟩, true⟩, wired.mem_table.mpr ⟨by simp [inherited], opened⟩, rfl, rfl⟩
  | «continue» => exact absurd rfl reported

/-- Its report finds a reader: the child itself has the other end open. -/
theorem vital_answered (wired : s.Wired) {k : Nat} {start : Start} {c : Call} {next : c.Answer → Code Nat} {fds : List Held}
    {fate : Fate} {answer : c.Answer} (here : s.starts k = some start)
    (child : start.child = some ⟨.running (.call c next), fds⟩) (vital : c.vital = true) (unfailed : fate.fail = none)
    (answered : s.reply k .child fate c = some answer) : ∃ value, answer = .ok value := by
  obtain ⟨pipe, bytes, rfl, reported⟩ : ∃ pipe bytes, c = .write pipe bytes ∧ pipe ≠ .continue := by
    cases c with
    | write pipe bytes =>
      refine ⟨pipe, bytes, rfl, ?_⟩
      rintro rfl
      cases vital
    | _ => cases vital
  have obeys := wired.sound.child k start _ fds here child
  have writing := wired.holds_report here child reported (childGuard.first_report reported obeys.1)
  have reading : s.Open k ⟨pipe, .reading⟩ := by
    refine .inr ⟨k, List.mem_range.mpr (wired.sound.known k start here), ?_⟩
    have table : s.childFds k = fds := by simp [System.childFds, System.child, here, child]
    rw [table, wired.running k start _ fds here child]
    refine ⟨⟨k, ⟨pipe, .reading⟩, false⟩, wired.keeps ?_, rfl, rfl⟩
    cases pipe <;> simp at reported ⊢
  have accepted : s.reply k .child fate (.write pipe bytes) = some (.ok ()) := by
    simp only [System.reply, unfailed, System.succeed, System.table, writing, reading, if_true]
  exact ⟨(), Option.some.inj (answered.symm.trans accepted)⟩

/-- A read of the manager gets an answer that is no error. -/
theorem read_answered (wired : s.Wired) {start : Start} {pipe : Pipe} {count : Nat} {fate : Fate}
    {next : (Call.read pipe count).Answer → Code (Except Int32 NamespaceStartResult)} {answer : (Call.read pipe count).Answer}
    (up : s.up = true) (here : s.starts (s.count - 1) = some start) (code : start.code = .call (.read pipe count) next)
    (unfailed : fate.fail = none ∨ fate.fail = some (.ofNat Errno.EINTR))
    (answered : s.reply (s.count - 1) .parent fate (.read pipe count) = some answer) : ∃ bytes, answer = .ok bytes := by
  have sighted := wired.closing _ start here
  rw [code] at sighted
  have holds : Holds (s.table (s.count - 1) .parent) (s.count - 1) ⟨pipe, .reading⟩ := by
    rw [System.table, wired.parent up]
    exact sighted.1.1
  rcases unfailed with none | interrupted
  · simp only [System.reply, none, System.succeed, holds, if_true] at answered
    split at answered
    · split at answered
      · cases answered
      · exact ⟨_, (Option.some.inj answered).symm⟩
    · exact ⟨_, (Option.some.inj answered).symm⟩
  · simp only [System.reply, interrupted, if_true] at answered
    cases answered

end System.Wired

/-! ## The invariant of steady runs -/

theorem Unasked.untaken {h : List Done} (unasked : Unasked h) : taken h .exec = [] := by
  rw [List.eq_nil_iff_forall_not_mem]
  intro b member
  obtain ⟨d, made, inside⟩ := List.mem_flatMap.mp member
  obtain ⟨count, read⟩ := d.mem_taken inside
  exact unasked count (read ▸ List.mem_map_of_mem made)

theorem System.Sound.poured_of_report {s : System} (sound : s.Sound) {k : Nat} {pipe : Pipe} {bytes : List UInt8}
    (reported : pipe ≠ .continue) (sent : (⟨.write pipe bytes, .ok ()⟩ : Done) ∈ history s.trace k .child) :
    poured s.trace k pipe = bytes := by
  rcases sound.poured_report k pipe reported with nothing | ⟨before, after, other, parts, all⟩
  · have inside : ∀ b ∈ bytes, b ∈ poured s.trace k pipe := by
      intro b member
      refine List.mem_flatMap.mpr ⟨_, mem_history.mp sent, ?_⟩
      rw [if_pos rfl]
      simpa [Done.sent] using member
    rw [nothing] at inside ⊢
    exact (List.eq_nil_iff_forall_not_mem.mpr fun b member => List.not_mem_nil (inside b member)).symm
  · have again : (⟨.write pipe other, .ok ()⟩ : Done) ∈ history s.trace k .child := by
      rw [mem_history, parts]
      exact List.mem_append_right _ List.mem_cons_self
    have same := sound.once (fun c => ∃ bytes, c = .write pipe bytes)
      (by rintro config h _ ⟨bytes, rfl⟩ kept _ ⟨other, rfl⟩; exact childGuard.first_report reported kept other)
      sent again ⟨_, rfl⟩ ⟨_, rfl⟩
    cases same
    exact all

theorem System.Sound.flow_report {s : System} (sound : s.Sound) {k : Nat} {start : Start}
    (here : s.starts k = some start) (pipe : Pipe) (reported : pipe ≠ .continue) :
    taken (history s.trace k .parent) pipe ++ s.contents k pipe = poured s.trace k pipe := by
  rw [← sound.drawn_report k reported, System.Sound.contents_eq here]
  exact sound.flow k start pipe here

/-- What the histories of both sides, and the child, have to do with each other when every turn was steady. -/
structure Frank (hp hc : List Done) (child : Option Child) : Prop where
  waiting : Exposed hc → ∃ code fds, child = some ⟨.running code, fds⟩
  executed : ∀ fds, child = some ⟨.executed, fds⟩ → ∃ argv, Succeeded hc (.execvp argv)
  sent : ∀ c error, c.vital = true → (⟨c, .error error⟩ : Done) ∉ hc
  heard : ∀ pipe count error, (⟨.read pipe count, .error error⟩ : Done) ∉ hp
  /-- End-of-file on the exec pipe means success. -/
  silence : (⟨.read .exec 4, .ok []⟩ : Done) ∈ hp → ∃ argv, Succeeded hc (.execvp argv)
  told : ∀ first more, (⟨.read .exec 4, .ok (first :: more)⟩ : Done) ∈ hp → (⟨.write .exec (first :: more), .ok ()⟩ : Done) ∈ hc
  /-- End-of-file on the status pipe means that the child is not, and will not be, ready. -/
  ended : ∀ count, (⟨.read .status count, .ok []⟩ : Done) ∈ hp → ¬ SaidReady hc ∧
    ∀ code fds, child = some ⟨.running code, fds⟩ → ∃ bytes, Call.write .status bytes ∈ calls hc

namespace Frank

variable {hp hc : List Done} {child : Option Child}

theorem fresh : Frank [] [] none where
  waiting exposed := nomatch exposed.1
  executed _ same := nomatch same
  sent _ _ _ member := nomatch member
  heard _ _ _ member := nomatch member
  silence member := nomatch member
  told _ _ member := nomatch member
  ended _ member := nomatch member

theorem gone (frank : Frank hp hc child) (unexposed : ¬ Exposed hc) : Frank hp hc (child.map fun _ => .gone) where
  waiting exposed := absurd exposed unexposed
  executed fds same := by
    obtain ⟨-, -, gone⟩ := Option.map_eq_some_iff.mp same
    cases gone
  sent := frank.sent
  heard := frank.heard
  silence := frank.silence
  told := frank.told
  ended count member := by
    refine ⟨(frank.ended count member).1, fun code fds running => ?_⟩
    obtain ⟨-, -, gone⟩ := Option.map_eq_some_iff.mp running
    cases gone

/-- A status with `ready` set that was to be sent was sent. -/
theorem saysReady (frank : Frank hp hc child) (said : SaidReady hc) : hc.any Done.saysReady = true := by
  obtain ⟨status, ready, called⟩ := said
  obtain ⟨⟨_, answer⟩, made, rfl⟩ := List.mem_map.mp called
  have vital : (Call.write .status status.bytes).vital = true := by simp [Call.vital, ready]
  cases answer with
  | error error => exact absurd made (frank.sent _ error vital)
  | ok value => exact List.any_eq_true.mpr ⟨_, made, by simp [Done.saysReady, ready]⟩

/-- The same of the `errno` of `execvp`. -/
theorem settles (frank : Frank hp hc child) {bytes : List UInt8} (called : Call.write .exec bytes ∈ calls hc) :
    (⟨.write .exec bytes, .ok ()⟩ : Done) ∈ hc := by
  obtain ⟨⟨_, answer⟩, made, rfl⟩ := List.mem_map.mp called
  cases answer with
  | error error => exact absurd made (frank.sent _ error rfl)
  | ok value => exact made

end Frank

structure System.Candid (s : System) : Prop where
  wired : s.Wired
  frank : ∀ k start, s.starts k = some start → Frank (history s.trace k .parent) (history s.trace k .child) start.child

namespace System.Candid

variable {s : System}

theorem initial : System.initial.Candid := ⟨.initial, fun _ _ here => nomatch here⟩

/-- A child exits when the manager does not count on it any more. -/
theorem unexposed_exit (candid : s.Candid) {k : Nat} {start : Start} {value : Nat} {fds : List Held}
    (here : s.starts k = some start) (child : start.child = some ⟨.running (.ret value), fds⟩) :
    ¬ Exposed (history s.trace k .child) := by
  rintro ⟨ready, unsettled⟩
  have none_settles := List.any_eq_false.mp unsettled
  have obeys : childPost value (history s.trace k .child) := candid.wired.sound.child k start _ fds here child
  rcases obeys with unsaid | ⟨bytes, called⟩ | ⟨argv, value, executed⟩
  · exact unsaid (candid.wired.sound.saidReady_of_sent ready)
  · exact none_settles _ ((candid.frank k start here).settles called) rfl
  · exact none_settles _ executed rfl

/-- Nor does the manager kill a child it counts on. -/
theorem unexposed_kill (candid : s.Candid) {k : Nat} {start : Start} (here : s.starts k = some start)
    (allowed : NoToken (history s.trace k .parent) ∨ ExecTold (history s.trace k .parent)) :
    ¬ Exposed (history s.trace k .child) := by
  rintro ⟨ready, unsettled⟩
  have frank := candid.frank k start here
  rcases allowed with untold | ⟨first, more, told⟩ | ⟨error, failed⟩
  · exact candid.wired.sound.told_of_saidReady (candid.wired.sound.saidReady_of_sent ready) untold
  · exact List.any_eq_false.mp unsettled _ (frank.told first more told) rfl
  · exact frank.heard _ _ _ failed

theorem childMade (candid : s.Candid) {k : Nat} {start : Start} {c : Call} {answer : c.Answer} {fds : List Held} {fate : Fate}
    {next : c.Answer → Code Nat} (here : s.starts k = some start) (child : start.child = some ⟨.running (.call c next), fds⟩)
    (answered : s.reply k .child fate c = some answer) (steady : c.vital = true → fate.fail = none) :
    Frank (history s.trace k .parent) (history s.trace k .child ++ [⟨c, answer⟩])
      (some (System.restage (next answer) ⟨c, answer⟩ (System.retable k ⟨c, answer⟩ fds))) := by
  have frank := candid.frank k start here
  have obeys := candid.wired.sound.child k start _ fds here child
  refine ⟨fun exposed => ?_, fun held now => ?_, fun other error vital member => ?_, frank.heard, fun member => ?_,
    fun first more member => ?_, fun count member => ?_⟩
  · rcases System.restage_cases (next answer) ⟨c, answer⟩ (System.retable k ⟨c, answer⟩ fds) with same | ⟨⟨argv, executed⟩, -⟩
    · exact ⟨_, _, congrArg some same⟩
    · refine absurd ?_ (List.any_eq_false.mp exposed.2 ⟨c, answer⟩ List.mem_concat_self)
      rw [executed]
      rfl
  · rcases System.restage_cases (next answer) ⟨c, answer⟩ (System.retable k ⟨c, answer⟩ fds) with same | ⟨⟨argv, executed⟩, -⟩
    · cases same.symm.trans (Option.some.inj now)
    · rw [executed]
      exact ⟨argv, .last _⟩
  · rcases List.mem_append.mp member with old | last
    · exact frank.sent other error vital old
    · cases List.mem_singleton.mp last
      obtain ⟨value, done⟩ := candid.wired.vital_answered here child vital (steady vital) answered
      cases done
  · obtain ⟨argv, executed⟩ := frank.silence member
    exact ⟨argv, executed.concat⟩
  · exact List.mem_append_left _ (frank.told first more member)
  · obtain ⟨unsaid, reported⟩ := frank.ended count member
    obtain ⟨bytes, written⟩ := reported _ _ child
    refine ⟨?_, fun _ _ _ => ⟨bytes, by simp [written]⟩⟩
    rintro ⟨status, ready, said⟩
    rw [calls_append] at said
    rcases List.mem_append.mp said with old | last
    · exact unsaid ⟨status, ready, old⟩
    · -- It has reported already.
      obtain rfl : c = .write .status status.bytes := (List.mem_singleton.mp last).symm
      exact childGuard.first_report (by decide) obeys.1 bytes written

/-- A pipe is at its end for the manager when a child that runs has reported on it. -/
theorem reported_of_end (candid : s.Candid) {k : Nat} {start : Start} {code : Code Nat} {fds : List Held} {pipe : Pipe}
    (here : s.starts k = some start) (child : start.child = some ⟨.running code, fds⟩) (reported : pipe ≠ .continue)
    (closed : ¬ s.Open k ⟨pipe, .writing⟩) : ∃ bytes, Call.write pipe bytes ∈ calls (history s.trace k .child) := by
  by_contra unreported
  push Not at unreported
  have holds := candid.wired.holds_report here child reported unreported
  exact closed (.inr ⟨k, List.mem_range.mpr (candid.wired.sound.known k start here), holds⟩)

theorem silence_read (candid : s.Candid) {k : Nat} {start : Start} {fate : Fate} (here : s.starts k = some start)
    (unasked : Unasked (history s.trace k .parent)) (ready : ReadReady (history s.trace k .parent))
    (answered : s.reply k .parent fate (.read .exec 4) = some (.ok [])) :
    ∃ argv, Succeeded (history s.trace k .child) (.execvp argv) := by
  have sound := candid.wired.sound
  have frank := candid.frank k start here
  obtain ⟨before, after, status, one, parts⟩ := sound.read_ready here ready
  have sent : (⟨.write .status status.bytes, .ok ()⟩ : Done) ∈ history s.trace k .child := by
    rw [mem_history, parts]
    exact List.mem_append_right _ List.mem_cons_self
  obtain ⟨empty, closed⟩ := System.reply_end (by decide) answered
  by_cases settled : (history s.trace k .child).any Done.settles = true
  · obtain ⟨d, made, settles⟩ := List.any_eq_true.mp settled
    rcases Done.of_settles settles with ⟨argv, rfl⟩ | ⟨bytes, rfl⟩
    · exact ⟨argv, (), made⟩
    · -- A report would still be in the pipe.
      obtain ⟨_, _, -, -, -, argv, error, -, rfl⟩ := sound.child_guarded made
      have flow := sound.flow_report here .exec (by decide)
      rw [unasked.untaken, empty, sound.poured_of_report (by decide) made] at flow
      cases flow
  · have exposed : Exposed (history s.trace k .child) :=
      ⟨frank.saysReady ⟨status, one, List.mem_map_of_mem sent⟩, Bool.eq_false_iff.mpr settled⟩
    obtain ⟨code, fds, child⟩ := frank.waiting exposed
    obtain ⟨bytes, called⟩ := candid.reported_of_end here child (by decide) closed
    exact absurd rfl (List.any_eq_false.mp exposed.2 _ (frank.settles called))

theorem told_read (candid : s.Candid) {k : Nat} {start : Start} {fate : Fate} {first : UInt8} {more : List UInt8}
    (here : s.starts k = some start) (unasked : Unasked (history s.trace k .parent)) (whole : 4 ≤ fate.bytes)
    (answered : s.reply k .parent fate (.read .exec 4) = some (.ok (first :: more))) :
    (⟨.write .exec (first :: more), .ok ()⟩ : Done) ∈ history s.trace k .child := by
  have sound := candid.wired.sound
  have flow := sound.flow_report here .exec (by decide)
  rw [unasked.untaken, List.nil_append] at flow
  rcases System.reply_read answered with ⟨-, -, nothing⟩ | ⟨full, rest⟩
  · cases nothing
  rcases sound.poured_report k .exec (by decide) with nothing | ⟨before, after, bytes, parts, all⟩
  · exact absurd (flow.trans nothing) full
  · have sent : (⟨.write .exec bytes, .ok ()⟩ : Done) ∈ history s.trace k .child := by
      rw [mem_history, parts]
      exact List.mem_append_right _ List.mem_cons_self
    obtain ⟨_, _, -, -, -, argv, error, -, encoded⟩ := sound.child_guarded sent
    have everything : (s.contents k .exec).take (min 4 (max 1 fate.bytes)) = bytes := by
      rw [flow, all]
      apply List.take_of_length_le
      rw [encoded, length_intBytes]
      omega
    rw [rest, everything]
    exact sent

theorem ended_read (candid : s.Candid) {k : Nat} {start : Start} {fate : Fate} {count : Nat} (here : s.starts k = some start)
    (some_left : 0 < count) (sofar : (taken (history s.trace k .parent) .status).length + count = NamespaceStatus.size)
    (answered : s.reply k .parent fate (.read .status count) = some (.ok [])) :
    ¬ SaidReady (history s.trace k .child) ∧
      ∀ code fds, start.child = some ⟨.running code, fds⟩ → ∃ bytes, Call.write .status bytes ∈ calls (history s.trace k .child) := by
  have sound := candid.wired.sound
  obtain ⟨empty, closed⟩ := System.reply_end some_left answered
  refine ⟨fun said => ?_, fun code fds child => candid.reported_of_end here child (by decide) closed⟩
  -- What the child has sent would be there as a whole.
  obtain ⟨d, made, sent⟩ := List.any_eq_true.mp ((candid.frank k start here).saysReady said)
  obtain ⟨bytes, rfl, -⟩ := Done.of_saysReady sent
  obtain ⟨_, _, -, -, -, status, rfl, -⟩ := sound.child_guarded made
  have flow := congrArg List.length (sound.flow_report here .status (by decide))
  rw [empty, sound.poured_of_report (by decide) made, List.append_nil, NamespaceStatus.length_bytes] at flow
  omega

theorem parentMade (candid : s.Candid) {start : Start} {c : Call} {answer : c.Answer} {fate : Fate}
    {next : c.Answer → Code (Except Int32 NamespaceStartResult)} (up : s.up = true)
    (here : s.starts (s.count - 1) = some start) (code : start.code = .call c next)
    (answered : s.reply (s.count - 1) .parent fate c = some answer) (steady : Fate.Smooth fate c) :
    Frank (history s.trace (s.count - 1) .parent ++ [⟨c, answer⟩]) (history s.trace (s.count - 1) .child)
      (System.rechild start.config s.fds ⟨c, answer⟩ start.child) := by
  have frank := candid.frank _ start here
  have obeys := candid.wired.sound.parent _ start here
  rw [code] at obeys
  have allowed : parentGuard (history s.trace (s.count - 1) .parent) c := obeys.1
  refine ⟨fun exposed => ?_, fun held now => ?_, frank.sent, fun pipe count error member => ?_, fun member => ?_,
    fun first more member => ?_, fun count member => ?_⟩
  · obtain ⟨held, fds, child⟩ := frank.waiting exposed
    rcases candid.wired.sound.rechild_born here code child with same | ⟨⟨pid, rfl⟩, -⟩
    · exact ⟨held, fds, same⟩
    · exact absurd exposed (candid.unexposed_kill here allowed)
  · rcases System.rechild_cases now with same | ⟨-, gone⟩ | ⟨-, new⟩
    · exact frank.executed held same
    · cases gone
    · cases new
  · rcases List.mem_append.mp member with old | last
    · exact frank.heard pipe count error old
    · cases List.mem_singleton.mp last
      obtain ⟨bytes, got⟩ := candid.wired.read_answered up here code steady.1 answered
      cases got
  · rcases List.mem_append.mp member with old | last
    · exact frank.silence old
    · cases List.mem_singleton.mp last
      rcases allowed with ⟨status, -⟩ | ⟨-, -, unasked, ready⟩
      · cases status
      · exact candid.silence_read here unasked ready answered
  · rcases List.mem_append.mp member with old | last
    · exact frank.told first more old
    · cases List.mem_singleton.mp last
      rcases allowed with ⟨status, -⟩ | ⟨-, -, unasked, -⟩
      · cases status
      · exact candid.told_read here unasked (steady.2 rfl) answered
  · have ended : ¬ SaidReady (history s.trace (s.count - 1) .child) ∧ ∀ code fds, start.child = some ⟨.running code, fds⟩ →
        ∃ bytes, Call.write .status bytes ∈ calls (history s.trace (s.count - 1) .child) := by
      rcases List.mem_append.mp member with old | last
      · exact frank.ended count old
      · cases List.mem_singleton.mp last
        rcases allowed with ⟨-, positive, sofar⟩ | ⟨exec, -⟩
        · exact candid.ended_read here positive sofar answered
        · cases exec
    refine ⟨ended.1, fun held fds running => ?_⟩
    rcases System.rechild_cases running with same | ⟨-, gone⟩ | ⟨rfl, -⟩
    · exact ended.2 held fds same
    · cases gone
    · -- The status is not read before there is a child.
      rcases List.mem_append.mp member with old | last
      · rw [(candid.wired.sound.clone_first here code).1] at old
        simp [opening] at old
      · cases List.mem_singleton.mp last

theorem childCall_eq {k : Nat} {start : Start} {c : Call} {next : c.Answer → Code Nat} {fds : List Held}
    (here : s.starts k = some start) (child : start.child = some ⟨.running (.call c next), fds⟩) : s.childCall k = some c := by
  simp [System.childCall, System.child, here, child]

theorem parentCall_eq {start : Start} {c : Call} {next : c.Answer → Code (Except Int32 NamespaceStartResult)}
    (here : s.starts (s.count - 1) = some start) (code : start.code = .call c next) : s.parentCall = some c := by
  obtain ⟨config, held, pipes, child⟩ := start
  cases code
  simp [System.parentCall, here]

theorem childGone (candid : s.Candid) {k : Nat} (unexposed : ¬ Exposed (history s.trace k .child)) : (s.childGone k).Candid := by
  refine ⟨candid.wired.childGone k, fun j other there => ?_⟩
  cases here : s.starts k with
  | none =>
    rw [System.childGone_of_none here] at there ⊢
    exact candid.frank j other there
  | some start =>
    rw [System.childGone_starts here] at there
    rcases Sound.lookup_update there with ⟨rfl, rfl⟩ | ⟨-, there⟩
    · exact (candid.frank j start here).gone unexposed
    · exact candid.frank j other there

theorem step (candid : s.Candid) {turn : Turn} (steady : s.Steady turn) : (s.step turn).Candid := by
  refine ⟨candid.wired.step turn, ?_⟩
  have taken := s.step_cases turn
  generalize s.step turn = after at taken
  cases taken with
  | nothing => exact candid.frank
  | start config up idle =>
    intro j other there
    rcases Sound.lookup_update there with ⟨rfl, rfl⟩ | ⟨-, there⟩
    · have nothing := candid.wired.sound.history_missing candid.wired.sound.missing_new
      simp only [System.begun, nothing]
      exact .fresh
    · exact candid.frank j other there
  | parent fate start c next answer up here code answered =>
    intro j other there
    rw [System.parentMade_starts here] at there
    rcases Sound.lookup_update there with ⟨rfl, rfl⟩ | ⟨different, there⟩
    · simp only [System.parentMade, System.record, System.change, history_self]
      rw [history_other (by simp)]
      exact candid.parentMade up here code answered (steady c (parentCall_eq here code))
    · simp only [System.parentMade, System.record, System.change]
      rw [history_other (by simp [Ne.symm different]), history_other (by simp)]
      exact candid.frank j other there
  | child k fate start c next fds answer here child answered =>
    intro j other there
    rw [System.childMade_starts here child] at there
    rcases Sound.lookup_update there with ⟨rfl, rfl⟩ | ⟨different, there⟩
    · simp only [System.childMade, System.record, System.change, history_self]
      rw [history_other (by simp)]
      exact candid.childMade here child answered (steady c (childCall_eq here child))
    · simp only [System.childMade, System.record, System.change]
      rw [history_other (by simp), history_other (by simp [Ne.symm different])]
      exact candid.frank j other there
  | exits k fate start value fds here child => exact (candid.childGone (candid.unexposed_exit here child)).frank
  | childDies k => exact (candid.childGone steady).frank
  | parentDies => exact candid.frank

/-! ## What a start may return -/

/-- `execvp` is called once. -/
theorem execvp_once (candid : s.Candid) {k : Nat} {d e : Done} {argv other : List Text} (made : d ∈ history s.trace k .child)
    (again : e ∈ history s.trace k .child) (one : d.call = .execvp argv) (two : e.call = .execvp other) : d = e :=
  candid.wired.sound.once (fun c => ∃ argv, c = .execvp argv)
    (by rintro config h _ ⟨argv, rfl⟩ kept _ ⟨other, rfl⟩; exact kept.2.2.2 other) made again ⟨_, one⟩ ⟨_, two⟩

theorem executed_of_success (candid : s.Candid) {k : Nat} {start : Start} {result : NamespaceStartResult}
    (here : s.starts k = some start) (returned : start.outcome = some (.ok result)) :
    ∃ argv, Succeeded (history s.trace k .child) (.execvp argv) := by
  have outcome := candid.wired.sound.parent k start here
  rw [Start.code_of_outcome returned] at outcome
  exact (candid.frank k start here).silence outcome.2

/-- The manager has read the status of a child that has got as far as `execvp`. -/
theorem not_unread (candid : s.Candid) {k : Nat} {start : Start} (here : s.starts k = some start)
    (said : SaidReady (history s.trace k .child)) : ¬ Unread (history s.trace k .parent) := by
  have sound := candid.wired.sound
  have frank := candid.frank k start here
  rintro ⟨unready, whole | ⟨count, ended | ⟨error, failed⟩⟩⟩
  · apply unready
    obtain ⟨d, made, sent⟩ := List.any_eq_true.mp (frank.saysReady said)
    obtain ⟨bytes, rfl, ready⟩ := Done.of_saysReady sent
    obtain ⟨_, _, -, -, -, status, rfl, -⟩ := sound.child_guarded made
    have flow := sound.flow_report here .status (by decide)
    rw [sound.poured_of_report (by decide) made] at flow
    have all : taken (history s.trace k .parent) .status = status.bytes := by
      apply List.IsPrefix.eq_of_length_le ⟨_, flow⟩
      rwa [NamespaceStatus.length_bytes]
    rw [ReadReady, all]
    exact ⟨rfl, ready⟩
  · exact (frank.ended count ended).1 said
  · exact frank.heard _ _ _ failed

theorem error_of_failure (candid : s.Candid) {k : Nat} {start : Start} {argv : List Text} {error : Int32}
    {value : Except Int32 NamespaceStartResult} (here : s.starts k = some start)
    (failed : (⟨.execvp argv, .error error⟩ : Done) ∈ history s.trace k .child) (returned : start.outcome = some value) :
    value = .error error := by
  have sound := candid.wired.sound
  have said := sound.saidReady_of_execvp (List.mem_map_of_mem failed)
  have outcome := sound.parent k start here
  rw [Start.code_of_outcome returned] at outcome
  cases value with
  | ok result =>
    obtain ⟨other, executed, made⟩ := candid.executed_of_success here returned
    cases candid.execvp_once failed made rfl rfl
  | error reported =>
    rcases outcome with untold | unread | ⟨first, more, read, meaning⟩ | ⟨cause, unheard⟩
    · exact absurd untold (sound.told_of_saidReady said)
    · exact absurd unread (candid.not_unread here said)
    · have sent := (candid.frank k start here).told first more read
      obtain ⟨_, h, -, subset, -, other, cause, known, encoded⟩ := sound.child_guarded sent
      cases candid.execvp_once failed (subset known) rfl rfl
      rw [encoded] at meaning
      rw [meaning (length_intBytes error), intOfBytes_intBytes]
    · exact absurd unheard ((candid.frank k start here).heard _ _ _)

end System.Candid

end ContainerRuntime.Namespace
