import ContainerRuntime.Namespace.Handshake

/-! What each side of the handshake keeps to.

For every call the guard of its side says what the side has done before it, and
for every return the outcome says how it has come about. Both are proved of the
codes alone: nothing is assumed of the answers.
-/

set_option autoImplicit false

namespace ContainerRuntime.Namespace

open CString Coroutine

/-- The call was made, and succeeded. -/
def Succeeded (h : List Done) (c : Call) : Prop := ∃ value, (⟨c, .ok value⟩ : Done) ∈ h

/-- The call was made, and failed. -/
def Failed (h : List Done) (c : Call) : Prop := ∃ error, (⟨c, .error error⟩ : Done) ∈ h

def calls (h : List Done) : List Call := h.map (·.call)

def taken (h : List Done) (pipe : Pipe) : List UInt8 := h.flatMap (Done.taken pipe)

def sent (h : List Done) (pipe : Pipe) : List UInt8 := h.flatMap (Done.sent pipe)

section

variable {h more : List Done} {c : Call}

theorem Succeeded.mono (succeeded : Succeeded h c) (subset : h ⊆ more) : Succeeded more c :=
  succeeded.imp fun _ member => subset member

theorem Succeeded.concat {d : Done} (succeeded : Succeeded h c) : Succeeded (h ++ [d]) c :=
  succeeded.mono (List.subset_append_left _ _)

theorem Succeeded.last (value : c.Value) : Succeeded (h ++ [⟨c, .ok value⟩]) c := ⟨value, by simp⟩

theorem Succeeded.mem_calls (succeeded : Succeeded h c) : c ∈ calls h := by
  obtain ⟨value, member⟩ := succeeded
  exact List.mem_map.mpr ⟨_, member, rfl⟩

@[simp] theorem calls_nil : calls [] = [] := rfl

@[simp] theorem calls_cons (d : Done) : calls (d :: h) = d.call :: calls h := rfl

@[simp] theorem calls_append : calls (h ++ more) = calls h ++ calls more := List.map_append

theorem taken_concat (d : Done) (pipe : Pipe) : taken (h ++ [d]) pipe = taken h pipe ++ d.taken pipe := by
  simp [taken]

end

/-! ## The child -/

/-- Everything that has to be done before the command may run. -/
structure Ready (config : NamespaceConfig) (h : List Done) : Prop where
  told : ∃ more, (⟨.read .continue 1, .ok (token :: more)⟩ : Done) ∈ h
  setgid : Succeeded h .setgid
  setuid : Succeeded h .setuid
  hostname : ∀ name, config.hostname = some name → name ≠ [] → Succeeded h (.sethostname name)
  rootfs : Succeeded h (.filesystemIsolateRootfs config.rootfs)
  argv : ∃ argv, buildExecArgv config.commandLine 256 32 = .ok argv
  limits : Succeeded h (.resourceApplyLimits config.resourceLimits)
  setpgid : Succeeded h .setpgid

theorem Ready.mono {config : NamespaceConfig} {h more : List Done} (ready : Ready config h) (subset : h ⊆ more) :
    Ready config more where
  told := ready.told.imp fun _ member => subset member
  setgid := ready.setgid.mono subset
  setuid := ready.setuid.mono subset
  hostname name given nonempty := (ready.hostname name given nonempty).mono subset
  rootfs := ready.rootfs.mono subset
  argv := ready.argv
  limits := ready.limits.mono subset
  setpgid := ready.setpgid.mono subset

/-- The child has reported nothing, and has not called `execvp`. -/
def Silent (h : List Done) : Prop := ∀ c ∈ calls h, (∀ pipe bytes, c ≠ .write pipe bytes) ∧ ∀ argv, c ≠ .execvp argv

/-- Some status with `ready = 1` was to be sent. -/
def SaidReady (h : List Done) : Prop :=
  ∃ status : NamespaceStatus, status.ready ≠ 0 ∧ Call.write .status status.bytes ∈ calls h

def childGuard (config : NamespaceConfig) (h : List Done) : Call → Prop
  | .read pipe count => pipe = .continue ∧ count = 1 ∧ h = []
  | .write .continue _ => False
  | .write .status bytes => Silent h ∧ ∃ status : NamespaceStatus, bytes = status.bytes ∧
      (status.ready = 0 ∨ status.ready = 1 ∧ Ready config h)
  | .write .exec bytes => (∀ other, Call.write .exec other ∉ calls h) ∧
      ∃ argv error, (⟨.execvp argv, .error error⟩ : Done) ∈ h ∧ bytes = intBytes error
  | .close fd => fd = ⟨.continue, .reading⟩ ∨ fd = ⟨.status, .writing⟩ ∧ (∃ bytes, Call.write .status bytes ∈ calls h) ∨
      fd = ⟨.exec, .writing⟩ ∧ ∃ bytes, Call.write .exec bytes ∈ calls h
  | .execvp argv => Ready config h ∧ buildExecArgv config.commandLine 256 32 = .ok argv ∧ SaidReady h ∧
      ∀ other, Call.execvp other ∉ calls h
  | .pipe _ | .closeOnExec _ | .clone | .writeTextFile _ | .kill _ | .waitpid _ => False
  | .setgid | .setuid | .sethostname _ | .filesystemIsolateRootfs _ | .remountProc | .networkSetupLoopback
  | .resourceApplyLimits _ | .setpgid | .getpid => True

/-- The child returns without having been ready, or with the news that `execvp` has failed. -/
def childPost (_ : Nat) (h : List Done) : Prop :=
  ¬ SaidReady h ∨ (∃ bytes, Call.write .exec bytes ∈ calls h) ∨ ∃ argv, Succeeded h (.execvp argv)

abbrev ChildObeys (config : NamespaceConfig) : List Done → Code Nat → Prop :=
  Code.Obeys (childGuard config) childPost

section Child

variable {config : NamespaceConfig} {h : List Done}

/-- Neither a report nor `execvp`. -/
def Call.Plain : Call → Prop
  | .write _ _ | .execvp _ => False
  | _ => True

theorem Silent.concat {c : Call} {a : c.Answer} (silent : Silent h) (plain : c.Plain) :
    Silent (h ++ [⟨c, a⟩]) := by
  intro other member
  rw [calls_append] at member
  rcases List.mem_append.mp member with old | last
  · exact silent other old
  · obtain rfl : other = c := List.mem_singleton.mp last
    constructor
    · rintro pipe bytes rfl
      exact plain
    · rintro argv rfl
      exact plain

theorem Silent.no_write (silent : Silent h) (pipe : Pipe) (bytes : List UInt8) : Call.write pipe bytes ∉ calls h :=
  fun member => (silent _ member).1 pipe bytes rfl

/-- The child reports once on each pipe. -/
theorem childGuard.first_report {pipe : Pipe} {bytes : List UInt8} (reported : pipe ≠ .continue)
    (allowed : childGuard config h (.write pipe bytes)) (other : List UInt8) : Call.write pipe other ∉ calls h := by
  cases pipe with
  | status => exact allowed.1.no_write .status other
  | exec => exact allowed.1 other
  | «continue» => exact absurd rfl reported

theorem attempt_rule {guard : List Done → Call → Prop} {α : Type} {post : α → List Done → Prop} {c : Call}
    {f : Option Int32 → Code α} (allowed : guard h c)
    (failure : ∀ error, Coroutine.Code.Obeys guard post (h ++ [⟨c, .error error⟩]) (f (some error)))
    (success : ∀ value, Coroutine.Code.Obeys guard post (h ++ [⟨c, .ok value⟩]) (f none)) :
    Coroutine.Code.Obeys guard post h (Code.attempt c >>= f) := by
  refine ⟨allowed, fun answer => ?_⟩
  cases answer with
  | error error => exact failure error
  | ok value => exact success value

/-- An attempt whose outcome is ignored. -/
theorem ignored_rule {guard : List Done → Call → Prop} {α : Type} {post : α → List Done → Prop} {c : Call}
    {f : Option Int32 → Code α} (allowed : guard h c)
    (next : ∀ answer failure, Coroutine.Code.Obeys guard post (h ++ [⟨c, answer⟩]) (f failure)) :
    Coroutine.Code.Obeys guard post h (Code.attempt c >>= f) :=
  attempt_rule allowed (fun error => next (.error error) _) fun value => next (.ok value) _

theorem close_rule {guard : List Done → Call → Prop} {α : Type} {post : α → List Done → Prop} {fd : End}
    {f : Unit → Code α} (allowed : guard h (.close fd))
    (next : ∀ answer, Coroutine.Code.Obeys guard post (h ++ [⟨.close fd, answer⟩]) (f ())) :
    Coroutine.Code.Obeys guard post h (Code.close fd >>= f) := by
  refine ⟨allowed, fun answer => ?_⟩
  cases answer with
  | error error => exact next (.error error)
  | ok value => exact next (.ok value)

/-- The one status a child sends. -/
theorem sendStatus_rule {status : NamespaceStatus} {f : Unit → Code Nat} (silent : Silent h)
    (ready : status.ready = 0 ∨ status.ready = 1 ∧ Ready config h)
    (next : ∀ sent closed, ChildObeys config
      (h ++ [⟨.write .status status.bytes, sent⟩] ++ [⟨.close ⟨.status, .writing⟩, closed⟩]) (f ())) :
    ChildObeys config h (sendStatus status >>= f) := by
  have told : ∀ sent, ChildObeys config (h ++ [⟨.write .status status.bytes, sent⟩])
      (Code.close ⟨.status, .writing⟩ >>= f) := fun sent =>
    close_rule (.inr (.inl ⟨rfl, status.bytes, by simp⟩)) (next sent)
  refine ⟨⟨silent, status, rfl, ready⟩, fun answer => ?_⟩
  cases answer with
  | error error => exact told (.error error)
  | ok value => exact told (.ok value)

theorem giveUp_obeys (silent : Silent h) (error : Int32) : ChildObeys config h (giveUp error) := by
  refine sendStatus_rule silent (.inl rfl) fun sent closed => .inl ?_
  rintro ⟨status, ready, said⟩
  simp only [calls_append, calls_cons, calls_nil, List.mem_append, List.mem_singleton, Call.write.injEq, true_and,
    reduceCtorEq, or_false] at said
  rcases said with early | same
  · exact silent.no_write _ _ early
  · -- The bytes are those of a status that is not ready.
    rw [NamespaceStatus.bytes_injective same] at ready
    exact ready rfl

theorem must_obeys {c : Call} {rest : Code Nat} (silent : Silent h) (plain : c.Plain) (allowed : childGuard config h c)
    (next : ∀ value, ChildObeys config (h ++ [⟨c, .ok value⟩]) rest) : ChildObeys config h (must c rest) :=
  attempt_rule allowed (fun error => giveUp_obeys (silent.concat plain) error) next

theorem mustUnless_obeys {c : Call} {tolerated : Int32} {rest : Code Nat} (silent : Silent h) (plain : c.Plain)
    (allowed : childGuard config h c) (next : ∀ answer, ChildObeys config (h ++ [⟨c, answer⟩]) rest) :
    ChildObeys config h (mustUnless c tolerated rest) := by
  refine attempt_rule allowed (fun error => ?_) fun value => next (.ok value)
  simp only
  split
  · exact giveUp_obeys (silent.concat plain) error
  · exact next (.error error)

theorem execute_obeys {argv : List Text} (silent : Silent h) (ready : Ready config h)
    (built : buildExecArgv config.commandLine 256 32 = .ok argv) : ChildObeys config h (execute argv) := by
  refine ⟨trivial, fun pid => ?_⟩
  refine sendStatus_rule (silent.concat trivial) (.inr ⟨rfl, ready.mono (List.subset_append_left _ _)⟩) fun sent closed => ?_
  generalize status_eq : NamespaceStatus.prepared _ = status at sent ⊢
  have ready_status : status.ready ≠ 0 := by
    rw [← status_eq]
    exact (by decide : (1 : Int32) ≠ 0)
  generalize history_eq : h ++ [_] ++ [⟨.write .status status.bytes, sent⟩] ++ [_] = told
  have grown : h ⊆ told := by
    rw [← history_eq, List.append_assoc, List.append_assoc]
    exact List.subset_append_left _ _
  have called : calls told = calls h ++ [.getpid, .write .status status.bytes, .close ⟨.status, .writing⟩] := by
    rw [← history_eq]
    simp
  have unexecuted : ∀ other, Call.execvp other ∉ calls told := by
    intro other member
    rw [called] at member
    simp only [List.mem_append, List.mem_cons, reduceCtorEq, List.not_mem_nil, or_false] at member
    exact (silent _ member).2 other rfl
  have unreported : ∀ bytes, Call.write .exec bytes ∉ calls told := by
    intro bytes member
    rw [called] at member
    simp only [List.mem_append, List.mem_cons, Call.write.injEq, reduceCtorEq, false_and, List.not_mem_nil, or_false] at member
    exact silent.no_write _ _ member
  have said : SaidReady told := by
    refine ⟨status, ready_status, ?_⟩
    rw [called]
    simp
  refine attempt_rule ⟨ready.mono grown, built, said, unexecuted⟩ (fun error => ?_) fun value => ?_
  · refine ignored_rule ⟨fun bytes member => ?_, argv, error, by simp, rfl⟩ fun answer _ => ?_
    · simp only [calls_append, calls_cons, calls_nil, List.mem_append, List.mem_singleton, reduceCtorEq, or_false] at member
      exact unreported bytes member
    · exact close_rule (.inr (.inr ⟨rfl, intBytes error, by simp⟩)) fun closed => .inr (.inl ⟨intBytes error, by simp⟩)
  · exact .inr (.inr ⟨argv, .last value⟩)

theorem isolate_obeys (silent : Silent h) (told : ∃ more, (⟨.read .continue 1, .ok (token :: more)⟩ : Done) ∈ h)
    (setgid : Succeeded h .setgid) (setuid : Succeeded h .setuid)
    (hostname : ∀ name, config.hostname = some name → name ≠ [] → Succeeded h (.sethostname name)) :
    ChildObeys config h (isolate config) := by
  refine must_obeys silent trivial trivial fun rootfs => ?_
  have silent := Silent.concat (a := .ok rootfs) silent trivial
  refine mustUnless_obeys silent trivial trivial fun remounted => ?_
  have silent := Silent.concat (a := remounted) silent trivial
  refine mustUnless_obeys silent trivial trivial fun loopback => ?_
  have silent := Silent.concat (a := loopback) silent trivial
  cases built : buildExecArgv config.commandLine 256 32 with
  | error error => exact giveUp_obeys silent _
  | ok argv =>
    apply attempt_rule trivial (fun error => giveUp_obeys (silent.concat (c := .resourceApplyLimits config.resourceLimits) trivial) _)
    intro limits
    have silent := Silent.concat (a := .ok limits) silent trivial
    refine must_obeys silent trivial trivial fun group => ?_
    refine execute_obeys (.concat silent trivial) ?_ built
    have grown : ∀ {c : Call}, Succeeded h c → Succeeded (h ++ [⟨.filesystemIsolateRootfs config.rootfs, .ok rootfs⟩] ++
        [⟨.remountProc, remounted⟩] ++ [⟨.networkSetupLoopback, loopback⟩] ++
        [⟨.resourceApplyLimits config.resourceLimits, .ok limits⟩] ++ [⟨.setpgid, .ok group⟩]) c :=
      fun succeeded => succeeded.concat.concat.concat.concat.concat
    refine ⟨?_, grown setgid, grown setuid, fun name given nonempty => grown (hostname name given nonempty),
      (Succeeded.last rootfs).concat.concat.concat.concat, ⟨argv, built⟩, (Succeeded.last limits).concat, .last group⟩
    obtain ⟨more, member⟩ := told
    exact ⟨more, by simp [member]⟩

theorem waitForParentReady_obeys (config : NamespaceConfig) :
    Coroutine.Code.Obeys (childGuard config)
      (fun error h => Silent h ∧ (error = none → ∃ more, (⟨.read .continue 1, .ok (token :: more)⟩ : Done) ∈ h))
      [] waitForParentReady := by
  have nothing : Silent [] := fun c member => nomatch member
  have silent : ∀ answer closed, Silent ([] ++ [⟨.read .continue 1, answer⟩] ++ [⟨.close ⟨.continue, .reading⟩, closed⟩]) :=
    fun answer closed => .concat (.concat nothing trivial) trivial
  refine ⟨⟨rfl, rfl, rfl⟩, fun answer => ?_⟩
  rcases answer with error | (_ | ⟨first, more⟩)
  · exact close_rule (.inl rfl) fun closed => ⟨silent _ closed, nofun⟩
  · exact close_rule (.inl rfl) fun closed => ⟨silent _ closed, nofun⟩
  · apply close_rule (.inl rfl)
    intro closed
    by_cases right : first = token
    · rw [if_pos right]
      exact ⟨silent _ closed, fun _ => ⟨more, by simp [right]⟩⟩
    · rw [if_neg right]
      exact ⟨silent _ closed, nofun⟩

theorem namespaceChild_obeys (config : NamespaceConfig) : ChildObeys config [] (namespaceChild config) := by
  refine .bind (waitForParentReady_obeys config) fun error h ⟨silent, told⟩ => ?_
  cases error with
  | some error => exact giveUp_obeys silent error
  | none =>
    obtain ⟨more, told⟩ := told rfl
    refine must_obeys silent trivial trivial fun group => must_obeys (.concat silent trivial) trivial trivial fun user => ?_
    have silent := Silent.concat (a := .ok user) (Silent.concat (a := .ok group) silent trivial) trivial
    have setgid := (Succeeded.last (h := h) group).concat (d := ⟨.setuid, .ok user⟩)
    have setuid := Succeeded.last (h := h ++ [⟨.setgid, .ok group⟩]) user
    split
    · rename_i given
      exact isolate_obeys silent ⟨more, by simp [told]⟩ setgid setuid fun name same => by simp [given] at same
    · rename_i given
      apply isolate_obeys silent ⟨more, by simp [told]⟩ setgid setuid
      intro name same nonempty
      rw [given] at same
      exact absurd (Option.some.inj same).symm nonempty
    · rename_i name other given
      refine must_obeys silent trivial trivial fun named => ?_
      refine isolate_obeys (.concat silent trivial) ⟨more, by simp [told]⟩ setgid.concat setuid.concat fun same known _ => ?_
      rw [given] at known
      cases known
      exact .last named

end Child

/-! ## The parent -/

/-- The calls that come before `clone`. -/
def opening : List Done :=
  [⟨.pipe .status, .ok ()⟩, ⟨.pipe .exec, .ok ()⟩, ⟨.closeOnExec ⟨.exec, .writing⟩, .ok ()⟩, ⟨.pipe .continue, .ok ()⟩]

/-- The child has not been told to go on. -/
def NoToken (h : List Done) : Prop := ∀ bytes, ¬ Succeeded h (.write .continue bytes)

/-- Nothing has been asked for on the exec pipe. -/
def Unasked (h : List Done) : Prop := ∀ count, Call.read .exec count ∉ calls h

/-- The exec pipe has had an answer other than end-of-file. -/
def ExecTold (h : List Done) : Prop :=
  (∃ first more, (⟨.read .exec 4, .ok (first :: more)⟩ : Done) ∈ h) ∨ Failed h (.read .exec 4)

/-- The status pipe has come to its end, or cannot be read. -/
def StatusEnded (h : List Done) : Prop :=
  ∃ count, (⟨.read .status count, .ok []⟩ : Done) ∈ h ∨ Failed h (.read .status count)

/-- The whole status was read, and it says that the child is ready. -/
def ReadReady (h : List Done) : Prop :=
  (taken h .status).length = NamespaceStatus.size ∧ (NamespaceStatus.ofBytes (taken h .status)).ready ≠ 0

def parentGuard (h : List Done) : Call → Prop
  | .pipe pipe => h ++ [⟨.pipe pipe, .ok ()⟩] <+: opening
  | .closeOnExec fd => h ++ [⟨.closeOnExec fd, .ok ()⟩] <+: opening
  | .clone => h = opening
  | .write pipe bytes => pipe = .continue ∧ bytes = [token] ∧ Succeeded h (.writeTextFile .uidMap) ∧
      Succeeded h (.writeTextFile .gidMap)
  | .read pipe count =>
      pipe = .status ∧ 0 < count ∧ (taken h .status).length + count = NamespaceStatus.size ∨
      pipe = .exec ∧ count = 4 ∧ Unasked h ∧ ReadReady h
  | .kill _ => NoToken h ∨ ExecTold h
  | .close _ | .writeTextFile _ | .waitpid _ => True
  | .setgid | .setuid | .sethostname _ | .filesystemIsolateRootfs _ | .remountProc | .networkSetupLoopback
  | .resourceApplyLimits _ | .setpgid | .getpid | .execvp _ => False

/-- The status pipe was read to its end, and no child was ready. -/
def Unread (h : List Done) : Prop :=
  ¬ ReadReady h ∧ (NamespaceStatus.size ≤ (taken h .status).length ∨ StatusEnded h)

def parentPost : Except Int32 NamespaceStartResult → List Done → Prop
  | .ok _, h => ReadReady h ∧ (⟨.read .exec 4, .ok []⟩ : Done) ∈ h
  | .error error, h => NoToken h ∨ Unread h ∨
      (∃ first more, (⟨.read .exec 4, .ok (first :: more)⟩ : Done) ∈ h ∧
        ((first :: more).length = 4 → error = intOfBytes (first :: more))) ∨
      Failed h (.read .exec 4)

abbrev ParentObeys : List Done → Code (Except Int32 NamespaceStartResult) → Prop := Code.Obeys parentGuard parentPost

section Parent

variable {h : List Done}

/-- A call that moves no bytes. -/
def Call.Still : Call → Prop
  | .read _ _ | .write _ _ => False
  | _ => True

theorem NoToken.concat {c : Call} {a : c.Answer} (untold : NoToken h) (still : c.Still) : NoToken (h ++ [⟨c, a⟩]) := by
  rintro bytes ⟨value, member⟩
  rcases List.mem_append.mp member with old | last
  · exact untold bytes ⟨value, old⟩
  · cases List.mem_singleton.mp last
    exact still

theorem Unasked.concat {c : Call} {a : c.Answer} (unasked : Unasked h) (other : ∀ count, c ≠ .read .exec count) :
    Unasked (h ++ [⟨c, a⟩]) := by
  intro count member
  rw [calls_append] at member
  rcases List.mem_append.mp member with old | last
  · exact unasked count old
  · exact other count (List.mem_singleton.mp last).symm

theorem taken_still {c : Call} {a : c.Answer} (still : c.Still) (pipe : Pipe) :
    taken (h ++ [⟨c, a⟩]) pipe = taken h pipe := by
  rw [taken_concat]
  cases c with
  | read => exact still.elim
  | write => exact still.elim
  | _ => exact List.append_nil _

theorem StatusEnded.mono {more : List Done} (ended : StatusEnded h) (subset : h ⊆ more) : StatusEnded more := by
  obtain ⟨count, finished | ⟨error, failed⟩⟩ := ended
  · exact ⟨count, .inl (subset finished)⟩
  · exact ⟨count, .inr ⟨error, subset failed⟩⟩

theorem Unread.concat {c : Call} {a : c.Answer} (unread : Unread h) (still : c.Still) : Unread (h ++ [⟨c, a⟩]) := by
  rw [Unread, ReadReady, taken_still still]
  exact ⟨unread.1, unread.2.imp_right fun ended => ended.mono (List.subset_append_left _ _)⟩

theorem closeAll_rule {guard : List Done → Call → Prop} {α : Type} {post : α → List Done → Prop} {fds : List End}
    {f : Unit → Code α} {I : List Done → Prop} (allowed : ∀ h fd, guard h (.close fd)) (start : I h)
    (closing : ∀ h fd answer, I h → I (h ++ [⟨.close fd, answer⟩]))
    (next : ∀ h, I h → Coroutine.Code.Obeys guard post h (f ())) :
    Coroutine.Code.Obeys guard post h (Code.closeAll fds >>= f) := by
  induction fds generalizing h with
  | nil => exact next h start
  | cons fd rest ih =>
    have later : ∀ answer, Coroutine.Code.Obeys guard post (h ++ [⟨.close fd, answer⟩]) (Code.closeAll rest >>= f) :=
      fun answer => ih (closing h fd answer start)
    refine ⟨allowed h fd, fun answer => ?_⟩
    cases answer with
    | error error => exact later (.error error)
    | ok value => exact later (.ok value)

theorem abandon_obeys {pid : Pid} {error : Int32} (allowed : NoToken h ∨ ExecTold h)
    (outcome : ∀ killed reaped, parentPost (.error error) (h ++ [⟨.kill pid, killed⟩] ++ [⟨.waitpid pid, reaped⟩])) :
    ParentObeys h (abandon pid error) :=
  ignored_rule allowed fun killed _ => ignored_rule trivial fun reaped _ => outcome killed reaped

/-- What `read_exec_status` makes of the answer it gets. -/
def ExecRead (h : List Done) : Option Int32 → Prop
  | none => (⟨.read .exec 4, .ok []⟩ : Done) ∈ h
  | some error => Failed h (.read .exec 4) ∨ ∃ first more, (⟨.read .exec 4, .ok (first :: more)⟩ : Done) ∈ h ∧
      ((first :: more).length = 4 → error = intOfBytes (first :: more))

theorem readExecStatus_obeys (unasked : Unasked h) (ready : ReadReady h) :
    Coroutine.Code.Obeys parentGuard (fun result after => ExecRead after result ∧ taken after .status = taken h .status)
      h readExecStatus := by
  have untouched : ∀ answer closed, taken (h ++ [⟨.read .exec 4, answer⟩] ++ [⟨.close ⟨.exec, .reading⟩, closed⟩]) .status =
      taken h .status := by
    intro answer closed
    rw [taken_still (c := .close _) trivial, taken_concat]
    cases answer <;> exact List.append_nil _
  refine ⟨.inr ⟨rfl, rfl, unasked, ready⟩, fun answer => ?_⟩
  rcases answer with error | bytes
  · exact close_rule trivial fun closed => ⟨.inl ⟨error, by simp⟩, untouched _ closed⟩
  · apply close_rule trivial
    intro closed
    rcases bytes with _ | ⟨first, more⟩
    · exact ⟨by simp [ExecRead], untouched _ closed⟩
    · simp only [reduceCtorEq, if_false]
      split
      · exact ⟨.inr ⟨first, more, by simp, fun _ => rfl⟩, untouched _ closed⟩
      · rename_i short
        exact ⟨.inr ⟨first, more, by simp, fun whole => (short whole).elim⟩, untouched _ closed⟩

theorem awaitExec_obeys {pid : Pid} {status : NamespaceStatus} (ready : ReadReady h) (unasked : Unasked h) :
    ParentObeys h (awaitExec pid status) := by
  refine .bind (readExecStatus_obeys unasked ready) fun result after ⟨read, same⟩ => ?_
  cases result with
  | none => exact ⟨by rwa [ReadReady, same], read⟩
  | some error =>
    rcases read with ⟨failure, failed⟩ | ⟨first, more, told, meaning⟩
    · apply abandon_obeys (.inr (.inr ⟨failure, failed⟩))
      intro killed reaped
      exact .inr (.inr (.inr ⟨failure, by simp [failed]⟩))
    · apply abandon_obeys (.inr (.inl ⟨first, more, told⟩))
      intro killed reaped
      exact .inr (.inr (.inl ⟨first, more, by simp [told], meaning⟩))

/-- The loop of `read_status` ends with a whole status, or because nothing more comes. -/
theorem readStatus_obeys {rounds : Nat} {received : List UInt8} (sofar : received = taken h .status) (unasked : Unasked h)
    (enough : NamespaceStatus.size ≤ received.length + rounds) :
    Coroutine.Code.Obeys parentGuard (fun received h => received = taken h .status ∧ Unasked h ∧
      (NamespaceStatus.size ≤ received.length ∨ StatusEnded h)) h (readStatus rounds received) := by
  induction rounds generalizing h received with
  | zero => exact ⟨sofar, unasked, .inl enough⟩
  | succ rounds ih =>
    unfold readStatus
    split
    · rename_i whole
      exact ⟨sofar, unasked, .inl whole⟩
    · rename_i short
      refine ⟨.inl ⟨rfl, by omega, by rw [← sofar]; omega⟩, fun answer => ?_⟩
      have unasked : Unasked (h ++ [⟨.read .status (NamespaceStatus.size - received.length), answer⟩]) :=
        unasked.concat (by simp)
      rcases answer with error | (_ | ⟨first, more⟩)
      · refine ⟨?_, unasked, .inr ⟨_, .inr ⟨error, List.mem_concat_self⟩⟩⟩
        rw [taken_concat, ← sofar]
        exact (List.append_nil _).symm
      · refine ⟨?_, unasked, .inr ⟨_, .inl List.mem_concat_self⟩⟩
        rw [taken_concat, ← sofar]
        exact (List.append_nil _).symm
      · refine ih ?_ unasked ?_
        · rw [taken_concat, ← sofar]
          rfl
        · simp only [List.length_append, List.length_cons]
          omega

theorem overwrite_of_whole {received : List UInt8} (whole : received.length = NamespaceStatus.size) :
    overwrite received = .ofBytes received := by
  have nothing : NamespaceStatus.blank.bytes.drop received.length = [] := List.drop_of_length_le (by rw [whole]; rfl)
  rw [overwrite, nothing, List.append_nil]

theorem awaitStatus_obeys {pid : Pid} (untaken : taken h .status = []) (unasked : Unasked h) :
    ParentObeys h (awaitStatus pid) := by
  refine .bind (readStatus_obeys untaken.symm unasked (by simp)) fun received h ⟨sofar, unasked, ended⟩ => ?_
  simp only
  split
  · rename_i refused
    have unready : ¬ ReadReady h := by
      rintro ⟨whole, ready⟩
      rw [← sofar] at whole ready
      rw [overwrite_of_whole whole] at refused
      exact refused.elim (fun other => other whole) ready
    -- Neither the closing of the pipes nor the reaping of the child changes how the status was read.
    have kept : ∀ {c : Call} {h : List Done} (answer : c.Answer), c.Still → Unread h → Unread (h ++ [⟨c, answer⟩]) :=
      fun answer still unread => unread.concat still
    refine closeAll_rule (I := Unread) (fun _ _ => trivial) ⟨unready, sofar ▸ ended⟩
      (fun h fd answer => kept answer trivial) fun h unread => ?_
    exact ignored_rule trivial fun reaped _ => .inr (.inl (kept reaped trivial unread))
  · rename_i accepted
    simp only [not_or, not_not] at accepted
    refine close_rule trivial fun closed => awaitExec_obeys ?_ (unasked.concat (by simp))
    rw [ReadReady, taken_still (c := .close _) trivial, ← sofar, ← overwrite_of_whole accepted.1]
    exact accepted

/-- No byte has been moved yet. -/
structure Early (h : List Done) : Prop where
  untold : NoToken h
  untaken : taken h .status = []
  unasked : Unasked h

theorem Early.nil : Early [] := ⟨(fun _ ⟨_, member⟩ => nomatch member), rfl, fun _ member => nomatch member⟩

theorem Early.concat {c : Call} {a : c.Answer} (early : Early h) (still : c.Still) : Early (h ++ [⟨c, a⟩]) := by
  refine ⟨early.untold.concat still, ?_, early.unasked.concat ?_⟩
  · rw [taken_still still]
    exact early.untaken
  · rintro count rfl
    exact still

theorem configureUserNamespace_obeys (early : Early h) :
    Coroutine.Code.Obeys parentGuard (fun failure h => Early h ∧
      (failure = none → Succeeded h (.writeTextFile .uidMap) ∧ Succeeded h (.writeTextFile .gidMap)))
      h configureUserNamespace := by
  apply ignored_rule trivial
  intro setgroups failure
  have early := Early.concat (a := setgroups) early trivial
  split
  · rename_i refused
    refine ⟨early, fun absurd => ?_⟩
    rw [absurd] at refused
    cases refused.1
  · refine attempt_rule trivial (fun error => ?_) fun uid => ?_
    · exact ⟨early.concat (c := .writeTextFile .uidMap) trivial, nofun⟩
    · have early := Early.concat (a := .ok uid) early trivial
      refine ⟨trivial, fun answer => ?_⟩
      cases answer with
      | error error => exact ⟨early.concat (c := .writeTextFile .gidMap) trivial, nofun⟩
      | ok gid =>
        refine ⟨early.concat (c := .writeTextFile .gidMap) trivial, fun _ => ⟨(Succeeded.last uid).concat, .last gid⟩⟩

/-- The child is given up before it was told to go on. -/
theorem withdraw_obeys {pid : Pid} {error : Int32} {fds : List End} (untold : NoToken h) :
    ParentObeys h (Code.closeAll fds >>= fun _ => abandon pid error) := by
  refine closeAll_rule (I := NoToken) (fun _ _ => trivial) untold (fun h fd answer untold => .concat untold trivial)
    fun h untold => ?_
  exact abandon_obeys (.inl untold) fun killed reaped => .inl (.concat (.concat untold trivial) trivial)

theorem guide_obeys {pid : Pid} (early : Early h) : ParentObeys h (guide pid) := by
  refine closeAll_rule (I := Early) (fun _ _ => trivial) early (fun h fd answer early => .concat early trivial)
    fun h early => ?_
  refine .bind (configureUserNamespace_obeys early) fun failure h ⟨early, mapped⟩ => ?_
  cases failure with
  | some error => exact withdraw_obeys early.untold
  | none =>
    refine attempt_rule ⟨rfl, rfl, mapped rfl⟩ (fun error => withdraw_obeys ?_) fun written => ?_
    · rintro bytes ⟨value, member⟩
      rcases List.mem_append.mp member with old | last
      · exact early.untold bytes ⟨value, old⟩
      · cases List.mem_singleton.mp last
    · refine close_rule trivial fun closed => awaitStatus_obeys ?_ ?_
      · rw [taken_still (c := .close _) trivial, taken_concat, early.untaken]
        rfl
      · exact (early.unasked.concat (by simp)).concat (by simp)

/-- Nothing has been cloned. -/
theorem retreat_obeys {error : Int32} {fds : List End} (untold : NoToken h) :
    ParentObeys h (Code.closeAll fds >>= fun _ => pure (.error error)) :=
  closeAll_rule (I := NoToken) (fun _ _ => trivial) untold (fun _ _ _ untold => .concat untold trivial)
    fun _ untold => .inl untold

theorem namespaceStartContainer_obeys (config : NamespaceConfig) : ParentObeys [] (namespaceStartContainer config) := by
  unfold namespaceStartContainer
  split
  · exact .inl Early.nil.untold
  refine attempt_rule ⟨_, rfl⟩ (fun error => .inl (.concat Early.nil.untold trivial)) fun _ => ?_
  have early := Early.concat (c := .pipe .status) (a := .ok ()) Early.nil trivial
  refine attempt_rule ⟨_, rfl⟩ (fun error => retreat_obeys (.concat early.untold trivial)) fun _ => ?_
  have early := Early.concat (c := .pipe .exec) (a := .ok ()) early trivial
  refine attempt_rule ⟨_, rfl⟩ (fun error => retreat_obeys (.concat early.untold trivial)) fun _ => ?_
  have early := Early.concat (c := .closeOnExec ⟨.exec, .writing⟩) (a := .ok ()) early trivial
  refine attempt_rule ⟨_, rfl⟩ (fun error => retreat_obeys (.concat early.untold trivial)) fun _ => ?_
  have early := Early.concat (c := .pipe .continue) (a := .ok ()) early trivial
  refine ⟨rfl, fun answer => ?_⟩
  cases answer with
  | error error => exact retreat_obeys (.concat early.untold trivial)
  | ok pid => exact guide_obeys (.concat early trivial)

end Parent

end ContainerRuntime.Namespace
