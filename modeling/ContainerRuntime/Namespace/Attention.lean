import ContainerRuntime.Namespace.Progress

/-! What comes before the waits of the handshake.

The manager listens to a child only that it has told to go on, and waits for a
child to be gone when it has killed it, or when the status pipe has told that it
is not ready. The child has closed its end of the status pipe before it calls
`execvp`. Together with the pipes this says what each may still expect of the other.
-/

set_option autoImplicit false

namespace ContainerRuntime.Namespace

open CString Coroutine

/-! ## What comes before a wait -/

section Attentive

variable {h : List Done} {α : Type} {post : α → List Done → Prop}

/-- There is a child, and it has been told to go on. -/
def Briefed (h : List Done) : Prop := Succeeded h .clone ∧ ¬ NoToken h

/-- The manager listens to a child that has been told to go on, and waits for one that it has killed, or
that has not said that it is ready. -/
def Attentive (h : List Done) : Call → Prop
  | .read _ _ => Briefed h
  | .kill _ => Succeeded h .clone
  | .waitpid _ => (∃ pid, Call.kill pid ∈ calls h) ∧ Succeeded h .clone ∨ Briefed h ∧ Unread h
  | _ => True

/-- A start that fails after `clone` has waited for its child. -/
def Reaps : Except Int32 NamespaceStartResult → List Done → Prop
  | .ok _, _ => True
  | .error _, h => Succeeded h .clone → ∃ pid, Call.waitpid pid ∈ calls h

abbrev Attends (post : α → List Done → Prop) : List Done → Code α → Prop := Code.Obeys Attentive post

/-- What stays true of a history that grows. -/
def Lasting (P : List Done → Prop) : Prop := ∀ h d, P h → P (h ++ [d])

theorem lasting_cloned : Lasting fun h => Succeeded h .clone := fun _ _ cloned => cloned.concat

theorem lasting_briefed : Lasting Briefed := by
  intro h d briefed
  refine ⟨briefed.1.concat, fun untold => briefed.2 ?_⟩
  intro bytes succeeded
  exact untold bytes succeeded.concat

theorem abandon_attends {pid : Pid} {error : Int32} (cloned : Succeeded h .clone) :
    Attends Reaps h (abandon pid error) := by
  have known : Attentive h (.kill pid) := cloned
  apply ignored_rule known
  intro killed _
  have asked : Attentive (h ++ [⟨.kill pid, killed⟩]) (.waitpid pid) := .inl ⟨⟨pid, by simp⟩, cloned.concat⟩
  apply ignored_rule asked
  intro reaped _ _
  exact ⟨pid, by simp⟩

/-- A call that needs nothing to have come before it. -/
def Call.Free : Call → Prop
  | .read _ _ | .kill _ | .waitpid _ => False
  | _ => True

theorem attentive_free {c : Call} (free : c.Free) : Attentive h c := by
  cases c with
  | read pipe count => exact free.elim
  | kill pid => exact free.elim
  | waitpid pid => exact free.elim
  | _ => trivial

section Lasting

variable {P : List Done → Prop}

theorem attempt_attends {c : Call} {f : Option Int32 → Code α} (lasting : Lasting P) (holds : P h) (free : c.Free)
    (next : ∀ h' failure, P h' → Attends post h' (f failure)) : Attends post h (Code.attempt c >>= f) := by
  apply ignored_rule (attentive_free free)
  intro answer failure
  exact next _ failure (lasting _ _ holds)

theorem close_attends {fd : End} {f : Unit → Code α} (lasting : Lasting P) (holds : P h)
    (next : ∀ h', P h' → Attends post h' (f ())) : Attends post h (Code.close fd >>= f) := by
  have free : Attentive h (.close fd) := attentive_free trivial
  apply close_rule free
  intro answer
  exact next _ (lasting _ _ holds)

theorem closeAll_attends {fds : List End} {f : Unit → Code α} (lasting : Lasting P) (holds : P h)
    (next : ∀ h', P h' → Attends post h' (f ())) : Attends post h (Code.closeAll fds >>= f) :=
  closeAll_rule (fun _ _ => attentive_free trivial) holds (fun h _ _ holds => lasting h _ holds) next

end Lasting

theorem readExecStatus_attends (briefed : Briefed h) : Attends (fun _ after => Briefed after) h readExecStatus := by
  refine ⟨briefed, fun answer => ?_⟩
  have read := lasting_briefed _ ⟨.read .exec 4, answer⟩ briefed
  cases answer with
  | error error => exact close_attends lasting_briefed read fun _ after => after
  | ok bytes =>
    apply close_attends lasting_briefed read
    intro h' after
    split
    · exact after
    · split <;> exact after

theorem readStatus_attends {rounds : Nat} {received : List UInt8} (briefed : Briefed h) :
    Attends (fun _ after => Briefed after) h (readStatus rounds received) := by
  induction rounds generalizing h received with
  | zero => exact briefed
  | succ rounds ih =>
    unfold readStatus
    split
    · exact briefed
    · refine ⟨briefed, fun answer => ?_⟩
      have after := lasting_briefed _ ⟨.read .status (NamespaceStatus.size - received.length), answer⟩ briefed
      rcases answer with error | (_ | ⟨first, more⟩)
      · exact after
      · exact after
      · exact ih after

theorem awaitExec_attends {pid : Pid} {status : NamespaceStatus} (briefed : Briefed h) :
    Attends Reaps h (awaitExec pid status) := by
  apply Code.Obeys.bind (readExecStatus_attends briefed)
  intro result after briefed
  cases result with
  | some error => exact abandon_attends briefed.1
  | none => trivial

theorem awaitStatus_attends {pid : Pid} (briefed : Briefed h) (untaken : taken h .status = []) (unasked : Unasked h) :
    Attends Reaps h (awaitStatus pid) := by
  have listens : Attends (fun _ after => Briefed after) h (readStatus NamespaceStatus.size []) := readStatus_attends briefed
  apply Code.Obeys.bind (listens.and_post (readStatus_obeys untaken.symm unasked (by simp)))
  rintro received h ⟨briefed, sofar, -, ended⟩
  simp only
  split
  · rename_i refused
    have unready : ¬ ReadReady h := by
      rintro ⟨whole, ready⟩
      rw [← sofar] at whole ready
      rw [overwrite_of_whole whole] at refused
      exact refused.elim (fun other => other whole) ready
    have unread : Briefed h ∧ Unread h := ⟨briefed, unready, sofar ▸ ended⟩
    -- Only pipes are closed before the wait.
    apply closeAll_rule (I := fun h => Briefed h ∧ Unread h) (fun _ _ => attentive_free trivial) unread
    · rintro h fd answer ⟨briefed, unread⟩
      exact ⟨lasting_briefed _ _ briefed, unread.concat trivial⟩
    · intro h unread
      have known : Attentive h (.waitpid pid) := .inr unread
      apply ignored_rule known
      intro reaped _ _
      exact ⟨pid, by simp⟩
  · exact close_attends lasting_briefed briefed fun h' briefed => awaitExec_attends briefed

theorem configureUserNamespace_attends (cloned : Succeeded h .clone) :
    Attends (fun _ after => Succeeded after .clone) h configureUserNamespace := by
  refine attempt_attends lasting_cloned cloned trivial fun h setgroups cloned => ?_
  split
  · exact cloned
  · refine attempt_attends lasting_cloned cloned trivial fun h uid cloned => ?_
    cases uid with
    | some error => exact cloned
    | none =>
      refine ⟨trivial, fun answer => ?_⟩
      cases answer <;> exact cloned.concat

theorem guide_attends {pid : Pid} (early : Early h) (cloned : Succeeded h .clone) :
    Attends Reaps h (guide pid) := by
  have withdrawn : ∀ (h : List Done) (fds : List End) (error : Int32), Succeeded h .clone →
      Attends Reaps h (Code.closeAll fds >>= fun _ => abandon pid error) :=
    fun h fds error cloned => closeAll_attends lasting_cloned cloned fun _ cloned => abandon_attends cloned
  apply closeAll_rule (I := fun h => Early h ∧ Succeeded h .clone) (fun _ _ => attentive_free trivial) ⟨early, cloned⟩
  · rintro h fd answer ⟨early, cloned⟩
    exact ⟨early.concat trivial, cloned.concat⟩
  rintro h ⟨early, cloned⟩
  apply Code.Obeys.bind ((configureUserNamespace_attends cloned).and_post (configureUserNamespace_obeys early))
  rintro failure h ⟨cloned, early, -⟩
  cases failure with
  | some error => exact withdrawn h _ error cloned
  | none =>
    refine attempt_rule trivial (fun error => ?_) fun written => ?_
    · exact withdrawn _ _ error cloned.concat
    · have told : Briefed (h ++ [⟨.write .continue [token], .ok written⟩]) :=
        ⟨cloned.concat, fun untold => untold [token] (.last written)⟩
      have untaken : taken (h ++ [⟨.write .continue [token], .ok written⟩]) .status = [] := by
        rw [taken_concat, early.untaken]
        rfl
      have known : Attentive (h ++ [⟨.write .continue [token], .ok written⟩]) (.close ⟨.continue, .writing⟩) := trivial
      apply close_rule known
      intro closed
      apply awaitStatus_attends (lasting_briefed _ _ told)
      · rw [taken_still (c := .close _) trivial, untaken]
      · exact (early.unasked.concat (by simp)).concat (by simp)

/-- A call that does not clone. -/
def Call.Barren : Call → Prop
  | .clone => False
  | _ => True

theorem uncloned_concat {c : Call} {a : c.Answer} (before : ¬ Succeeded h .clone) (barren : c.Barren) :
    ¬ Succeeded (h ++ [⟨c, a⟩]) .clone := by
  rintro ⟨value, member⟩
  rcases List.mem_append.mp member with old | last
  · exact before ⟨value, old⟩
  · cases List.mem_singleton.mp last
    exact barren

theorem retreat_attends {fds : List End} {error : Int32} (before : ¬ Succeeded h .clone) :
    Attends Reaps h (Code.closeAll fds >>= fun _ => pure (.error error)) := by
  apply closeAll_rule (I := fun h => ¬ Succeeded h .clone) (fun _ _ => attentive_free trivial) before
  · exact fun h fd answer before => uncloned_concat before trivial
  · exact fun h before cloned => absurd cloned before

theorem namespaceStartContainer_attends (config : NamespaceConfig) :
    Attends Reaps [] (namespaceStartContainer config) := by
  have before : ¬ Succeeded [] .clone := fun cloned => by cases cloned.mem_calls
  unfold namespaceStartContainer
  split
  · exact fun cloned => absurd cloned before
  refine attempt_rule trivial (fun error cloned => absurd cloned (uncloned_concat before trivial)) fun _ => ?_
  have early := Early.concat (c := .pipe .status) (a := .ok ()) Early.nil trivial
  have before := uncloned_concat (c := .pipe .status) (a := .ok ()) before trivial
  refine attempt_rule trivial (fun error => retreat_attends (uncloned_concat before trivial)) fun _ => ?_
  have early := Early.concat (c := .pipe .exec) (a := .ok ()) early trivial
  have before := uncloned_concat (c := .pipe .exec) (a := .ok ()) before trivial
  refine attempt_rule trivial (fun error => retreat_attends (uncloned_concat before trivial)) fun _ => ?_
  have early := Early.concat (c := .closeOnExec ⟨.exec, .writing⟩) (a := .ok ()) early trivial
  have before := uncloned_concat (c := .closeOnExec ⟨.exec, .writing⟩) (a := .ok ()) before trivial
  refine attempt_rule trivial (fun error => retreat_attends (uncloned_concat before trivial)) fun _ => ?_
  have early := Early.concat (c := .pipe .continue) (a := .ok ()) early trivial
  have before := uncloned_concat (c := .pipe .continue) (a := .ok ()) before trivial
  refine ⟨trivial, fun answer => ?_⟩
  cases answer with
  | error error =>
    apply retreat_attends
    rintro ⟨value, member⟩
    rcases List.mem_append.mp member with old | last
    · exact before ⟨value, old⟩
    · cases List.mem_singleton.mp last
  | ok pid => exact guide_attends (early.concat trivial) (.last pid)

end Attentive

/-! ## The child closes its end before it executes -/

section Sealing

variable {h : List Done}

/-- `execvp` comes after the end of the status pipe was closed. -/
def Sealed (h : List Done) : Call → Prop
  | .execvp _ => Call.close ⟨.status, .writing⟩ ∈ calls h
  | _ => True

abbrev Seals : List Done → Code Nat → Prop := Code.Obeys Sealed fun _ _ => True

/-- Any call but `execvp`. -/
def Call.Ordinary : Call → Prop
  | .execvp _ => False
  | _ => True

theorem sealed_ordinary {c : Call} (ordinary : c.Ordinary) : Sealed h c := by
  cases c with
  | execvp argv => exact ordinary.elim
  | _ => trivial

theorem sendStatus_seals {status : NamespaceStatus} {f : Unit → Code Nat}
    (next : ∀ h, Call.close ⟨.status, .writing⟩ ∈ calls h → Seals h (f ())) : Seals h (sendStatus status >>= f) := by
  refine ⟨trivial, fun sent => ?_⟩
  have told : Seals (h ++ [⟨.write .status status.bytes, sent⟩]) (Code.close ⟨.status, .writing⟩ >>= f) := by
    refine close_rule trivial fun closed => next _ ?_
    simp
  cases sent with
  | error error => exact told
  | ok value => exact told

theorem giveUp_seals (error : Int32) : Seals h (giveUp error) := sendStatus_seals fun _ _ => trivial

theorem must_seals {c : Call} {rest : Code Nat} (ordinary : c.Ordinary) (next : ∀ h, Seals h rest) : Seals h (must c rest) :=
  attempt_rule (sealed_ordinary ordinary) (fun error => giveUp_seals error) fun _ => next _

theorem mustUnless_seals {c : Call} {tolerated : Int32} {rest : Code Nat} (ordinary : c.Ordinary) (next : ∀ h, Seals h rest) :
    Seals h (mustUnless c tolerated rest) := by
  refine attempt_rule (sealed_ordinary ordinary) (fun error => ?_) fun _ => next _
  simp only
  split
  · exact giveUp_seals error
  · exact next _

theorem execute_seals (argv : List Text) : Seals h (execute argv) := by
  refine ⟨trivial, fun pid => sendStatus_seals fun h closed => ?_⟩
  refine attempt_rule closed (fun error => ?_) fun _ => trivial
  exact ignored_rule trivial fun _ _ => close_rule trivial fun _ => trivial

theorem isolate_seals (config : NamespaceConfig) : Seals h (isolate config) := by
  refine must_seals trivial fun h => mustUnless_seals trivial fun h => mustUnless_seals trivial fun h => ?_
  cases buildExecArgv config.commandLine 256 32 with
  | error error => exact giveUp_seals _
  | ok argv =>
    refine attempt_rule trivial (fun error => giveUp_seals _) fun _ => ?_
    exact must_seals trivial fun h => execute_seals argv

theorem waitForParentReady_seals : Code.Obeys Sealed (fun _ _ => True) h waitForParentReady := by
  refine ⟨trivial, fun answer => ?_⟩
  rcases answer with error | (_ | ⟨first, more⟩)
  · exact close_rule trivial fun _ => trivial
  · exact close_rule trivial fun _ => trivial
  · apply close_rule trivial
    intro closed
    split <;> trivial

theorem namespaceChild_seals (config : NamespaceConfig) : Seals h (namespaceChild config) := by
  apply Code.Obeys.bind waitForParentReady_seals
  intro error h _
  cases error with
  | some error => exact giveUp_seals error
  | none =>
    refine must_seals trivial fun h => must_seals trivial fun h => ?_
    split
    · exact isolate_seals config
    · exact isolate_seals config
    · exact must_seals trivial fun h => isolate_seals config

end Sealing

/-! ## What both sides have to do with each other -/

/-- The histories of both sides, and the child, in any run. -/
structure Joined (hp hc : List Done) (child : Option Child) : Prop where
  born : Succeeded hp .clone → child ≠ none
  executed : ∀ fds, child = some ⟨.executed, fds⟩ →
    (∃ argv, Succeeded hc (.execvp argv)) ∧ Call.close ⟨.status, .writing⟩ ∈ calls hc
  killed : ∀ pid, Succeeded hp (.kill pid) → child = some .gone
  reaped : ∀ pid, Succeeded hp (.waitpid pid) → child = some .gone
  /-- After end-of-file on the status pipe a child is ready only if its status was lost. -/
  ended : ∀ count, (⟨.read .status count, .ok []⟩ : Done) ∈ hp →
    (SaidReady hc → ∃ bytes, Failed hc (.write .status bytes)) ∧
      ∀ code fds, child = some ⟨.running code, fds⟩ → ∃ bytes, Call.write .status bytes ∈ calls hc

theorem Joined.fresh : Joined [] [] none where
  born succeeded := absurd succeeded.mem_calls (by simp)
  executed _ same := nomatch same
  killed _ succeeded := absurd succeeded.mem_calls (by simp)
  reaped _ succeeded := absurd succeeded.mem_calls (by simp)
  ended _ member := nomatch member

theorem Joined.gone {hp hc : List Done} {child : Option Child} (joined : Joined hp hc child) :
    Joined hp hc (child.map fun _ => .gone) where
  born succeeded none := joined.born succeeded (Option.map_eq_none_iff.mp none)
  executed fds same := by
    obtain ⟨-, -, gone⟩ := Option.map_eq_some_iff.mp same
    cases gone
  killed pid succeeded := by rw [joined.killed pid succeeded, Option.map_some]
  reaped pid succeeded := by rw [joined.reaped pid succeeded, Option.map_some]
  ended count member := by
    refine ⟨(joined.ended count member).1, fun code fds running => ?_⟩
    obtain ⟨-, -, gone⟩ := Option.map_eq_some_iff.mp running
    cases gone

structure System.Minded (s : System) : Prop where
  wired : s.Wired
  attends : ∀ k start, s.starts k = some start → Attends Reaps (history s.trace k .parent) start.code
  seals : ∀ k start code fds, s.starts k = some start → start.child = some ⟨.running code, fds⟩ →
    Seals (history s.trace k .child) code
  joined : ∀ k start, s.starts k = some start → Joined (history s.trace k .parent) (history s.trace k .child) start.child

namespace System.Minded

variable {s : System}

theorem initial : System.initial.Minded where
  wired := .initial
  attends _ _ here := nomatch here
  seals _ _ _ _ here := nomatch here
  joined _ _ here := nomatch here

/-- The status pipe is at its end: the child has reported, or cannot report any more. -/
theorem ended_read (minded : s.Minded) {k : Nat} {start : Start} {fate : Fate} {count : Nat} (here : s.starts k = some start)
    (some_left : 0 < count) (sofar : (taken (history s.trace k .parent) .status).length + count = NamespaceStatus.size)
    (answered : s.reply k .parent fate (.read .status count) = some (.ok [])) :
    (SaidReady (history s.trace k .child) → ∃ bytes, Failed (history s.trace k .child) (.write .status bytes)) ∧
      ∀ code fds, start.child = some ⟨.running code, fds⟩ →
        ∃ bytes, Call.write .status bytes ∈ calls (history s.trace k .child) := by
  have sound := minded.wired.sound
  obtain ⟨empty, closed⟩ := System.reply_end some_left answered
  constructor
  · rintro ⟨status, ready, called⟩
    obtain ⟨⟨_, answer⟩, made, rfl⟩ := List.mem_map.mp called
    cases answer with
    | error error => exact ⟨status.bytes, error, made⟩
    | ok value =>
      -- The whole status would be there to be read.
      have flow := congrArg List.length (sound.flow_report here .status (by decide))
      rw [empty, sound.poured_of_report (by decide) made, List.append_nil, NamespaceStatus.length_bytes] at flow
      omega
  · intro code fds child
    by_contra unreported
    push Not at unreported
    have holds := minded.wired.holds_report here child (by decide) unreported
    exact closed (.inr ⟨k, List.mem_range.mpr (sound.known k start here), holds⟩)

/-- The manager has waited for its child. -/
theorem gone_of_waitpid (minded : s.Minded) {k : Nat} {start : Start} {fate : Fate} {pid : Pid} (here : s.starts k = some start)
    (attentive : Attentive (history s.trace k .parent) (.waitpid pid))
    (answered : s.reply k .parent fate (.waitpid pid) = some (.ok ())) : start.child = some .gone := by
  have born : start.child ≠ none := by
    rcases attentive with ⟨-, cloned⟩ | ⟨briefed, -⟩
    · exact (minded.joined k start here).born cloned
    · exact (minded.joined k start here).born briefed.1
  have unfailed : fate.fail = none := by
    cases failure : fate.fail with
    | none => rfl
    | some error =>
      simp only [System.reply, failure] at answered
      cases answered
  simp only [System.reply, unfailed, System.succeed] at answered
  split at answered
  · cases answered
  · rename_i dead
    obtain ⟨⟨stage, fds⟩, there⟩ := Option.ne_none_iff_exists'.mp born
    cases stage with
    | running code => simp [System.childAlive, System.child, here, there] at dead
    | executed => simp [System.childAlive, System.child, here, there] at dead
    | dead => rw [there, minded.wired.dead k start fds here there, Child.gone]

theorem joined_parent (minded : s.Minded) {k : Nat} {start : Start} {c : Call} {answer : c.Answer} {fate : Fate}
    {next : c.Answer → Code (Except Int32 NamespaceStartResult)} (here : s.starts k = some start) (code : start.code = .call c next)
    (answered : s.reply k .parent fate c = some answer) :
    Joined (history s.trace k .parent ++ [⟨c, answer⟩]) (history s.trace k .child)
      (System.rechild start.config s.fds ⟨c, answer⟩ start.child) := by
  have joined := minded.joined k start here
  have obeys := minded.wired.sound.parent k start here
  have attends := minded.attends k start here
  rw [code] at obeys attends
  have allowed : parentGuard (history s.trace k .parent) c := obeys.1
  have kept : start.child = some .gone → System.rechild start.config s.fds ⟨c, answer⟩ start.child = some .gone := by
    intro gone
    rcases minded.wired.sound.rechild_born here code gone with same | ⟨-, gone⟩
    · exact same
    · exact gone
  refine ⟨fun succeeded none => ?_, fun fds now => ?_, fun pid succeeded => ?_, fun pid succeeded => ?_, fun count member => ?_⟩
  · obtain ⟨value, member⟩ := succeeded
    rcases List.mem_append.mp member with old | last
    · exact joined.born ⟨value, old⟩ (System.rechild_none none)
    · cases List.mem_singleton.mp last
      cases none
  · rcases System.rechild_cases now with same | ⟨-, gone⟩ | ⟨-, new⟩
    · exact joined.executed fds same
    · cases gone
    · cases new
  · obtain ⟨value, member⟩ := succeeded
    rcases List.mem_append.mp member with old | last
    · exact kept (joined.killed pid ⟨value, old⟩)
    · cases List.mem_singleton.mp last
      obtain ⟨child, born⟩ := Option.ne_none_iff_exists'.mp (joined.born attends.1)
      simp [System.rechild, born]
  · obtain ⟨value, member⟩ := succeeded
    rcases List.mem_append.mp member with old | last
    · exact kept (joined.reaped pid ⟨value, old⟩)
    · cases List.mem_singleton.mp last
      exact minded.gone_of_waitpid here attends.1 answered
  · have ended : (SaidReady (history s.trace k .child) → ∃ bytes, Failed (history s.trace k .child) (.write .status bytes)) ∧
        ∀ code fds, start.child = some ⟨.running code, fds⟩ →
          ∃ bytes, Call.write .status bytes ∈ calls (history s.trace k .child) := by
      rcases List.mem_append.mp member with old | last
      · exact joined.ended count old
      · cases List.mem_singleton.mp last
        rcases allowed with ⟨-, positive, sofar⟩ | ⟨exec, -⟩
        · exact minded.ended_read here positive sofar answered
        · cases exec
    refine ⟨ended.1, fun held fds running => ?_⟩
    rcases System.rechild_cases running with same | ⟨-, gone⟩ | ⟨rfl, -⟩
    · exact ended.2 held fds same
    · cases gone
    · -- The status is not read before there is a child.
      rcases List.mem_append.mp member with old | last
      · rw [(minded.wired.sound.clone_first here code).1] at old
        simp [opening] at old
      · cases List.mem_singleton.mp last

theorem joined_child (minded : s.Minded) {k : Nat} {start : Start} {c : Call} {answer : c.Answer} {fds : List Held}
    {next : c.Answer → Code Nat} (here : s.starts k = some start) (child : start.child = some ⟨.running (.call c next), fds⟩) :
    Joined (history s.trace k .parent) (history s.trace k .child ++ [⟨c, answer⟩])
      (some (System.restage (next answer) ⟨c, answer⟩ (System.retable k ⟨c, answer⟩ fds))) := by
  have joined := minded.joined k start here
  have allowed := (minded.wired.sound.child k start _ fds here child).1
  have closed := (minded.seals k start _ fds here child).1
  refine ⟨fun _ => nofun, fun held now => ?_, fun pid succeeded => ?_, fun pid succeeded => ?_, fun count member => ?_⟩
  · rcases System.restage_cases (next answer) ⟨c, answer⟩ (System.retable k ⟨c, answer⟩ fds) with same | ⟨⟨argv, executed⟩, -⟩
    · cases same.symm.trans (Option.some.inj now)
    · cases executed
      refine ⟨⟨argv, .last (c := .execvp argv) ()⟩, ?_⟩
      rw [calls_append]
      exact List.mem_append_left _ closed
  · cases child.symm.trans (joined.killed pid succeeded)
  · cases child.symm.trans (joined.reaped pid succeeded)
  · obtain ⟨lost, reported⟩ := joined.ended count member
    obtain ⟨bytes, written⟩ := reported _ _ child
    refine ⟨?_, fun _ _ _ => ⟨bytes, by simp [written]⟩⟩
    rintro ⟨status, ready, said⟩
    rw [calls_append] at said
    rcases List.mem_append.mp said with old | last
    · obtain ⟨failed, error, made⟩ := lost ⟨status, ready, old⟩
      exact ⟨failed, error, List.mem_append_left _ made⟩
    · -- It has reported already.
      obtain rfl : c = .write .status status.bytes := (List.mem_singleton.mp last).symm
      exact absurd written (childGuard.first_report (by decide) allowed bytes)

theorem childGone (minded : s.Minded) (k : Nat) : (s.childGone k).Minded := by
  cases here : s.starts k with
  | none => rwa [System.childGone_of_none here]
  | some start =>
    have starts := System.childGone_starts here
    refine ⟨minded.wired.childGone k, fun j other there => ?_, fun j other code fds there running => ?_, fun j other there => ?_⟩
    · rcases Sound.lookup_update (starts ▸ there) with ⟨rfl, rfl⟩ | ⟨-, there⟩
      · exact minded.attends j start here
      · exact minded.attends j other there
    · rcases Sound.lookup_update (starts ▸ there) with ⟨rfl, rfl⟩ | ⟨-, there⟩
      · obtain ⟨-, -, gone⟩ := Option.map_eq_some_iff.mp running
        cases gone
      · exact minded.seals j other code fds there running
    · rcases Sound.lookup_update (starts ▸ there) with ⟨rfl, rfl⟩ | ⟨-, there⟩
      · exact (minded.joined j start here).gone
      · exact minded.joined j other there

theorem begun (minded : s.Minded) (up : s.up = true) (idle : s.idle = true) (config : NamespaceConfig) :
    (s.begun config).Minded := by
  have nothing := minded.wired.sound.history_missing minded.wired.sound.missing_new
  refine ⟨minded.wired.begun up idle config, fun j other there => ?_, fun j other code fds there running => ?_,
    fun j other there => ?_⟩
  · rcases Sound.lookup_update there with ⟨rfl, rfl⟩ | ⟨-, there⟩
    · simp only [System.begun, nothing]
      exact namespaceStartContainer_attends config
    · exact minded.attends j other there
  · rcases Sound.lookup_update there with ⟨rfl, rfl⟩ | ⟨-, there⟩
    · cases running
    · exact minded.seals j other code fds there running
  · rcases Sound.lookup_update there with ⟨rfl, rfl⟩ | ⟨-, there⟩
    · simp only [System.begun, nothing]
      exact .fresh
    · exact minded.joined j other there

theorem parentMade (minded : s.Minded) {k : Nat} {start : Start} {c : Call} {answer : c.Answer} {fate : Fate}
    {next : c.Answer → Code (Except Int32 NamespaceStartResult)} (wired : (s.parentMade k ⟨c, answer⟩ (next answer)).Wired)
    (here : s.starts k = some start) (code : start.code = .call c next)
    (answered : s.reply k .parent fate c = some answer) : (s.parentMade k ⟨c, answer⟩ (next answer)).Minded := by
  have starts := System.parentMade_starts here ⟨c, answer⟩ (next answer)
  have others : ∀ j, history (s.trace ++ [⟨k, .parent, ⟨c, answer⟩⟩]) j .child = history s.trace j .child :=
    fun j => history_other (by simp)
  have apart : ∀ j, j ≠ k → history (s.trace ++ [⟨k, .parent, ⟨c, answer⟩⟩]) j .parent = history s.trace j .parent :=
    fun j other => history_other (by simp [Ne.symm other])
  refine ⟨wired, fun j other there => ?_, fun j other held fds there running => ?_, fun j other there => ?_⟩
  · rcases Sound.lookup_update (starts ▸ there) with ⟨rfl, rfl⟩ | ⟨different, there⟩
    · rw [System.parentMade, System.record, history_self]
      have attends := minded.attends j start here
      rw [code] at attends
      exact attends.2 answer
    · exact (apart j different).symm ▸ minded.attends j other there
  · refine (others j).symm ▸ ?_
    rcases Sound.lookup_update (starts ▸ there) with ⟨rfl, rfl⟩ | ⟨-, there⟩
    · rcases System.rechild_cases running with before | ⟨-, gone⟩ | ⟨-, new⟩
      · exact minded.seals j start held fds here before
      · cases gone
      · cases new
        exact namespaceChild_seals start.config
    · exact minded.seals j other held fds there running
  · refine (others j).symm ▸ ?_
    rcases Sound.lookup_update (starts ▸ there) with ⟨rfl, rfl⟩ | ⟨different, there⟩
    · rw [System.parentMade, System.record, history_self]
      exact minded.joined_parent here code answered
    · exact (apart j different).symm ▸ minded.joined j other there

theorem childMade (minded : s.Minded) {k : Nat} {start : Start} {c : Call} {answer : c.Answer} {fds : List Held}
    {next : c.Answer → Code Nat} (wired : (s.childMade k ⟨c, answer⟩ (next answer)).Wired)
    (here : s.starts k = some start) (child : start.child = some ⟨.running (.call c next), fds⟩) :
    (s.childMade k ⟨c, answer⟩ (next answer)).Minded := by
  have starts := System.childMade_starts here child ⟨c, answer⟩ (next answer)
  have others : ∀ j, history (s.trace ++ [⟨k, .child, ⟨c, answer⟩⟩]) j .parent = history s.trace j .parent :=
    fun j => history_other (by simp)
  have apart : ∀ j, j ≠ k → history (s.trace ++ [⟨k, .child, ⟨c, answer⟩⟩]) j .child = history s.trace j .child :=
    fun j other => history_other (by simp [Ne.symm other])
  refine ⟨wired, fun j other there => ?_, fun j other held fds' there running => ?_, fun j other there => ?_⟩
  · refine (others j).symm ▸ ?_
    rcases Sound.lookup_update (starts ▸ there) with ⟨rfl, rfl⟩ | ⟨-, there⟩
    · exact minded.attends j start here
    · exact minded.attends j other there
  · rcases Sound.lookup_update (starts ▸ there) with ⟨rfl, rfl⟩ | ⟨different, there⟩
    · rw [System.childMade, System.record, history_self]
      rcases System.restage_cases (next answer) ⟨c, answer⟩ (System.retable j ⟨c, answer⟩ fds) with same | ⟨-, same⟩
      · cases same.symm.trans (Option.some.inj running)
        exact (minded.seals j start _ fds here child).2 answer
      · cases same.symm.trans (Option.some.inj running)
    · exact (apart j different).symm ▸ minded.seals j other held fds' there running
  · refine (others j).symm ▸ ?_
    rcases Sound.lookup_update (starts ▸ there) with ⟨rfl, rfl⟩ | ⟨different, there⟩
    · rw [System.childMade, System.record, history_self]
      exact minded.joined_child here child
    · exact (apart j different).symm ▸ minded.joined j other there

theorem step (minded : s.Minded) (turn : Turn) : (s.step turn).Minded := by
  have wired := minded.wired.step turn
  have taken := s.step_cases turn
  generalize s.step turn = after at taken wired
  cases taken with
  | nothing => exact minded
  | start config up idle => exact minded.begun up idle config
  | parent fate start c next answer up here code answered => exact minded.parentMade wired here code answered
  | child k fate start c next fds answer here child answered => exact minded.childMade wired here child
  | exits k => exact minded.childGone k
  | childDies k => exact minded.childGone k
  | parentDies => exact ⟨wired, minded.attends, minded.seals, minded.joined⟩

theorem run (minded : s.Minded) (turns : List Turn) : (s.run turns).Minded := by
  induction turns generalizing s with
  | nil => exact minded
  | cons first rest ih => exact ih (minded.step first)

theorem reached (schedule : Nat → Turn) (n : Nat) : (Namespace.reached schedule n).Minded := by
  induction n with
  | zero => exact .initial
  | succ n ih =>
    rw [reached_succ]
    exact ih.step (schedule n)

end System.Minded

end ContainerRuntime.Namespace
