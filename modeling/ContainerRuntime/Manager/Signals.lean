import ContainerRuntime.Manager.Accounting

/-! Whom the scheduler thread signals.

The thread picks two targets under the lock and signals them after it. A
process that is reaped in between, or whose pid another process takes while the
table still lists it, is not the one the thread has picked. In the sessions
where neither happens, each of its signals goes to an unreaped container
process.
-/

set_option autoImplicit false

namespace ContainerRuntime

open CString Cli Program

/-- A signal of the scheduler thread goes to an unreaped child of the manager. -/
def Obs.HitsChild : Obs → Prop
  | .paused _ _ _ target => target.any (·.child) = true
  | .resumed _ target => target.any (·.child) = true
  | .killed _ _ _ | .waited _ _ | .reaped _ _ | .appeared _ _ _ _ _ | .enrolled _ | .noted _ => True

/-- No process is reaped that the thread has still to signal, and nobody else's process takes a pid
that is in the table. -/
def Obs.Orderly : Obs → Prop
  | .reaped pid thread => ¬ thread.Holds pid
  | .appeared pid none _ _ targets => pid ∉ targets
  | _ => True

instance : DecidablePred Obs.HitsChild
  | .paused _ _ _ target => inferInstanceAs (Decidable (target.any (·.child) = true))
  | .resumed _ target => inferInstanceAs (Decidable (target.any (·.child) = true))
  | .killed _ _ _ | .waited _ _ | .reaped _ _ | .appeared _ _ _ _ _ | .enrolled _ | .noted _ => .isTrue trivial

instance : DecidablePred Obs.Orderly
  | .reaped pid thread => inferInstanceAs (Decidable (¬ thread.Holds pid))
  | .appeared pid none _ _ targets => inferInstanceAs (Decidable (pid ∉ targets))
  | .appeared _ (some _) _ _ _ | .killed _ _ _ | .waited _ _ | .paused _ _ _ _ | .resumed _ _ | .enrolled _ | .noted _ =>
    .isTrue trivial

/-! ## RUNNING records and children

Unlike the full accounts, this half of them holds whatever `waitpid` answers. -/

/-- The pids of RUNNING records are distinct children, but for one that has just been reaped. -/
structure World.Tended (w : World) : Prop where
  distinct : w.memory.runningPids.Nodup
  children : ∀ pid ∈ w.memory.runningPids, w.procs.isChild pid = true ∨ w.memory.released = some pid
  inflight : ∀ pid, w.memory.inflight = some pid → w.procs.isChild pid = true ∧ pid ∉ w.memory.runningPids
  starting : w.memory.starting ≠ none → w.memory.released = none
  parted : ∀ c, w.memory.detached = some c → c.state ≠ .RUNNING

namespace World.Tended

variable {w w' : World}

theorem child_of_settled (tended : w.Tended) (settled : w.memory.Settled) {pid : Pid}
    (running : pid ∈ w.memory.runningPids) : w.procs.isChild pid = true := by
  rcases tended.children pid running with child | released
  · exact child
  · rw [settled.released] at released
    cases released

/-- Neither the RUNNING pids nor the children change. -/
theorem frame (tended : w.Tended) (pids : w'.memory.runningPids = w.memory.runningPids)
    (children : ∀ pid, w'.procs.isChild pid = w.procs.isChild pid) (released : w'.memory.released = w.memory.released)
    (inflight : w'.memory.inflight = w.memory.inflight ∨ w'.memory.inflight = none)
    (starting : w'.memory.starting ≠ none → w.memory.released = none)
    (parted : ∀ c, w'.memory.detached = some c → c.state ≠ .RUNNING) : w'.Tended := by
  refine ⟨?_, fun pid member => ?_, fun pid started => ?_, fun busy => ?_, parted⟩
  · rw [pids]
    exact tended.distinct
  · rw [children, released]
    exact tended.children pid (pids ▸ member)
  · rw [children, pids]
    rcases inflight with same | nobody
    · exact tended.inflight pid (same ▸ started)
    · rw [nobody] at started
      cases started
  · rw [released]
    exact starting busy

/-- The memory is as it was. -/
theorem still (tended : w.Tended) (memory : w'.memory = w.memory)
    (children : ∀ pid, w'.procs.isChild pid = w.procs.isChild pid) : w'.Tended := by
  apply tended.frame <;> try rw [memory]
  · exact children
  · exact .inl rfl
  · exact tended.starting
  · exact tended.parted

theorem reaped {pid : Pid} (tended : w.Tended) (settled : w.memory.Settled) : (w.reaped pid).Tended where
  distinct := tended.distinct
  children q running := by
    by_cases same : q = pid
    · exact .inr (congrArg some same.symm)
    · refine .inl ?_
      simp only [World.reaped, World.observe, Procs.isChild_update, same, if_false]
      exact tended.child_of_settled settled running
  inflight q started := by
    have nobody : (w.reaped pid).memory.inflight = none := settled.inflight
    rw [nobody] at started
    cases started
  starting busy := absurd settled.starting busy
  parted := tended.parted

/-- The record of the reaped process, or of one that is no child, leaves RUNNING. -/
theorem retired {i : Nat} {c : Container} (tended : w.Tended) (here : w.memory.registry[i]? = some c)
    (running : c.running = true) (gone : w.memory.released = some c.pid ∨ w.memory.released = none) :
    (w.remember (·.retire i)).Tended := by
  have members := Memory.mem_runningPids_retire here running tended.distinct
  have distinct := List.nodup_cons.mp ((Memory.runningPids_retire here running).nodup_iff.mp tended.distinct)
  refine ⟨distinct.2, fun q listed => .inl ?_, fun q started => ?_, fun _ => rfl, tended.parted⟩
  · obtain ⟨before, other⟩ := (members q).mp listed
    rcases tended.children q before with child | released
    · exact child
    · rcases gone with reaped | held
      · rw [reaped] at released
        exact absurd (Option.some.inj released).symm other
      · rw [held] at released
        cases released
  · obtain ⟨child, apart⟩ := tended.inflight q started
    exact ⟨child, fun listed => apart ((members q).mp listed).1⟩

theorem cloned {pid : Pid} {owner : Text} (tended : w.Tended) (starting : w.memory.starting ≠ none)
    (free : w.procs pid = none) : (w.cloned pid owner).Tended := by
  have held := tended.starting starting
  have child : ∀ q, (w.cloned pid owner).procs.isChild q = if q = pid then true else w.procs.isChild q :=
    fun q => Procs.isChild_update _ _ _ _
  -- The pid was nobody's, so no RUNNING record holds it.
  have before : ∀ q ∈ w.memory.runningPids, w.procs.isChild q = true := by
    intro q listed
    rcases tended.children q listed with known | released
    · exact known
    · rw [held] at released
      cases released
  have fresh : pid ∉ w.memory.runningPids := by
    intro listed
    have known := before pid listed
    simp [Procs.isChild, free] at known
  refine ⟨tended.distinct, fun q listed => .inl ?_, fun q started => ?_, fun _ => held, tended.parted⟩
  · rw [child]
    split
    · rfl
    · exact before q listed
  · cases started
    exact ⟨by rw [child, if_pos rfl], fresh⟩

theorem reapedInflight {pid : Pid} (tended : w.Tended) (inflight : w.memory.inflight = some pid) :
    (w.reapedInflight pid).Tended := by
  refine ⟨tended.distinct, fun q listed => ?_, (fun _ absurd => by cases absurd), tended.starting, tended.parted⟩
  have other : q ≠ pid := fun same => (tended.inflight pid inflight).2 (same ▸ listed)
  simp only [World.reapedInflight, World.observe, Procs.isChild_update, other, if_false]
  exact tended.children q listed

theorem adopted {i : Nat} {c : Container} {pid : Pid} (tended : w.Tended) (here : w.memory.registry[i]? = some c)
    (down : c.state ≠ .RUNNING) (inflight : w.memory.inflight = some pid) (positive : 0 < pid) :
    (w.remember (·.adopt i pid)).Tended := by
  have grown := Memory.runningPids_adopt here down positive
  obtain ⟨child, fresh⟩ := tended.inflight pid inflight
  refine ⟨?_, fun q listed => ?_, (fun _ absurd => by cases absurd), fun busy => absurd rfl busy, tended.parted⟩
  · exact grown.nodup_iff.mpr (List.nodup_cons.mpr ⟨fresh, tended.distinct⟩)
  · rcases List.mem_cons.mp (grown.mem_iff.mp listed) with rfl | old
    · exact .inl child
    · exact tended.children q old

theorem freed (tended : w.Tended) : w.freed.Tended :=
  ⟨List.nodup_nil, nofun, fun pid started => ⟨(tended.inflight pid started).1, List.not_mem_nil⟩, tended.starting,
    tended.parted⟩

end World.Tended

theorem Move.tended {w w' : World} (move : Move w w') (tended : w.Tended) : w'.Tended := by
  cases move with
  | quiet _ quiet => exact tended.still quiet.memory quiet.isChild
  | kill | signal | killInflight | sweepNext => exact tended.still rfl fun _ => Procs.isChild_kill _ _ _ _
  | wait | waitInflight | enable | disable | sweep | swept => exact tended.still rfl fun _ => rfl
  | reap pid running child settled => exact tended.reaped settled
  | retire i c here running nobody gone => exact tended.retired here running (gone.imp_right And.left)
  | beginStart i c here down settled =>
    exact tended.frame (pidsOf_modify_down here down down) (fun _ => rfl) rfl (.inl rfl) (fun _ => settled.released)
      tended.parted
  | abortStart i c starting here down nobody =>
    exact tended.frame (pidsOf_modify_down here down down) (fun _ => rfl) rfl (.inl rfl) (fun busy => absurd rfl busy)
      tended.parted
  | clone i c pid starting here nobody positive free => exact tended.cloned (by simp [starting]) free
  | reapInflight pid inflight => exact tended.reapedInflight inflight
  | leakInflight pid inflight denied =>
    exact tended.frame rfl (fun _ => rfl) rfl (.inr rfl) tended.starting tended.parted
  | adopt i c pid starting here down inflight positive => exact tended.adopted here down inflight positive
  | draw | abandon => exact tended.frame rfl (fun _ => rfl) rfl (.inl rfl) tended.starting tended.parted
  | enroll spec sequence resolved drawn nobody =>
    exact tended.frame (Memory.runningPids_enroll rfl) (fun _ => rfl) rfl (.inl rfl) tended.starting tended.parted
  | unenroll c last created settled =>
    exact tended.frame (Memory.runningPids_unenroll last (by simp [created])) (fun _ => rfl) rfl (.inl rfl)
      tended.starting tended.parted
  | detach i c here down settled =>
    refine tended.frame (Memory.runningPids_detach here down) (fun _ => rfl) rfl (.inl rfl) tended.starting ?_
    intro d parted
    cases parted
    exact down
  | reattach c detached nobody =>
    exact tended.frame (Memory.runningPids_reattach (tended.parted c detached)) (fun _ => rfl) rfl (.inl rfl)
      tended.starting nofun
  | discard => exact tended.frame rfl (fun _ => rfl) rfl (.inl rfl) tended.starting nofun

/-! ## The thread's signals -/

/-- Whoever is in the table, or picked from it, is a child of the manager if it is there at all. -/
structure World.Aimed (w : World) : Prop where
  table : ∀ pid ∈ w.sched.targets, w.procs pid = none ∨ w.procs.isChild pid = true
  held : ∀ pid, w.thread.Holds pid → w.procs.isChild pid = true
  hits : ∀ obs ∈ w.trace, obs.HitsChild

namespace World.Aimed

variable {w w' : World}

/-- No process comes, and no child goes. -/
theorem frame (aimed : w.Aimed) (targets : w'.sched.targets ⊆ w.sched.targets)
    (absent : ∀ pid, w.procs pid = none → w'.procs pid = none)
    (children : ∀ pid, w'.procs.isChild pid = w.procs.isChild pid)
    (held : ∀ pid, w'.thread.Holds pid → w.procs.isChild pid = true) (hits : ∀ obs ∈ w'.trace, obs.HitsChild) :
    w'.Aimed := by
  refine ⟨fun pid listed => ?_, fun pid holds => ?_, hits⟩
  · rw [children]
    exact (aimed.table pid (targets listed)).imp_left (absent pid)
  · rw [children]
    exact held pid holds

/-- Nothing that the thread depends on changes. -/
theorem still (aimed : w.Aimed) (sched : w'.sched.targets = w.sched.targets) (thread : w'.thread = w.thread)
    (procs : w'.procs = w.procs) (hits : ∀ obs ∈ w'.trace, obs.HitsChild) : w'.Aimed := by
  refine aimed.frame (by rw [sched]; exact List.Subset.refl _) (fun pid => ?_) (fun pid => ?_) (fun pid => ?_) hits
  · rw [procs]
    exact id
  · rw [procs]
  · rw [thread]
    exact aimed.held pid

/-- A signal is sent to somebody. -/
theorem killed (aimed : w.Aimed) {pid : Pid} {signal : Signal} (sched : w'.sched.targets = w.sched.targets)
    (held : ∀ pid, w'.thread.Holds pid → w.thread.Holds pid) (procs : w'.procs = w.procs.kill pid signal)
    (hits : ∀ obs ∈ w'.trace, obs.HitsChild) : w'.Aimed := by
  refine aimed.frame (by rw [sched]; exact List.Subset.refl _) (fun q absent => ?_) (fun q => ?_)
    (fun q holds => aimed.held q (held q holds)) hits
  · rw [procs]
    exact Procs.kill_vacant _ _ _ absent
  · rw [procs]
    exact Procs.isChild_kill _ _ _ _

/-- A child that the thread has not picked is reaped. -/
theorem gone (aimed : w.Aimed) {pid : Pid} (sched : w'.sched = w.sched) (thread : w'.thread = w.thread)
    (procs : w'.procs = Function.update w.procs pid none) (spared : ¬ w.thread.Holds pid)
    (hits : ∀ obs ∈ w'.trace, obs.HitsChild) : w'.Aimed := by
  refine ⟨fun q listed => ?_, fun q holds => ?_, hits⟩
  · rw [procs, Procs.isChild_update]
    by_cases same : q = pid
    · exact .inl (by rw [same, Function.update_self])
    · rw [Function.update_of_ne same, if_neg same]
      exact aimed.table q (sched ▸ listed)
  · rw [thread] at holds
    have other : q ≠ pid := fun same => spared (same ▸ holds)
    rw [procs, Procs.isChild_update, if_neg other]
    exact aimed.held q holds

/-- A new process that is a child, or whose pid is not in the table. -/
theorem appear (aimed : w.Aimed) {pid : Pid} {origin : Option Text} {child : Bool} (free : w.procs pid = none)
    (known : child = true ∨ pid ∉ w.sched.targets) : (w.appear pid origin child).Aimed := by
  have children : ∀ q, (w.appear pid origin child).procs.isChild q = if q = pid then child else w.procs.isChild q :=
    fun q => Procs.isChild_update _ _ _ _
  refine ⟨fun q listed => ?_, fun q holds => ?_, List.forall_mem_concat aimed.hits trivial⟩
  · rw [children]
    by_cases same : q = pid
    · subst same
      rw [if_pos rfl]
      rcases known with rfl | apart
      · exact .inr rfl
      · exact absurd listed apart
    · rw [if_neg same]
      apply (aimed.table q listed).imp_left
      intro absent
      exact (Function.update_of_ne same _ _).trans absent
  · have picked : w.procs.isChild q = true := aimed.held q holds
    have other : q ≠ pid := by
      rintro rfl
      simp [Procs.isChild, free] at picked
    rw [children, if_neg other]
    exact picked

end World.Aimed

theorem World.Drift.aimed {w w' : World} (drift : w.Drift w') (orderly : ∀ obs ∈ w'.trace, obs.Orderly)
    (aimed : w.Aimed) : w'.Aimed := by
  cases drift with
  | nothing => exact aimed
  | exits pid proc status here cause =>
    refine aimed.frame (List.Subset.refl _) (fun q absent => ?_) (Drift.exits w pid proc status here cause).isChild
      aimed.held aimed.hits
    have other : q ≠ pid := by
      rintro rfl
      rw [here] at absent
      cases absent
    exact (Function.update_of_ne other _ _).trans absent
  | vanishes pid foreign =>
    refine aimed.gone rfl rfl rfl (fun holds => ?_) aimed.hits
    have child := aimed.held pid holds
    rw [foreign] at child
    cases child
  | spawns pid positive free =>
    exact aimed.appear free (.inr (orderly (.appeared pid none _ _ _) (List.mem_append_right _ List.mem_cons_self)))
  | selects sched thread idle enabled picked fewer live =>
    -- Who is picked was found in the table, and so is a child.
    refine aimed.frame fewer.subset (fun _ => id) (fun _ => rfl) (fun pid holds => ?_) aimed.hits
    obtain ⟨listed, found⟩ := live pid holds
    apply (aimed.table pid listed).resolve_left
    intro absent
    rw [World.found, absent] at found
    cases found
  | pauses current next stopping =>
    have picked : w.procs.isChild current = true := aimed.held current (by rw [stopping]; exact .inl rfl)
    refine aimed.killed rfl (fun pid holds => ?_) rfl (List.forall_mem_concat aimed.hits picked)
    rw [stopping]
    exact .inr holds
  | resumes next resuming =>
    have picked : w.procs.isChild next = true := aimed.held next (by rw [resuming]; exact rfl)
    exact aimed.killed rfl (fun pid holds => holds.elim) rfl (List.forall_mem_concat aimed.hits picked)

theorem Move.aimed {w w' : World} (move : Move w w') (orderly : ∀ obs ∈ w'.trace, obs.Orderly) (tended : w.Tended)
    (aimed : w.Aimed) : w'.Aimed := by
  cases move with
  | quiet _ quiet =>
    cases quiet with
    | idle _ idle =>
      cases idle with
      | clock => exact aimed.still rfl rfl rfl aimed.hits
      | drift _ drift => exact drift.aimed orderly aimed
    | log => exact aimed.still rfl rfl rfl aimed.hits
    | publish | note => exact aimed.still rfl rfl rfl (List.forall_mem_concat aimed.hits trivial)
    | table f call listed =>
      refine ⟨fun pid member => ?_, aimed.held, aimed.hits⟩
      rcases listed pid member with known | ⟨running, settled⟩
      · exact aimed.table pid known
      · exact .inr (tended.child_of_settled settled running)
  | kill | killInflight => exact aimed.killed rfl (fun _ => id) rfl (List.forall_mem_concat aimed.hits trivial)
  | signal | sweepNext => exact aimed.killed rfl (fun _ => id) rfl aimed.hits
  | reap pid running child settled =>
    exact aimed.gone rfl rfl rfl (orderly (.reaped pid w.thread) (List.mem_append_right _ List.mem_cons_self))
      (List.forall_mem_concat aimed.hits trivial)
  | reapInflight pid inflight =>
    exact aimed.gone rfl rfl rfl (orderly (.reaped pid w.thread) (List.mem_append_right _ List.mem_cons_self))
      (List.forall_mem_concat aimed.hits trivial)
  | clone i c pid starting here nobody positive free =>
    exact (aimed.appear free (.inl rfl)).still rfl rfl rfl (List.forall_mem_concat aimed.hits trivial)
  | wait | waitInflight | enroll => exact aimed.still rfl rfl rfl (List.forall_mem_concat aimed.hits trivial)
  | _ => exact aimed.still rfl rfl rfl aimed.hits

/-! ## Sessions -/

/-- While the session is orderly, the thread aims at children. -/
structure World.OnTarget (w : World) : Prop where
  tended : w.Tended
  aimed : (∀ obs ∈ w.trace, obs.Orderly) → w.Aimed

theorem ExitMove.onTarget {w w' : World} (move : ExitMove w w') (onTarget : w.OnTarget) : w'.OnTarget := by
  have before : (∀ obs ∈ w'.trace, obs.Orderly) → w.Aimed := fun orderly =>
    onTarget.aimed fun obs member => orderly obs (move.trace_subset member)
  cases move with
  | move _ move => exact ⟨move.tended onTarget.tended, fun orderly => move.aimed orderly onTarget.tended (before orderly)⟩
  | free => exact ⟨onTarget.tended.freed, fun orderly => (before orderly).still rfl rfl rfl (before orderly).hits⟩

/-- From an empty registry, through any commands up to the exit or the death of the manager: if no process is reaped
while the thread has it still to signal, and no other process takes a pid that is in the table, then every SIGSTOP and
SIGCONT of the thread goes to an unreaped container process. -/
theorem signals_hit_unreaped (w : World) (up : w.up = true) (settled : w.memory.Settled) (empty : w.memory.registry = [])
    (untargeted : w.sched.targets = []) (idle : w.thread = .idle) (unobserved : w.trace = []) (steps : List Step)
    (session : ∀ step ∈ steps, step ≠ .boot) (orderly : ∀ obs ∈ (w.run steps).trace, obs.Orderly) :
    ∀ obs ∈ (w.run steps).trace, obs.HitsChild := by
  have start : w.OnTarget := by
    refine ⟨⟨?_, ?_, ?_, fun _ => settled.released, ?_⟩, fun _ => ⟨?_, ?_, ?_⟩⟩
    · simp [Memory.runningPids, empty, pidsOf]
    · simp [Memory.runningPids, empty, pidsOf]
    · simp [settled.inflight]
    · simp [settled.detached]
    · simp [untargeted]
    · simp [idle, Thread.Holds]
    · simp [unobserved]
  have reached : ∀ {v : World}, Relation.ReflTransGen ExitMove w v → v.OnTarget := fun chain =>
    closed_of_chain (fun _ _ move => move.onTarget) chain start
  rcases w.session_cases steps session up settled with ⟨chain, -, -⟩ | ⟨v, chain, gone⟩
  · exact ((reached chain).aimed orderly).hits
  · rw [gone] at orderly ⊢
    have earlier := (reached chain).aimed fun obs member => orderly obs (List.mem_append_left _ member)
    exact List.forall_mem_concat earlier.hits trivial

/-- The iteration of the thread is over when the container is stopped; another process takes the pid later on. -/
theorem signals_hit_before_stop :
    let script := [(39, { Tick.calm with pid := 2 }), (63, { Tick.calm with events := [.thread, .thread, .thread] }),
      (72, { Tick.calm with events := [.spawns 2, .thread] })]
    let w : World := { World.initial (scripted script) (fun _ => none) with up := true }
    let spec : ContainerSpec := ⟨none, none, none, some (lit "sleep 9"), .unlimited⟩
    let steps := [.command (.runbg spec), .command (.runbg spec), .command .schedOn, .command (.stop (lit "container-0002"))]
    let after := w.run steps
    after.procs 2 = some ⟨none, false, none, false⟩ ∧ ∀ obs ∈ after.trace, obs.HitsChild := by
  intro script w spec steps after
  refine ⟨by decide +kernel, signals_hit_unreaped w rfl Memory.fresh_settled rfl rfl rfl rfl steps ?_ ?_⟩
  · decide
  · decide +kernel

/-- The thread has picked its pair when the second container is stopped and reaped; another process takes the pid,
and gets the SIGCONT. -/
theorem signal_hits_stranger :
    let script := [(39, { Tick.calm with pid := 2 }), (66, { Tick.calm with events := [.thread] }),
      (69, { Tick.calm with events := [.spawns 2, .thread, .thread] })]
    let w : World := { World.initial (scripted script) (fun _ => none) with up := true }
    let spec : ContainerSpec := ⟨none, none, none, some (lit "sleep 9"), .unlimited⟩
    let steps := [.command (.runbg spec), .command (.runbg spec), .command .schedOn, .command (.stop (lit "container-0002"))]
    let after := w.run steps
    Obs.resumed 2 (some ⟨none, false, none, false⟩) ∈ after.trace ∧ ¬ ∀ obs ∈ after.trace, obs.HitsChild := by
  decide +kernel

end ContainerRuntime
