import ContainerRuntime.Manager.RegistryInvariant

/-! Process accounting within a session that begins with an empty registry.

After every operation the RUNNING records and the unreaped children of the
manager are in bijection. In the middle of one, a child may belong to the start
under way, and a record may still hold a pid that has just been reaped.
-/

set_option autoImplicit false

namespace ContainerRuntime

open CString Cli Program

/-- The kernel keeps faith: `waitpid` denies no child, and the reaping of a failed start succeeds. -/
structure Faithful (oracle : Nat → Tick) : Prop where
  wait : ∀ n, (oracle n).waitFail ≠ some Errno.ECHILD
  reap : ∀ n, (oracle n).reapFail = none

/-- A kill or wait of the manager meets one of its unreaped children. -/
def Obs.MeetsChild : Obs → Prop
  | .killed _ _ target => target.any (·.child) = true
  | .waited _ target => target.any (·.child) = true
  | .paused _ _ _ _ | .resumed _ _ | .reaped _ _ | .appeared _ _ _ _ _ | .enrolled _ | .noted _ => True

/-- Every unreaped child is the pid of exactly one RUNNING record, and every RUNNING record's pid is
an unreaped child. -/
structure World.Balanced (w : World) : Prop where
  owned : ∀ pid, w.procs.isChild pid = true →
    ∃! i : Nat, ∃ c : Container, w.memory.registry[i]? = some c ∧ c.state = .RUNNING ∧ c.pid = pid
  alive : ∀ c ∈ w.memory.registry, c.state = .RUNNING → w.procs.isChild c.pid = true

/-- The accounts in the middle of an operation. -/
structure World.Accounted (w : World) : Prop where
  distinct : w.memory.runningPids.Nodup
  children : ∀ pid, pid ∈ w.memory.runningPids ↔
    (w.procs.isChild pid = true ∧ w.memory.inflight ≠ some pid) ∨ w.memory.released = some pid
  inflight : ∀ pid, w.memory.inflight = some pid → w.procs.isChild pid = true
  released : ∀ pid, w.memory.released = some pid → w.procs.isChild pid = false
  starting : w.memory.starting ≠ none → w.memory.released = none
  positive : ∀ c ∈ w.memory.registry, c.state = .RUNNING → 0 < c.pid
  parted : ∀ c, w.memory.detached = some c → c.state ≠ .RUNNING
  meets : ∀ obs ∈ w.trace, obs.MeetsChild

theorem not_running {c : Container} (down : c.state ≠ .RUNNING) : c.running = false := by
  simp [Record.running, down]

/-- Replacing a record that is not RUNNING by another such leaves the pids alone. -/
theorem pidsOf_modify_down {registry : List Container} {i : Nat} {c : Container} {f : Container → Container}
    (here : registry[i]? = some c) (before : c.state ≠ .RUNNING) (after : (f c).state ≠ .RUNNING) :
    pidsOf (registry.modify i f) = pidsOf registry := by
  obtain ⟨front, back, parts, -, modified, -⟩ := List.split_at here
  rw [modified f, parts, pidsOf_append, pidsOf_append, pidsOf_cons_of_down (not_running before),
    pidsOf_cons_of_down (not_running after)]

/-! The pids of RUNNING records after each action on the list. -/

namespace Memory

variable {m : Memory} {i : Nat} {c : Container}

theorem runningPids_enroll {record : Record} (down : record.running = false) :
    (m.enroll record).runningPids = m.runningPids := by
  rw [runningPids, enroll, pidsOf_append, pidsOf_cons_of_down down]
  exact List.append_nil _

theorem runningPids_unenroll (last : m.registry.getLast? = some c) (down : c.state ≠ .RUNNING) :
    m.unenroll.runningPids = m.runningPids := by
  obtain ⟨front, parts⟩ := List.getLast?_eq_some_iff.mp last
  have shorter : m.unenroll.registry = front := by simp [unenroll, parts]
  rw [runningPids, shorter, runningPids, parts, pidsOf_append, pidsOf_cons_of_down (not_running down)]
  exact (List.append_nil _).symm

theorem runningPids_detach (here : m.registry[i]? = some c) (down : c.state ≠ .RUNNING) :
    (m.detach i c).runningPids = m.runningPids := by
  obtain ⟨front, back, parts, -, -, erased⟩ := List.split_at here
  rw [runningPids, detach, runningPids, erased, parts, pidsOf_append, pidsOf_append, pidsOf_cons_of_down (not_running down)]

theorem runningPids_reattach (down : c.state ≠ .RUNNING) : (m.reattach c).runningPids = m.runningPids := by
  rw [runningPids, reattach, pidsOf_append, pidsOf_cons_of_down (not_running down)]
  exact List.append_nil _

theorem runningPids_retire (here : m.registry[i]? = some c) (running : c.running = true) :
    m.runningPids.Perm (c.pid :: (m.retire i).runningPids) := by
  obtain ⟨front, back, parts, -, modified, -⟩ := List.split_at here
  rw [runningPids, parts, pidsOf_append, pidsOf_cons_of_running running, runningPids, retire, modified, pidsOf_append,
    pidsOf_cons_of_down (by simp [Record.running])]
  exact List.perm_middle

/-- A pid leaves the list with its record. -/
theorem mem_runningPids_retire (here : m.registry[i]? = some c) (running : c.running = true)
    (distinct : m.runningPids.Nodup) (pid : Pid) :
    pid ∈ (m.retire i).runningPids ↔ pid ∈ m.runningPids ∧ pid ≠ c.pid := by
  have moved := runningPids_retire here running
  have apart := (List.nodup_cons.mp (moved.nodup_iff.mp distinct)).1
  rw [moved.mem_iff, List.mem_cons]
  constructor
  · exact fun member => ⟨.inr member, fun same => apart (same ▸ member)⟩
  · rintro ⟨rfl | member, other⟩
    · exact absurd rfl other
    · exact member

theorem runningPids_adopt {pid : Pid} (here : m.registry[i]? = some c) (down : c.state ≠ .RUNNING) (positive : 0 < pid) :
    (m.adopt i pid).runningPids.Perm (pid :: m.runningPids) := by
  obtain ⟨front, back, parts, -, modified, -⟩ := List.split_at here
  rw [runningPids, adopt, modified, pidsOf_append, pidsOf_cons_of_running (by simp [Record.running, positive]),
    runningPids, parts, pidsOf_append, pidsOf_cons_of_down (not_running down)]
  exact List.perm_middle

end Memory

namespace World.Accounted

variable {w w' : World}

/-- In a settled memory the RUNNING pids are the children. -/
theorem child_of_running (accounts : w.Accounted) (settled : w.memory.Settled) {pid : Pid}
    (running : pid ∈ w.memory.runningPids) : w.procs.isChild pid = true := by
  rcases (accounts.children pid).mp running with ⟨child, -⟩ | released
  · exact child
  · rw [settled.released] at released
    cases released

theorem balanced (accounts : w.Accounted) (settled : w.memory.Settled) : w.Balanced where
  owned pid child := by
    have running : pid ∈ w.memory.runningPids :=
      (accounts.children pid).mpr (.inl ⟨child, by simp [settled.inflight]⟩)
    obtain ⟨c, listed, same⟩ := List.mem_map.mp running
    obtain ⟨member, runs⟩ := List.mem_filter.mp listed
    obtain ⟨i, inside, here⟩ := List.getElem_of_mem member
    have at_i : w.memory.registry[i]? = some c := List.getElem?_eq_some_iff.mpr ⟨inside, here⟩
    refine ⟨i, ⟨c, at_i, (of_decide_eq_true runs).1, same⟩, ?_⟩
    rintro j ⟨d, at_j, state, pid_eq⟩
    have runs' : d.running = true := by
      simp [Record.running, state, accounts.positive d (List.mem_of_getElem? at_j) state]
    exact List.position_unique accounts.distinct at_j at_i runs' runs (pid_eq.trans same.symm)
  alive c member state := by
    refine accounts.child_of_running settled (List.mem_map.mpr ⟨c, List.mem_filter.mpr ⟨member, ?_⟩, rfl⟩)
    simp [Record.running, state, accounts.positive c member state]

/-- Nothing but observations of other kinds has changed. -/
theorem frame (accounts : w.Accounted) (memory : w'.memory = w.memory)
    (children : ∀ pid, w'.procs.isChild pid = w.procs.isChild pid) (meets : ∀ obs ∈ w'.trace, obs.MeetsChild) :
    w'.Accounted := by
  refine ⟨?_, fun pid => ?_, fun pid => ?_, fun pid => ?_, ?_, ?_, ?_, meets⟩
  all_goals rw [memory]
  · exact accounts.distinct
  · rw [children]; exact accounts.children pid
  · rw [children]; exact accounts.inflight pid
  · rw [children]; exact accounts.released pid
  · exact accounts.starting
  · exact accounts.positive
  · exact accounts.parted

/-- The list has changed without changing its RUNNING pids. -/
theorem relist (accounts : w.Accounted) (others : w'.procs = w.procs ∧ ∀ obs ∈ w'.trace, obs.MeetsChild)
    (pids : w'.memory.runningPids = w.memory.runningPids)
    (inflight : w'.memory.inflight = w.memory.inflight) (released : w'.memory.released = w.memory.released)
    (starting : w'.memory.starting ≠ none → w.memory.released = none)
    (positive : ∀ c ∈ w'.memory.registry, c.state = .RUNNING → 0 < c.pid)
    (parted : ∀ c, w'.memory.detached = some c → c.state ≠ .RUNNING) : w'.Accounted := by
  obtain ⟨procs, meets⟩ := others
  refine ⟨?_, fun pid => ?_, fun pid => ?_, fun pid => ?_, ?_, positive, parted, meets⟩
  · rw [pids]; exact accounts.distinct
  · rw [pids, procs, inflight, released]; exact accounts.children pid
  · rw [procs, inflight]; exact accounts.inflight pid
  · rw [procs, released]; exact accounts.released pid
  · rw [released]; exact starting

/-- A record that is not RUNNING changes in place and is still not RUNNING. -/
theorem modify_down {i : Nat} {c : Container} {f : Container → Container} (accounts : w.Accounted)
    (here : w.memory.registry[i]? = some c) (others : w'.procs = w.procs ∧ ∀ obs ∈ w'.trace, obs.MeetsChild)
    (registry : w'.memory.registry = w.memory.registry.modify i f) (before : c.state ≠ .RUNNING)
    (after : (f c).state ≠ .RUNNING) (inflight : w'.memory.inflight = w.memory.inflight)
    (released : w'.memory.released = w.memory.released) (detached : w'.memory.detached = w.memory.detached)
    (starting : w'.memory.starting ≠ none → w.memory.released = none) : w'.Accounted := by
  obtain ⟨front, back, parts, -, modified, -⟩ := List.split_at here
  have pids : w'.memory.runningPids = w.memory.runningPids := by
    rw [Memory.runningPids, registry]
    exact pidsOf_modify_down here before after
  refine accounts.relist others pids inflight released starting
    (fun d member running => ?_) (detached ▸ accounts.parted)
  rw [registry, modified f] at member
  have inside : d = f c ∨ d ∈ w.memory.registry := by
    rw [parts]
    simp only [List.mem_append, List.mem_cons] at member ⊢
    tauto
  rcases inside with rfl | known
  · exact absurd running after
  · exact accounts.positive d known running

end World.Accounted

theorem Quiet.meets {w w' : World} (quiet : Quiet w w') (meets : ∀ obs ∈ w.trace, obs.MeetsChild) :
    ∀ obs ∈ w'.trace, obs.MeetsChild := by
  cases quiet with
  | idle _ idle =>
    cases idle with
    | clock => exact meets
    | drift _ drift =>
      cases drift with
      | spawns | pauses | resumes => exact List.forall_mem_concat meets trivial
      | _ => exact meets
  | publish | note => exact List.forall_mem_concat meets trivial
  | _ => exact meets

namespace World.Accounted

variable {w : World}

theorem reaped {pid : Pid} (accounts : w.Accounted) (running : pid ∈ w.memory.runningPids) (settled : w.memory.Settled) :
    (w.reaped pid).Accounted where
  distinct := accounts.distinct
  children q := by
    have before := accounts.children q
    simp only [settled.inflight, settled.released, Memory.runningPids] at before running
    simp only [World.reaped, World.observe, Procs.isChild_update, settled.inflight, Memory.runningPids]
    by_cases same : q = pid
    · subst same
      simpa using running
    · simp only [same, if_false, Option.some.injEq, Ne.symm same, or_false]
      simpa using before
  inflight q starts := by
    rw [World.reaped] at starts
    simp [settled.inflight] at starts
  released q gone := by
    cases gone
    simp [World.reaped, Procs.isChild_update]
  starting absurd := (absurd settled.starting).elim
  positive := accounts.positive
  parted := accounts.parted
  meets := List.forall_mem_concat accounts.meets trivial

theorem retired {i : Nat} {c : Container} (accounts : w.Accounted) (here : w.memory.registry[i]? = some c)
    (running : c.running = true) (gone : w.memory.released = some c.pid) :
    (w.remember (·.retire i)).Accounted := by
  obtain ⟨front, back, parts, -, modified, -⟩ := List.split_at here
  have members := Memory.mem_runningPids_retire here running accounts.distinct
  have distinct := List.nodup_cons.mp ((Memory.runningPids_retire here running).nodup_iff.mp accounts.distinct)
  refine ⟨distinct.2, fun q => ?_, accounts.inflight, (fun _ absurd => by cases absurd), fun _ => rfl,
    fun d member up => ?_, accounts.parted, accounts.meets⟩
  · have children := accounts.children q
    rw [gone] at children
    have reaped := accounts.released c.pid gone
    simp only [World.remember]
    rw [members q, children]
    simp only [Memory.retire, Option.some.injEq, reduceCtorEq, or_false]
    constructor
    · rintro ⟨child | rfl, other⟩
      · exact child
      · exact absurd rfl other
    · rintro ⟨child, free⟩
      refine ⟨.inl ⟨child, free⟩, ?_⟩
      rintro rfl
      rw [reaped] at child
      cases child
  · simp only [World.remember, Memory.retire, modified, List.mem_append, List.mem_cons] at member
    rcases member with early | rfl | late
    · exact accounts.positive d (by rw [parts]; simp [early]) up
    · cases up
    · exact accounts.positive d (by rw [parts]; simp [late]) up

/-- The pid of the start under way is in no record. -/
theorem inflight_not_running {pid : Pid} (accounts : w.Accounted) (inflight : w.memory.inflight = some pid) :
    pid ∉ w.memory.runningPids := by
  intro running
  rcases (accounts.children pid).mp running with ⟨-, free⟩ | released
  · exact free inflight
  · have child := accounts.inflight pid inflight
    rw [accounts.released pid released] at child
    cases child

theorem cloned {i : Nat} {pid : Pid} {owner : Text} (accounts : w.Accounted) (starting : w.memory.starting = some i)
    (nobody : w.memory.inflight = none) (free : w.procs pid = none) : (w.cloned pid owner).Accounted := by
  have held : w.memory.released = none := accounts.starting (by simp [starting])
  have absent : w.procs.isChild pid = false := by simp [Procs.isChild, free]
  have child : ∀ q, (w.cloned pid owner).procs.isChild q = if q = pid then true else w.procs.isChild q :=
    fun q => Procs.isChild_update _ _ _ _
  refine ⟨accounts.distinct, fun q => ?_, fun q started => ?_, fun q released => ?_, fun _ => held, accounts.positive,
    accounts.parted, List.forall_mem_concat accounts.meets trivial⟩
  · have before := accounts.children q
    rw [nobody, held, Memory.runningPids] at before
    rw [child]
    simp only [World.cloned, World.remember, World.appear, World.observe, Memory.runningPids, held, reduceCtorEq,
      or_false]
    by_cases same : q = pid
    · subst same
      simpa [absent] using before
    · simpa [same, Ne.symm same] using before
  · cases started
    simp [child]
  · simp only [World.cloned, World.remember, World.appear, World.observe, held, reduceCtorEq] at released

theorem reapedInflight {pid : Pid} (accounts : w.Accounted) (inflight : w.memory.inflight = some pid) :
    (w.reapedInflight pid).Accounted := by
  have child : ∀ q, (w.reapedInflight pid).procs.isChild q = if q = pid then false else w.procs.isChild q :=
    fun q => Procs.isChild_update _ _ _ _
  refine ⟨accounts.distinct, fun q => ?_, (fun _ absurd => by cases absurd), fun q released => ?_, accounts.starting,
    accounts.positive, accounts.parted, List.forall_mem_concat accounts.meets trivial⟩
  · have before := accounts.children q
    rw [inflight, Memory.runningPids] at before
    rw [child]
    simp only [World.reapedInflight, World.observe, Memory.runningPids]
    by_cases same : q = pid
    · subst same
      simpa using before
    · simpa [same, Ne.symm same] using before
  · rw [child]
    split
    · rfl
    · exact accounts.released q released

theorem adopted {i : Nat} {c : Container} {pid : Pid} (accounts : w.Accounted) (here : w.memory.registry[i]? = some c)
    (down : c.state ≠ .RUNNING) (starting : w.memory.starting = some i) (inflight : w.memory.inflight = some pid)
    (positive : 0 < pid) : (w.remember (·.adopt i pid)).Accounted := by
  obtain ⟨front, back, parts, -, modified, -⟩ := List.split_at here
  have held : w.memory.released = none := accounts.starting (by simp [starting])
  have fresh := accounts.inflight_not_running inflight
  have grown := Memory.runningPids_adopt here down positive
  refine ⟨?_, fun q => ?_, (fun _ absurd => by cases absurd), accounts.released, fun _ => held, fun d member up => ?_,
    accounts.parted, accounts.meets⟩
  · exact grown.nodup_iff.mpr (List.nodup_cons.mpr ⟨fresh, accounts.distinct⟩)
  · have children := accounts.children q
    rw [inflight, held] at children
    simp only [World.remember]
    rw [grown.mem_iff]
    simp only [Memory.adopt, held, reduceCtorEq, or_false, ne_eq, not_false_eq_true, and_true, Option.some.injEq,
      List.mem_cons] at children ⊢
    by_cases same : q = pid
    · subst same
      simpa using accounts.inflight q inflight
    · simpa [same, Ne.symm same] using children
  · simp only [World.remember, Memory.adopt, modified, List.mem_append, List.mem_cons] at member
    rcases member with early | rfl | late
    · exact accounts.positive d (by rw [parts]; simp [early]) up
    · exact positive
    · exact accounts.positive d (by rw [parts]; simp [late]) up

end World.Accounted

theorem Move.accounted {w w' : World} (move : Move w w') (faithful : Faithful w.oracle) (accounts : w.Accounted) :
    w'.Accounted := by
  cases move with
  | quiet _ quiet => exact accounts.frame quiet.memory quiet.isChild (quiet.meets accounts.meets)
  | kill c member running settled =>
    refine accounts.frame rfl (fun pid => Procs.isChild_kill _ _ _ _) (List.forall_mem_concat accounts.meets ?_)
    exact accounts.child_of_running settled (List.mem_map.mpr ⟨c, List.mem_filter.mpr ⟨member, running⟩, rfl⟩)
  | wait pid running settled =>
    exact accounts.frame rfl (fun _ => rfl) (List.forall_mem_concat accounts.meets (accounts.child_of_running settled running))
  | signal pid signal running on => exact accounts.frame rfl (fun _ => Procs.isChild_kill _ _ _ _) accounts.meets
  | killInflight i c pid starting here inflight =>
    exact accounts.frame rfl (fun _ => Procs.isChild_kill _ _ _ _) (List.forall_mem_concat accounts.meets (accounts.inflight pid inflight))
  | waitInflight pid inflight =>
    exact accounts.frame rfl (fun _ => rfl) (List.forall_mem_concat accounts.meets (accounts.inflight pid inflight))
  | enable | disable | sweep | swept => exact accounts.frame rfl (fun _ => rfl) accounts.meets
  | sweepNext pid rest next => exact accounts.frame rfl (fun _ => Procs.isChild_kill _ _ _ _) accounts.meets
  | draw settled => exact accounts.relist ⟨rfl, accounts.meets⟩ rfl rfl rfl accounts.starting accounts.positive accounts.parted
  | abandon => exact accounts.relist ⟨rfl, accounts.meets⟩ rfl rfl rfl accounts.starting accounts.positive accounts.parted
  | discard =>
    exact accounts.relist ⟨rfl, accounts.meets⟩ rfl rfl rfl accounts.starting accounts.positive fun _ parted => by cases parted
  | beginStart i c here down settled =>
    exact accounts.modify_down here ⟨rfl, accounts.meets⟩ rfl down down rfl rfl rfl fun _ => settled.released
  | abortStart i c starting here down nobody =>
    exact accounts.modify_down here ⟨rfl, accounts.meets⟩ rfl down down rfl rfl rfl fun absurd => (absurd rfl).elim
  | reap pid running child settled => exact accounts.reaped running settled
  | retire i c here running nobody gone =>
    rcases gone with reaped | ⟨held, foreign | denied⟩
    · exact accounts.retired here running reaped
    · -- The record's pid is a child, so `waitpid` cannot have denied it.
      have listed : c.pid ∈ w.memory.runningPids := Memory.mem_runningPids here running
      rcases (accounts.children c.pid).mp listed with ⟨child, -⟩ | released
      · rw [foreign] at child
        cases child
      · rw [held] at released
        cases released
    · obtain ⟨n, denied⟩ := denied
      exact absurd denied (faithful.wait n)
  | clone i c pid starting here nobody positive free => exact accounts.cloned starting nobody free
  | reapInflight pid inflight => exact accounts.reapedInflight inflight
  | leakInflight pid inflight denied =>
    obtain ⟨n, denied⟩ := denied
    exact absurd (faithful.reap n) denied
  | adopt i c pid starting here down inflight positive => exact accounts.adopted here down starting inflight positive
  | enroll spec sequence resolved drawn nobody =>
    refine accounts.relist ⟨rfl, List.forall_mem_concat accounts.meets trivial⟩ ?_ rfl rfl accounts.starting
      (fun c member up => ?_) accounts.parted
    · exact Memory.runningPids_enroll rfl
    · rcases List.mem_append.mp member with old | new
      · exact accounts.positive c old up
      · rw [List.mem_singleton.mp new] at up
        cases up
  | unenroll c last created settled =>
    refine accounts.relist ⟨rfl, accounts.meets⟩ ?_ rfl rfl accounts.starting (fun d member up => ?_) accounts.parted
    · exact Memory.runningPids_unenroll last (by simp [created])
    · exact accounts.positive d ((List.dropLast_sublist _).subset member) up
  | detach i c here down settled =>
    refine accounts.relist ⟨rfl, accounts.meets⟩ (Memory.runningPids_detach here down) rfl rfl accounts.starting
      (fun d member up => ?_) (fun d parted => ?_)
    · exact accounts.positive d ((List.eraseIdx_sublist _ _).subset member) up
    · cases parted
      exact down
  | reattach c detached nobody =>
    have down := accounts.parted c detached
    refine accounts.relist ⟨rfl, accounts.meets⟩ (Memory.runningPids_reattach down) rfl rfl accounts.starting
      (fun d member up => ?_) (fun _ parted => by cases parted)
    · rcases List.mem_append.mp member with old | new
      · exact accounts.positive d old up
      · rw [List.mem_singleton.mp new] at up
        exact absurd up down

/-! ## Sessions -/

theorem Move.oracle {w w' : World} (move : Move w w') : w'.oracle = w.oracle := by
  cases move with
  | quiet _ quiet => exact quiet.oracle
  | _ => rfl

theorem accounted_of_chain {w w' : World} (chain : Relation.ReflTransGen Move w w') (faithful : Faithful w.oracle)
    (accounts : w.Accounted) : w'.Accounted ∧ w'.oracle = w.oracle := by
  induction chain with
  | refl => exact ⟨accounts, rfl⟩
  | tail _ move ih =>
    obtain ⟨accounts, same⟩ := ih
    exact ⟨move.accounted (same ▸ faithful) accounts, move.oracle.trans same⟩

/-- From an empty registry, through any commands: the RUNNING records and the unreaped children are in
bijection after each of them, and the manager has never killed or waited for anything else. -/
theorem accounts_balance (w : World) (up : w.up = true) (settled : w.memory.Settled) (empty : w.memory.registry = [])
    (childless : ∀ pid, w.procs.isChild pid = false) (unobserved : w.trace = []) (faithful : Faithful w.oracle)
    (commands : List Command) :
    let after := w.run (commands.map .command)
    (after.up = true → after.Balanced) ∧ ∀ obs ∈ after.trace, obs.MeetsChild := by
  have start : w.Accounted := by
    refine ⟨?_, fun pid => ?_, fun pid started => ?_, fun pid _ => childless pid, fun _ => settled.released, ?_, ?_, ?_⟩
    · simp [Memory.runningPids, empty, pidsOf]
    · simp [Memory.runningPids, empty, pidsOf, childless, settled.released]
    · simp [settled.inflight] at started
    · simp [empty]
    · simp [settled.detached]
    · simp [unobserved]
  rcases World.commands_cases commands up settled with ⟨chain, -, settled'⟩ | ⟨v, chain, gone⟩
  · obtain ⟨accounts, -⟩ := accounted_of_chain chain faithful start
    exact ⟨fun _ => accounts.balanced settled', accounts.meets⟩
  · obtain ⟨accounts, -⟩ := accounted_of_chain chain faithful start
    simp only [gone]
    exact ⟨fun absurd => (by cases absurd), List.forall_mem_concat accounts.meets trivial⟩

theorem Faithful.scripted {script : List (Nat × Tick)}
    (good : ∀ entry ∈ script, entry.2.waitFail ≠ some Errno.ECHILD ∧ entry.2.reapFail = none) :
    Faithful (scripted script) := by
  have each : ∀ n, (ContainerRuntime.scripted script n).waitFail ≠ some Errno.ECHILD ∧
      (ContainerRuntime.scripted script n).reapFail = none := by
    intro n
    rcases scripted_cases script n with calm | ⟨entry, member, same⟩
    · rw [calm]
      exact ⟨by decide, rfl⟩
    · rw [same]
      exact good entry member
  exact ⟨fun n => (each n).1, fun n => (each n).2⟩

/-- A container is started in the background, and its process ends before the next poll. -/
theorem accounts_balance_runbg_poll :
    let script := [(20, { Tick.calm with events := [.exits 1 (.exited 0)] })]
    let w : World := { World.initial (scripted script) (fun _ => none) with up := true }
    let spec : ContainerSpec := ⟨some (lit "web"), none, none, some (lit "sleep 9"), .unlimited⟩
    let after := w.run ([Command.runbg spec].map .command)
    let later := w.run ([Command.runbg spec, .poll].map .command)
    after.procs.isChild 1 = true ∧ (after.up = true → after.Balanced) ∧
      later.procs.isChild 1 = false ∧ ∀ obs ∈ later.trace, obs.MeetsChild := by
  intro script w spec after later
  have faithful : Faithful w.oracle := .scripted (by decide +kernel)
  refine ⟨by decide +kernel, ?_, by decide +kernel, ?_⟩
  · exact (accounts_balance w rfl Memory.fresh_settled rfl (fun _ => rfl) rfl faithful _).1
  · exact (accounts_balance w rfl Memory.fresh_settled rfl (fun _ => rfl) rfl faithful _).2

end ContainerRuntime
