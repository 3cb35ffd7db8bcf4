import ContainerRuntime.Manager.Commands

/-! Whose process a kill hits, over runs with restarts and reuse of pids.

A record knows its process by a number only. The number is safe to use as long
as no other process takes it while a RUNNING record, in memory or in
`containers.meta`, still holds it, and as long as the file reads back the
records that were written.
-/

set_option autoImplicit false

namespace ContainerRuntime

open CString Cli Program

/-- A SIGKILL for a container hits a process that was made for it, if it hits one. -/
def Obs.KillsOwn : Obs → Prop
  | .killed who _ (some proc) => proc.origin = some who
  | _ => True

/-- No process takes a pid that a RUNNING record of another container holds, and the records that are
made have texts which `containers.meta` can carry. -/
def Obs.Fair : Obs → Prop
  | .appeared pid origin held disk _ =>
    ∀ record ∈ held ++ decodeRegistry (disk.getD []), record.running = true → record.pid = pid →
      origin = some record.id.text
  | .enrolled record => record.Clean
  | _ => True

instance : DecidablePred Obs.KillsOwn
  | .killed who _ (some proc) => inferInstanceAs (Decidable (proc.origin = some who))
  | .killed _ _ none | .waited _ _ | .paused _ _ _ _ | .resumed _ _ | .reaped _ _ | .appeared _ _ _ _ _ | .enrolled _
  | .noted _ => .isTrue trivial

instance : DecidablePred Obs.Fair
  | .appeared pid origin held disk _ => inferInstanceAs (Decidable (∀ record ∈ held ++ decodeRegistry (disk.getD []),
      record.running = true → record.pid = pid → origin = some record.id.text))
  | .enrolled record => inferInstanceAs (Decidable record.Clean)
  | .killed _ _ _ | .waited _ _ | .paused _ _ _ _ | .resumed _ _ | .reaped _ _ | .noted _ => .isTrue trivial

/-- The process at the record's pid, if there is one, is the record's own. -/
def OwnedBy (procs : Procs) (record : Record) : Prop :=
  record.running = true → ∀ proc, procs record.pid = some proc → proc.origin = some record.id.text

structure World.Owned (w : World) : Prop where
  held : ∀ record ∈ w.memory.held, OwnedBy w.procs record ∧ record.Filled ∧ record.Clean
  stored : ∀ record ∈ decodeRegistry (w.disk.getD []), OwnedBy w.procs record
  /-- The child of the start under way is there, and is its container's. -/
  inflight : ∀ pid, w.memory.inflight = some pid → w.procs.isChild pid = true ∧
    ∀ i c proc, w.memory.starting = some i → w.memory.registry[i]? = some c → w.procs pid = some proc →
      proc.origin = some c.id.text
  kills : ∀ obs ∈ w.trace, obs.KillsOwn

/-! ## Processes that come and go -/

/-- Every process there is was there before, made for the same container. -/
def Procs.Descends (before after : Procs) : Prop :=
  ∀ pid proc, after pid = some proc → ∃ earlier, before pid = some earlier ∧ proc.origin = earlier.origin

namespace Procs.Descends

theorem refl (procs : Procs) : procs.Descends procs := fun _ proc here => ⟨proc, here, rfl⟩

theorem kill (procs : Procs) (pid : Pid) (signal : Signal) : procs.Descends (procs.kill pid signal) := by
  intro q proc here
  unfold Procs.kill at here
  by_cases same : q = pid
  · subst same
    rw [Function.update_self] at here
    obtain ⟨earlier, there, rfl⟩ := Option.map_eq_some_iff.mp here
    exact ⟨earlier, there, by cases signal <;> rfl⟩
  · rw [Function.update_of_ne same] at here
    exact ⟨proc, here, rfl⟩

theorem removed (procs : Procs) (pid : Pid) : procs.Descends (Function.update procs pid none) := by
  intro q proc here
  by_cases same : q = pid
  · subst same
    simp at here
  · rw [Function.update_of_ne same] at here
    exact ⟨proc, here, rfl⟩

theorem orphaned (procs : Procs) : procs.Descends procs.orphaned := by
  intro q proc here
  obtain ⟨earlier, there, rfl⟩ := Option.map_eq_some_iff.mp here
  exact ⟨earlier, there, rfl⟩

theorem ownedBy {before after : Procs} (descends : before.Descends after) {record : Record}
    (owned : OwnedBy before record) : OwnedBy after record := by
  intro running proc here
  obtain ⟨earlier, there, same⟩ := descends _ proc here
  rw [same]
  exact owned running earlier there

end Procs.Descends

theorem ownedBy_of_down {procs : Procs} {record : Record} (down : record.running = false) : OwnedBy procs record := by
  intro running
  rw [down] at running
  cases running

/-- A process that appears is nobody's, or its own container's. -/
theorem ownedBy_appear {procs : Procs} {pid : Pid} {proc : Proc} {record : Record} (owned : OwnedBy procs record)
    (fair : record.running = true → record.pid = pid → proc.origin = some record.id.text) :
    OwnedBy (Function.update procs pid (some proc)) record := by
  intro running found here
  by_cases same : record.pid = pid
  · rw [same, Function.update_self] at here
    cases here
    exact fair running same
  · rw [Function.update_of_ne same] at here
    exact owned running found here

/-! ## Along a chain of moves -/

namespace World.Owned

variable {w w' : World}

/-- Processes go, or stay as they are to their records; the manager's memory is as it was. -/
theorem frame (owned : w.Owned) (memory : w'.memory = w.memory) (disk : w'.disk = w.disk)
    (descends : w.procs.Descends w'.procs) (children : ∀ pid, w'.procs.isChild pid = w.procs.isChild pid)
    (kills : ∀ obs ∈ w'.trace, obs.KillsOwn) : w'.Owned where
  held record member := by
    obtain ⟨own, texts⟩ := owned.held record (memory ▸ member)
    exact ⟨descends.ownedBy own, texts⟩
  stored record member := descends.ownedBy (owned.stored record (disk ▸ member))
  inflight pid started := by
    rw [memory] at started ⊢
    obtain ⟨child, own⟩ := owned.inflight pid started
    refine ⟨(children pid).trans child, fun i c proc starting here found => ?_⟩
    obtain ⟨earlier, there, same⟩ := descends pid proc found
    rw [same]
    exact own i c earlier starting here there
  kills := kills

/-- The records change, while no start has a child under way. -/
theorem relist (owned : w.Owned) (disk : w'.disk = w.disk) (descends : w.procs.Descends w'.procs)
    (kills : ∀ obs ∈ w'.trace, obs.KillsOwn) (nobody : w'.memory.inflight = none)
    (held : ∀ record ∈ w'.memory.held, record ∈ w.memory.held ∨
      OwnedBy w'.procs record ∧ record.Filled ∧ record.Clean) : w'.Owned where
  held record member := by
    rcases held record member with known | new
    · obtain ⟨own, texts⟩ := owned.held record known
      exact ⟨descends.ownedBy own, texts⟩
    · exact new
  stored record member := descends.ownedBy (owned.stored record (disk ▸ member))
  inflight pid started := by
    rw [nobody] at started
    cases started
  kills := kills

/-- A process appears where nobody was. -/
theorem appear {pid : Pid} (origin : Option Text) (child : Bool) (owned : w.Owned) (free : w.procs pid = none)
    (fair : (Obs.appeared pid origin w.memory.held w.disk w.sched.targets).Fair) : (w.appear pid origin child).Owned := by
  have own : ∀ record ∈ w.memory.held ++ decodeRegistry (w.disk.getD []), OwnedBy w.procs record →
      OwnedBy (w.appear pid origin child).procs record := fun record member before =>
    ownedBy_appear before (fair record member)
  refine ⟨fun record member => ?_, fun record member => ?_, fun q started => ?_, List.forall_mem_concat owned.kills trivial⟩
  · obtain ⟨before, texts⟩ := owned.held record member
    exact ⟨own record (List.mem_append_left _ member) before, texts⟩
  · exact own record (List.mem_append_right _ member) (owned.stored record member)
  · obtain ⟨there, before⟩ := owned.inflight q started
    -- The child under way is a process, so its pid is not the free one.
    have other : q ≠ pid := by
      rintro rfl
      simp [Procs.isChild, free] at there
    refine ⟨?_, fun i c proc starting here found => before i c proc starting here ?_⟩
    · simpa [World.appear, World.observe, Procs.isChild_update, other] using there
    · simpa [World.appear, World.observe, Function.update_of_ne other] using found

end World.Owned

theorem World.Drift.owned {w w' : World} (drift : w.Drift w') (fair : ∀ obs ∈ w'.trace, obs.Fair) (owned : w.Owned) :
    w'.Owned := by
  have children := drift.isChild
  cases drift with
  | nothing => exact owned
  | exits pid proc status here =>
    refine owned.frame rfl rfl (fun q found there => ?_) children owned.kills
    by_cases same : q = pid
    · subst same
      simp only [Function.update_self, Option.some.injEq] at there
      exact ⟨proc, here, by rw [← there]⟩
    · simp only [Function.update_of_ne same] at there
      exact ⟨found, there, rfl⟩
  | vanishes pid foreign => exact owned.frame rfl rfl (.removed _ _) children owned.kills
  | spawns pid positive free => exact owned.appear none false free (fair _ (by simp [World.appear, World.observe]))
  | selects sched thread => exact owned.frame rfl rfl (.refl _) children owned.kills
  | pauses current next =>
    exact owned.frame rfl rfl (.kill _ _ _) children (List.forall_mem_concat owned.kills trivial)
  | resumes next => exact owned.frame rfl rfl (.kill _ _ _) children (List.forall_mem_concat owned.kills trivial)

theorem Quiet.owned {w w' : World} (quiet : Quiet w w') (fair : ∀ obs ∈ w'.trace, obs.Fair) (owned : w.Owned) :
    w'.Owned := by
  cases quiet with
  | idle _ idle =>
    cases idle with
    | clock => exact owned.frame rfl rfl (.refl _) (fun _ => rfl) owned.kills
    | drift _ drift => exact drift.owned fair owned
  | log | table => exact owned.frame rfl rfl (.refl _) (fun _ => rfl) owned.kills
  | note => exact owned.frame rfl rfl (.refl _) (fun _ => rfl) (List.forall_mem_concat owned.kills trivial)
  | publish records kept =>
    have listed : ∀ record ∈ records, record ∈ w.memory.held := fun record member =>
      List.mem_append_left _ (List.mem_append_left _ (kept.subset member))
    have read : decodeRegistry (encodeRegistry records) = records :=
      decodeRegistry_encodeRegistry fun record member => (owned.held record (listed record member)).2
    refine ⟨owned.held, fun record member => ?_, owned.inflight, List.forall_mem_concat owned.kills trivial⟩
    simp only [World.published, World.observe, Option.getD_some, read] at member
    exact (owned.held record (listed record member)).1

theorem Move.owned {w w' : World} (move : Move w w') (fair : ∀ obs ∈ w'.trace, obs.Fair) (owned : w.Owned) :
    w'.Owned := by
  cases move with
  | quiet _ quiet => exact quiet.owned fair owned
  | kill c member running settled =>
    refine owned.frame rfl rfl (.kill _ _ _) (fun _ => Procs.isChild_kill _ _ _ _) (List.forall_mem_concat owned.kills ?_)
    have own := (owned.held c.toRecord (Memory.mem_held member)).1
    cases target : w.procs c.pid with
    | none => trivial
    | some proc => exact own running proc target
  | killInflight i c pid starting here inflight =>
    refine owned.frame rfl rfl (.kill _ _ _) (fun _ => Procs.isChild_kill _ _ _ _) (List.forall_mem_concat owned.kills ?_)
    cases target : w.procs pid with
    | none => trivial
    | some proc => exact (owned.inflight pid inflight).2 i c proc starting here target
  | wait | waitInflight => exact owned.frame rfl rfl (.refl _) (fun _ => rfl) (List.forall_mem_concat owned.kills trivial)
  | signal pid signal | sweepNext pid rest =>
    exact owned.frame rfl rfl (.kill _ _ _) (fun _ => Procs.isChild_kill _ _ _ _) owned.kills
  | enable | disable | sweep | swept => exact owned.frame rfl rfl (.refl _) (fun _ => rfl) owned.kills
  | reap pid running child settled =>
    exact owned.relist rfl (.removed _ _) (List.forall_mem_concat owned.kills trivial) settled.inflight fun _ member =>
      .inl member
  | reapInflight pid inflight =>
    exact owned.relist rfl (.removed _ _) (List.forall_mem_concat owned.kills trivial) rfl fun _ member => .inl member
  | leakInflight pid inflight => exact owned.relist rfl (.refl _) owned.kills rfl fun _ member => .inl member
  | draw settled => exact owned.relist rfl (.refl _) owned.kills settled.inflight fun _ member => .inl member
  | abandon =>
    exact ⟨owned.held, owned.stored, owned.inflight, owned.kills⟩
  | discard =>
    exact ⟨fun record member => owned.held record (Memory.mem_held_discard member), owned.stored, owned.inflight,
      owned.kills⟩
  | retire i c here running nobody gone =>
    refine owned.relist rfl (.refl _) owned.kills nobody fun record member => ?_
    rcases Memory.mem_held_retire here member with known | rfl
    · exact .inl known
    · obtain ⟨-, filled, clean⟩ := owned.held c.toRecord (Memory.mem_held (List.mem_of_getElem? here))
      exact .inr ⟨ownedBy_of_down (by simp [Record.running]), filled, clean⟩
  | beginStart i c here down settled =>
    exact owned.relist rfl (.refl _) owned.kills settled.inflight fun _ member =>
      .inl (Memory.mem_held_beginStart here member)
  | abortStart i c starting here down nobody =>
    exact owned.relist rfl (.refl _) owned.kills nobody fun _ member => .inl (Memory.mem_held_abortStart here member)
  | adopt i c pid starting here down inflight positive =>
    refine owned.relist rfl (.refl _) owned.kills rfl fun record member => ?_
    rcases Memory.mem_held_adopt here member with known | rfl
    · exact .inl known
    · obtain ⟨-, filled, clean⟩ := owned.held c.toRecord (Memory.mem_held (List.mem_of_getElem? here))
      refine .inr ⟨fun _ proc found => ?_, filled, clean⟩
      exact (owned.inflight pid inflight).2 i c proc starting here found
  | clone i c pid starting here nobody positive free =>
    have appeared := owned.appear (some c.id.text) true free
      (fair _ (by simp [World.cloned, World.appear, World.observe, World.remember]))
    refine ⟨appeared.held, appeared.stored, fun q started => ?_, appeared.kills⟩
    cases started
    refine ⟨by simp [World.cloned, World.remember, World.appear, World.observe, Procs.isChild], ?_⟩
    intro j d proc begun there found
    have same : j = i := Option.some.inj (begun.symm.trans starting)
    subst same
    have record : d = c := Option.some.inj (there.symm.trans here)
    subst record
    simp only [World.cloned, World.remember, World.appear, World.observe, Function.update_self,
      Option.some.injEq] at found
    rw [← found]
  | enroll spec sequence resolved drawn nobody =>
    refine owned.relist rfl (.refl _) (List.forall_mem_concat owned.kills trivial) nobody fun record member => ?_
    rcases Memory.mem_held_enroll member with known | rfl
    · exact .inl known
    · refine .inr ⟨ownedBy_of_down rfl, createdRecord_filled spec sequence resolved.2, ?_⟩
      exact fair (.enrolled _) (by simp [World.enrolled, World.observe])
  | unenroll c last created settled =>
    exact owned.relist rfl (.refl _) owned.kills settled.inflight fun _ member =>
      .inl (Memory.mem_held_unenroll member)
  | detach i c here down settled =>
    exact owned.relist rfl (.refl _) owned.kills settled.inflight fun _ member =>
      .inl (Memory.mem_held_detach here member)
  | reattach c detached nobody =>
    exact owned.relist rfl (.refl _) owned.kills nobody fun _ member => .inl (Memory.mem_held_reattach detached member)

/-! ## Runs -/

theorem Memory.revived_owned {procs : Procs} {record : Record} {alive : Bool}
    (good : OwnedBy procs record ∧ record.Filled ∧ record.Clean) :
    OwnedBy procs (Memory.revived record alive) ∧ (Memory.revived record alive).Filled ∧
      (Memory.revived record alive).Clean := by
  unfold Memory.revived
  split
  · exact ⟨ownedBy_of_down (by simp [Record.running]), good.2⟩
  · exact good

theorem BootMove.owned {file : Text} {w w' : World} (move : BootMove file w w') (fair : ∀ obs ∈ w'.trace, obs.Fair)
    (owned : w.Owned) : w'.Owned := by
  cases move with
  | move _ move => exact move.owned fair owned
  | load stored fresh =>
    refine owned.relist rfl (.refl _) owned.kills (by rw [World.remember, fresh]; rfl) fun record member => .inr ?_
    simp only [World.remember, fresh, Memory.held, Memory.records, Memory.fresh, List.map_nil, List.nil_append,
      Option.map_none, Option.toList_none, List.append_nil] at member
    exact ⟨owned.stored record (by simpa [stored] using member), decodeRegistry_plain member⟩
  | restore record rest next nobody =>
    refine owned.relist rfl (.refl _) (List.forall_mem_concat owned.kills trivial) nobody fun other member => ?_
    rcases Memory.mem_held_restore next member with known | ⟨rfl, known⟩
    · exact .inl known
    · exact .inr (Memory.revived_owned (owned.held record known))

theorem World.Owned.launched {w : World} (owned : w.Owned) : w.launched.Owned where
  held record member := by cases member
  stored := owned.stored
  inflight pid started := by cases started
  kills := owned.kills

theorem World.Owned.crash {w : World} (owned : w.Owned) : w.crash.Owned := by
  refine owned.launched.relist rfl (.orphaned _) (List.forall_mem_concat owned.kills trivial) rfl fun record member => ?_
  cases member

theorem World.Owned.freed {w : World} (owned : w.Owned) : w.freed.Owned where
  held record member := owned.held record (Memory.mem_held_free member)
  stored := owned.stored
  inflight pid started :=
    ⟨(owned.inflight pid started).1, fun i c proc _ here => by simp [World.freed, World.remember] at here⟩
  kills := owned.kills

/-- If in a run no process takes a pid that a RUNNING record of another container holds, and all records made
have texts that `containers.meta` can carry, then every SIGKILL of the run went to the container's own process. -/
theorem kills_own_process (oracle : Nat → Tick) (procs : Procs) (steps : List Step) :
    let after := (World.initial oracle procs).run steps
    (∀ obs ∈ after.trace, obs.Fair) → ∀ obs ∈ after.trace, obs.KillsOwn := by
  have start : (World.initial oracle procs).Owned := by
    refine ⟨fun _ member => ?_, fun _ member => ?_, fun _ started => ?_, fun _ member => ?_⟩
    · cases member
    · cases member
    · cases started
    · cases member
  have kept := World.run_observed_invariant Obs.Fair World.Owned (fun _ _ _ move fair owned => move.owned fair owned)
    (fun _ owned => owned.freed) (fun _ owned => owned.launched) (fun _ owned => owned.crash)
    (fun _ owned => ⟨owned.held, owned.stored, owned.inflight, owned.kills⟩)
    (w := World.initial oracle procs) (.inl ⟨rfl, rfl⟩) start steps
  exact fun fair => (kept.2 fair).kills

/-- A container is started in one session and stopped in the next one. -/
theorem restored_container_killed :
    let script := [(26, { Tick.calm with cut := true })]
    let spec : ContainerSpec := ⟨some (lit "web"), none, none, some (lit "sleep 9"), .unlimited⟩
    let steps := [.boot, .command (.runbg spec), .command .poll, .boot, .command (.stop (lit "container-0001"))]
    let after := (World.initial (scripted script) fun _ => none).run steps
    .killed (lit "container-0001") 1 (some ⟨some (lit "container-0001"), false, none, false⟩) ∈ after.trace ∧
      ∀ obs ∈ after.trace, obs.KillsOwn := by
  intro script spec steps after
  refine ⟨by decide +kernel, kills_own_process _ _ steps ?_⟩
  decide +kernel

/-- While no manager runs, the container's process ends and its pid goes to somebody else; the next manager
restores the record, and `stop` kills the stranger. -/
theorem stranger_killed_after_restart :
    let reuse := [Event.exits 1 (.exited 0), .vanishes 1, .spawns 1]
    let script := [(26, { Tick.calm with cut := true }), (27, { Tick.calm with events := reuse })]
    let spec : ContainerSpec := ⟨some (lit "web"), none, none, some (lit "sleep 9"), .unlimited⟩
    let steps := [.boot, .command (.runbg spec), .command .poll, .boot, .command (.stop (lit "container-0001"))]
    let after := (World.initial (scripted script) fun _ => none).run steps
    ¬ ∀ obs ∈ after.trace, obs.KillsOwn := by
  decide +kernel

end ContainerRuntime
