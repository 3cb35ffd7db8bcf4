import ContainerRuntime.Resource.Limits

/-! Limits are only ever lowered.

The functions of `resource.c` again, call by call, with the pairs that
`setrlimit` is asked for kept next to those that were in force. Without the
record of the calls they are the functions of `Resource.Limits`.
-/

set_option autoImplicit false

namespace ContainerRuntime

open CString

/-- A call of `setrlimit`. -/
structure LimitCall where
  resource : Resource
  old : Rlimit
  next : Rlimit
  deriving DecidableEq

/-- The process, and the `setrlimit` calls it has made. -/
structure LimitProcess where
  limits : Limits
  asked : List LimitCall

abbrev LimitProg := ExceptT Errno (StateM LimitProcess)

namespace LimitProg

variable (calls : RlimitCalls)

def getrlimit (resource : Resource) : LimitProg Rlimit := do
  match calls.getrlimit resource with
  | some e => throw e
  | none => return (← get).limits resource

def setrlimit (resource : Resource) (next : Rlimit) : LimitProg Unit := do
  modify fun process => { process with asked := process.asked ++ [⟨resource, process.limits resource, next⟩] }
  match calls.setrlimit resource with
  | some e => throw e
  | none => modify fun process => { process with limits := Function.update process.limits resource next }

/-- `apply_single_limit_lower_only`. -/
def applySingleLimitLowerOnly (resource : Resource) (requested : Nat) : LimitProg Unit := do
  let current ← getrlimit calls resource
  match nextLimit current requested with
  | none => pure ()
  | some next => setrlimit calls resource next

def applyConfigured (config : ResourceConfig) (resource : Resource) : LimitProg Unit :=
  match resource with
  | .RLIMIT_CPU =>
    if config.cpuSeconds = 0 then pure ()
    else applySingleLimitLowerOnly calls .RLIMIT_CPU config.cpuSeconds.toNat
  | .RLIMIT_AS =>
    if config.memoryMb = 0 then pure ()
    else if memoryBytes config.memoryMb = 0 then throw Errno.EINVAL
    else applySingleLimitLowerOnly calls .RLIMIT_AS (memoryBytes config.memoryMb)
  | .RLIMIT_NPROC =>
    if config.maxProcesses = 0 then pure ()
    else applySingleLimitLowerOnly calls .RLIMIT_NPROC config.maxProcesses.toNat

/-- `resource_apply_limits`. -/
def resourceApplyLimits (config : ResourceConfig) : LimitProg Unit := do
  applyConfigured calls config .RLIMIT_CPU
  applyConfigured calls config .RLIMIT_AS
  applyConfigured calls config .RLIMIT_NPROC

def exec {α : Type} (p : LimitProg α) (process : LimitProcess) : Except Errno α × LimitProcess := Id.run (p.run.run process)

end LimitProg

namespace LimitProcess

def lowered (process : LimitProcess) (resource : Resource) (requested : Nat) : LimitProcess :=
  match nextLimit (process.limits resource) requested with
  | none => process
  | some next =>
    { limits := Function.update process.limits resource next
      asked := process.asked ++ [⟨resource, process.limits resource, next⟩] }

end LimitProcess

/-- No call fails. -/
def RlimitCalls.granted : RlimitCalls := ⟨fun _ => none, fun _ => none⟩

namespace LimitProg

theorem exec_bind_eq {α β : Type} (p : LimitProg α) (f : α → LimitProg β) (process : LimitProcess) :
    (p >>= f).exec process = match p.exec process with
      | (.ok value, after) => (f value).exec after
      | (.error e, after) => (.error e, after) := by
  simp only [exec, ExceptT.run_bind, StateT.run_bind, Id.run_bind]
  rcases Id.run (p.run.run process) with ⟨_ | _, _⟩ <;> rfl

theorem exec_bind {α β : Type} {p : LimitProg α} {f : α → LimitProg β} {process after : LimitProcess} {value : α}
    (first : p.exec process = (.ok value, after)) : (p >>= f).exec process = (f value).exec after := by
  rw [exec_bind_eq, first]

/-- Everything that one application does, when no call fails. -/
theorem exec_applySingleLimitLowerOnly (resource : Resource) (requested : Nat) (process : LimitProcess) :
    (applySingleLimitLowerOnly .granted resource requested).exec process = (.ok (), process.lowered resource requested) := by
  have read : (getrlimit .granted resource).exec process = (.ok (process.limits resource), process) := rfl
  rw [applySingleLimitLowerOnly, exec_bind read, LimitProcess.lowered]
  cases nextLimit (process.limits resource) requested with
  | none => rfl
  | some next => rfl

/-- The three parts of `resource_apply_limits` are one function of what is asked for. -/
theorem applyConfigured_eq (calls : RlimitCalls) (config : ResourceConfig) (resource : Resource) :
    applyConfigured calls config resource =
      if config.requested resource = 0 then pure ()
      else applySingleLimitLowerOnly calls resource (config.requested resource) := by
  have zero : ∀ value : UInt32, value = 0 ↔ value.toNat = 0 := fun value =>
    ⟨fun same => by rw [same]; rfl, fun same => UInt32.toNat_inj.mp same⟩
  cases resource with
  | RLIMIT_CPU =>
    have unlimited : config.requested .RLIMIT_CPU = 0 ↔ config.cpuSeconds = 0 := (zero _).symm
    simp only [applyConfigured, unlimited]
    rfl
  | RLIMIT_AS =>
    have bytes : config.memoryMb.toNat * 2 ^ 20 = 0 ↔ config.memoryMb = 0 := by
      rw [zero]
      omega
    simp only [applyConfigured, ResourceConfig.requested, memoryBytes_eq, bytes]
    split <;> rfl
  | RLIMIT_NPROC =>
    have unlimited : config.requested .RLIMIT_NPROC = 0 ↔ config.maxProcesses = 0 := (zero _).symm
    simp only [applyConfigured, unlimited]
    rfl

end LimitProg

def LimitProcess.configured (process : LimitProcess) (config : ResourceConfig) (resource : Resource) : LimitProcess :=
  if config.requested resource = 0 then process else process.lowered resource (config.requested resource)

theorem LimitProg.exec_applyConfigured (config : ResourceConfig) (resource : Resource) (process : LimitProcess) :
    (applyConfigured .granted config resource).exec process = (.ok (), process.configured config resource) := by
  rw [applyConfigured_eq, LimitProcess.configured]
  split
  · rfl
  · exact exec_applySingleLimitLowerOnly resource _ process

theorem LimitProg.exec_resourceApplyLimits (config : ResourceConfig) (process : LimitProcess) :
    (resourceApplyLimits .granted config).exec process = (.ok (),
      ((process.configured config .RLIMIT_CPU).configured config .RLIMIT_AS).configured config .RLIMIT_NPROC) := by
  rw [resourceApplyLimits, exec_bind (exec_applyConfigured config .RLIMIT_CPU process),
    exec_bind (exec_applyConfigured config .RLIMIT_AS _)]
  exact exec_applyConfigured config .RLIMIT_NPROC _

/-! ## The pair that is set -/

/-- A pair that `getrlimit` can return. -/
def Rlimit.Valid (pair : Rlimit) : Prop := pair.cur ≤ pair.max ∧ pair.max ≤ rlimInfinity

/-- What is asked for is no more than the old pair has. -/
def LimitCall.Lowers (call : LimitCall) : Prop :=
  call.next.cur ≤ call.old.cur ∧ call.next.max ≤ call.old.max ∧ call.next.cur ≤ call.next.max

/-- The smallest of the three numbers. -/
def Rlimit.lowest (pair : Rlimit) (requested : Nat) : Nat := min requested (min pair.cur pair.max)

theorem clampTo_eq_min {bound requested : Nat} (asked : requested ≤ rlimInfinity) : clampTo bound requested = min bound requested := by
  unfold clampTo
  split
  · omega
  · omega

/-- Both halves of the pair become the smallest of the three, by a call or because they are so already. -/
theorem nextLimit_cases {pair : Rlimit} (valid : pair.Valid) {requested : Nat} (asked : requested ≤ rlimInfinity) :
    nextLimit pair requested = none ∧ pair = ⟨pair.lowest requested, pair.lowest requested⟩ ∨
      nextLimit pair requested = some ⟨pair.lowest requested, pair.lowest requested⟩ := by
  have clamped : clampTo pair.max (clampTo pair.cur requested) = pair.lowest requested := by
    rw [clampTo_eq_min asked, clampTo_eq_min (by omega), Rlimit.lowest]
    omega
  have ordered := valid.1
  unfold nextLimit
  dsimp only
  rw [clamped]
  split
  · rename_i same
    refine .inl ⟨rfl, ?_⟩
    cases pair
    simp only [Rlimit.mk.injEq]
    exact ⟨same.1.symm, same.2.symm⟩
  · refine .inr ?_
    split
    · rfl
    · rename_i top
      have max : pair.max = pair.lowest requested := by
        unfold Rlimit.lowest at top ⊢
        omega
      rw [← max]

/-- A pair that is low enough is left alone. -/
theorem nextLimit_again {pair : Rlimit} {requested : Nat} (low : pair.cur ≤ requested) (even : pair.max = pair.cur)
    (asked : requested ≤ rlimInfinity) : nextLimit pair requested = none := by
  have clamped : clampTo pair.max (clampTo pair.cur requested) = pair.cur := by
    rw [clampTo_eq_min asked, clampTo_eq_min (by omega), even]
    omega
  unfold nextLimit
  dsimp only
  rw [clamped, if_pos ⟨rfl, even.symm⟩]

theorem ResourceConfig.requested_le (config : ResourceConfig) (resource : Resource) : config.requested resource ≤ rlimInfinity := by
  have cpu := config.cpuSeconds.toNat_lt
  have memory := config.memoryMb.toNat_lt
  have processes := config.maxProcesses.toNat_lt
  unfold rlimInfinity
  cases resource <;> simp only [requested] <;> omega

namespace LimitProcess

/-- The pair of a resource after all calls have succeeded. -/
def goal (limits : Limits) (config : ResourceConfig) (resource : Resource) : Rlimit :=
  if config.requested resource = 0 then limits resource
  else ⟨(limits resource).lowest (config.requested resource), (limits resource).lowest (config.requested resource)⟩

variable {process : LimitProcess} {config : ResourceConfig} {resource : Resource}

theorem configured_limits (valid : (process.limits resource).Valid) :
    (process.configured config resource).limits =
      Function.update process.limits resource (goal process.limits config resource) := by
  unfold configured goal
  split
  · exact (Function.update_eq_self _ _).symm
  · unfold lowered
    rcases nextLimit_cases valid (config.requested_le resource) with ⟨kept, same⟩ | set
    · rw [kept, ← same]
      exact (Function.update_eq_self _ _).symm
    · rw [set]

theorem configured_asked (valid : (process.limits resource).Valid) (lowers : ∀ call ∈ process.asked, call.Lowers) :
    ∀ call ∈ (process.configured config resource).asked, call.Lowers := by
  unfold configured
  split
  · exact lowers
  · unfold lowered
    rcases nextLimit_cases valid (config.requested_le resource) with ⟨kept, -⟩ | set
    · rw [kept]
      exact lowers
    · rw [set]
      intro call member
      rcases List.mem_append.mp member with before | new
      · exact lowers call before
      · rw [List.mem_singleton.mp new]
        refine ⟨?_, ?_, Nat.le_refl _⟩ <;> simp only [Rlimit.lowest] <;> omega

/-- A resource that has its goal is left alone. -/
theorem configured_again (limits : Limits) (reached : process.limits resource = goal limits config resource) :
    process.configured config resource = process := by
  unfold configured
  split
  · rfl
  · rename_i asked
    have kept : nextLimit (process.limits resource) (config.requested resource) = none := by
      rw [reached, goal, if_neg asked]
      exact nextLimit_again (Nat.min_le_left _ _) rfl (config.requested_le resource)
    rw [lowered, kept]

/-- The three resources in turn. -/
def resources : List Resource := [.RLIMIT_CPU, .RLIMIT_AS, .RLIMIT_NPROC]

theorem configured_goals (config : ResourceConfig) (limits : Limits) (valid : ∀ resource, (limits resource).Valid) (todo : List Resource)
    (distinct : todo.Nodup) (process : LimitProcess) (fresh : ∀ resource ∈ todo, process.limits resource = limits resource)
    (lowers : ∀ call ∈ process.asked, call.Lowers) :
    let after := todo.foldl (fun process resource => process.configured config resource) process
    (∀ resource, after.limits resource =
      if resource ∈ todo then goal limits config resource else process.limits resource) ∧ ∀ call ∈ after.asked, call.Lowers := by
  -- The resources that are still to do have the limits of the start.
  induction todo generalizing process with
  | nil => exact ⟨fun _ => rfl, lowers⟩
  | cons first rest ih =>
    obtain ⟨later, distinct⟩ := List.nodup_cons.mp distinct
    have own := fresh first List.mem_cons_self
    have usable : (process.limits first).Valid := own ▸ valid first
    have set : (process.configured config first).limits = Function.update process.limits first (goal limits config first) := by
      rw [configured_limits usable, goal, goal, own]
    have kept : ∀ resource ∈ rest, (process.configured config first).limits resource = limits resource := by
      intro resource member
      rw [set, Function.update_of_ne fun same : resource = first => later (same ▸ member)]
      exact fresh resource (List.mem_cons_of_mem _ member)
    obtain ⟨goals, asked⟩ := ih distinct (process.configured config first) kept (configured_asked usable lowers)
    refine ⟨fun resource => (goals resource).trans ?_, asked⟩
    by_cases same : resource = first
    · subst same
      rw [if_neg later, set, Function.update_self, if_pos List.mem_cons_self]
    · rw [set, Function.update_of_ne same]
      simp only [List.mem_cons, same, false_or]

theorem configured_reached (limits : Limits) (todo : List Resource) (process : LimitProcess)
    (reached : ∀ resource ∈ todo, process.limits resource = goal limits config resource) :
    todo.foldl (fun process resource => process.configured config resource) process = process := by
  induction todo with
  | nil => rfl
  | cons first rest ih =>
    rw [List.foldl_cons, configured_again limits (reached first List.mem_cons_self)]
    exact ih fun resource member => reached resource (List.mem_cons_of_mem _ member)

end LimitProcess

/-- With no call failing, `resource_apply_limits` returns 0 and sets each configured resource to the smallest of what is
asked for and what it had, asking for nothing higher on the way; a second application does nothing. -/
theorem limits_only_lowered (config : ResourceConfig) (limits : Limits) (valid : ∀ resource, (limits resource).Valid) :
    ∃ after : LimitProcess, (LimitProg.resourceApplyLimits .granted config).exec ⟨limits, []⟩ = (.ok (), after) ∧
      (∀ resource, after.limits resource =
        if config.requested resource = 0 then limits resource
        else ⟨min (config.requested resource) (min (limits resource).cur (limits resource).max),
          min (config.requested resource) (min (limits resource).cur (limits resource).max)⟩) ∧
      (∀ call ∈ after.asked, call.Lowers) ∧
      (LimitProg.resourceApplyLimits .granted config).exec after = (.ok (), after) := by
  obtain ⟨goals, asked⟩ := LimitProcess.configured_goals config limits valid LimitProcess.resources (by decide)
    ⟨limits, []⟩ (fun _ _ => rfl) nofun
  have all : ∀ resource, resource ∈ LimitProcess.resources := fun resource => by cases resource <;> decide
  have reached := fun resource => (goals resource).trans (if_pos (all resource))
  refine ⟨_, LimitProg.exec_resourceApplyLimits config _, reached, asked, ?_⟩
  rw [LimitProg.exec_resourceApplyLimits]
  exact congrArg (Prod.mk _) (LimitProcess.configured_reached limits LimitProcess.resources _ fun resource _ => reached resource)

/-- A soft limit below its hard limit, a pair that is unlimited, and one that is lower than what is asked for. -/
theorem limits_lowered_mixed :
    let config : ResourceConfig := ⟨5, 0, 100⟩
    let limits : Limits := fun
      | .RLIMIT_CPU => ⟨10, 20⟩
      | .RLIMIT_AS => ⟨rlimInfinity, rlimInfinity⟩
      | .RLIMIT_NPROC => ⟨64, rlimInfinity⟩
    ∃ after : LimitProcess, (LimitProg.resourceApplyLimits .granted config).exec ⟨limits, []⟩ = (.ok (), after) ∧
      after.limits .RLIMIT_CPU = ⟨5, 5⟩ ∧ after.limits .RLIMIT_AS = ⟨rlimInfinity, rlimInfinity⟩ ∧
      after.limits .RLIMIT_NPROC = ⟨64, 64⟩ ∧ ∀ call ∈ after.asked, call.Lowers := by
  intro config limits
  have valid : ∀ resource, (limits resource).Valid := by
    intro resource
    cases resource <;> constructor <;> simp [limits, rlimInfinity]
  obtain ⟨after, done, set, lowers, -⟩ := limits_only_lowered config limits valid
  refine ⟨after, done, ?_, ?_, ?_, lowers⟩
  · simpa [config, limits, ResourceConfig.requested] using set .RLIMIT_CPU
  · simpa [config, limits, ResourceConfig.requested] using set .RLIMIT_AS
  · simpa [config, limits, ResourceConfig.requested, rlimInfinity] using set .RLIMIT_NPROC

/-! ## The record of the calls may be forgotten -/

namespace LimitProg

/-- The program has the outcome and the limits of the function. -/
def Implements (p : LimitProg Unit) (f : Limits → Except Errno Limits) : Prop :=
  ∀ process, f process.limits = (p.exec process).1.map fun _ => (p.exec process).2.limits

theorem Implements.seq {p q : LimitProg Unit} {f g : Limits → Except Errno Limits} (first : Implements p f)
    (second : Implements q g) : Implements (do p; q) fun limits => f limits >>= g := by
  intro process
  dsimp only
  rw [exec_bind_eq, first process]
  rcases p.exec process with ⟨_ | _, after⟩
  · rfl
  · exact second after

theorem implements_pure : Implements (pure ()) .ok := fun _ => rfl

theorem implements_throw (e : Errno) : Implements (throw e) fun _ => .error e := fun _ => rfl

theorem implements_applySingleLimitLowerOnly (calls : RlimitCalls) (resource : Resource) (requested : Nat) :
    Implements (applySingleLimitLowerOnly calls resource requested)
      (ContainerRuntime.applySingleLimitLowerOnly calls resource requested) := by
  intro process
  rw [ContainerRuntime.applySingleLimitLowerOnly, applySingleLimitLowerOnly, exec_bind_eq, getrlimit]
  cases calls.getrlimit resource with
  | some e => rfl
  | none =>
    have read : (do return (← get).limits resource : LimitProg Rlimit).exec process =
        (.ok (process.limits resource), process) := rfl
    simp only [read]
    cases nextLimit (process.limits resource) requested with
    | none => rfl
    | some next =>
      simp only
      rw [setrlimit]
      cases calls.setrlimit resource with
      | some e => rfl
      | none => rfl

theorem implements_applyConfigured (calls : RlimitCalls) (config : ResourceConfig) (resource : Resource) :
    Implements (applyConfigured calls config resource) (ContainerRuntime.applyConfigured config calls resource) := by
  cases resource with
  | RLIMIT_CPU =>
    unfold applyConfigured ContainerRuntime.applyConfigured
    dsimp only
    split
    · exact implements_pure
    · exact implements_applySingleLimitLowerOnly calls _ _
  | RLIMIT_AS =>
    unfold applyConfigured ContainerRuntime.applyConfigured
    dsimp only
    split
    · exact implements_pure
    · split
      · exact implements_throw _
      · exact implements_applySingleLimitLowerOnly calls _ _
  | RLIMIT_NPROC =>
    unfold applyConfigured ContainerRuntime.applyConfigured
    dsimp only
    split
    · exact implements_pure
    · exact implements_applySingleLimitLowerOnly calls _ _

/-- Whatever fails, the calls are those of `resource_apply_limits`. -/
theorem implements_resourceApplyLimits (calls : RlimitCalls) (config : ResourceConfig) :
    Implements (resourceApplyLimits calls config) (ContainerRuntime.resourceApplyLimits config calls) :=
  .seq (implements_applyConfigured calls config .RLIMIT_CPU)
    (.seq (implements_applyConfigured calls config .RLIMIT_AS) (implements_applyConfigured calls config .RLIMIT_NPROC))

end LimitProg

end ContainerRuntime
