import ContainerRuntime.Host.Basic

/-! Resource limits: the configuration, and its application by `setrlimit`.

A configured value of zero means unlimited and is skipped. The other values are
only ever lowered against the inherited pair of the process.
-/

set_option autoImplicit false

namespace ContainerRuntime

open CString

structure ResourceConfig where
  cpuSeconds : UInt32
  memoryMb : UInt32
  maxProcesses : UInt32
  deriving DecidableEq, Repr

def ResourceConfig.unlimited : ResourceConfig := ⟨0, 0, 0⟩

/-- `(unsigned int)strtoul(text, NULL, 10)`. -/
def readLimit (text : Text) : UInt32 := UInt32.ofNat (strtoul text)

def showLimit (value : UInt32) : Text := showUnsigned value.toNat

theorem readLimit_numeral {text : Text} (numeral : Numeral text) (fits : numeralValue text < uintSize) :
    (readLimit text).toNat = numeralValue text := by
  have bounded : numeralValue text ≤ ulongMax := by
    unfold uintSize at fits
    unfold ulongMax
    omega
  rw [readLimit, strtoul_numeral numeral bounded, UInt32.toNat_ofNat']
  exact Nat.mod_eq_of_lt fits

@[simp] theorem readLimit_showLimit (value : UInt32) : readLimit (showLimit value) = value := by
  have read := readLimit_numeral (numeral_showUnsigned value.toNat)
  rw [numeralValue_showUnsigned] at read
  exact UInt32.toNat_inj.mp (read value.toNat_lt)

theorem length_showLimit_le (value : UInt32) : (showLimit value).length ≤ 10 :=
  length_showUnsigned_le value.toNat_lt

/-! ## Limits of a process -/

inductive Resource where
  | RLIMIT_CPU | RLIMIT_AS | RLIMIT_NPROC
  deriving DecidableEq, Repr

def rlimInfinity : Nat := 2 ^ 64 - 1

structure Rlimit where
  cur : Nat
  max : Nat
  deriving DecidableEq, Repr

abbrev Limits := Resource → Rlimit

/-- The outcome of the `getrlimit` and `setrlimit` calls for each resource; `none` is success. -/
structure RlimitCalls where
  getrlimit : Resource → Option Errno
  setrlimit : Resource → Option Errno

/-- Clamp a request against one bound of the current pair. -/
def clampTo (bound requested : Nat) : Nat :=
  if bound ≠ rlimInfinity ∧ bound < requested then bound else requested

/-- The pair `setrlimit` is asked for, or `none` when the early return is taken. -/
def nextLimit (current : Rlimit) (requested : Nat) : Option Rlimit :=
  let requested := clampTo current.max (clampTo current.cur requested)
  if requested = current.cur ∧ requested = current.max then none
  else some ⟨requested,
    if current.max = rlimInfinity ∨ requested < current.max then requested else current.max⟩

def applySingleLimitLowerOnly (calls : RlimitCalls) (resource : Resource) (requested : Nat)
    (limits : Limits) : Except Errno Limits :=
  match calls.getrlimit resource with
  | some e => .error e
  | none =>
    match nextLimit (limits resource) requested with
    | none => .ok limits
    | some next =>
      match calls.setrlimit resource with
      | some e => .error e
      | none => .ok (Function.update limits resource next)

/-- `memory_mb * 1024 * 1024` in an `unsigned long long`. `rlim_t` has the same width, so
the comparison of the two in the source never differs. -/
def memoryBytes (memoryMb : UInt32) : Nat := memoryMb.toNat * 1024 * 1024 % 2 ^ 64

/-- The part of `resource_apply_limits` for one resource. -/
def applyConfigured (config : ResourceConfig) (calls : RlimitCalls) (resource : Resource)
    (limits : Limits) : Except Errno Limits :=
  match resource with
  | .RLIMIT_CPU =>
    if config.cpuSeconds = 0 then .ok limits
    else applySingleLimitLowerOnly calls .RLIMIT_CPU config.cpuSeconds.toNat limits
  | .RLIMIT_AS =>
    if config.memoryMb = 0 then .ok limits
    else if memoryBytes config.memoryMb = 0 then .error Errno.EINVAL
    else applySingleLimitLowerOnly calls .RLIMIT_AS (memoryBytes config.memoryMb) limits
  | .RLIMIT_NPROC =>
    if config.maxProcesses = 0 then .ok limits
    else applySingleLimitLowerOnly calls .RLIMIT_NPROC config.maxProcesses.toNat limits

def resourceApplyLimits (config : ResourceConfig) (calls : RlimitCalls) (limits : Limits) :
    Except Errno Limits := do
  let limits ← applyConfigured config calls .RLIMIT_CPU limits
  let limits ← applyConfigured config calls .RLIMIT_AS limits
  applyConfigured config calls .RLIMIT_NPROC limits

/-! ## What a successful application leaves in force -/

theorem clampTo_le (bound requested : Nat) : clampTo bound requested ≤ requested := by
  unfold clampTo
  split <;> omega

theorem nextLimit_cur_le {current : Rlimit} {requested : Nat} :
    ((nextLimit current requested).getD current).cur ≤ requested := by
  have lowered : clampTo current.max (clampTo current.cur requested) ≤ requested :=
    Nat.le_trans (clampTo_le _ _) (clampTo_le _ _)
  unfold nextLimit
  dsimp only
  split
  · rename_i unchanged
    simpa [unchanged.1] using lowered
  · exact lowered

/-- One application sets its own resource to the computed pair and no other. -/
theorem applySingleLimitLowerOnly_ok {calls : RlimitCalls} {resource : Resource} {requested : Nat}
    {limits after : Limits} (done : applySingleLimitLowerOnly calls resource requested limits = .ok after) :
    after = Function.update limits resource
      ((nextLimit (limits resource) requested).getD (limits resource)) := by
  unfold applySingleLimitLowerOnly at done
  cases got : calls.getrlimit resource with
  | some e => simp [got] at done
  | none =>
    cases next : nextLimit (limits resource) requested with
    | none =>
      simp only [got, next, Except.ok.injEq] at done
      simp [← done]
    | some pair =>
      cases set : calls.setrlimit resource with
      | some e => simp [got, next, set] at done
      | none =>
        simp only [got, next, set, Except.ok.injEq] at done
        simp [← done]

theorem applySingleLimitLowerOnly_cur_le {calls : RlimitCalls} {resource : Resource} {requested : Nat}
    {limits after : Limits} (done : applySingleLimitLowerOnly calls resource requested limits = .ok after) :
    (after resource).cur ≤ requested := by
  rw [applySingleLimitLowerOnly_ok done, Function.update_self]
  exact nextLimit_cur_le

theorem applySingleLimitLowerOnly_other {calls : RlimitCalls} {resource other : Resource} {requested : Nat}
    {limits after : Limits} (done : applySingleLimitLowerOnly calls resource requested limits = .ok after)
    (different : other ≠ resource) : after other = limits other := by
  rw [applySingleLimitLowerOnly_ok done, Function.update_of_ne different]

theorem memoryBytes_eq (memoryMb : UInt32) : memoryBytes memoryMb = memoryMb.toNat * 2 ^ 20 := by
  have bounded := memoryMb.toNat_lt
  unfold memoryBytes
  omega

/-- The limit a configuration asks for on one resource, in the kernel's unit. -/
def ResourceConfig.requested (config : ResourceConfig) : Resource → Nat
  | .RLIMIT_CPU => config.cpuSeconds.toNat
  | .RLIMIT_AS => config.memoryMb.toNat * 2 ^ 20
  | .RLIMIT_NPROC => config.maxProcesses.toNat

theorem ResourceConfig.requested_ne_zero (config : ResourceConfig) :
    (0 < config.requested .RLIMIT_CPU → config.cpuSeconds ≠ 0) ∧
    (0 < config.requested .RLIMIT_AS → config.memoryMb ≠ 0) ∧
    (0 < config.requested .RLIMIT_NPROC → config.maxProcesses ≠ 0) := by
  refine ⟨?_, ?_, ?_⟩ <;>
  · intro asked zero
    simp [requested, zero] at asked

theorem applyConfigured_other {config : ResourceConfig} {calls : RlimitCalls} {resource other : Resource}
    {limits after : Limits} (done : applyConfigured config calls resource limits = .ok after)
    (different : other ≠ resource) : after other = limits other := by
  cases resource <;> simp only [applyConfigured] at done <;> split at done
  case RLIMIT_AS.isFalse =>
    split at done
    · cases done
    · exact applySingleLimitLowerOnly_other done different
  all_goals first
    | (cases done; rfl)
    | exact applySingleLimitLowerOnly_other done different

theorem applyConfigured_cur_le {config : ResourceConfig} {calls : RlimitCalls} {resource : Resource}
    {limits after : Limits} (done : applyConfigured config calls resource limits = .ok after)
    (asked : 0 < config.requested resource) : (after resource).cur ≤ config.requested resource := by
  obtain ⟨cpu, memory, processes⟩ := config.requested_ne_zero
  cases resource with
  | RLIMIT_CPU =>
    simp only [applyConfigured, cpu asked, if_false] at done
    exact applySingleLimitLowerOnly_cur_le done
  | RLIMIT_AS =>
    simp only [applyConfigured, memory asked, if_false, memoryBytes_eq] at done
    split at done
    · cases done
    · exact applySingleLimitLowerOnly_cur_le done
  | RLIMIT_NPROC =>
    simp only [applyConfigured, processes asked, if_false] at done
    exact applySingleLimitLowerOnly_cur_le done

/-- Every resource with a configured positive value ends up with a soft limit at most that value,
whatever pair the process inherited. -/
theorem resourceApplyLimits_cur_le {config : ResourceConfig} {calls : RlimitCalls} {limits after : Limits}
    (done : resourceApplyLimits config calls limits = .ok after) {resource : Resource}
    (asked : 0 < config.requested resource) : (after resource).cur ≤ config.requested resource := by
  unfold resourceApplyLimits at done
  cases cpu : applyConfigured config calls .RLIMIT_CPU limits with
  | error e => simp [cpu, bind, Except.bind] at done
  | ok first =>
    cases memory : applyConfigured config calls .RLIMIT_AS first with
    | error e => simp [cpu, memory, bind, Except.bind] at done
    | ok second =>
      simp only [cpu, memory, bind, Except.bind] at done
      cases resource with
      | RLIMIT_CPU =>
        rw [applyConfigured_other done (by decide), applyConfigured_other memory (by decide)]
        exact applyConfigured_cur_le cpu asked
      | RLIMIT_AS =>
        rw [applyConfigured_other done (by decide)]
        exact applyConfigured_cur_le memory asked
      | RLIMIT_NPROC => exact applyConfigured_cur_le done asked

end ContainerRuntime
