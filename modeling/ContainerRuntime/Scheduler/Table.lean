import ContainerRuntime.Host.Basic
import Mathlib.Data.List.Perm.Basic
import Mathlib.Data.List.Nodup

/-! The scheduler's target table and the sections that run under its mutex.

`targets` is the first `target_count` entries of the array. A removal moves the
last entry into the gap, a pruning compacts in place, and `current_index` names
a slot, not a process.
-/

set_option autoImplicit false

namespace ContainerRuntime

structure Scheduler where
  enabled : Bool
  timeSliceMs : UInt32
  targets : List Pid
  capacity : Nat
  currentIndex : Nat
  threadStarted : Bool
  stopRequested : Bool
  deriving DecidableEq

namespace Scheduler

def initial : Scheduler := ⟨false, 200, [], 0, 0, false, false⟩

/-- The doubling loop of `ensure_capacity_locked`. -/
def doubled (desired : Nat) : Nat → Nat → Nat
  | 0, capacity => capacity
  | fuel + 1, capacity => if capacity < desired then doubled desired fuel (capacity * 2) else capacity

/-- `alloc` is the outcome of `realloc`, should it be called. -/
def ensureCapacityLocked (alloc : Bool) (desired : Nat) (s : Scheduler) : Option Scheduler :=
  if desired ≤ s.capacity then some s
  else if alloc then
    some { s with capacity := doubled desired desired (if s.capacity = 0 then 8 else s.capacity) }
  else none

def schedulerAddTarget (alloc : Bool) (pid : Pid) (s : Scheduler) : Scheduler :=
  if pid ∈ s.targets then s
  else
    match ensureCapacityLocked alloc (s.targets.length + 1) s with
    | none => s
    | some grown => { grown with targets := grown.targets ++ [pid] }

/-- `targets[i] = targets[target_count - 1]; target_count--`. -/
def swapRemove (targets : List Pid) (i : Nat) : List Pid :=
  match targets.getLast? with
  | none => targets
  | some last => (targets.set i last).dropLast

def resetIndex (s : Scheduler) : Scheduler :=
  if s.targets.length ≤ s.currentIndex then { s with currentIndex := 0 } else s

def schedulerRemoveTarget (pid : Pid) (s : Scheduler) : Scheduler :=
  match s.targets.idxOf? pid with
  | none => resetIndex s
  | some i => resetIndex { s with targets := swapRemove s.targets i }

def schedulerClearTargets (s : Scheduler) : Scheduler := { s with targets := [], currentIndex := 0 }

def schedulerSetEnabled (enabled : Bool) (s : Scheduler) : Scheduler := { s with enabled := enabled }

/-- `pid_is_alive`, given which processes `kill(pid, 0)` finds. -/
def pidIsAlive (alive : Pid → Bool) (pid : Pid) : Bool := 0 < pid && alive pid

def pruneDeadLocked (alive : Pid → Bool) (s : Scheduler) : Scheduler :=
  resetIndex { s with targets := s.targets.filter (pidIsAlive alive) }

/-- The locked section of one thread iteration: the table it leaves, and the pair it will signal
after the unlock, if it rotates. -/
def selectLocked (alive : Pid → Bool) (s : Scheduler) : Scheduler × Option (Pid × Pid) :=
  let pruned := pruneDeadLocked alive s
  let count := pruned.targets.length
  if pruned.enabled = false ∨ count < 2 then (pruned, none)
  else
    let index := (pruned.currentIndex + 1) % count
    match pruned.targets[pruned.currentIndex % count]?, pruned.targets[index % count]? with
    | some current, some next => ({ pruned with currentIndex := index }, some (current, next))
    | _, _ => (pruned, none)

/-- The slot `prune_dead_locked` leaves as the current one. -/
def currentSlot (alive : Pid → Bool) (s : Scheduler) : Nat :=
  if s.currentIndex < (s.targets.filter (pidIsAlive alive)).length then s.currentIndex else 0

/-! ## The table as a set -/

@[simp] theorem resetIndex_targets (s : Scheduler) : (resetIndex s).targets = s.targets := by
  unfold resetIndex; split <;> rfl

@[simp] theorem resetIndex_enabled (s : Scheduler) : (resetIndex s).enabled = s.enabled := by
  unfold resetIndex; split <;> rfl

@[simp] theorem pruneDeadLocked_targets (alive : Pid → Bool) (s : Scheduler) :
    (pruneDeadLocked alive s).targets = s.targets.filter (pidIsAlive alive) := by simp [pruneDeadLocked]

@[simp] theorem pruneDeadLocked_enabled (alive : Pid → Bool) (s : Scheduler) :
    (pruneDeadLocked alive s).enabled = s.enabled := by simp [pruneDeadLocked]

theorem swapRemove_perm {targets : List Pid} {i : Nat} (inside : i < targets.length) :
    (swapRemove targets i).Perm (targets.eraseIdx i) := by
  obtain ⟨front, last, rfl⟩ : ∃ front last, targets = front ++ [last] := by
    rcases List.eq_nil_or_concat targets with rfl | ⟨front, last, rfl⟩
    · simp at inside
    · exact ⟨front, last, by simp⟩
  simp only [List.length_append, List.length_singleton] at inside
  simp only [swapRemove, List.getLast?_concat]
  by_cases middle : i < front.length
  · rw [List.set_append_left i last middle, List.dropLast_concat, List.eraseIdx_append_of_lt_length middle]
    exact (List.set_perm_cons_eraseIdx middle last).trans (List.perm_append_singleton last _).symm
  · have ending : i = front.length := by omega
    subst ending
    rw [List.set_append_right _ _ (Nat.le_refl _)]
    simp [List.eraseIdx_append_of_length_le (Nat.le_refl front.length)]

theorem schedulerRemoveTarget_targets (pid : Pid) (s : Scheduler) :
    (schedulerRemoveTarget pid s).targets.Perm (s.targets.erase pid) := by
  rw [List.erase_eq_eraseIdx, schedulerRemoveTarget]
  cases found : s.targets.idxOf? pid with
  | none => simp
  | some i =>
    obtain ⟨inside, -, -⟩ := List.idxOf?_eq_some_iff.mp found
    simp only [resetIndex_targets]
    exact swapRemove_perm inside

theorem schedulerRemoveTarget_subset (pid : Pid) (s : Scheduler) : (schedulerRemoveTarget pid s).targets ⊆ s.targets := fun _ member =>
  List.mem_of_mem_erase ((schedulerRemoveTarget_targets pid s).mem_iff.mp member)

theorem ensureCapacityLocked_cases (alloc : Bool) (desired : Nat) (s : Scheduler) :
    ensureCapacityLocked alloc desired s = none ∧ alloc = false ∨
      ∃ capacity, ensureCapacityLocked alloc desired s = some { s with capacity := capacity } := by
  unfold ensureCapacityLocked
  split
  · exact .inr ⟨s.capacity, rfl⟩
  · cases alloc with
    | false => exact .inl ⟨rfl, rfl⟩
    | true => exact .inr ⟨_, rfl⟩

/-- A pid is appended at most once, and only a failed allocation keeps it out. -/
theorem schedulerAddTarget_cases (alloc : Bool) (pid : Pid) (s : Scheduler) :
    (schedulerAddTarget alloc pid s = s ∧ (pid ∈ s.targets ∨ alloc = false)) ∨
      pid ∉ s.targets ∧ ∃ capacity,
        schedulerAddTarget alloc pid s = { s with targets := s.targets ++ [pid], capacity := capacity } := by
  unfold schedulerAddTarget
  by_cases member : pid ∈ s.targets
  · exact .inl ⟨if_pos member, .inl member⟩
  · simp only [member, if_false, not_false_eq_true, true_and, false_or]
    rcases ensureCapacityLocked_cases alloc (s.targets.length + 1) s with ⟨full, refused⟩ | ⟨capacity, grown⟩
    · exact .inl ⟨by rw [full], refused⟩
    · exact .inr ⟨capacity, by rw [grown]⟩

theorem schedulerRemoveTarget_enabled (pid : Pid) (s : Scheduler) :
    (schedulerRemoveTarget pid s).enabled = s.enabled := by
  unfold schedulerRemoveTarget
  cases s.targets.idxOf? pid <;> simp

theorem schedulerAddTarget_enabled (alloc : Bool) (pid : Pid) (s : Scheduler) :
    (schedulerAddTarget alloc pid s).enabled = s.enabled := by
  rcases schedulerAddTarget_cases alloc pid s with ⟨same, -⟩ | ⟨-, capacity, same⟩ <;> rw [same]

theorem mem_schedulerAddTarget (pid : Pid) (s : Scheduler) : pid ∈ (schedulerAddTarget true pid s).targets := by
  rcases schedulerAddTarget_cases true pid s with ⟨same, known⟩ | ⟨-, capacity, same⟩
  · rw [same]
    exact known.resolve_right Bool.noConfusion
  · simp [same]

theorem of_mem_schedulerAddTarget {alloc : Bool} {pid target : Pid} {s : Scheduler}
    (member : target ∈ (schedulerAddTarget alloc pid s).targets) : target ∈ s.targets ∨ target = pid := by
  rcases schedulerAddTarget_cases alloc pid s with ⟨same, -⟩ | ⟨-, capacity, same⟩
  · exact .inl (same ▸ member)
  · simpa [same] using member

theorem mem_schedulerAddTarget_of_mem (alloc : Bool) (pid : Pid) {target : Pid} {s : Scheduler}
    (member : target ∈ s.targets) : target ∈ (schedulerAddTarget alloc pid s).targets := by
  rcases schedulerAddTarget_cases alloc pid s with ⟨same, -⟩ | ⟨-, capacity, same⟩
  · exact same.symm ▸ member
  · simp [same, member]

/-! ## No pid is listed twice -/

theorem schedulerAddTarget_nodup {alloc : Bool} {pid : Pid} {s : Scheduler} (nodup : s.targets.Nodup) :
    (schedulerAddTarget alloc pid s).targets.Nodup := by
  rcases schedulerAddTarget_cases alloc pid s with ⟨same, -⟩ | ⟨fresh, capacity, same⟩
  · rwa [same]
  · rw [same]
    exact nodup.append (List.nodup_singleton pid) (by simpa using fresh)

theorem schedulerRemoveTarget_nodup {pid : Pid} {s : Scheduler} (nodup : s.targets.Nodup) :
    (schedulerRemoveTarget pid s).targets.Nodup :=
  (schedulerRemoveTarget_targets pid s).nodup_iff.mpr (nodup.erase pid)

/-! ## The locked section -/

theorem pruneDeadLocked_currentIndex (alive : Pid → Bool) (s : Scheduler) :
    (pruneDeadLocked alive s).currentIndex = currentSlot alive s := by
  unfold pruneDeadLocked resetIndex currentSlot
  simp only
  split <;> split <;> first | rfl | omega

theorem currentSlot_lt {alive : Pid → Bool} {s : Scheduler}
    (nonempty : 0 < (s.targets.filter (pidIsAlive alive)).length) :
    currentSlot alive s < (s.targets.filter (pidIsAlive alive)).length := by
  unfold currentSlot
  split
  · assumption
  · exact nonempty

/-- Either nobody is to be signalled, or the slice passes from the current slot to the one after it. -/
theorem selectLocked_cases (alive : Pid → Bool) (s : Scheduler) :
    let live := s.targets.filter (pidIsAlive alive)
    let slot := currentSlot alive s
    ((s.enabled = false ∨ live.length < 2) ∧ selectLocked alive s = (pruneDeadLocked alive s, none)) ∨
      s.enabled = true ∧ 2 ≤ live.length ∧ ∃ current next, live[slot]? = some current ∧
        live[(slot + 1) % live.length]? = some next ∧
        selectLocked alive s =
          ({ pruneDeadLocked alive s with currentIndex := (slot + 1) % live.length }, some (current, next)) := by
  intro live slot
  by_cases idle : s.enabled = false ∨ live.length < 2
  · exact .inl ⟨idle, by simp only [selectLocked, pruneDeadLocked_targets, pruneDeadLocked_enabled]; rw [if_pos idle]⟩
  · have enabled : s.enabled = true := by simpa using fun off => idle (.inl off)
    have many : 2 ≤ live.length := Nat.le_of_not_lt fun few => idle (.inr few)
    have inside : slot < live.length := currentSlot_lt (Nat.lt_of_lt_of_le Nat.two_pos many)
    have after : (slot + 1) % live.length < live.length := Nat.mod_lt _ (by omega)
    refine .inr ⟨enabled, many, live[slot], live[(slot + 1) % live.length], List.getElem?_eq_getElem inside,
      List.getElem?_eq_getElem after, ?_⟩
    simp only [selectLocked, pruneDeadLocked_targets, pruneDeadLocked_enabled, pruneDeadLocked_currentIndex]
    rw [if_neg idle, Nat.mod_eq_of_lt inside, Nat.mod_mod, List.getElem?_eq_getElem inside,
      List.getElem?_eq_getElem after]

end Scheduler
end ContainerRuntime
