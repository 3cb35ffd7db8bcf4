import ContainerRuntime.Scheduler.Table
import Mathlib.Data.Fintype.Card

/-! The target table as an array in memory.

`targets` points to a block of pids, of which the first `target_count` belong to
the table. Every access names its position, and an access outside the block has
no result; sizes are those of `size_t`. The functions do on the array what those
of `Scheduler.Table` do on a list.
-/

set_option autoImplicit false

namespace ContainerRuntime

/-- The number of values of `size_t`. -/
def sizeSpace : Nat := 2 ^ 64

/-- `sizeof(pid_t)`. -/
def pidSize : Nat := 4

/-- `g_state`; `cells` is the block that `targets` points to. -/
structure SchedulerState where
  enabled : Bool
  timeSliceMs : UInt32
  cells : List Pid
  targetCount : Nat
  targetCapacity : Nat
  currentIndex : Nat
  threadStarted : Bool
  stopRequested : Bool
  deriving DecidableEq

/-! ## The table as a list -/

namespace Scheduler

/-- No pid comes twice, and the index names one of them, unless there is none. -/
structure Sound (s : Scheduler) : Prop where
  distinct : s.targets.Nodup
  index : s.currentIndex < s.targets.length ∨ s.targets.length = 0 ∧ s.currentIndex = 0

theorem sound_initial : Sound initial := ⟨List.nodup_nil, .inr ⟨rfl, rfl⟩⟩

theorem sound_resetIndex {s : Scheduler} (distinct : s.targets.Nodup) : (resetIndex s).Sound := by
  unfold resetIndex
  split
  · refine ⟨distinct, ?_⟩
    rcases Nat.eq_zero_or_pos s.targets.length with empty | nonempty
    · exact .inr ⟨empty, rfl⟩
    · exact .inl nonempty
  · rename_i inside
    exact ⟨distinct, .inl (Nat.lt_of_not_le inside)⟩

namespace Sound

variable {s : Scheduler}

theorem schedulerAddTarget (sound : s.Sound) (alloc : Bool) (pid : Pid) : (schedulerAddTarget alloc pid s).Sound := by
  refine ⟨schedulerAddTarget_nodup sound.distinct, ?_⟩
  rcases schedulerAddTarget_cases alloc pid s with ⟨same, -⟩ | ⟨-, capacity, same⟩
  · rw [same]
    exact sound.index
  · rw [same]
    simp only [List.length_append, List.length_singleton]
    have index := sound.index
    omega

theorem schedulerRemoveTarget (sound : s.Sound) (pid : Pid) : (schedulerRemoveTarget pid s).Sound := by
  have distinct : (Scheduler.schedulerRemoveTarget pid s).targets.Nodup := schedulerRemoveTarget_nodup sound.distinct
  unfold Scheduler.schedulerRemoveTarget at distinct ⊢
  split at distinct <;> rw [resetIndex_targets] at distinct <;> exact sound_resetIndex distinct

theorem schedulerClearTargets (s : Scheduler) : (schedulerClearTargets s).Sound := ⟨List.nodup_nil, .inr ⟨rfl, rfl⟩⟩

theorem pruneDeadLocked (sound : s.Sound) (alive : Pid → Bool) : (pruneDeadLocked alive s).Sound :=
  sound_resetIndex (sound.distinct.filter _)

theorem selectLocked (sound : s.Sound) (alive : Pid → Bool) : (selectLocked alive s).1.Sound := by
  have pruned := sound.pruneDeadLocked alive
  rcases selectLocked_cases alive s with ⟨-, same⟩ | ⟨-, many, current, next, -, -, same⟩
  · rw [same]
    exact pruned
  · rw [same]
    refine ⟨pruned.distinct, .inl ?_⟩
    rw [pruneDeadLocked_targets]
    exact Nat.mod_lt _ (by omega)

end Sound

end Scheduler

/-! ## The table in memory -/

namespace SchedulerState

def initial : SchedulerState := ⟨false, 200, [], 0, 0, 0, false, false⟩

/-- `targets[i]`. -/
def load (s : SchedulerState) (i : Nat) : Option Pid := s.cells[i]?

/-- `targets[i] = pid`. -/
def store (s : SchedulerState) (i : Nat) (pid : Pid) : Option SchedulerState :=
  if i < s.cells.length then some { s with cells := s.cells.set i pid } else none

/-- The first of the next positions that holds the pid; `left` of them are still to come. -/
def search (s : SchedulerState) (pid : Pid) : Nat → Nat → Option (Option Nat)
  | 0, _ => some none
  | left + 1, i =>
    match s.load i with
    | none => none
    | some here => if here = pid then some (some i) else s.search pid left (i + 1)

/-- The doubling loop of `ensure_capacity_locked`; a capacity that has wrapped is 0 for good. -/
def doubleUp (desired : Nat) : Nat → Nat → Option Nat
  | 0, _ => none
  | rounds + 1, capacity =>
    if capacity < desired then doubleUp desired rounds (capacity * 2 % sizeSpace) else some capacity

/-- A block of this many bytes: the old pids, and behind them what the memory happens to hold. -/
def realloc (cells : List Pid) (bytes : Nat) (memory : Nat → Pid) : List Pid :=
  (List.range (bytes / pidSize)).map fun i => cells.getD i (memory i)

/-- `memory` is the outcome of `realloc`, should it be called. -/
def ensureCapacityLocked (memory : Option (Nat → Pid)) (desired : Nat) (s : SchedulerState) :
    Option (SchedulerState × Bool) :=
  if desired ≤ s.targetCapacity then some (s, true)
  else
    match doubleUp desired 65 (if s.targetCapacity = 0 then 8 else s.targetCapacity), memory with
    | none, _ => none
    | some _, none => some (s, false)
    | some next, some memory =>
      some ({ s with cells := realloc s.cells (next * pidSize % sizeSpace) memory, targetCapacity := next }, true)

def schedulerAddTarget (memory : Option (Nat → Pid)) (pid : Pid) (s : SchedulerState) :
    Option (SchedulerState × Except Errno Unit) :=
  match s.search pid s.targetCount 0 with
  | none => none
  | some (some _) => some (s, .ok ())
  | some none =>
    match s.ensureCapacityLocked memory ((s.targetCount + 1) % sizeSpace) with
    | none => none
    | some (s, false) => some (s, .error Errno.ENOMEM)
    | some (s, true) =>
      (s.store s.targetCount pid).map fun stored =>
        ({ stored with targetCount := (s.targetCount + 1) % sizeSpace }, .ok ())

def resetIndex (s : SchedulerState) : SchedulerState :=
  if s.targetCount ≤ s.currentIndex then { s with currentIndex := 0 } else s

/-- The table, and whether the pid was in it. -/
def schedulerRemoveTarget (pid : Pid) (s : SchedulerState) : Option (SchedulerState × Bool) :=
  match s.search pid s.targetCount 0 with
  | none => none
  | some none => some (s.resetIndex, false)
  | some (some i) =>
    match s.load (s.targetCount - 1) with
    | none => none
    | some last => (s.store i last).map fun stored => (resetIndex { stored with targetCount := s.targetCount - 1 }, true)

def schedulerClearTargets (s : SchedulerState) : SchedulerState := { s with targetCount := 0, currentIndex := 0 }

/-- The loop of `prune_dead_locked` from position `i` on, the pids that are kept being written from `write` on. -/
def compact (alive : Pid → Bool) : Nat → Nat → Nat → List Pid → Option (List Pid × Nat)
  | 0, _, write, cells => some (cells, write)
  | left + 1, i, write, cells =>
    match cells[i]? with
    | none => none
    | some pid =>
      if Scheduler.pidIsAlive alive pid = false then compact alive left (i + 1) write cells
      else if write < cells.length then compact alive left (i + 1) (write + 1) (cells.set write pid)
      else none

def pruneDeadLocked (alive : Pid → Bool) (s : SchedulerState) : Option SchedulerState :=
  (compact alive s.targetCount 0 0 s.cells).map fun (cells, write) =>
    resetIndex { s with cells := cells, targetCount := write }

/-- The locked section of `scheduler_thread_main`, and the pair that is signalled after it. -/
def selectLocked (alive : Pid → Bool) (s : SchedulerState) : Option (SchedulerState × Option (Pid × Pid)) :=
  if s.stopRequested then some (s, none)
  else
    match s.pruneDeadLocked alive with
    | none => none
    | some s =>
      let count := s.targetCount
      if s.enabled = false ∨ count < 2 then some (s, none)
      else
        let index := (s.currentIndex + 1) % sizeSpace % count
        match s.load (s.currentIndex % count), s.load (index % count) with
        | some current, some next => some ({ s with currentIndex := index }, some (current, next))
        | _, _ => none

/-! ## The table in the block -/

/-- The pids of the table. -/
def entries (s : SchedulerState) : List Pid := s.cells.take s.targetCount

/-- The table as a list. -/
def scheduler (s : SchedulerState) : Scheduler :=
  ⟨s.enabled, s.timeSliceMs, s.entries, s.targetCapacity, s.currentIndex, s.threadStarted, s.stopRequested⟩

/-- The table lies in the block, and no size has wrapped. -/
structure Shaped (s : SchedulerState) : Prop where
  block : s.cells.length = s.targetCapacity
  counted : s.targetCount ≤ s.targetCapacity
  bounded : s.targetCapacity ≤ 2 ^ 33

theorem Shaped.length_entries {s : SchedulerState} (shaped : s.Shaped) : s.entries.length = s.targetCount := by
  rw [entries, List.length_take, shaped.block, Nat.min_eq_left shaped.counted]

theorem search_eq {s : SchedulerState} (pid : Pid) {left i : Nat} (inside : i + left ≤ s.cells.length) :
    s.search pid left i = some ((((s.cells.drop i).take left).idxOf? pid).map (· + i)) := by
  induction left generalizing i with
  | zero => simp [search]
  | succ left ih =>
    have here : i < s.cells.length := by omega
    rw [search, load, List.getElem?_eq_getElem here]
    simp only
    rw [List.drop_eq_getElem_cons here, List.take_succ_cons, List.idxOf?_cons]
    by_cases found : s.cells[i] = pid
    · simp [found]
    · rw [if_neg found, ih (by omega)]
      simp [found, Function.comp_def, Nat.add_assoc, Nat.add_comm 1 i]

theorem Shaped.search {s : SchedulerState} (shaped : s.Shaped) (pid : Pid) :
    s.search pid s.targetCount 0 = some (s.entries.idxOf? pid) := by
  have inside : 0 + s.targetCount ≤ s.cells.length := by
    have counted := shaped.counted
    rw [shaped.block]
    omega
  rw [search_eq pid inside]
  simp [entries]

/-! ## Capacities -/

/-- There are no more pids than values of 32 bits. -/
theorem length_le_of_nodup {pids : List Pid} (distinct : pids.Nodup) : pids.length ≤ 2 ^ 32 := by
  have injective : Function.Injective fun pid : Pid => pid.toBitVec.toFin := by
    intro a b same
    exact Int32.toBitVec_inj.mp (BitVec.toFin_inj.mp same)
  have small := (distinct.map injective).length_le_card
  rwa [List.length_map, Fintype.card_fin] at small

theorem doubled_eq {capacity desired : Nat} (small : capacity ≤ 2 ^ 32) (next : desired = capacity + 1)
    {first : Nat} (from_here : first = if capacity = 0 then 8 else capacity) :
    doubleUp desired 65 first = some (Scheduler.doubled desired desired first) ∧
      desired ≤ Scheduler.doubled desired desired first ∧ Scheduler.doubled desired desired first ≤ 2 ^ 33 := by
  subst next
  -- One doubling is enough, since one more cell is asked for.
  by_cases empty : capacity = 0
  · subst empty from_here
    decide
  · rw [if_neg empty] at from_here
    subst from_here
    have wraps : first * 2 % sizeSpace = first * 2 := Nat.mod_eq_of_lt (by unfold sizeSpace; omega)
    have more : ¬ first * 2 < first + 1 := by omega
    obtain ⟨before, rfl⟩ := Nat.exists_eq_succ_of_ne_zero empty
    simp only [doubleUp, Scheduler.doubled, wraps, Nat.lt_succ_self, if_true, if_neg more]
    refine ⟨trivial, ?_, ?_⟩ <;> omega

theorem length_realloc (cells : List Pid) (bytes : Nat) (memory : Nat → Pid) :
    (realloc cells bytes memory).length = bytes / pidSize := by
  rw [realloc, List.length_map, List.length_range]

theorem take_realloc {cells : List Pid} {bytes n : Nat} (memory : Nat → Pid) (enough : n ≤ bytes / pidSize)
    (inside : n ≤ cells.length) : (realloc cells bytes memory).take n = cells.take n := by
  apply List.ext_getElem?
  intro i
  by_cases early : i < n
  · rw [List.getElem?_take_of_lt early, List.getElem?_take_of_lt early, realloc, List.getElem?_map,
      List.getElem?_range (Nat.lt_of_lt_of_le early enough), List.getElem?_eq_getElem (Nat.lt_of_lt_of_le early inside)]
    simp [List.getD, Nat.lt_of_lt_of_le early inside]
  · rw [List.getElem?_eq_none (by rw [List.length_take]; omega), List.getElem?_eq_none (by rw [List.length_take]; omega)]

/-! ## The functions do what those on the list do -/

section

variable {s : SchedulerState}

/-- Another cell is there, or the allocation fails. -/
theorem Shaped.ensureCapacityLocked (shaped : s.Shaped) (distinct : s.entries.Nodup) (memory : Option (Nat → Pid)) :
    (s.ensureCapacityLocked memory (s.targetCount + 1) = some (s, false) ∧ memory = none ∧
      Scheduler.ensureCapacityLocked memory.isSome (s.targetCount + 1) s.scheduler = none) ∨
    ∃ t, s.ensureCapacityLocked memory (s.targetCount + 1) = some (t, true) ∧ t.Shaped ∧
      t.targetCount = s.targetCount ∧ t.targetCount < t.targetCapacity ∧
      Scheduler.ensureCapacityLocked memory.isSome (s.targetCount + 1) s.scheduler = some t.scheduler := by
  have counted := shaped.counted
  have few := length_le_of_nodup distinct
  rw [shaped.length_entries] at few
  unfold SchedulerState.ensureCapacityLocked Scheduler.ensureCapacityLocked
  -- The block is asked for more only when it is full.
  by_cases room : s.targetCount + 1 ≤ s.targetCapacity
  · exact .inr ⟨s, if_pos room, shaped, rfl, room, if_pos room⟩
  · have full : s.targetCapacity = s.targetCount := by omega
    obtain ⟨doubles, enough, bounded⟩ := doubled_eq few rfl rfl
    rw [if_neg room, if_neg (show ¬ s.targetCount + 1 ≤ s.scheduler.capacity from room), full, doubles]
    cases memory with
    | none => exact .inl ⟨rfl, rfl, rfl⟩
    | some memory =>
      have bytes (n : Nat) (small : n ≤ 2 ^ 33) : n * pidSize % sizeSpace / pidSize = n := by
        unfold pidSize sizeSpace
        omega
      refine .inr ⟨_, rfl, ⟨?_, Nat.le_of_succ_le enough, bounded⟩, rfl, enough, ?_⟩
      · rw [length_realloc, bytes _ bounded]
      · have kept : s.targetCount ≤ s.cells.length := by
          rw [shaped.block]
          exact counted
        simp only [Option.isSome_some, if_true, scheduler, entries, full]
        rw [take_realloc memory (by rw [bytes _ bounded]; omega) kept]

/-- The cell behind the table is written. -/
theorem take_set_succ {cells : List Pid} {i : Nat} (inside : i < cells.length) (pid : Pid) :
    (cells.set i pid).take (i + 1) = cells.take i ++ [pid] := by
  rw [List.take_add_one, List.take_set_of_le (Nat.le_refl i), List.getElem?_set_self inside]
  rfl

/-- A duplicate or a failed allocation leaves everything as it is; else the pid is in. -/
theorem Shaped.schedulerAddTarget (shaped : s.Shaped) (distinct : s.entries.Nodup) (memory : Option (Nat → Pid))
    (pid : Pid) :
    ∃ t result, s.schedulerAddTarget memory pid = some (t, result) ∧ t.Shaped ∧
      t.scheduler = Scheduler.schedulerAddTarget memory.isSome pid s.scheduler ∧
      (result = .ok () ∧ pid ∈ t.entries ∨ result = .error Errno.ENOMEM ∧ memory = none ∧ t = s) := by
  have few := length_le_of_nodup distinct
  rw [shaped.length_entries] at few
  -- The pids are distinct and of 32 bits, so the count is far below the size_t limit.
  have wraps : (s.targetCount + 1) % sizeSpace = s.targetCount + 1 := Nat.mod_eq_of_lt (by unfold sizeSpace; omega)
  unfold SchedulerState.schedulerAddTarget Scheduler.schedulerAddTarget
  rw [shaped.search, wraps]
  cases position : s.entries.idxOf? pid with
  | some i =>
    have member : pid ∈ s.entries := List.isSome_idxOf?.mp (by rw [position]; rfl)
    exact ⟨s, .ok (), rfl, shaped, (if_pos member).symm, .inl ⟨rfl, member⟩⟩
  | none =>
    have absent : pid ∉ s.entries := List.idxOf?_eq_none_iff.mp position
    rw [if_neg (show pid ∉ s.scheduler.targets from absent),
      show s.scheduler.targets.length = s.targetCount from shaped.length_entries]
    rcases shaped.ensureCapacityLocked distinct memory with ⟨refused, failed, same⟩ | ⟨t, grown, shaped, counted, room, same⟩
    · rw [refused, same]
      exact ⟨s, .error Errno.ENOMEM, rfl, shaped, rfl, .inr ⟨rfl, failed, rfl⟩⟩
    · have inside : t.targetCount < t.cells.length := by
        rw [shaped.block]
        exact room
      rw [grown, same]
      simp only [store, if_pos inside, Option.map_some]
      have added : (t.cells.set t.targetCount pid).take ((t.targetCount + 1) % sizeSpace) = t.entries ++ [pid] := by
        rw [counted, wraps, ← counted, take_set_succ inside]
        rfl
      refine ⟨_, _, rfl, ⟨?_, ?_, shaped.bounded⟩, ?_, .inl ⟨rfl, ?_⟩⟩
      · rw [List.length_set]
        exact shaped.block
      · rw [counted, wraps, ← counted]
        exact room
      · rw [scheduler, entries, added]
        rfl
      · rw [entries, added]
        exact List.mem_append_right _ (List.mem_singleton_self pid)

theorem Shaped.resetIndex (shaped : s.Shaped) :
    s.resetIndex.Shaped ∧ s.resetIndex.scheduler = Scheduler.resetIndex s.scheduler := by
  unfold SchedulerState.resetIndex Scheduler.resetIndex
  rw [show s.scheduler.targets.length = s.targetCount from shaped.length_entries]
  by_cases outside : s.targetCount ≤ s.currentIndex
  · rw [if_pos outside, if_pos (show s.targetCount ≤ s.scheduler.currentIndex from outside)]
    exact ⟨⟨shaped.block, shaped.counted, shaped.bounded⟩, rfl⟩
  · rw [if_neg outside, if_neg (show ¬ s.targetCount ≤ s.scheduler.currentIndex from outside)]
    exact ⟨shaped, rfl⟩

/-- The last pid of the table is put in the place of another one. -/
theorem swapRemove_entries (shaped : s.Shaped) {i : Nat} (inside : i < s.targetCount) :
    ∃ last, s.load (s.targetCount - 1) = some last ∧
      (s.cells.set i last).take (s.targetCount - 1) = Scheduler.swapRemove s.entries i := by
  have there : s.targetCount - 1 < s.cells.length := by
    have counted := shaped.counted
    rw [shaped.block]
    omega
  refine ⟨s.cells[s.targetCount - 1], List.getElem?_eq_getElem there, ?_⟩
  have last : s.entries.getLast? = some s.cells[s.targetCount - 1] := by
    rw [entries, List.getLast?_take, if_neg (by omega), List.getElem?_eq_getElem there]
    rfl
  rw [Scheduler.swapRemove, last]
  simp only
  rw [List.dropLast_eq_take, List.length_set, shaped.length_entries, entries, ← List.take_set, List.take_take,
    Nat.min_eq_left (Nat.sub_le _ _)]

theorem Shaped.schedulerRemoveTarget (shaped : s.Shaped) (pid : Pid) :
    ∃ t, s.schedulerRemoveTarget pid = some (t, decide (pid ∈ s.entries)) ∧ t.Shaped ∧
      t.scheduler = Scheduler.schedulerRemoveTarget pid s.scheduler := by
  unfold SchedulerState.schedulerRemoveTarget Scheduler.schedulerRemoveTarget
  rw [shaped.search, show s.scheduler.targets = s.entries from rfl]
  cases position : s.entries.idxOf? pid with
  | none =>
    have absent : pid ∉ s.entries := List.idxOf?_eq_none_iff.mp position
    obtain ⟨after, same⟩ := shaped.resetIndex
    exact ⟨s.resetIndex, by simp [absent], after, same⟩
  | some i =>
    have member : pid ∈ s.entries := List.isSome_idxOf?.mp (by rw [position]; rfl)
    obtain ⟨inside, -, -⟩ := List.idxOf?_eq_some_iff.mp position
    rw [shaped.length_entries] at inside
    have there : i < s.cells.length := by
      have counted := shaped.counted
      rw [shaped.block]
      omega
    obtain ⟨last, loaded, left⟩ := swapRemove_entries shaped inside
    have smaller : Shaped { s with cells := s.cells.set i last, targetCount := s.targetCount - 1 } := by
      refine ⟨?_, Nat.le_trans (Nat.sub_le _ _) shaped.counted, shaped.bounded⟩
      rw [List.length_set]
      exact shaped.block
    obtain ⟨after, same⟩ := smaller.resetIndex
    refine ⟨_, ?_, after, ?_⟩
    · simp [loaded, store, there, member]
    · rw [same, scheduler, entries, left]
      rfl

/-- The pids in front of `write` are kept already, those from `i` on are still as they were. -/
theorem compact_eq (alive : Pid → Bool) {left i write : Nat} {cells : List Pid} (behind : write ≤ i)
    (inside : i + left ≤ cells.length) :
    let kept := ((cells.drop i).take left).filter (Scheduler.pidIsAlive alive)
    ∃ after, compact alive left i write cells = some (after, write + kept.length) ∧ after.length = cells.length ∧
      after.take (write + kept.length) = cells.take write ++ kept := by
  -- `write` never overtakes `i`: the cells ahead have not been written yet.
  induction left generalizing i write cells with
  | zero => exact ⟨cells, by simp [compact], rfl, by simp⟩
  | succ left ih =>
    have here : i < cells.length := by omega
    have first : (cells.drop i).take (left + 1) = cells[i] :: (cells.drop (i + 1)).take left := by
      rw [List.drop_eq_getElem_cons here, List.take_succ_cons]
    rw [compact, List.getElem?_eq_getElem here, first]
    simp only
    by_cases dead : Scheduler.pidIsAlive alive cells[i] = false
    · rw [if_pos dead, List.filter_cons_of_neg (by simp [dead])]
      exact ih (Nat.le_succ_of_le behind) (by omega)
    · rw [if_neg dead, if_pos (Nat.lt_of_le_of_lt behind here), List.filter_cons_of_pos (by simpa using dead)]
      have longer (n : Nat) : write + 1 + n = write + (n + 1) := by omega
      have rest : i + 1 + left ≤ (cells.set write cells[i]).length := by
        rw [List.length_set]
        omega
      obtain ⟨after, done, size, kept⟩ := ih (show write + 1 ≤ i + 1 by omega) rest
      rw [List.drop_set_of_lt (Nat.lt_succ_of_le behind), longer] at done kept
      refine ⟨after, done, size.trans List.length_set, ?_⟩
      rw [List.length_cons, kept, take_set_succ (Nat.lt_of_le_of_lt behind here), List.append_assoc]
      rfl

theorem Shaped.pruneDeadLocked (shaped : s.Shaped) (alive : Pid → Bool) :
    ∃ t, s.pruneDeadLocked alive = some t ∧ t.Shaped ∧ t.scheduler = Scheduler.pruneDeadLocked alive s.scheduler := by
  have counted := shaped.counted
  have block := shaped.block
  obtain ⟨after, done, size, kept⟩ := compact_eq alive (Nat.le_refl 0) (show 0 + s.targetCount ≤ s.cells.length by omega)
  simp only [List.drop_zero, List.take_zero, List.nil_append, Nat.zero_add] at done kept
  have fewer : (s.entries.filter (Scheduler.pidIsAlive alive)).length ≤ s.targetCount := by
    rw [← shaped.length_entries]
    exact List.length_filter_le _ _
  have smaller : Shaped { s with
      cells := after, targetCount := (s.entries.filter (Scheduler.pidIsAlive alive)).length } :=
    ⟨size.trans block, Nat.le_trans fewer counted, shaped.bounded⟩
  obtain ⟨shaped, same⟩ := smaller.resetIndex
  refine ⟨_, ?_, shaped, ?_⟩
  · rw [SchedulerState.pruneDeadLocked, done]
    rfl
  · rw [same, scheduler, entries]
    simp only
    rw [entries, kept]
    rfl

/-- A pid of the table is where the list has it. -/
theorem load_of_lt {i : Nat} (inside : i < s.targetCount) : s.load i = s.entries[i]? :=
  (List.getElem?_take_of_lt inside).symm

theorem Shaped.selectLocked (shaped : s.Shaped) (sound : s.scheduler.Sound) (alive : Pid → Bool)
    (runs : s.stopRequested = false) :
    ∃ t, s.selectLocked alive = some (t, (Scheduler.selectLocked alive s.scheduler).2) ∧ t.Shaped ∧
      t.scheduler = (Scheduler.selectLocked alive s.scheduler).1 := by
  obtain ⟨t, pruned, shaped, same⟩ := shaped.pruneDeadLocked alive
  have index := (sound.pruneDeadLocked alive).index
  have length : t.scheduler.targets.length = t.targetCount := shaped.length_entries
  have slot : t.scheduler.currentIndex = t.currentIndex := rfl
  rw [← same, length, slot] at index
  unfold SchedulerState.selectLocked Scheduler.selectLocked
  rw [pruned, ← same, if_neg (by simp [runs])]
  simp only [length]
  -- The two entries that are read are within the table, as the count is not 0.
  by_cases idle : t.enabled = false ∨ t.targetCount < 2
  · rw [if_pos idle, if_pos (show t.scheduler.enabled = false ∨ t.targetCount < 2 from idle)]
    exact ⟨t, rfl, shaped, rfl⟩
  · rw [if_neg idle, if_neg (show ¬ (t.scheduler.enabled = false ∨ t.targetCount < 2) from idle)]
    have many : 0 < t.targetCount := by omega
    have wraps : (t.currentIndex + 1) % sizeSpace = t.currentIndex + 1 := by
      have counted := shaped.counted
      have bounded := shaped.bounded
      apply Nat.mod_eq_of_lt
      unfold sizeSpace
      omega
    have entry (n : Nat) : ∃ pid, t.entries[n % t.targetCount]? = some pid := by
      have inside : n % t.targetCount < t.entries.length := by
        rw [shaped.length_entries]
        exact Nat.mod_lt n many
      exact ⟨_, List.getElem?_eq_getElem inside⟩
    obtain ⟨current, first⟩ := entry t.currentIndex
    obtain ⟨next, second⟩ := entry ((t.currentIndex + 1) % t.targetCount)
    have listed : t.scheduler.targets = t.entries := rfl
    rw [wraps, load_of_lt (Nat.mod_lt _ many), load_of_lt (Nat.mod_lt _ many), listed, slot, first, second]
    exact ⟨_, rfl, ⟨shaped.block, shaped.counted, shaped.bounded⟩, rfl⟩

end

/-! ## Every sequence of calls -/

/-- A call, with what it meets outside the table. -/
inductive Call where
  | add (memory : Option (Nat → Pid)) (pid : Pid)
  | remove (pid : Pid)
  | clear
  | prune (alive : Pid → Bool)
  /-- The locked section of the thread. -/
  | rotate (alive : Pid → Bool)
  /-- The other functions change nothing but the flags. -/
  | flags (enabled : Bool) (timeSliceMs : UInt32) (threadStarted stopRequested : Bool)

def step (s : SchedulerState) : Call → Option SchedulerState
  | .add memory pid => (s.schedulerAddTarget memory pid).map Prod.fst
  | .remove pid => (s.schedulerRemoveTarget pid).map Prod.fst
  | .clear => some s.schedulerClearTargets
  | .prune alive => s.pruneDeadLocked alive
  | .rotate alive => (s.selectLocked alive).map Prod.fst
  | .flags enabled timeSliceMs threadStarted stopRequested =>
    some { s with enabled := enabled, timeSliceMs := timeSliceMs, threadStarted := threadStarted,
                  stopRequested := stopRequested }

def run (s : SchedulerState) (calls : List Call) : Option SchedulerState := calls.foldlM step s

structure Kept (s : SchedulerState) : Prop where
  shaped : s.Shaped
  sound : s.scheduler.Sound

theorem kept_initial : Kept initial := ⟨⟨rfl, Nat.le_refl 0, Nat.zero_le _⟩, Scheduler.sound_initial⟩

/-- What a call makes of the table, as a set and in its order. -/
def Changes (s t : SchedulerState) : Call → Prop
  | .add memory pid =>
    t.entries = s.entries ∧ (pid ∈ s.entries ∨ memory = none) ∨ pid ∉ s.entries ∧ t.entries = s.entries ++ [pid]
  | .remove pid => t.entries.Perm (s.entries.erase pid) ∧ ∀ other, other ∈ t.entries ↔ other ∈ s.entries ∧ other ≠ pid
  | .clear => t.entries = []
  | .prune alive => t.entries = s.entries.filter (Scheduler.pidIsAlive alive)
  | .rotate alive => t.entries = if s.stopRequested then s.entries else s.entries.filter (Scheduler.pidIsAlive alive)
  | .flags _ _ _ _ => t.entries = s.entries

theorem selectLocked_targets (alive : Pid → Bool) (s : Scheduler) :
    (Scheduler.selectLocked alive s).1.targets = s.targets.filter (Scheduler.pidIsAlive alive) := by
  rcases Scheduler.selectLocked_cases alive s with ⟨-, same⟩ | ⟨-, -, current, next, -, -, same⟩
  · rw [same]
    exact Scheduler.pruneDeadLocked_targets alive s
  · rw [same]
    exact Scheduler.pruneDeadLocked_targets alive s

theorem Kept.step {s : SchedulerState} (kept : s.Kept) (call : Call) :
    ∃ t, s.step call = some t ∧ t.Kept ∧ s.Changes t call := by
  obtain ⟨shaped, sound⟩ := kept
  cases call with
  | add memory pid =>
    obtain ⟨t, result, done, after, same, -⟩ := shaped.schedulerAddTarget sound.distinct memory pid
    have listed : t.entries = (Scheduler.schedulerAddTarget memory.isSome pid s.scheduler).targets :=
      congrArg Scheduler.targets same
    refine ⟨t, by rw [SchedulerState.step, done]; rfl, ⟨after, same ▸ sound.schedulerAddTarget _ _⟩, ?_⟩
    rcases Scheduler.schedulerAddTarget_cases memory.isSome pid s.scheduler with ⟨still, why⟩ | ⟨fresh, capacity, added⟩
    · refine .inl ⟨by rw [listed, still]; rfl, why.imp_right fun failed => ?_⟩
      simpa using failed
    · exact .inr ⟨fresh, by rw [listed, added]; rfl⟩
  | remove pid =>
    obtain ⟨t, done, after, same⟩ := shaped.schedulerRemoveTarget pid
    have listed : t.entries = (Scheduler.schedulerRemoveTarget pid s.scheduler).targets := congrArg Scheduler.targets same
    have perm : t.entries.Perm (s.entries.erase pid) := listed ▸ Scheduler.schedulerRemoveTarget_targets pid s.scheduler
    refine ⟨t, by rw [SchedulerState.step, done]; rfl, ⟨after, same ▸ sound.schedulerRemoveTarget pid⟩, perm, ?_⟩
    intro other
    have distinct : s.entries.Nodup := sound.distinct
    rw [perm.mem_iff, distinct.mem_erase_iff]
    exact and_comm
  | clear =>
    exact ⟨_, rfl, ⟨⟨shaped.block, Nat.zero_le _, shaped.bounded⟩, .schedulerClearTargets s.scheduler⟩, rfl⟩
  | prune alive =>
    obtain ⟨t, done, after, same⟩ := shaped.pruneDeadLocked alive
    refine ⟨t, done, ⟨after, same ▸ sound.pruneDeadLocked alive⟩, ?_⟩
    exact (congrArg Scheduler.targets same).trans (Scheduler.pruneDeadLocked_targets alive s.scheduler)
  | rotate alive =>
    by_cases stops : s.stopRequested = true
    · refine ⟨s, ?_, ⟨shaped, sound⟩, by simp [Changes, stops]⟩
      simp [SchedulerState.step, SchedulerState.selectLocked, stops]
    · obtain ⟨t, done, after, same⟩ := shaped.selectLocked sound alive (by simpa using stops)
      refine ⟨t, by rw [SchedulerState.step, done]; rfl, ⟨after, same ▸ sound.selectLocked alive⟩, ?_⟩
      rw [Changes, if_neg stops]
      exact (congrArg Scheduler.targets same).trans (selectLocked_targets alive s.scheduler)
  | flags enabled timeSliceMs threadStarted stopRequested =>
    exact ⟨_, rfl, ⟨⟨shaped.block, shaped.counted, shaped.bounded⟩, ⟨sound.distinct, sound.index⟩⟩, rfl⟩

theorem Kept.run {s : SchedulerState} (kept : s.Kept) (calls : List Call) : ∃ t, s.run calls = some t ∧ t.Kept := by
  induction calls generalizing s with
  | nil => exact ⟨s, rfl, kept⟩
  | cons call rest ih =>
    obtain ⟨t, done, kept, -⟩ := kept.step call
    obtain ⟨u, later, last⟩ := ih kept
    refine ⟨u, ?_, last⟩
    rw [SchedulerState.run, List.foldlM_cons, done]
    exact later

/-- After any calls: no access has been outside the block, the table is well formed, and the next call changes it as
asked. -/
theorem run_keeps_table (calls : List Call) :
    ∃ s, initial.run calls = some s ∧ s.entries.Nodup ∧ s.entries.length = s.targetCount ∧
      s.targetCount ≤ s.targetCapacity ∧ s.cells.length = s.targetCapacity ∧
      (s.currentIndex < s.targetCount ∨ s.targetCount = 0 ∧ s.currentIndex = 0) ∧
      ∀ call, ∃ t, s.step call = some t ∧ s.Changes t call := by
  obtain ⟨s, done, shaped, sound⟩ := kept_initial.run calls
  have length := shaped.length_entries
  refine ⟨s, done, sound.distinct, length, shaped.counted, shaped.block, ?_, fun call => ?_⟩
  · have index := sound.index
    rw [show s.scheduler.targets.length = s.targetCount from length] at index
    exact index
  · obtain ⟨t, moved, -, changes⟩ := Kept.step ⟨shaped, sound⟩ call
    exact ⟨t, moved, changes⟩

end SchedulerState
end ContainerRuntime
