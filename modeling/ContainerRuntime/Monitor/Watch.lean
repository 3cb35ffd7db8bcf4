import ContainerRuntime.Registry.Container
import ContainerRuntime.Scheduler.Array

/-! The samples of `stats --watch`.

`container_stats_all_watch` keeps one sample for each process it has read, in a
block that grows. Every access names its position, and an access outside the block
has no result; sizes are those of `size_t`, and a position is returned as an `int`.
What a row shows is compared with the history of all readings. CPU times are of any
linear order, and a percentage is what a parameter makes of two of them.
-/

set_option autoImplicit false

namespace ContainerRuntime

variable {α φ : Type}

structure CpuSample (α : Type) where
  pid : Pid
  cpuSeconds : α
  wallNs : UInt64

/-- `sizeof(CpuSample)`. -/
def sampleSize : Nat := 24

/-- `prev`, `prev_count` and `prev_capacity`; `cells` is the block that `prev` points to. -/
structure Samples (α : Type) where
  cells : List (CpuSample α)
  prevCount : Nat
  prevCapacity : Nat

/-- What a round of the loop meets at a container. -/
structure Reading (α : Type) where
  container : Record
  /-- The CPU time that `monitor_read` finds; nothing if it fails. -/
  cpuSeconds : Option α
  /-- What a new block holds behind the old one, should one be asked for; nothing if there is none. -/
  memory : Option (Nat → CpuSample α)

/-- One round of the loop: the clock, and the containers in the order of the list. -/
structure WatchRound (α : Type) where
  now : UInt64
  readings : List (Reading α)

structure StatsRow (α φ : Type) where
  container : Record
  cpuSeconds : α
  /-- Nothing is shown as a dash. -/
  cpuPct : Option φ

namespace Samples

def empty : Samples α := ⟨[], 0, 0⟩

/-- The loop of `find_sample` from position `i` on; `left` positions are still to come. -/
def findFrom (cells : List (CpuSample α)) (pid : Pid) : Nat → Nat → Option Int
  | 0, _ => some (-1)
  | left + 1, i =>
    match cells[i]? with
    | none => none
    | some sample => if sample.pid = pid then some (Int32.ofNat i).toInt else findFrom cells pid left (i + 1)

def findSample (cells : List (CpuSample α)) (count : Nat) (pid : Pid) : Option Int := findFrom cells pid count 0

/-- `cells[i] = sample`. -/
def store (cells : List (CpuSample α)) (i : Nat) (sample : CpuSample α) : Option (List (CpuSample α)) :=
  if i < cells.length then some (cells.set i sample) else none

/-- A block of this many bytes. -/
def realloc (cells : List (CpuSample α)) (bytes : Nat) (memory : Nat → CpuSample α) : List (CpuSample α) :=
  (List.range (bytes / sampleSize)).map fun i => cells.getD i (memory i)

section

variable [LinearOrder α] (percent : α → α → UInt64 → φ)

/-- The percentage since a sample, if time has passed and the CPU time has not gone back. -/
def since (sample : CpuSample α) (now : UInt64) (cpu : α) : Option φ :=
  if now - sample.wallNs ≠ 0 ∧ sample.cpuSeconds ≤ cpu then some (percent cpu sample.cpuSeconds (now - sample.wallNs))
  else none

/-- Room for one more sample, unless a new block is needed and there is none. -/
def ensureRoom (memory : Option (Nat → CpuSample α)) (s : Samples α) : Option (Samples α) :=
  if s.prevCount = s.prevCapacity then
    let next := if s.prevCapacity = 0 then 8 else s.prevCapacity * 2 % sizeSpace
    memory.map fun memory => { s with cells := realloc s.cells (next * sampleSize % sizeSpace) memory, prevCapacity := next }
  else some s

/-- A process is read: its sample is compared and renewed, or a new one is made; an error is one of the allocation. -/
def sampled (now : UInt64) (memory : Option (Nat → CpuSample α)) (pid : Pid) (cpu : α) (s : Samples α) :
    Option (Except Errno (Samples α × Option φ)) :=
  match findSample s.cells s.prevCount pid with
  | none => none
  | some index =>
    if 0 ≤ index then
      match s.cells[index.toNat]? with
      | none => none
      | some sample =>
        (store s.cells index.toNat { sample with cpuSeconds := cpu, wallNs := now }).map fun cells =>
          .ok ({ s with cells }, since percent sample now cpu)
    else
      match s.ensureRoom memory with
      | none => some (.error Errno.ENOMEM)
      | some s =>
        (store s.cells s.prevCount ⟨pid, cpu, now⟩).map fun cells =>
          .ok ({ s with cells, prevCount := (s.prevCount + 1) % sizeSpace }, none)

/-- The loop over the containers: the samples, unless no block was left, and the rows that were printed. -/
def containersLoop (now : UInt64) : List (Reading α) → Samples α → Option (Option (Samples α) × List (StatsRow α φ))
  | [], s => some (some s, [])
  | reading :: rest, s =>
    if reading.container.running = false then containersLoop now rest s
    else
      match reading.cpuSeconds with
      | none => containersLoop now rest s
      | some cpu =>
        match sampled percent now reading.memory reading.container.pid cpu s with
        | none => none
        | some (.error _) => some (none, [])
        | some (.ok (s, pct)) =>
          (containersLoop now rest s).map fun (after, rows) => (after, ⟨reading.container, cpu, pct⟩ :: rows)

end

end Samples

/-- `container_stats_all_watch` up to an interrupt: what it prints in each round, and what it returns. -/
def containerStatsAllWatch [LinearOrder α] (percent : α → α → UInt64 → φ) :
    List (WatchRound α) → Samples α → Option (List (List (StatsRow α φ)) × Int)
  | [], _ => some ([], 0)
  | round :: rest, s =>
    match s.containersLoop percent round.now round.readings with
    | none => none
    | some (none, rows) => some ([rows], -1)
    | some (some s, rows) =>
      (containerStatsAllWatch percent rest s).map fun (later, result) => (rows :: later, result)

/-- What a round of `container_stats_watch` meets. -/
structure Watched (α : Type) where
  now : UInt64
  /-- What `find_container` returns. -/
  container : Option Record
  cpuSeconds : Option α

/-- `container_stats_watch` up to an interrupt, `prev` being the sample of the round before. -/
def containerStatsWatch [LinearOrder α] (percent : α → α → UInt64 → φ) :
    List (Watched α) → Option (CpuSample α) → List (StatsRow α φ) × Int
  | [], _ => ([], 0)
  | round :: rest, prev =>
    match round.container with
    | none => ([], -1)
    | some container =>
      if container.running = false then ([], -1)
      else
        match round.cpuSeconds with
        | none => ([], -1)
        | some cpu =>
          let pct := prev.bind fun sample =>
            if sample.pid = container.pid then Samples.since percent sample round.now cpu else none
          let (rows, result) := containerStatsWatch percent rest (some ⟨container.pid, cpu, round.now⟩)
          (⟨container, cpu, pct⟩ :: rows, result)

/-! ## The history of the readings -/

section History

variable [LinearOrder α] (percent : α → α → UInt64 → φ)

/-- The last reading of a process. -/
def latest (history : List (CpuSample α)) (pid : Pid) : Option (CpuSample α) := history.reverse.find? (·.pid = pid)

/-- The rows of one round, and the readings after it, each compared with the last one of the same process. -/
def reportRound (now : UInt64) : List (Reading α) → List (CpuSample α) → List (StatsRow α φ) × List (CpuSample α)
  | [], history => ([], history)
  | reading :: rest, history =>
    match reading.container.running, reading.cpuSeconds with
    | true, some cpu =>
      let pct := (latest history reading.container.pid).bind fun sample => Samples.since percent sample now cpu
      let (rows, after) := reportRound now rest (history ++ [⟨reading.container.pid, cpu, now⟩])
      (⟨reading.container, cpu, pct⟩ :: rows, after)
    | _, _ => reportRound now rest history

def report : List (WatchRound α) → List (CpuSample α) → List (List (StatsRow α φ))
  | [], _ => []
  | round :: rest, history =>
    let (rows, after) := reportRound percent round.now round.readings history
    rows :: report rest after

end History

/-! ## The block holds the last reading of every process -/

namespace Samples

def entries (s : Samples α) : List (CpuSample α) := s.cells.take s.prevCount

/-- One sample for each process that has been read, the last one; no size has wrapped. -/
structure Holds (s : Samples α) (history : List (CpuSample α)) : Prop where
  block : s.cells.length = s.prevCapacity
  counted : s.prevCount ≤ s.prevCapacity
  bounded : s.prevCapacity ≤ 2 ^ 32
  distinct : (s.entries.map (·.pid)).Nodup
  positive : ∀ sample ∈ s.entries, 0 < sample.pid
  last : ∀ sample, sample ∈ s.entries ↔ latest history sample.pid = some sample

theorem holds_empty : (empty : Samples α).Holds [] where
  block := rfl
  counted := Nat.le_refl 0
  bounded := Nat.zero_le _
  distinct := List.nodup_nil
  positive := fun _ member => by cases member
  last := fun sample => by simp [entries, empty, latest]

theorem latest_append (history : List (CpuSample α)) (sample : CpuSample α) (pid : Pid) :
    latest (history ++ [sample]) pid = if sample.pid = pid then some sample else latest history pid := by
  unfold latest
  rw [List.reverse_append, List.reverse_singleton, List.singleton_append, List.find?_cons]
  by_cases same : sample.pid = pid <;> simp [same]

/-- There are no more processes than positive values of 32 bits. -/
theorem length_lt_of_positive {pids : List Pid} (distinct : pids.Nodup) (positive : ∀ pid ∈ pids, 0 < pid) :
    pids.length < 2 ^ 31 := by
  have injective : (pids.map fun pid => pid.toInt.toNat).Nodup := by
    apply distinct.map_on
    intro first member second other same
    have one := Int32.lt_iff_toInt_lt.mp (positive first member)
    have two := Int32.lt_iff_toInt_lt.mp (positive second other)
    apply Int32.toInt_inj.mp
    simp only [Int32.toInt_zero] at one two
    omega
  have range : (pids.map fun pid => pid.toInt.toNat) ⊆ List.range' 1 (2 ^ 31 - 1) := by
    intro n member
    obtain ⟨pid, inside, rfl⟩ := List.mem_map.mp member
    have above := Int32.lt_iff_toInt_lt.mp (positive pid inside)
    have below := pid.toInt_lt
    rw [List.mem_range'_1]
    simp only [Int32.toInt_zero] at above
    omega
  have small := (injective.subperm range).length_le
  rw [List.length_map, List.length_range'] at small
  omega

variable {s : Samples α} {history : List (CpuSample α)}

theorem Holds.length_entries (holds : s.Holds history) : s.entries.length = s.prevCount := by
  rw [entries, List.length_take, holds.block, Nat.min_eq_left holds.counted]

theorem Holds.few (holds : s.Holds history) : s.prevCount < 2 ^ 31 := by
  have few := length_lt_of_positive holds.distinct fun pid member => by
    obtain ⟨sample, inside, rfl⟩ := List.mem_map.mp member
    exact holds.positive sample inside
  rwa [List.length_map, holds.length_entries] at few

/-- `find_sample` returns the position of the sample, or -1. -/
theorem findFrom_eq (cells : List (CpuSample α)) (pid : Pid) {left i : Nat} (inside : i + left ≤ cells.length)
    (small : i + left ≤ 2 ^ 31) :
    findFrom cells pid left i =
      some (match ((cells.drop i).take left).findIdx? (·.pid = pid) with | some k => (i + k : Nat) | none => -1) := by
  induction left generalizing i with
  | zero => simp [findFrom]
  | succ left ih =>
    have here : i < cells.length := by omega
    rw [findFrom, List.getElem?_eq_getElem here]
    simp only
    rw [List.drop_eq_getElem_cons here, List.take_succ_cons, List.findIdx?_cons]
    by_cases found : cells[i].pid = pid
    · have whole : (Int32.ofNat i).toInt = (i : Int) := Int32.toInt_ofNat_of_lt (by omega)
      simp [found, whole]
    · rw [if_neg found, ih (by omega) (by omega)]
      simp only [found, decide_false, Bool.false_eq_true, if_false]
      cases ((cells.drop (i + 1)).take left).findIdx? (·.pid = pid) with
      | none => rfl
      | some k => simp [Nat.add_assoc, Nat.add_comm 1 k]

/-- A sample is found by its pid, as no other one has it. -/
theorem set_eq_map {samples : List (CpuSample α)} (distinct : (samples.map (·.pid)).Nodup) {k : Nat}
    (inside : k < samples.length) (sample : CpuSample α) :
    samples.set k sample = samples.map fun other => if other.pid = samples[k].pid then sample else other := by
  apply List.ext_getElem
  · rw [List.length_set, List.length_map]
  intro i first second
  rw [List.getElem_set, List.getElem_map]
  rw [List.length_set] at first
  have same : k = i ↔ samples[i].pid = samples[k].pid := by
    constructor
    · rintro rfl
      rfl
    · intro pids
      have first_inside : i < (samples.map (·.pid)).length := by rwa [List.length_map]
      have inside' : k < (samples.map (·.pid)).length := by rwa [List.length_map]
      have equal : (samples.map (·.pid))[i] = (samples.map (·.pid))[k] := by
        rw [List.getElem_map, List.getElem_map]
        exact pids
      exact (distinct.getElem_inj_iff.mp equal).symm
  by_cases here : k = i
  · rw [if_pos here, if_pos (same.mp here)]
  · rw [if_neg here, if_neg fun pids => here (same.mpr pids)]

/-- A new block starts with what was in the old one. -/
theorem take_realloc {cells : List (CpuSample α)} {bytes n : Nat} (memory : Nat → CpuSample α)
    (enough : n ≤ bytes / sampleSize) (inside : n ≤ cells.length) : (realloc cells bytes memory).take n = cells.take n := by
  apply List.ext_getElem?
  intro i
  by_cases early : i < n
  · rw [List.getElem?_take_of_lt early, List.getElem?_take_of_lt early, realloc, List.getElem?_map,
      List.getElem?_range (by omega), List.getElem?_eq_getElem (by omega)]
    simp [List.getD, Nat.lt_of_lt_of_le early inside]
  · rw [List.getElem?_eq_none (by rw [List.length_take]; omega), List.getElem?_eq_none (by rw [List.length_take]; omega)]

theorem latest_pid {pid : Pid} {sample : CpuSample α} (found : latest history pid = some sample) : sample.pid = pid := by
  have met := List.find?_some found
  exact of_decide_eq_true met

section Sampled

variable [LinearOrder α] (percent : α → α → UInt64 → φ) {pid : Pid}

omit [LinearOrder α] in
/-- The sample of a process is renewed. -/
theorem Holds.renewed (holds : s.Holds history) {k : Nat} (inside : k < s.entries.length) (same : s.entries[k].pid = pid)
    (now : UInt64) (cpu : α) :
    Holds { s with cells := s.cells.set k { s.entries[k] with cpuSeconds := cpu, wallNs := now } }
      (history ++ [⟨pid, cpu, now⟩]) := by
  have entries_eq : entries { s with cells := s.cells.set k { s.entries[k] with cpuSeconds := cpu, wallNs := now } } =
      s.entries.map fun other => if other.pid = pid then ⟨pid, cpu, now⟩ else other := by
    change (s.cells.set k ⟨s.entries[k].pid, cpu, now⟩).take s.prevCount = _
    rw [List.take_set, ← entries, set_eq_map holds.distinct inside, same]
  have pids : (s.entries.map fun other => if other.pid = pid then (⟨pid, cpu, now⟩ : CpuSample α) else other).map (·.pid) =
      s.entries.map (·.pid) := by
    rw [List.map_map]
    apply List.map_congr_left
    intro other _
    simp only [Function.comp_apply]
    split
    · rename_i found
      exact found.symm
    · rfl
  refine ⟨?_, holds.counted, holds.bounded, ?_, ?_, ?_⟩
  · rw [List.length_set]
    exact holds.block
  · rw [entries_eq, pids]
    exact holds.distinct
  · intro sample member
    have among : sample.pid ∈ s.entries.map (·.pid) := by
      rw [entries_eq] at member
      rw [← pids]
      exact List.mem_map_of_mem member
    obtain ⟨other, inside, pid⟩ := List.mem_map.mp among
    rw [← pid]
    exact holds.positive other inside
  · intro sample
    rw [entries_eq, latest_append, List.mem_map]
    constructor
    · rintro ⟨other, member, rfl⟩
      split
      · exact if_pos rfl
      · rename_i different
        rw [if_neg (Ne.symm different)]
        exact (holds.last other).mp member
    · intro last
      split at last
      · cases last
        exact ⟨s.entries[k], List.getElem_mem inside, if_pos same⟩
      · rename_i different
        exact ⟨sample, (holds.last sample).mpr last, if_neg (Ne.symm different)⟩

omit [LinearOrder α] in
/-- A new block is asked for when the old one is full, and twice as much is enough. -/
theorem Holds.ensureRoom (holds : s.Holds history) (memory : Option (Nat → CpuSample α)) :
    s.ensureRoom memory = none ∧ memory = none ∨
      ∃ t, s.ensureRoom memory = some t ∧ t.Holds history ∧ t.entries = s.entries ∧ t.prevCount < t.prevCapacity := by
  have few := holds.few
  have counted := holds.counted
  have block := holds.block
  unfold Samples.ensureRoom
  split
  · rename_i full
    cases memory with
    | none => exact .inl ⟨rfl, rfl⟩
    | some memory =>
      right
      -- Neither the capacity nor the number of bytes wraps.
      obtain ⟨next, same, more, bounded⟩ : ∃ next, (if s.prevCapacity = 0 then 8 else s.prevCapacity * 2 % sizeSpace) = next ∧
          s.prevCapacity < next ∧ next ≤ 2 ^ 32 := by
        refine ⟨_, rfl, ?_⟩
        unfold sizeSpace
        split <;> omega
      have bytes : next * sampleSize % sizeSpace / sampleSize = next := by
        unfold sampleSize sizeSpace
        omega
      simp only [same, Option.map_some]
      have kept : entries { s with cells := realloc s.cells (next * sampleSize % sizeSpace) memory, prevCapacity := next } =
          s.entries := take_realloc memory (show s.prevCount ≤ _ by rw [bytes]; omega) (show s.prevCount ≤ _ by omega)
      refine ⟨_, rfl, ⟨?_, by simp only; omega, bounded, ?_, ?_, ?_⟩, kept, by simp only; omega⟩
      · rw [realloc, List.length_map, List.length_range, bytes]
      · rw [kept]
        exact holds.distinct
      · rw [kept]
        exact holds.positive
      · rw [kept]
        exact holds.last
  · exact .inr ⟨s, rfl, holds, rfl, by omega⟩

omit [LinearOrder α] in
/-- A process that was not read before gets a sample. -/
theorem Holds.added (holds : s.Holds history) (positive : 0 < pid) (absent : ∀ sample ∈ s.entries, sample.pid ≠ pid)
    (room : s.prevCount < s.prevCapacity) (now : UInt64) (cpu : α) :
    Holds { s with cells := s.cells.set s.prevCount ⟨pid, cpu, now⟩, prevCount := (s.prevCount + 1) % sizeSpace }
      (history ++ [⟨pid, cpu, now⟩]) := by
  have few := holds.few
  have block := holds.block
  have wraps : (s.prevCount + 1) % sizeSpace = s.prevCount + 1 := Nat.mod_eq_of_lt (by unfold sizeSpace; omega)
  have entries_eq : entries { s with cells := s.cells.set s.prevCount ⟨pid, cpu, now⟩, prevCount := s.prevCount + 1 } =
      s.entries ++ [⟨pid, cpu, now⟩] := by
    change (s.cells.set s.prevCount ⟨pid, cpu, now⟩).take (s.prevCount + 1) = _
    rw [List.take_add_one, List.take_set_of_le (Nat.le_refl _), List.getElem?_set_self (by omega)]
    rfl
  rw [wraps]
  refine ⟨?_, room, holds.bounded, ?_, ?_, ?_⟩
  · rw [List.length_set]
    exact block
  · rw [entries_eq, List.map_append, List.map_singleton, List.nodup_append]
    refine ⟨holds.distinct, List.nodup_singleton _, ?_⟩
    intro first member second last
    obtain ⟨sample, inside, rfl⟩ := List.mem_map.mp member
    rw [List.mem_singleton.mp last]
    exact absent sample inside
  · intro sample member
    rw [entries_eq] at member
    rcases List.mem_append.mp member with old | new
    · exact holds.positive sample old
    · rw [List.mem_singleton.mp new]
      exact positive
  · intro sample
    rw [entries_eq, latest_append, List.mem_append, List.mem_singleton]
    by_cases same : pid = sample.pid
    · rw [if_pos same]
      constructor
      · rintro (old | rfl)
        · exact absurd same.symm (absent sample old)
        · rfl
      · intro last
        cases last
        exact .inr rfl
    · rw [if_neg same, ← holds.last]
      refine ⟨fun among => among.resolve_right ?_, .inl⟩
      rintro rfl
      exact same rfl

/-- Reading a process: the row compares it with its last reading, and the block is renewed. -/
theorem Holds.sampled (holds : s.Holds history) (positive : 0 < pid) (now : UInt64) (memory : Option (Nat → CpuSample α))
    (cpu : α) :
    (s.sampled percent now memory pid cpu = some (.error Errno.ENOMEM) ∧ memory = none) ∨
      ∃ t, s.sampled percent now memory pid cpu =
          some (.ok (t, (latest history pid).bind fun sample => since percent sample now cpu)) ∧
        t.Holds (history ++ [⟨pid, cpu, now⟩]) := by
  have few := holds.few
  have counted := holds.counted
  have bounded := holds.bounded
  have block := holds.block
  have inside : 0 + s.prevCount ≤ s.cells.length := by omega
  have found := findFrom_eq s.cells pid inside (by omega)
  rw [List.drop_zero, ← entries] at found
  unfold Samples.sampled findSample
  rw [found]
  cases position : s.entries.findIdx? (·.pid = pid) with
  | some k =>
    obtain ⟨inside, matches_, -⟩ := List.findIdx?_eq_some_iff_getElem.mp position
    have same : s.entries[k].pid = pid := of_decide_eq_true matches_
    have known : latest history pid = some s.entries[k] := by
      have last := (holds.last s.entries[k]).mp (List.getElem_mem inside)
      rwa [same] at last
    have here : k < s.cells.length := by
      rw [holds.length_entries] at inside
      omega
    have cell : s.cells[k]? = some s.entries[k] := by
      rw [List.getElem?_eq_getElem here]
      simp [entries]
    right
    simp only [Nat.zero_add, Int.natCast_nonneg, if_true, Int.toNat_natCast, cell, store, if_pos here, Option.map_some,
      known, Option.bind_some]
    exact ⟨_, rfl, holds.renewed inside same now cpu⟩
  | none =>
    have absent : ∀ sample ∈ s.entries, sample.pid ≠ pid := by
      intro sample member
      exact of_decide_eq_false (List.findIdx?_eq_none_iff.mp position sample member)
    have unknown : latest history pid = none := by
      cases known : latest history pid with
      | none => rfl
      | some sample =>
        have same := latest_pid known
        rw [← same] at known
        exact absurd same (absent sample ((holds.last sample).mpr known))
    simp only [Int.reduceNeg, Int.reduceLE, if_false, unknown, Option.bind_none]
    rcases holds.ensureRoom memory with ⟨refused, none_left⟩ | ⟨t, grown, larger, same, room⟩
    · rw [refused]
      exact .inl ⟨rfl, none_left⟩
    · rw [grown]
      have inside : t.prevCount < t.cells.length := by
        rw [larger.block]
        exact room
      simp only [store, if_pos inside, Option.map_some]
      exact .inr ⟨_, rfl, larger.added positive (fun sample member => absent sample (same ▸ member)) room now cpu⟩

/-- The containers of one round: their rows are those of the history, up to the one that finds no memory. -/
theorem Holds.containersLoop (holds : s.Holds history) (now : UInt64) (readings : List (Reading α)) :
    (∃ t, s.containersLoop percent now readings = some (some t, (reportRound percent now readings history).1) ∧
      t.Holds (reportRound percent now readings history).2) ∨
    ∃ rows, s.containersLoop percent now readings = some (none, rows) ∧
      rows <+: (reportRound percent now readings history).1 ∧ ∃ reading ∈ readings, reading.memory = none := by
  -- By induction on the containers: each reading extends the history that the block holds.
  induction readings generalizing s history with
  | nil => exact .inl ⟨s, rfl, holds⟩
  | cons reading rest ih =>
    have skipped := ih holds
    unfold Samples.containersLoop reportRound
    cases running : reading.container.running with
    | false =>
      simp only [if_true]
      refine skipped.imp id fun ⟨rows, ended, shorter, other, member, out⟩ => ?_
      exact ⟨rows, ended, shorter, other, List.mem_cons_of_mem _ member, out⟩
    | true =>
      simp only [Bool.true_eq_false, if_false]
      cases reading.cpuSeconds with
      | none =>
        refine skipped.imp id fun ⟨rows, ended, shorter, other, member, out⟩ => ?_
        exact ⟨rows, ended, shorter, other, List.mem_cons_of_mem _ member, out⟩
      | some cpu =>
        have positive : 0 < reading.container.pid := by
          unfold Record.running at running
          exact (of_decide_eq_true running).2
        rcases holds.sampled percent positive now reading.memory cpu with ⟨refused, out⟩ | ⟨t, shown, held⟩
        · simp only [refused]
          exact .inr ⟨[], rfl, List.nil_prefix, reading, List.mem_cons_self, out⟩
        · simp only [shown]
          rcases ih held with ⟨after, done, kept⟩ | ⟨rows, ended, shorter, other, member, out⟩
          · refine .inl ⟨after, ?_, kept⟩
            simp only [done, Option.map_some]
          · simp only [ended, Option.map_some]
            exact .inr ⟨_, rfl, (List.prefix_cons_inj _).mpr shorter, other, List.mem_cons_of_mem _ member, out⟩

end Sampled

end Samples

section Run

variable [LinearOrder α] (percent : α → α → UInt64 → φ)

theorem watch_from {s : Samples α} {history : List (CpuSample α)} (holds : s.Holds history) (rounds : List (WatchRound α)) :
    ∃ printed result, containerStatsAllWatch percent rounds s = some (printed, result) ∧
      (result = 0 ∧ printed = report percent rounds history ∨
        result = -1 ∧ printed.flatten <+: (report percent rounds history).flatten ∧
          ∃ round ∈ rounds, ∃ reading ∈ round.readings, reading.memory = none) := by
  induction rounds generalizing s history with
  | nil => exact ⟨[], 0, rfl, .inl ⟨rfl, rfl⟩⟩
  | cons round rest ih =>
    unfold containerStatsAllWatch report
    rcases holds.containersLoop percent round.now round.readings with ⟨t, done, held⟩ | ⟨rows, ended, shorter, out⟩
    · rw [done]
      obtain ⟨later, result, goes, either⟩ := ih held
      simp only [goes, Option.map_some]
      refine ⟨_, _, rfl, either.imp (fun ⟨ok, same⟩ => ⟨ok, by rw [same]⟩) ?_⟩
      rintro ⟨failed, shorter, other, member, out⟩
      refine ⟨failed, ?_, other, List.mem_cons_of_mem _ member, out⟩
      rw [List.flatten_cons, List.flatten_cons]
      exact (List.prefix_append_right_inj _).mpr shorter
    · rw [ended]
      refine ⟨_, _, rfl, .inr ⟨rfl, ?_, round, List.mem_cons_self, out⟩⟩
      rw [List.flatten_cons, List.flatten_nil, List.append_nil, List.flatten_cons]
      exact shorter.trans (List.prefix_append _ _)

/-- No access is outside the block, and each row compares a process with the last reading of it, whatever stood in
between; an allocation that fails cuts the rows short. -/
theorem watch_reports_history (rounds : List (WatchRound α)) :
    ∃ printed result, containerStatsAllWatch percent rounds .empty = some (printed, result) ∧
      (result = 0 ∧ printed = report percent rounds [] ∨
        result = -1 ∧ printed.flatten <+: (report percent rounds []).flatten ∧
          ∃ round ∈ rounds, ∃ reading ∈ round.readings, reading.memory = none) :=
  watch_from percent Samples.holds_empty rounds

end Run

/-! ## The watch of one container -/

section One

variable [LinearOrder α] (percent : α → α → UInt64 → φ) (pid : Pid)

/-- The readings of one process in a round of all. -/
def watchedIn (round : WatchRound α) : List (Watched α) := round.readings.filterMap fun reading =>
  if reading.container.running ∧ reading.container.pid = pid ∧ reading.cpuSeconds.isSome then
    some ⟨round.now, some reading.container, reading.cpuSeconds⟩
  else none

/-- The sample that the watch of one container keeps. -/
theorem containerStatsWatch_cons {container : Record} {cpu : α} {now : UInt64} {rest : List (Watched α)}
    {history : List (CpuSample α)} (running : container.running = true) (same : container.pid = pid) :
    containerStatsWatch percent (⟨now, some container, some cpu⟩ :: rest) (latest history pid) =
      (⟨container, cpu, (latest history pid).bind fun sample => Samples.since percent sample now cpu⟩ ::
          (containerStatsWatch percent rest (latest (history ++ [⟨pid, cpu, now⟩]) pid)).1,
        (containerStatsWatch percent rest (latest (history ++ [⟨pid, cpu, now⟩]) pid)).2) := by
  have mine : ((latest history pid).bind fun sample =>
      if sample.pid = container.pid then Samples.since percent sample now cpu else none) =
      (latest history pid).bind fun sample => Samples.since percent sample now cpu := by
    cases known : latest history pid with
    | none => rfl
    | some sample => simp [Samples.latest_pid known, same]
  rw [containerStatsWatch]
  simp only [running, Bool.true_eq_false, if_false, mine]
  rw [Samples.latest_append, if_pos rfl, same]

theorem reportRound_watch (round : WatchRound α) (readings : List (Reading α)) (history : List (CpuSample α))
    (later : List (Watched α)) :
    (containerStatsWatch percent (watchedIn pid ⟨round.now, readings⟩ ++ later) (latest history pid)).1 =
      (reportRound percent round.now readings history).1.filter (·.container.pid = pid) ++
        (containerStatsWatch percent later (latest (reportRound percent round.now readings history).2 pid)).1 := by
  induction readings generalizing history with
  | nil => rfl
  | cons reading rest ih =>
    -- A reading that is skipped, one of another process, and one of this process.
    have split : watchedIn pid ⟨round.now, reading :: rest⟩ = (if reading.container.running ∧ reading.container.pid = pid ∧
        reading.cpuSeconds.isSome then [⟨round.now, some reading.container, reading.cpuSeconds⟩] else []) ++
        watchedIn pid ⟨round.now, rest⟩ := by
      unfold watchedIn
      rw [List.filterMap_cons]
      split
      · rename_i skipped
        rw [if_neg fun met => by rw [if_pos met] at skipped; cases skipped]
        rfl
      · rename_i watched kept
        split at kept
        · rename_i met
          cases kept
          rw [if_pos met]
          rfl
        · cases kept
    rw [split]
    unfold reportRound
    cases running : reading.container.running with
    | false => simpa using ih history
    | true =>
      cases read : reading.cpuSeconds with
      | none => simpa using ih history
      | some cpu =>
        by_cases same : reading.container.pid = pid
        · have next := ih (history ++ [⟨pid, cpu, round.now⟩])
          simp only [same, Option.isSome_some, and_self, if_true, List.cons_append, List.nil_append]
          rw [containerStatsWatch_cons percent pid running same]
          simp only [next, List.filter_cons, same, decide_true, if_true, List.cons_append]
        · have next := ih (history ++ [⟨reading.container.pid, cpu, round.now⟩])
          rw [Samples.latest_append, if_neg same] at next
          simp only [same, false_and, and_false, if_false, List.nil_append]
          rw [next]
          simp [same]

/-- Of the rows of the history, those of one process are those of a watch of it alone. -/
theorem report_watch (rounds : List (WatchRound α)) (history : List (CpuSample α)) :
    (report percent rounds history).flatten.filter (·.container.pid = pid) =
      (containerStatsWatch percent (rounds.flatMap (watchedIn pid)) (latest history pid)).1 := by
  induction rounds generalizing history with
  | nil => rfl
  | cons round rest ih =>
    rw [report]
    simp only [List.flatten_cons, List.filter_append, List.flatMap_cons]
    rw [ih, ← reportRound_watch]

/-- Whatever is read in between, the watch of all containers shows a process as a watch of its container alone does, at
least up to the place where it finds no memory. -/
theorem all_watch_agrees (rounds : List (WatchRound α)) :
    ∃ printed result, containerStatsAllWatch percent rounds .empty = some (printed, result) ∧
      (result = 0 ∧ printed.flatten.filter (·.container.pid = pid) =
          (containerStatsWatch percent (rounds.flatMap (watchedIn pid)) none).1 ∨
        result = -1 ∧ printed.flatten.filter (·.container.pid = pid) <+:
            (containerStatsWatch percent (rounds.flatMap (watchedIn pid)) none).1 ∧
          ∃ round ∈ rounds, ∃ reading ∈ round.readings, reading.memory = none) := by
  have shown := report_watch percent pid rounds []
  obtain ⟨printed, result, run, ⟨fine, rfl⟩ | ⟨failed, first, short⟩⟩ := watch_from percent Samples.holds_empty rounds
  · exact ⟨_, result, run, .inl ⟨fine, shown⟩⟩
  · exact ⟨printed, result, run, .inr ⟨failed, shown ▸ first.filter _, short⟩⟩

end One

end ContainerRuntime
