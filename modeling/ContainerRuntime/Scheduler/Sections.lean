import ContainerRuntime.Scheduler.Locking

/-! Each part under the lock has the effect that the other modules give it.

The accesses of a part, from the lock on, come to the function on the whole table,
and from a table that is as it should be each of them is defined.
-/

set_option autoImplicit false

namespace ContainerRuntime.Locking

open Mutex

/-! ## Each part under the lock as one step -/

def addedResult : Except Errno Unit → Returned
  | .ok _ => .value 0
  | .error error => .failed error

/-- `scheduler_start` under the lock. -/
def startEffect (created : Bool) (ms : UInt32) (s : SchedulerState) : SchedulerState × Left :=
  if s.threadStarted then ({ s with timeSliceMs := ms }, .returned (.value 0))
  else if created then
    ({ s with timeSliceMs := ms, stopRequested := false, threadStarted := true }, .returned (.value 0))
  else ({ s with timeSliceMs := ms, stopRequested := false }, .returned (.failed Errno.EAGAIN))

/-- `scheduler_stop` up to its first unlock. -/
def stopEffect (s : SchedulerState) : SchedulerState × Left :=
  if s.threadStarted then ({ s with stopRequested := true }, .joins) else (s, .returned .nothing)

/-- A function from its lock to its unlock. -/
def Api.effect (answers : Answers) (s : SchedulerState) : Api → Option (SchedulerState × Left)
  | .setEnabled enabled => some ({ s with enabled }, .returned (.value 0))
  | .setTimeSliceMs ms => some ({ s with timeSliceMs := ms }, .returned (.value 0))
  | .isEnabled => some (s, .returned (.value (if s.enabled then 1 else 0)))
  | .getTimeSliceMs => some (s, .returned (.value s.timeSliceMs.toNat))
  | .addTarget pid =>
    (s.schedulerAddTarget answers.memory pid).map fun (s, result) => (s, .returned (addedResult result))
  | .removeTarget pid => (s.schedulerRemoveTarget pid).map fun (s, removed) => (s, .returned (removedResult removed))
  | .clearTargets => some (s.schedulerClearTargets, .returned .nothing)
  | .start ms => some (startEffect answers.created ms s)
  | .stop => some (stopEffect s)

/-- A turn of the thread from its lock to its unlock. -/
def turnEffect (answers : Answers) (s : SchedulerState) : Option (SchedulerState × Chosen) :=
  if s.stopRequested then some (s, .stops)
  else
    (s.selectLocked answers.alive).map fun (t, pair) =>
      (t, match pair with
        | none => .idles
        | some (current, next) => .pair current next s.timeSliceMs)

/-- What comes of the part that a thread takes the lock for. -/
def atomic : Place → Answers → SchedulerState → Option (SchedulerState × Place)
  | .calls (call :: rest), answers, s => (call.effect answers s).map fun (s, left) => (s, left.place call rest)
  | .finishing rest, _, s => some ({ s with threadStarted := false, stopRequested := false }, .returning .stop .nothing rest)
  | .thread, answers, s => (turnEffect answers s).map fun (s, chosen) => (s, chosen.place)
  | _, _, _ => none

section Effects

variable {answers : Answers} {s t : SchedulerState} {pid : Pid}

/-! ## The accesses of a function come to its effect -/

theorem branch_then {spots : Type} {c : Prop} [Decidable c] {yes no : spots} (holds : c) :
    some (s, if c then yes else no) = some (s, yes) := by rw [if_pos holds]

theorem branch_else {spots : Type} {c : Prop} [Decidable c] {yes no : spots} (fails : ¬ c) :
    some (s, if c then yes else no) = some (s, no) := by rw [if_neg fails]

/-- The loops that look for a pid. -/
theorem goes_search (answers : Answers) (test compare present : Nat → Spot) (absent : Spot)
    (tests : ∀ i, (test i).act answers s = some (s, if i < s.targetCount then compare i else absent))
    (compares : ∀ i, (compare i).act answers s =
      (s.load i).map fun here => (s, if here = pid then present i else test (i + 1)))
    {left i : Nat} {found : Option Nat} (counted : i + left = s.targetCount) (searched : s.search pid left i = some found) :
    Goes (Spot.act answers) (s, test i) (s, found.elim absent present) := by
  induction left generalizing i with
  | zero =>
    cases searched
    apply Goes.single
    rw [tests, if_neg (by omega)]
    rfl
  | succ left ih =>
    have inside : Spot.act answers s (test i) = some (s, compare i) := by rw [tests, if_pos (by omega)]
    have second := compares i
    rw [SchedulerState.search] at searched
    cases loaded : s.load i with
    | none =>
      rw [loaded] at searched
      cases searched
    | some here =>
      rw [loaded] at searched second
      simp only [Option.map_some] at searched second
      by_cases same : here = pid
      · rw [if_pos same] at searched second
        cases searched
        exact .head inside (.single second)
      · rw [if_neg same] at searched second
        exact .head inside (.head second (ih (by omega) searched))

theorem goes_reset (removed : Bool) (s : SchedulerState) :
    Goes (Spot.act answers) (s, .resetLoad removed) (s.resetIndex, .leave (.returned (removedResult removed))) := by
  unfold SchedulerState.resetIndex
  by_cases outside : s.targetCount ≤ s.currentIndex
  · rw [if_pos outside]
    exact .head rfl (.head (branch_then outside) (.single rfl))
  · rw [if_neg outside]
    exact .head rfl (.single (branch_else outside))

theorem goes_ensure {desired : Nat} {grown : Bool}
    (ensures : s.ensureCapacityLocked answers.memory desired = some (t, grown)) :
    Goes (Spot.act answers) (s, .ensureTest pid desired)
      (t, if grown then .addIndex pid else .leave (.returned (.failed Errno.ENOMEM))) := by
  unfold SchedulerState.ensureCapacityLocked at ensures
  by_cases room : desired ≤ s.targetCapacity
  · rw [if_pos room] at ensures
    cases ensures
    exact .single (branch_then room)
  · rw [if_neg room] at ensures
    apply Goes.head (branch_else room)
    cases doubles : SchedulerState.doubleUp desired 65 (if s.targetCapacity = 0 then 8 else s.targetCapacity) with
    | none =>
      rw [doubles] at ensures
      cases ensures
    | some capacity =>
      rw [doubles] at ensures
      have asked : Spot.act answers s (.ensureNext pid desired) = some (s, .ensureBlock pid capacity) := by
        rw [Spot.act, doubles]
        rfl
      apply Goes.head asked
      cases memory : answers.memory with
      | none =>
        rw [memory] at ensures
        cases ensures
        exact .single (by simp [Spot.act, memory])
      | some cells =>
        rw [memory] at ensures
        cases ensures
        exact .head (by rw [Spot.act, memory]) (.single rfl)

theorem goes_add {result : Except Errno Unit} (adds : s.schedulerAddTarget answers.memory pid = some (t, result)) :
    Goes (Spot.act answers) (s, .addTest pid 0) (t, .leave (.returned (addedResult result))) := by
  unfold SchedulerState.schedulerAddTarget at adds
  cases searched : s.search pid s.targetCount 0 with
  | none =>
    rw [searched] at adds
    cases adds
  | some found =>
    rw [searched] at adds
    have finds := goes_search answers (.addTest pid) (.addCompare pid) (fun _ => .done) (.addDesired pid)
      (fun _ => rfl) (fun _ => rfl) (Nat.zero_add _) searched
    cases found with
    | some i =>
      cases adds
      exact finds
    | none =>
      apply finds.trans
      apply Goes.head rfl
      simp only at adds
      split at adds
      · cases adds
      · rename_i u ensured
        cases adds
        exact goes_ensure ensured
      · rename_i u ensured
        obtain ⟨stored, stores, same⟩ := Option.map_eq_some_iff.mp adds
        cases same
        have store : Spot.act answers u (.addStore pid u.targetCount) = some (stored, .addCount u.targetCount) := by
          rw [Spot.act, stores]
          rfl
        exact (goes_ensure ensured).trans (.head rfl (.head store (.single rfl)))

theorem store_targetCount {i : Nat} (stores : s.store i pid = some t) : t.targetCount = s.targetCount := by
  unfold SchedulerState.store at stores
  split at stores
  · cases stores
    rfl
  · cases stores

theorem goes_remove {removed : Bool} (removes : s.schedulerRemoveTarget pid = some (t, removed)) :
    Goes (Spot.act answers) (s, .removeTest pid 0) (t, .leave (.returned (removedResult removed))) := by
  unfold SchedulerState.schedulerRemoveTarget at removes
  cases searched : s.search pid s.targetCount 0 with
  | none =>
    rw [searched] at removes
    cases removes
  | some found =>
    rw [searched] at removes
    have finds := goes_search answers (.removeTest pid) (.removeCompare pid) .removeLast (.resetLoad false)
      (fun _ => rfl) (fun _ => rfl) (Nat.zero_add _) searched
    apply finds.trans
    cases found with
    | none =>
      cases removes
      exact goes_reset false s
    | some i =>
      apply Goes.head rfl
      simp only at removes
      split at removes
      · cases removes
      · rename_i last loaded
        obtain ⟨stored, stores, same⟩ := Option.map_eq_some_iff.mp removes
        cases same
        have load : Spot.act answers s (.removeLoad i (s.targetCount - 1)) = some (s, .removeStore i last) := by
          rw [Spot.act, loaded]
          rfl
        have store : Spot.act answers s (.removeStore i last) = some (stored, .removeCount) := by
          rw [Spot.act, stores]
          rfl
        have counted : stored.targetCount = s.targetCount := store_targetCount stores
        apply Goes.head load
        apply Goes.head store
        rw [← counted]
        exact .head rfl (.head rfl (goes_reset true _))

theorem goes_start (answers : Answers) (ms : UInt32) (s : SchedulerState) :
    Goes (Spot.act answers) (s, .startSlice ms)
      ((startEffect answers.created ms s).1, .leave (startEffect answers.created ms s).2) := by
  apply Goes.head rfl
  unfold startEffect
  by_cases started : s.threadStarted = true
  · rw [if_pos started]
    exact .single (branch_then started)
  · rw [if_neg started]
    apply Goes.head (branch_else started)
    apply Goes.head rfl
    by_cases created : answers.created = true
    · rw [if_pos created]
      exact .single (if_pos created)
    · rw [if_neg created]
      exact .single (if_neg created)

theorem goes_stop (answers : Answers) (s : SchedulerState) :
    Goes (Spot.act answers) (s, .stopTest) ((stopEffect s).1, .leave (stopEffect s).2) := by
  unfold stopEffect
  by_cases started : s.threadStarted = true
  · rw [if_pos started]
    exact .head (branch_then started) (.single rfl)
  · rw [if_neg started]
    exact .single (branch_else started)

/-- From the first access of a function to its unlock. -/
theorem goes_effect {call : Api} {left : Left} (effect : call.effect answers s = some (t, left)) :
    Goes (Spot.act answers) (s, call.entry) (t, .leave left) := by
  cases call with
  | setEnabled enabled =>
    cases effect
    exact .single rfl
  | setTimeSliceMs ms =>
    cases effect
    exact .single rfl
  | isEnabled =>
    cases effect
    exact .single rfl
  | getTimeSliceMs =>
    cases effect
    exact .single rfl
  | addTarget pid =>
    obtain ⟨⟨u, result⟩, adds, same⟩ := Option.map_eq_some_iff.mp effect
    cases same
    exact goes_add adds
  | removeTarget pid =>
    obtain ⟨⟨u, removed⟩, removes, same⟩ := Option.map_eq_some_iff.mp effect
    cases same
    exact goes_remove removes
  | clearTargets =>
    cases effect
    exact .head rfl (.single rfl)
  | start ms =>
    have goes := goes_start answers ms s
    rw [Option.some.inj effect] at goes
    exact goes
  | stop =>
    have goes := goes_stop answers s
    rw [Option.some.inj effect] at goes
    exact goes

/-! ## The accesses of a turn of the thread come to its effect -/

theorem goes_compact {turn : Turn} {left i write written : Nat} {cells : List Pid} (counted : i + left = s.targetCount)
    (compacts : SchedulerState.compact answers.alive left i write s.cells = some (cells, written)) :
    Goes (ThreadSpot.act answers) (s, .pruneTest turn i write) ({ s with cells }, .pruneCount turn written) := by
  induction left generalizing i write s with
  | zero =>
    cases compacts
    exact .single (branch_else (by omega))
  | succ left ih =>
    apply Goes.head (branch_then (by omega))
    rw [SchedulerState.compact] at compacts
    split at compacts
    · cases compacts
    · rename_i pid loaded
      have load : ThreadSpot.act answers s (.pruneLoad turn i write) = some (s,
          if Scheduler.pidIsAlive answers.alive pid = false then .pruneTest turn (i + 1) write
          else .pruneStore turn i write pid) := by
        rw [ThreadSpot.act, SchedulerState.load, loaded]
        rfl
      apply Goes.head load
      by_cases dead : Scheduler.pidIsAlive answers.alive pid = false
      · rw [if_pos dead] at compacts ⊢
        exact ih (by omega) compacts
      · rw [if_neg dead] at compacts ⊢
        split at compacts
        · rename_i inside
          have store : ThreadSpot.act answers s (.pruneStore turn i write pid) =
              some ({ s with cells := s.cells.set write pid }, .pruneTest turn (i + 1) (write + 1)) := by
            rw [ThreadSpot.act, SchedulerState.store, if_pos inside]
            rfl
          apply Goes.head store
          exact ih (s := { s with cells := s.cells.set write pid }) (show i + 1 + left = s.targetCount by omega) compacts
        · cases compacts

theorem goes_prune {turn : Turn} (prunes : s.pruneDeadLocked answers.alive = some t) :
    Goes (ThreadSpot.act answers) (s, .pruneTest turn 0 0) (t, .loadCount turn) := by
  obtain ⟨⟨cells, written⟩, compacts, same⟩ := Option.map_eq_some_iff.mp prunes
  apply (goes_compact (Nat.zero_add _) compacts).trans
  apply Goes.head rfl
  apply Goes.head rfl
  rw [← same]
  simp only [SchedulerState.resetIndex]
  split
  · rename_i outside
    exact .head (branch_then outside) (.single rfl)
  · rename_i inside
    exact .single (branch_else inside)

theorem pruneDeadLocked_enabled (alive : Pid → Bool) (prunes : s.pruneDeadLocked alive = some t) :
    t.enabled = s.enabled := by
  obtain ⟨⟨cells, written⟩, -, same⟩ := Option.map_eq_some_iff.mp prunes
  rw [← same]
  simp only [SchedulerState.resetIndex]
  split <;> rfl

theorem goes_pair {turn : Turn} {current next : Pid} {count : Nat} (first : s.load (s.currentIndex % count) = some current)
    (second : s.load ((s.currentIndex + 1) % sizeSpace % count % count) = some next) :
    Goes (ThreadSpot.act answers) (s, .currentIndex turn count)
      ({ s with currentIndex := (s.currentIndex + 1) % sizeSpace % count }, .leave (.pair current next turn.sliceMs)) := by
  have load : ThreadSpot.act answers s (.currentLoad turn count (s.currentIndex % count)) =
      some (s, .advance turn count current) := by
    rw [ThreadSpot.act, first]
    rfl
  apply Goes.head rfl
  apply Goes.head load
  apply Goes.head rfl
  apply Goes.head rfl
  apply Goes.head rfl
  apply Goes.single
  exact congrArg (Option.map _) second

theorem goes_turn {chosen : Chosen} (turns : turnEffect answers s = some (t, chosen)) :
    Goes (ThreadSpot.act answers) (s, .stopTest) (t, .leave chosen) := by
  unfold turnEffect at turns
  by_cases stops : s.stopRequested = true
  · rw [if_pos stops] at turns
    cases turns
    exact .single (branch_then stops)
  · rw [if_neg stops] at turns
    obtain ⟨⟨u, pair⟩, selects, same⟩ := Option.map_eq_some_iff.mp turns
    cases same
    apply Goes.head (branch_else stops)
    apply Goes.head rfl
    apply Goes.head rfl
    rw [SchedulerState.selectLocked, if_neg stops] at selects
    split at selects
    · cases selects
    · rename_i pruned prunes
      have still : pruned.enabled = s.enabled := pruneDeadLocked_enabled answers.alive prunes
      rw [← still]
      apply (goes_prune prunes).trans
      simp only at selects
      split at selects
      · rename_i idle
        cases selects
        exact .single (branch_then idle)
      · rename_i many
        split at selects
        · rename_i current next first second
          cases selects
          apply Goes.head (branch_else many)
          exact goes_pair first second
        · cases selects

/-! ## The code keeps to the lock -/

/-- An access leaves a thread under the lock. -/
theorem stays_inside {spots : Type} {into : spots → Place} (inside : ∀ spot, Inside (into spot))
    (outcome : Option (SchedulerState × spots)) (after : SchedulerState) (next : Place)
    (moves : outcome.map (Prod.map id into) = some (after, next)) : Inside next := by
  obtain ⟨there, -, same⟩ := Option.map_eq_some_iff.mp moves
  cases same
  exact inside there.2

theorem disciplined : Disciplined code Inside := by
  intro place
  cases place with
  | calls todo =>
    cases todo with
    | nil => exact id
    | cons call rest =>
      rw [code]
      cases call.refused with
      | none => exact ⟨id, fun _ => trivial⟩
      | some error => exact ⟨id, id⟩
  | calling answers spot call rest =>
    have inside (next : Spot) : Inside (.calling answers next call rest) := trivial
    cases spot with
    | leave left =>
      refine ⟨trivial, ?_⟩
      cases left <;> exact id
    | _ => exact ⟨trivial, fun _ => stays_inside inside _⟩
  | choosing answers spot =>
    have inside (next : ThreadSpot) : Inside (.choosing answers next) := trivial
    cases spot with
    | leave chosen =>
      refine ⟨trivial, ?_⟩
      cases chosen <;> exact id
    | _ => exact ⟨trivial, fun _ => stays_inside inside _⟩
  | finishing rest => exact ⟨id, fun _ => trivial⟩
  | thread => exact ⟨id, fun _ => trivial⟩
  | finished => exact id
  | returning call result rest => exact ⟨id, id⟩
  | joining rest => exact ⟨id, id⟩
  | signalling current next sliceMs => exact ⟨id, id⟩
  | resuming next sliceMs => exact ⟨id, id⟩
  | sleeping ms => exact ⟨id, id⟩

theorem calling_section {spot : Spot} {left : Left} {call : Api} {rest : List Api}
    (goes : Goes (Spot.act answers) (s, spot) (t, .leave left)) :
    Section code (.calling answers spot call rest) s t (left.place call rest) := by
  have unlocks : code (.calling answers (.leave left) call rest) = .unlock (left.place call rest) := rfl
  apply goes.section (fun spot => Place.calling answers spot call rest) _ unlocks
  intro s spot there acts
  cases spot with
  | leave left => cases acts
  | _ => rfl

theorem choosing_section {spot : ThreadSpot} {chosen : Chosen}
    (goes : Goes (ThreadSpot.act answers) (s, spot) (t, .leave chosen)) :
    Section code (.choosing answers spot) s t chosen.place := by
  have unlocks : code (.choosing answers (.leave chosen)) = .unlock chosen.place := rfl
  apply goes.section (fun spot => Place.choosing answers spot) _ unlocks
  intro s spot there acts
  cases spot with
  | leave chosen => cases acts
  | _ => rfl

theorem kept_flags (kept : s.Kept) (enabled : Bool) (ms : UInt32) (started stopped : Bool) :
    SchedulerState.Kept
      { s with enabled := enabled, timeSliceMs := ms, threadStarted := started, stopRequested := stopped } := by
  obtain ⟨t, done, after, -⟩ := kept.step (.flags enabled ms started stopped)
  cases done
  exact after

/-- On a table that is as it should be every function has its effect. -/
theorem effect_kept (kept : s.Kept) (answers : Answers) (call : Api) :
    ∃ t left, call.effect answers s = some (t, left) ∧ t.Kept := by
  cases call with
  | setEnabled enabled => exact ⟨_, _, rfl, kept_flags kept enabled s.timeSliceMs s.threadStarted s.stopRequested⟩
  | setTimeSliceMs ms => exact ⟨_, _, rfl, kept_flags kept s.enabled ms s.threadStarted s.stopRequested⟩
  | isEnabled => exact ⟨_, _, rfl, kept⟩
  | getTimeSliceMs => exact ⟨_, _, rfl, kept⟩
  | addTarget pid =>
    obtain ⟨t, done, after, -⟩ := kept.step (.add answers.memory pid)
    obtain ⟨⟨u, result⟩, adds, same⟩ := Option.map_eq_some_iff.mp done
    cases same
    exact ⟨_, _, congrArg (Option.map _) adds, after⟩
  | removeTarget pid =>
    obtain ⟨t, done, after, -⟩ := kept.step (.remove pid)
    obtain ⟨⟨u, removed⟩, removes, same⟩ := Option.map_eq_some_iff.mp done
    cases same
    exact ⟨_, _, congrArg (Option.map _) removes, after⟩
  | clearTargets =>
    obtain ⟨t, done, after, -⟩ := kept.step .clear
    cases done
    exact ⟨_, _, rfl, after⟩
  | start ms =>
    have after : (startEffect answers.created ms s).1.Kept := by
      unfold startEffect
      split
      · exact kept_flags kept s.enabled ms s.threadStarted s.stopRequested
      · split
        · exact kept_flags kept s.enabled ms true false
        · exact kept_flags kept s.enabled ms s.threadStarted false
    exact ⟨_, _, rfl, after⟩
  | stop =>
    have after : (stopEffect s).1.Kept := by
      unfold stopEffect
      split
      · exact kept_flags kept s.enabled s.timeSliceMs s.threadStarted true
      · exact kept
    exact ⟨_, _, rfl, after⟩

theorem turn_kept (kept : s.Kept) (answers : Answers) : ∃ t chosen, turnEffect answers s = some (t, chosen) ∧ t.Kept := by
  unfold turnEffect
  split
  · exact ⟨_, _, rfl, kept⟩
  · obtain ⟨t, done, after, -⟩ := kept.step (.rotate answers.alive)
    obtain ⟨⟨u, pair⟩, selects, same⟩ := Option.map_eq_some_iff.mp done
    cases same
    exact ⟨_, _, congrArg (Option.map _) selects, after⟩

theorem code_implements_atomic : Implements code atomic SchedulerState.Kept := by
  intro place enter answers s locks kept
  cases place with
  | calls todo =>
    cases todo with
    | nil => cases locks
    | cons call rest =>
      simp only [code] at locks
      split at locks
      · cases locks
      · cases locks
        obtain ⟨t, left, effect, after⟩ := effect_kept kept answers call
        exact ⟨t, left.place call rest, calling_section (goes_effect effect), congrArg (Option.map _) effect, after⟩
  | finishing rest =>
    cases locks
    exact ⟨_, _, calling_section (.head rfl (.single rfl)), rfl, kept_flags kept s.enabled s.timeSliceMs false false⟩
  | thread =>
    cases locks
    obtain ⟨t, chosen, effect, after⟩ := turn_kept kept answers
    exact ⟨t, chosen.place, choosing_section (goes_turn effect), congrArg (Option.map _) effect, after⟩
  | calling answers spot call rest =>
    cases spot <;> cases locks
  | choosing answers spot =>
    cases spot <;> cases locks
  | _ => cases locks

end Effects

end ContainerRuntime.Locking
