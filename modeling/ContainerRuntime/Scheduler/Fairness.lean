import ContainerRuntime.Scheduler.Rotation
import Mathlib.Data.List.Rotate

/-! Fair rotation of a set of targets that nobody disturbs.

Right after a refresh the first target runs and the others are paused. From
there each iteration hands the slice to the next slot, so the processes run in
the order of the registry, one at a time.
-/

set_option autoImplicit false

namespace ContainerRuntime.Rotation

open Scheduler

namespace Plant

/-- The process that an iteration from here sends its SIGCONT to. -/
def resumes (p : Plant) : Option Pid := (selectLocked p.found p.sched).2.map Prod.snd

/-! ## The table after a refresh -/

theorem addTargets_enabled (entries : List (Pid × Bool)) (s : Scheduler) : (addTargets entries s).enabled = s.enabled := by
  induction entries generalizing s with
  | nil => rfl
  | cons first rest ih => exact (ih _).trans (schedulerAddTarget_enabled _ _ _)

theorem addTargets_currentIndex (entries : List (Pid × Bool)) (s : Scheduler) :
    (addTargets entries s).currentIndex = s.currentIndex := by
  induction entries generalizing s with
  | nil => rfl
  | cons first rest ih =>
    have one : (schedulerAddTarget first.2 first.1 s).currentIndex = s.currentIndex := by
      rcases schedulerAddTarget_cases first.2 first.1 s with ⟨same, -⟩ | ⟨-, capacity, same⟩ <;> rw [same]
    exact (ih _).trans one

/-- Targets are appended in the order of the list. -/
theorem addTargets_targets (entries : List (Pid × Bool)) (s : Scheduler) :
    ∃ added, added.Sublist (entries.map Prod.fst) ∧ (addTargets entries s).targets = s.targets ++ added := by
  induction entries generalizing s with
  | nil => exact ⟨[], .slnil, (List.append_nil _).symm⟩
  | cons first rest ih =>
    obtain ⟨added, fewer, targets⟩ := ih (schedulerAddTarget first.2 first.1 s)
    rcases schedulerAddTarget_cases first.2 first.1 s with ⟨same, -⟩ | ⟨-, capacity, same⟩
    · exact ⟨added, fewer.cons _, targets.trans (by rw [same])⟩
    · refine ⟨first.1 :: added, fewer.cons_cons _, targets.trans ?_⟩
      rw [same, List.append_assoc]
      rfl

/-- A table that has all of them has them in that order. -/
theorem refreshTargets_targets {p : Plant} {running : List (Pid × Bool)} (distinct : (running.map Prod.fst).Nodup)
    (positive : ∀ pid ∈ running.map Prod.fst, 0 < pid)
    (tabled : ∀ pid ∈ running.map Prod.fst, pid ∈ (p.refreshTargets running).sched.targets) :
    (p.refreshTargets running).sched.targets = running.map Prod.fst := by
  have listed : running.filter (0 < ·.1) = running :=
    List.filter_eq_self.mpr fun entry member => decide_eq_true (positive entry.1 (List.mem_map_of_mem member))
  have table : (p.refreshTargets running).sched.targets = (addTargets running (schedulerClearTargets p.sched)).targets := by
    rw [refreshTargets, (resumeFirst_frame _ _).1, listed]
  obtain ⟨added, fewer, targets⟩ := addTargets_targets running (schedulerClearTargets p.sched)
  have whole : (p.refreshTargets running).sched.targets = added := table.trans (targets.trans (List.nil_append _))
  rw [whole] at tabled ⊢
  exact fewer.eq_of_length_le (distinct.length_le_of_subset tabled)

theorem stopAll_paused (pids : List Pid) (p : Plant) (here : ∀ pid ∈ pids, p.found pid = true) (pid : Pid) :
    (pids.foldl (fun q pid => kill pid .SIGSTOP q) p).paused pid = (decide (pid ∈ pids) || p.paused pid) := by
  induction pids generalizing p with
  | nil => simp
  | cons first rest ih =>
    rw [List.foldl_cons, ih _ (fun other member => by rw [kill_found]; exact here other (List.mem_cons_of_mem _ member)),
      kill_SIGSTOP_paused (here first List.mem_cons_self), Function.update_apply]
    by_cases same : pid = first
    · simp [same]
    · simp [same]

/-- The others are stopped and the first is resumed. -/
theorem resumeFirst_paused {first : Pid} {rest : List Pid} {p : Plant} (here : ∀ pid ∈ first :: rest, p.found pid = true)
    (distinct : (first :: rest).Nodup) {pid : Pid} (member : pid ∈ first :: rest) :
    (resumeFirst (first :: rest) p).paused pid = false ↔ pid = first := by
  have others : rest.filter (· ≠ first) = rest := List.filter_eq_self.mpr fun other listed =>
    decide_eq_true fun same => (List.nodup_cons.mp distinct).1 (same ▸ listed)
  have found : (rest.foldl (fun q pid => kill pid .SIGSTOP q) p).found first = true := by
    rw [Plant.found, (stopAll_frame rest p).2]
    exact here first List.mem_cons_self
  rw [resumeFirst, others, kill_SIGCONT_paused found, Function.update_apply]
  by_cases same : pid = first
  · simp [same]
  · have listed : pid ∈ rest := (List.mem_cons.mp member).resolve_left same
    rw [if_neg same, stopAll_paused rest p fun other there => here other (List.mem_cons_of_mem _ there)]
    simp [listed, same]

/-! ## Turns -/

/-- The targets are these, and it is the turn of the one in this slot. -/
structure Turn (pids : List Pid) (slot : Nat) (p : Plant) : Prop where
  enabled : p.sched.enabled = true
  targets : p.sched.targets = pids
  index : p.sched.currentIndex = slot
  inside : slot < pids.length
  here : ∀ pid ∈ pids, 0 < pid ∧ p.found pid = true
  paused : ∀ i pid, pids[i]? = some pid → (p.paused pid = false ↔ i = slot)

section

variable {pids : List Pid} {slot : Nat} {p : Plant}

theorem Turn.live (turn : Turn pids slot p) : p.live = pids := by
  rw [Plant.live, turn.targets]
  apply List.filter_eq_self.mpr
  intro pid member
  obtain ⟨positive, found⟩ := turn.here pid member
  simp [present, pidIsAlive, positive, found]

theorem Turn.slot_eq (turn : Turn pids slot p) : p.slot = slot := by
  have live : p.sched.targets.filter (pidIsAlive p.found) = pids := turn.live
  rw [Plant.slot, currentSlot, live, turn.index, if_pos turn.inside]

/-- After a refresh it is the turn of the first. -/
theorem turn_refreshTargets {running : List (Pid × Bool)} (enabled : p.sched.enabled = true)
    (some : running ≠ []) (distinct : (running.map Prod.fst).Nodup)
    (here : ∀ pid ∈ running.map Prod.fst, 0 < pid ∧ p.found pid = true)
    (tabled : ∀ pid ∈ running.map Prod.fst, pid ∈ (p.refreshTargets running).sched.targets) :
    Turn (running.map Prod.fst) 0 (p.refreshTargets running) := by
  have listed : running.filter (0 < ·.1) = running :=
    List.filter_eq_self.mpr fun entry member => decide_eq_true (here entry.1 (List.mem_map_of_mem member)).1
  have refreshed : p.refreshTargets running =
      resumeFirst (running.map Prod.fst) { p with sched := addTargets running (schedulerClearTargets p.sched) } := by
    rw [refreshTargets, listed]
  have frame := resumeFirst_frame (running.map Prod.fst) { p with sched := addTargets running (schedulerClearTargets p.sched) }
  refine ⟨?_, refreshTargets_targets distinct (fun pid member => (here pid member).1) tabled, ?_, ?_, fun pid member => ?_, ?_⟩
  · rw [refreshed, frame.1]
    exact (addTargets_enabled _ _).trans enabled
  · rw [refreshed, frame.1]
    exact addTargets_currentIndex _ _
  · rw [List.length_map]
    exact List.length_pos_iff.mpr some
  · rw [refreshed, found, frame.2]
    exact here pid member
  · intro i pid slot
    rw [refreshed]
    cases shape : running.map Prod.fst with
    | nil => simp [shape] at slot
    | cons first rest =>
      rw [shape] at slot distinct here
      refine (resumeFirst_paused (fun other member => ?_) distinct (List.mem_of_getElem? slot)).trans ?_
      · exact (here other member).2
      constructor
      · rintro rfl
        exact (List.getElem?_inj (List.getElem?_eq_some_iff.mp slot).1 distinct).mp (slot.trans List.getElem?_cons_zero.symm)
      · rintro rfl
        exact (Option.some.inj slot).symm

/-- An iteration passes the slice on by one slot. -/
theorem Turn.iterate (turn : Turn pids slot p) (many : 2 ≤ pids.length) (distinct : pids.Nodup) :
    Turn pids ((slot + 1) % pids.length) p.iterate ∧ p.resumes = pids[(slot + 1) % pids.length]? := by
  have after : (slot + 1) % pids.length < pids.length := Nat.mod_lt _ (by omega)
  have moved : (slot + 1) % pids.length ≠ slot := by
    have inside := turn.inside
    by_cases last : slot + 1 < pids.length
    · rw [Nat.mod_eq_of_lt last]
      omega
    · have wraps : slot + 1 = pids.length := by omega
      rw [wraps, Nat.mod_self]
      omega
  obtain ⟨targets, on, ⟨idle, -⟩ | ⟨-, -, current, next, now, soon, index, signalled⟩⟩ := iterate_cases p
  · rw [turn.live] at idle
    rcases idle with off | few
    · rw [turn.enabled] at off
      cases off
    · omega
  rw [turn.live] at targets now soon index
  rw [turn.slot_eq] at now soon index
  refine ⟨⟨on.trans turn.enabled, targets, index, after, fun pid member => ?_, fun i pid at_i => ?_⟩, ?_⟩
  · rw [found, iterate_presence]
    exact turn.here pid member
  · have inside := (List.getElem?_eq_some_iff.mp at_i).1
    have is_next : pid = next ↔ i = (slot + 1) % pids.length := by
      constructor
      · rintro rfl
        exact (List.getElem?_inj inside distinct).mp (at_i.trans soon.symm)
      · rintro rfl
        exact Option.some.inj (at_i.symm.trans soon)
    rw [signalled, Function.update_apply]
    by_cases resumed : pid = next
    · simp [resumed, is_next.mp resumed]
    · rw [if_neg resumed, Function.update_apply, ← is_next, iff_false_right resumed]
      by_cases stopped : pid = current
      · simp [stopped]
      · rw [if_neg stopped, turn.paused i pid at_i]
        rintro rfl
        exact stopped (Option.some.inj (at_i.symm.trans now))
  · rcases selectLocked_cases p.found p.sched with ⟨idle, -⟩ | ⟨-, -, current', next', -, there, picked⟩
    · have live : p.sched.targets.filter (pidIsAlive p.found) = pids := turn.live
      rw [live, turn.enabled] at idle
      rcases idle with off | few
      · cases off
      · omega
    · have live : p.sched.targets.filter (pidIsAlive p.found) = pids := turn.live
      have slot_eq : currentSlot p.found p.sched = slot := turn.slot_eq
      rw [live, slot_eq] at there
      rw [resumes, picked, there]
      rfl

theorem Turn.iterates (turn : Turn pids slot p) (many : 2 ≤ pids.length) (distinct : pids.Nodup) (k : Nat) :
    Turn pids ((slot + k) % pids.length) (Plant.iterate^[k] p) := by
  -- The invariant is whose turn it is, counted modulo the number of targets.
  induction k with
  | zero =>
    rw [Nat.add_zero, Nat.mod_eq_of_lt turn.inside]
    exact turn
  | succ k ih =>
    rw [Function.iterate_succ_apply']
    have next := (ih.iterate many distinct).1
    rwa [Nat.mod_add_mod, Nat.add_assoc] at next

/-- The processes that a whole round resumes. -/
theorem Turn.round (turn : Turn pids slot p) (many : 2 ≤ pids.length) (distinct : pids.Nodup) :
    ((List.range pids.length).map fun j => (Plant.iterate^[j] p).resumes) = (pids.rotate (slot + 1)).map some := by
  apply List.ext_getElem?
  intro j
  rw [List.getElem?_map, List.getElem?_map]
  by_cases inside : j < pids.length
  · have later := (turn.iterates many distinct j).iterate many distinct
    have slots : ((slot + j) % pids.length + 1) % pids.length = (j + (slot + 1)) % pids.length := by
      rw [Nat.mod_add_mod]
      congr 1
      omega
    rw [List.getElem?_range inside, Option.map_some, later.2, slots, ← List.getElem?_rotate inside]
    rw [List.getElem?_eq_getElem (by rwa [List.length_rotate]), Option.map_some]
  · rw [List.getElem?_eq_none (by simpa using inside), List.getElem?_eq_none (by simpa using inside)]
    rfl

end

/-- From a refresh of two or more targets on, with nobody coming or going: after `k` iterations the table is the list,
the process at `k mod n` runs and the others are paused, and the next `n` iterations resume each of them once. -/
theorem rotation_fair (p : Plant) (running : List (Pid × Bool)) (enabled : p.sched.enabled = true)
    (many : 2 ≤ running.length) (distinct : (running.map Prod.fst).Nodup)
    (alive : ∀ pid ∈ running.map Prod.fst, 0 < pid ∧ p.presence pid = .alive)
    (tabled : ∀ pid ∈ running.map Prod.fst, pid ∈ (p.refreshTargets running).sched.targets) (k : Nat) :
    let pids := running.map Prod.fst
    let q := Plant.iterate^[k] (p.refreshTargets running)
    q.sched.targets = pids ∧
      (∀ i pid, pids[i]? = some pid → (q.paused pid = false ↔ i = k % pids.length)) ∧
      ((List.range pids.length).map fun j => (Plant.iterate^[j] q).resumes).Perm (pids.map some) := by
  intro pids q
  have some_running : running ≠ [] := by
    rintro rfl
    simp at many
  have several : 2 ≤ pids.length := by rwa [List.length_map]
  have first : Turn pids 0 (p.refreshTargets running) := by
    refine turn_refreshTargets enabled some_running distinct (fun pid member => ?_) tabled
    obtain ⟨positive, there⟩ := alive pid member
    exact ⟨positive, by simp [found, there]⟩
  have turn : Turn pids (k % pids.length) q := by
    have later := first.iterates several distinct k
    rwa [Nat.zero_add] at later
  refine ⟨turn.targets, turn.paused, ?_⟩
  rw [turn.round several distinct]
  exact (List.rotate_perm _ _).map some

/-- Three containers, four iterations after `sched on`. -/
theorem rotation_fair_three :
    let p : Plant := { start (fun _ => .alive) with sched := schedulerSetEnabled true Scheduler.initial }
    let running : List (Pid × Bool) := [(3, true), (1, true), (2, true)]
    let pids := running.map Prod.fst
    let q := Plant.iterate^[4] (p.refreshTargets running)
    q.sched.targets = pids ∧ (∀ i pid, pids[i]? = some pid → (q.paused pid = false ↔ i = 4 % pids.length)) ∧
      ((List.range pids.length).map fun j => (Plant.iterate^[j] q).resumes).Perm (pids.map some) := by
  intro p running
  have alive : ∀ pid ∈ running.map Prod.fst, 0 < pid ∧ p.presence pid = .alive := by decide +kernel
  have tabled : ∀ pid ∈ running.map Prod.fst, pid ∈ (p.refreshTargets running).sched.targets := by decide +kernel
  exact rotation_fair p running rfl (by decide) (by decide +kernel) alive tabled 4

end Plant

end ContainerRuntime.Rotation
