import ContainerRuntime.Scheduler.Table

/-! Round-robin runs: the target table together with the processes it names.

Whether a process is paused is not in the scheduler's state. It is the last of
SIGSTOP and SIGCONT that reached it, so a run carries both: the table, and for
every pid whether a process is there and which of the two signals it saw last.
-/

set_option autoImplicit false

namespace ContainerRuntime.Rotation

open Scheduler

/-- What `kill(pid, 0)` and the process itself have to say about a pid. A child of the manager that
has ended stays a zombie, which `kill` still finds, until it is reaped. -/
inductive Presence where
  | absent | zombie | alive
  deriving DecidableEq

structure Plant where
  sched : Scheduler
  presence : Pid → Presence
  paused : Pid → Bool

inductive Step where
  /-- `sched on`: the RUNNING pids in list order, each with the outcome of its `realloc`. -/
  | schedOn (running : List (Pid × Bool))
  /-- A container has been started on a fresh pid. -/
  | started (pid : Pid) (alloc : Bool)
  /-- A container's process has been killed or has ended, and the manager has reaped it. -/
  | stopped (pid : Pid)
  /-- A child of the manager ends. -/
  | exited (pid : Pid)
  /-- A process that is no child of the manager ends and is reaped by its parent. -/
  | vanished (pid : Pid)
  /-- One round of the loop of `scheduler_thread_main`. -/
  | iterate

namespace Plant

/-- `kill(pid, 0) == 0`. -/
def found (p : Plant) (pid : Pid) : Bool := p.presence pid ≠ .absent

def present (p : Plant) (pid : Pid) : Bool := pidIsAlive p.found pid

/-- The targets that `prune_dead_locked` would keep. -/
def live (p : Plant) : List Pid := p.sched.targets.filter p.present

def slot (p : Plant) : Nat := currentSlot p.found p.sched

def kill (pid : Pid) (signal : Signal) (p : Plant) : Plant :=
  match signal with
  | .SIGSTOP => if p.found pid then { p with paused := Function.update p.paused pid true } else p
  | .SIGCONT => if p.found pid then { p with paused := Function.update p.paused pid false } else p
  | .SIGKILL => p

def addTargets (entries : List (Pid × Bool)) (s : Scheduler) : Scheduler :=
  entries.foldl (fun s entry => schedulerAddTarget entry.2 entry.1 s) s

/-- Start from a stable point: stop the others and resume the first. -/
def resumeFirst : List Pid → Plant → Plant
  | [], p => p
  | first :: rest, p =>
    kill first .SIGCONT ((rest.filter (· ≠ first)).foldl (fun q pid => kill pid .SIGSTOP q) p)

/-- `container_scheduler_refresh_targets` with the scheduler enabled. -/
def refreshTargets (running : List (Pid × Bool)) (p : Plant) : Plant :=
  let listed := running.filter (0 < ·.1)
  resumeFirst (listed.map (·.1)) { p with sched := addTargets listed (schedulerClearTargets p.sched) }

/-- The locked section of an iteration and the two signals after it. -/
def iterate (p : Plant) : Plant :=
  match selectLocked p.found p.sched with
  | (sched, none) => { p with sched := sched }
  | (sched, some (current, next)) => kill next .SIGCONT (kill current .SIGSTOP { p with sched := sched })

def step (p : Plant) : Step → Plant
  | .schedOn running => refreshTargets running { p with sched := schedulerSetEnabled true p.sched }
  | .started pid alloc =>
    if p.presence pid = .absent ∧ 0 < pid then
      { sched := schedulerAddTarget alloc pid p.sched
        presence := Function.update p.presence pid .alive
        paused := Function.update p.paused pid false }
    else p
  | .stopped pid =>
    { p with sched := schedulerRemoveTarget pid p.sched, presence := Function.update p.presence pid .absent }
  | .exited pid =>
    if p.presence pid = .alive then { p with presence := Function.update p.presence pid .zombie } else p
  | .vanished pid => { p with presence := Function.update p.presence pid .absent }
  | .iterate => iterate p

def run (p : Plant) (steps : List Step) : Plant := steps.foldl step p

/-- The manager's state at start-up, in front of any processes. -/
def start (presence : Pid → Presence) : Plant := ⟨Scheduler.initial, presence, fun _ => false⟩

/-! ## What each step leaves alone -/

@[simp] theorem kill_sched (pid : Pid) (signal : Signal) (p : Plant) : (kill pid signal p).sched = p.sched := by
  unfold kill; cases signal <;> simp only <;> split <;> rfl

@[simp] theorem kill_presence (pid : Pid) (signal : Signal) (p : Plant) :
    (kill pid signal p).presence = p.presence := by
  unfold kill; cases signal <;> simp only <;> split <;> rfl

@[simp] theorem kill_found (pid : Pid) (signal : Signal) (p : Plant) : (kill pid signal p).found = p.found := by
  funext q; simp [found]

theorem kill_SIGCONT_paused {pid : Pid} {p : Plant} (here : p.found pid = true) :
    (kill pid .SIGCONT p).paused = Function.update p.paused pid false := by simp [kill, here]

theorem kill_SIGSTOP_paused {pid : Pid} {p : Plant} (here : p.found pid = true) :
    (kill pid .SIGSTOP p).paused = Function.update p.paused pid true := by simp [kill, here]

/-- Everything but the paused flags survives a round of SIGSTOPs. -/
theorem stopAll_frame (pids : List Pid) (p : Plant) :
    (pids.foldl (fun q pid => kill pid .SIGSTOP q) p).sched = p.sched ∧
      (pids.foldl (fun q pid => kill pid .SIGSTOP q) p).presence = p.presence := by
  induction pids generalizing p with
  | nil => exact ⟨rfl, rfl⟩
  | cons first rest ih => simpa using ih (kill first .SIGSTOP p)

theorem resumeFirst_frame (pids : List Pid) (p : Plant) :
    (resumeFirst pids p).sched = p.sched ∧ (resumeFirst pids p).presence = p.presence := by
  cases pids with
  | nil => exact ⟨rfl, rfl⟩
  | cons first rest =>
    simp only [resumeFirst, kill_sched, kill_presence]
    exact stopAll_frame _ p

theorem iterate_presence (p : Plant) : (iterate p).presence = p.presence := by
  unfold iterate
  split <;> simp

theorem found_of_mem_live {p : Plant} {pid : Pid} (member : pid ∈ p.live) : p.found pid = true := by
  have kept := (List.mem_filter.mp member).2
  simp only [present, pidIsAlive, Bool.and_eq_true] at kept
  exact kept.2

/-- One iteration, in terms of the targets that are there and the slot that holds the slice. -/
theorem iterate_cases (p : Plant) :
    (iterate p).sched.targets = p.live ∧ (iterate p).sched.enabled = p.sched.enabled ∧
      (((p.sched.enabled = false ∨ p.live.length < 2) ∧ (iterate p).paused = p.paused) ∨
        p.sched.enabled = true ∧ 2 ≤ p.live.length ∧ ∃ current next, p.live[p.slot]? = some current ∧
          p.live[(p.slot + 1) % p.live.length]? = some next ∧
          (iterate p).sched.currentIndex = (p.slot + 1) % p.live.length ∧
          (iterate p).paused = Function.update (Function.update p.paused current true) next false) := by
  rcases selectLocked_cases p.found p.sched with ⟨idle, picked⟩ | ⟨on, many, current, next, here, there, picked⟩
  · have same : iterate p = { p with sched := pruneDeadLocked p.found p.sched } := by
      simp only [iterate, picked]
    rw [same]
    exact ⟨pruneDeadLocked_targets _ _, pruneDeadLocked_enabled _ _, .inl ⟨idle, rfl⟩⟩
  · have current_found := found_of_mem_live (List.mem_of_getElem? here)
    have next_found := found_of_mem_live (List.mem_of_getElem? there)
    have same : iterate p = kill next .SIGCONT (kill current .SIGSTOP { p with sched :=
        { pruneDeadLocked p.found p.sched with currentIndex := (p.slot + 1) % p.live.length } }) := by
      simp only [iterate, picked]; rfl
    have signalled : ∀ sched, (kill next .SIGCONT (kill current .SIGSTOP { p with sched := sched })).paused =
        Function.update (Function.update p.paused current true) next false := by
      intro sched
      rw [kill_SIGCONT_paused (by rw [kill_found]; exact next_found), kill_SIGSTOP_paused (by exact current_found)]
    rw [same, kill_sched, kill_sched, signalled]
    exact ⟨pruneDeadLocked_targets _ _, pruneDeadLocked_enabled _ _,
      .inr ⟨on, many, current, next, here, there, rfl, rfl⟩⟩

/-! ## Somebody keeps running

The table never freezes as long as no target departs from beside a single
paused one: an iteration that finds two targets resumes one of them, and one
that finds fewer sends nothing at all.
-/

/-- `q` is the only target there is a process for. -/
def Lone (p : Plant) (q : Pid) : Prop := q ∈ p.live ∧ ∀ target ∈ p.live, target = q

def LoneRuns (p : Plant) : Prop := ∀ q, p.Lone q → p.paused q = false

/-- What the departure of `pid` must find: if it leaves one target alone, that one is not paused. -/
def DepartureSafe (p : Plant) (pid : Pid) : Prop :=
  ∀ q ∈ p.live, q ≠ pid → (∀ target ∈ p.live, target ≠ pid → target = q) → p.paused q = false

/-- What `sched on` must find: if only one of the RUNNING processes is there, it is the first. -/
def RefreshSafe (p : Plant) (running : List (Pid × Bool)) : Prop :=
  let listed := running.filter (0 < ·.1)
  ∀ q ∈ listed.map (·.1), p.found q = true →
    (∀ target, (target, true) ∈ listed → p.found target = true → target = q) → (listed.map (·.1)).head? = some q

def StepSafe (p : Plant) : Step → Prop
  | .schedOn running => p.RefreshSafe running
  | .stopped pid => p.DepartureSafe pid
  | .vanished pid => p.DepartureSafe pid
  | .started _ _ | .exited _ | .iterate => True

/-- Every step of a run is taken in a state that is safe for it. -/
def RunSafe (p : Plant) : List Step → Prop
  | [] => True
  | first :: rest => p.StepSafe first ∧ (p.step first).RunSafe rest

theorem mem_live {p : Plant} {pid : Pid} :
    pid ∈ p.live ↔ pid ∈ p.sched.targets ∧ 0 < pid ∧ p.found pid = true := by
  simp [live, present, pidIsAlive]

theorem iterate_live (p : Plant) : p.iterate.live = p.live := by
  have present_eq : p.iterate.present = p.present := by
    funext pid
    simp only [present, pidIsAlive, found, iterate_presence]
  have targets := (iterate_cases p).1
  rw [live, targets, present_eq, live, List.filter_filter]
  simp

theorem iterate_loneRuns {p : Plant} (inv : p.LoneRuns) : p.iterate.LoneRuns := by
  intro q lone
  rw [Lone, iterate_live] at lone
  obtain ⟨-, -, ⟨-, same⟩ | ⟨-, -, current, next, -, there, -, signalled⟩⟩ := iterate_cases p
  · rw [same]
    exact inv q lone
  · have last : next = q := lone.2 next (List.mem_of_getElem? there)
    rw [signalled, last, Function.update_self]

/-- A departure makes a target lone only among those that were there with it. -/
theorem departed_loneRuns {p after : Plant} {pid : Pid} (safe : p.DepartureSafe pid)
    (kept : ∀ target, target ∈ after.live ↔ target ∈ p.live ∧ target ≠ pid)
    (paused : after.paused = p.paused) : after.LoneRuns := by
  rintro q ⟨member, alone⟩
  obtain ⟨here, other⟩ := (kept q).mp member
  rw [paused]
  exact safe q here other fun target there ne => alone target ((kept target).mpr ⟨there, ne⟩)

theorem found_of_gone (p : Plant) (pid target : Pid) :
    found { p with presence := Function.update p.presence pid .absent } target = true ↔
      p.found target = true ∧ target ≠ pid := by
  by_cases same : target = pid
  · subst same; simp [found]
  · simp [found, same]

theorem stopped_loneRuns {p : Plant} {pid : Pid} (safe : p.DepartureSafe pid) :
    (p.step (.stopped pid)).LoneRuns := by
  refine departed_loneRuns safe (fun target => ?_) rfl
  have listed : target ≠ pid →
      (target ∈ (schedulerRemoveTarget pid p.sched).targets ↔ target ∈ p.sched.targets) := fun other => by
    rw [(schedulerRemoveTarget_targets pid p.sched).mem_iff, List.mem_erase_of_ne other]
  have gone := found_of_gone p pid target
  rw [mem_live, mem_live]
  constructor
  · rintro ⟨member, positive, here⟩
    obtain ⟨there, other⟩ := gone.mp here
    exact ⟨⟨(listed other).mp member, positive, there⟩, other⟩
  · rintro ⟨⟨member, positive, there⟩, other⟩
    exact ⟨(listed other).mpr member, positive, gone.mpr ⟨there, other⟩⟩

theorem vanished_loneRuns {p : Plant} {pid : Pid} (safe : p.DepartureSafe pid) :
    (p.step (.vanished pid)).LoneRuns := by
  refine departed_loneRuns safe (fun target => ?_) rfl
  have gone := found_of_gone p pid target
  rw [mem_live, mem_live]
  constructor
  · rintro ⟨member, positive, here⟩
    obtain ⟨there, other⟩ := gone.mp here
    exact ⟨⟨member, positive, there⟩, other⟩
  · rintro ⟨⟨member, positive, there⟩, other⟩
    exact ⟨member, positive, gone.mpr ⟨there, other⟩⟩

theorem started_loneRuns {p : Plant} {pid : Pid} {alloc : Bool} (inv : p.LoneRuns) :
    (p.step (.started pid alloc)).LoneRuns := by
  rw [step]
  split
  · rintro q ⟨member, alone⟩
    by_cases same : q = pid
    · simp [same]
    · -- The newcomer may have stayed out of the table; the others are as before.
      simp only [Function.update_of_ne same]
      rw [mem_live] at member
      refine inv q ⟨mem_live.mpr ⟨(of_mem_schedulerAddTarget member.1).resolve_right same, member.2.1, ?_⟩, ?_⟩
      · simpa [found, Function.update_of_ne same] using member.2.2
      · intro target there
        rw [mem_live] at there
        refine alone target (mem_live.mpr ⟨mem_schedulerAddTarget_of_mem alloc pid there.1, there.2.1, ?_⟩)
        by_cases new : target = pid
        · simp [found, new]
        · simpa [found, Function.update_of_ne new] using there.2.2
  · exact inv

theorem exited_loneRuns {p : Plant} {pid : Pid} (inv : p.LoneRuns) : (p.step (.exited pid)).LoneRuns := by
  rw [step]
  split
  · rename_i here
    have same : found { p with presence := Function.update p.presence pid .zombie } = p.found := by
      funext q
      by_cases same : q = pid
      · subst same; simp [found, here]
      · simp [found, Function.update_of_ne same]
    have kept : live { p with presence := Function.update p.presence pid .zombie } = p.live := by
      unfold live present
      rw [same]
    rintro q ⟨member, alone⟩
    rw [kept] at member alone
    exact inv q ⟨member, alone⟩
  · exact inv

theorem of_mem_addTargets {entries : List (Pid × Bool)} {s : Scheduler} {target : Pid}
    (member : target ∈ (addTargets entries s).targets) : target ∈ s.targets ∨ target ∈ entries.map (·.1) := by
  induction entries generalizing s with
  | nil => exact .inl member
  | cons first rest ih =>
    rcases ih (s := schedulerAddTarget first.2 first.1 s) member with early | late
    · rcases of_mem_schedulerAddTarget early with old | rfl
      · exact .inl old
      · simp
    · simp [late]

theorem mem_addTargets_of_mem (entries : List (Pid × Bool)) {s : Scheduler} {target : Pid}
    (member : target ∈ s.targets) : target ∈ (addTargets entries s).targets := by
  induction entries generalizing s with
  | nil => exact member
  | cons first rest ih => exact ih (mem_schedulerAddTarget_of_mem first.2 first.1 member)

theorem mem_addTargets {entries : List (Pid × Bool)} {s : Scheduler} {target : Pid}
    (granted : (target, true) ∈ entries) : target ∈ (addTargets entries s).targets := by
  induction entries generalizing s with
  | nil => cases granted
  | cons first rest ih =>
    rcases List.mem_cons.mp granted with rfl | later
    · exact mem_addTargets_of_mem rest (mem_schedulerAddTarget target s)
    · exact ih later

theorem schedOn_loneRuns {p : Plant} {running : List (Pid × Bool)} (safe : p.RefreshSafe running) :
    (p.step (.schedOn running)).LoneRuns := by
  set listed := running.filter (0 < ·.1) with listed_eq
  obtain ⟨refilled, refreshed, table, presence⟩ : ∃ refilled : Plant,
      p.step (.schedOn running) = resumeFirst (listed.map (·.1)) refilled ∧
      refilled.sched.targets = (addTargets listed (schedulerClearTargets (schedulerSetEnabled true p.sched))).targets ∧
      refilled.presence = p.presence := ⟨_, rfl, rfl, rfl⟩
  have frame := resumeFirst_frame (listed.map (·.1)) refilled
  have live : ∀ target, target ∈ (p.step (.schedOn running)).live ↔
      target ∈ refilled.sched.targets ∧ 0 < target ∧ p.found target = true := by
    intro target
    rw [mem_live, refreshed, frame.1, found, frame.2, presence, found]
  rintro q ⟨member, alone⟩
  obtain ⟨stored, -, here⟩ := (live q).mp member
  have listed_q : q ∈ listed.map (·.1) := by
    rw [table] at stored
    exact (of_mem_addTargets stored).resolve_left List.not_mem_nil
  have first : (listed.map (·.1)).head? = some q := by
    refine safe q listed_q here fun target granted there => alone target ((live target).mpr ⟨?_, ?_, there⟩)
    · rw [table]
      exact mem_addTargets granted
    · exact of_decide_eq_true (List.mem_filter.mp granted).2
  obtain ⟨rest, pids⟩ : ∃ rest, listed.map (·.1) = q :: rest := by
    cases shape : listed.map (·.1) with
    | nil => simp [shape] at first
    | cons head rest => exact ⟨rest, by simpa [shape] using first⟩
  rw [refreshed, pids, resumeFirst, kill_SIGCONT_paused, Function.update_self]
  rw [found, (stopAll_frame _ refilled).2, presence]
  exact here

theorem step_loneRuns {p : Plant} {s : Step} (inv : p.LoneRuns) (safe : p.StepSafe s) : (p.step s).LoneRuns := by
  cases s with
  | schedOn running => exact schedOn_loneRuns safe
  | started pid alloc => exact started_loneRuns inv
  | stopped pid => exact stopped_loneRuns safe
  | exited pid => exact exited_loneRuns inv
  | vanished pid => exact vanished_loneRuns safe
  | iterate => exact iterate_loneRuns inv

theorem run_loneRuns {p : Plant} {steps : List Step} (inv : p.LoneRuns) (safe : p.RunSafe steps) :
    (p.run steps).LoneRuns := by
  induction steps generalizing p with
  | nil => exact inv
  | cons first rest ih => exact ih (step_loneRuns inv safe.1) safe.2

theorem start_loneRuns (presence : Pid → Presence) : (start presence).LoneRuns := fun _ _ => rfl

theorem runSafe_append {p : Plant} {front back : List Step} :
    p.RunSafe (front ++ back) ↔ p.RunSafe front ∧ (p.run front).RunSafe back := by
  induction front generalizing p with
  | nil => simp [RunSafe, run]
  | cons first rest ih =>
    rw [List.cons_append, RunSafe, RunSafe, ih, and_assoc]
    rfl

/-- In a safe run, every enabled iteration over a non-empty table of live processes leaves one of
them running. -/
theorem iterate_leaves_one_running (presence : Pid → Presence) (steps : List Step)
    (safe : (start presence).RunSafe (steps ++ [.iterate])) :
    let p := (start presence).run (steps ++ [.iterate])
    p.sched.enabled = true → p.sched.targets ≠ [] → (∀ pid ∈ p.sched.targets, p.presence pid = .alive) →
      ∃ pid ∈ p.sched.targets, p.paused pid = false := by
  intro p enabled nonempty _
  set before := (start presence).run steps
  have reached : p = before.iterate := by simp only [p, run, List.foldl_append]; rfl
  have inv : before.LoneRuns := run_loneRuns (start_loneRuns presence) (runSafe_append.mp safe).1
  obtain ⟨targets, same, ⟨idle, quiet⟩ | ⟨-, -, current, next, -, there, -, signalled⟩⟩ := iterate_cases before
  · rw [reached] at enabled nonempty ⊢
    rw [targets] at nonempty ⊢
    rw [same] at enabled
    have one : before.live.length = 1 := by
      have := List.length_pos_iff.mpr nonempty
      have := idle.resolve_left (by simp [enabled])
      omega
    obtain ⟨q, only⟩ := List.length_eq_one_iff.mp one
    refine ⟨q, by simp [only], ?_⟩
    rw [quiet]
    exact inv q (by simp [Lone, only])
  · refine ⟨next, ?_, ?_⟩
    · rw [reached, targets]
      exact List.mem_of_getElem? there
    · rw [reached, signalled, Function.update_self]

theorem survivor_keeps_running :
    let p := (start fun _ => .absent).run
      ([.schedOn [], .started 1 true, .started 2 true, .iterate, .stopped 1] ++ [.iterate])
    p.sched.targets = [2] ∧ ∃ pid ∈ p.sched.targets, p.paused pid = false := by
  refine ⟨by decide +kernel, iterate_leaves_one_running _ _ ?_ (by decide +kernel) (by decide +kernel)
    (by decide +kernel)⟩
  refine ⟨by simp [StepSafe, RefreshSafe], trivial, trivial, trivial, ?_, trivial, trivial⟩
  unfold StepSafe DepartureSafe
  decide +kernel

/-- Two containers under `sched on`; the first, which holds the slice, is stopped. -/
theorem lone_target_frozen :
    ¬ ∀ (presence : Pid → Presence) (steps : List Step),
      let p := (start presence).run (steps ++ [.iterate])
      p.sched.enabled = true → p.sched.targets ≠ [] → (∀ pid ∈ p.sched.targets, p.presence pid = .alive) →
        ∃ pid ∈ p.sched.targets, p.paused pid = false := by
  intro claim
  have frozen := claim (fun _ => .absent)
    [.started 1 true, .started 2 true, .schedOn [(1, true), (2, true)], .stopped 1]
    (by decide +kernel) (by decide +kernel) (by decide +kernel)
  revert frozen
  decide +kernel

/-! ## One slice at a time

A rotation stops the process in the current slot and resumes the one after it;
whatever else was running before goes on running beside it.
-/

/-- An iteration from here would rotate. -/
def Rotates (p : Plant) : Prop := p.sched.enabled = true ∧ 2 ≤ p.live.length

/-- The only target that is not paused is `targets[current_index]`. -/
def Exclusive (p : Plant) : Prop :=
  ∀ pid ∈ p.sched.targets, p.paused pid = false ↔ p.sched.targets[p.sched.currentIndex]? = some pid

/-- Every target outside the current slot and the one after it is paused. -/
def OthersPaused (p : Plant) : Prop :=
  ∀ i pid, p.live[i]? = some pid → i ≠ p.slot → i ≠ (p.slot + 1) % p.live.length → p.paused pid = true

theorem addTargets_nodup {entries : List (Pid × Bool)} {s : Scheduler} (nodup : s.targets.Nodup) :
    (addTargets entries s).targets.Nodup := by
  induction entries generalizing s with
  | nil => exact nodup
  | cons first rest ih => exact ih (schedulerAddTarget_nodup nodup)

theorem schedOn_nodup (p : Plant) (running : List (Pid × Bool)) :
    (p.step (.schedOn running)).sched.targets.Nodup := by
  rw [step, refreshTargets, (resumeFirst_frame _ _).1]
  exact addTargets_nodup List.nodup_nil

theorem step_nodup {p : Plant} (s : Step) (nodup : p.sched.targets.Nodup) : (p.step s).sched.targets.Nodup := by
  cases s with
  | schedOn running => exact schedOn_nodup p running
  | started pid alloc =>
    rw [step]
    split
    · exact schedulerAddTarget_nodup nodup
    · exact nodup
  | stopped pid => exact schedulerRemoveTarget_nodup nodup
  | exited pid =>
    rw [step]
    split <;> exact nodup
  | vanished pid => exact nodup
  | iterate =>
    rw [step, (iterate_cases p).1]
    exact nodup.filter _

theorem run_nodup {p : Plant} (steps : List Step) (nodup : p.sched.targets.Nodup) :
    (p.run steps).sched.targets.Nodup := by
  induction steps generalizing p with
  | nil => exact nodup
  | cons first rest ih => exact ih (step_nodup first nodup)

theorem exclusive_iterate_iff {p : Plant} (nodup : p.sched.targets.Nodup) (rotates : p.Rotates) :
    p.iterate.Exclusive ↔ p.OthersPaused := by
  obtain ⟨targets, -, ⟨idle, -⟩ | ⟨-, many, current, next, here, there, index, signalled⟩⟩ := iterate_cases p
  · have := rotates.2
    rcases idle with off | few
    · exact absurd rotates.1 (by simp [off])
    · omega
  have distinct : p.live.Nodup := nodup.filter _
  rw [Exclusive, targets, index, there, signalled]
  constructor
  · intro exclusive i pid at_i other after
    have inside : i < p.live.length := (List.getElem?_eq_some_iff.mp at_i).1
    have not_current : pid ≠ current := by
      rintro rfl
      exact other ((List.getElem?_inj inside distinct).mp (at_i.trans here.symm))
    have not_next : pid ≠ next := by
      rintro rfl
      exact after ((List.getElem?_inj inside distinct).mp (at_i.trans there.symm))
    have silent := exclusive pid (List.mem_of_getElem? at_i)
    rw [Function.update_of_ne not_next, Function.update_of_ne not_current] at silent
    by_contra runs
    exact not_next (Option.some.inj (silent.mp (Bool.eq_false_iff.mpr runs))).symm
  · intro others pid member
    obtain ⟨i, inside, at_i⟩ := List.getElem_of_mem member
    have at_i' : p.live[i]? = some pid := List.getElem?_eq_some_iff.mpr ⟨inside, at_i⟩
    by_cases resumed : pid = next
    · simp [resumed]
    have stays : Function.update p.paused current true pid = true := by
      by_cases stopped : pid = current
      · rw [stopped, Function.update_self]
      · rw [Function.update_of_ne stopped]
        apply others i pid at_i'
        · rintro rfl
          exact stopped (Option.some.inj (at_i'.symm.trans here))
        · rintro rfl
          exact resumed (Option.some.inj (at_i'.symm.trans there))
    rw [Function.update_of_ne resumed, stays]
    simpa using fun same => resumed same.symm

/-- Along any run from `sched on`, the slice is exclusive after every rotation exactly if every
rotation finds the targets outside the current slot and its successor paused. -/
theorem rotations_exclusive_iff (p : Plant) (running : List (Pid × Bool)) (steps : List Step) :
    (∀ front back, steps = front ++ .iterate :: back →
      let q := p.run (.schedOn running :: front)
      q.Rotates → (q.step .iterate).Exclusive) ↔
    ∀ front back, steps = front ++ .iterate :: back →
      let q := p.run (.schedOn running :: front)
      q.Rotates → q.OthersPaused := by
  have pointwise : ∀ front, (p.run (.schedOn running :: front)).Rotates →
      (((p.run (.schedOn running :: front)).step .iterate).Exclusive ↔
        (p.run (.schedOn running :: front)).OthersPaused) :=
    fun front => exclusive_iterate_iff (run_nodup front (schedOn_nodup p running))
  constructor
  · intro exclusive front back split q rotates
    exact (pointwise front rotates).mp (exclusive front back split rotates)
  · intro others front back split q rotates
    exact (pointwise front rotates).mpr (others front back split rotates)

/-- A container started while another one holds the slice runs on beside its successor. -/
theorem newcomer_shares_slice :
    ¬ ∀ (p : Plant) (running : List (Pid × Bool)) (steps front back : List Step),
      steps = front ++ .iterate :: back →
      let q := p.run (.schedOn running :: front)
      q.Rotates → (q.step .iterate).Exclusive := by
  intro claim
  have exclusive := claim (start fun pid => if pid = 1 ∨ pid = 2 then .alive else .absent)
    [(1, true), (2, true)] [.started 3 true, .iterate] [.started 3 true] [] rfl
    ⟨by decide +kernel, by decide +kernel⟩ 3 (by decide +kernel)
  revert exclusive
  decide +kernel

end Plant
end ContainerRuntime.Rotation
