import Mathlib.Data.List.Forall2
import ContainerRuntime.Manager.Upkeep

/-! What an operation on one container does to the others.

Every operation polls first, and the poll may rewrite any record of the list.
So the others are not left as they are: some of them end on the way. The
relation between two states of a run says so, and it is transitive, so that an
operation has it wherever it is cut.
-/

set_option autoImplicit false

namespace ContainerRuntime

open CString Cli Program
open Prog (read modify forEach)

/-- The calls of `container.h` that are given the id of a container. -/
inductive IdCall where
  | start | stop | delete | stats
  deriving DecidableEq

def IdCall.program (id : Text) : IdCall → Prog World Bool
  | .start => containerStart id
  | .stop => containerStop id
  | .delete => containerDelete id
  | .stats => containerStats id

/-- The records of the other containers, in list order. -/
def World.others (w : World) (id : Text) : List Record := w.memory.records.filter (·.id.text ≠ id)

/-- `waitpid` has returned the end of the process, or no process has its number, or one has it that appeared later. -/
def Gone (seen : List Obs) (procs : Procs) (pid : Pid) : Prop :=
  (∃ proc status, Obs.waited pid (some proc) ∈ seen ∧ proc.exit = some status) ∨ procs pid = none ∨ pid ∈ appearances seen

/-- A record that is left alone, or that was RUNNING and whose process has ended. -/
def Carried (seen : List Obs) (procs : Procs) (old new : Record) : Prop :=
  new = old ∨ old.running = true ∧ new = { old with state := .STOPPED, pid := -1 } ∧ Gone seen procs old.pid

/-- All that happens to the other containers. -/
def Frame (id : Text) (w w' : World) : Prop :=
  ∃ seen, w'.trace = w.trace ++ seen ∧ List.Forall₂ (Carried seen w'.procs) (w.others id) (w'.others id)

/-! ## Between two states of one operation -/

section

variable {seen seen' : List Obs} {procs procs' : Procs} {old mid new : Record}

theorem Gone.mono {pid : Pid} (gone : Gone seen procs pid) (more : seen ⊆ seen') (vacant : Vacant procs seen' procs') :
    Gone seen' procs' pid := by
  rcases gone with ⟨proc, status, member, ended⟩ | free | taken
  · exact .inl ⟨proc, status, more member, ended⟩
  · exact .inr (vacant pid free)
  · exact .inr (.inr (appearances_subset more taken))

theorem Carried.mono (carried : Carried seen procs old new) (more : seen ⊆ seen') (vacant : Vacant procs seen' procs') :
    Carried seen' procs' old new := by
  rcases carried with same | ⟨running, ended, gone⟩
  · exact .inl same
  · exact .inr ⟨running, ended, gone.mono more vacant⟩

/-- A container ends once: the record it leaves is not RUNNING. -/
theorem Carried.trans (first : Carried seen procs old mid) (second : Carried seen procs mid new) : Carried seen procs old new := by
  rcases first with rfl | ⟨running, rfl, gone⟩
  · exact second
  · rcases second with rfl | ⟨again, -⟩
    · exact .inr ⟨running, rfl, gone⟩
    · simp [Record.running] at again

theorem Carried.trans_lists {first second third : List Record} (before : List.Forall₂ (Carried seen procs) first second)
    (after : List.Forall₂ (Carried seen procs) second third) : List.Forall₂ (Carried seen procs) first third := by
  induction before generalizing third with
  | nil => exact after
  | cons here _ ih =>
    cases after with
    | cons there rest => exact .cons (here.trans there) (ih rest)

end

/-- The same between two states of an operation that began when this much of the trace was there. -/
structure Beside (n : Nat) (id : Text) (w w' : World) : Prop where
  trace : w.trace <+: w'.trace
  vacant : Vacant w.procs (w'.trace.drop n) w'.procs
  others : List.Forall₂ (Carried (w'.trace.drop n) w'.procs) (w.others id) (w'.others id)

namespace Beside

variable {n : Nat} {id : Text} {u v w : World}

theorem of_eq (trace : v.trace <+: w.trace) (vacant : Vacant v.procs (w.trace.drop n) w.procs) (others : w.others id = v.others id) :
    Beside n id v w := by
  refine ⟨trace, vacant, ?_⟩
  rw [others]
  exact List.forall₂_same.mpr fun _ _ => .inl rfl

theorem trans (first : Beside n id u v) (second : Beside n id v w) : Beside n id u w := by
  have more : v.trace.drop n ⊆ w.trace.drop n := List.IsPrefix.drop_subset second.trace n
  refine ⟨first.trace.trans second.trace, fun pid free => ?_, ?_⟩
  · rcases first.vacant pid free with still | taken
    · exact second.vacant pid still
    · exact .inr (appearances_subset more taken)
  · exact Carried.trans_lists (first.others.imp fun _ _ carried => carried.mono more second.vacant) second.others

theorem of_chain (chain : Relation.ReflTransGen (Beside n id) v w) : Beside n id v w := by
  induction chain with
  | refl => exact .of_eq (List.prefix_refl _) (fun _ => .inl) rfl
  | tail _ step ih => exact ih.trans step

theorem frame (beside : Beside w.trace.length id w v) : Frame id w v := by
  obtain ⟨seen, parts⟩ := beside.trace
  have others := beside.others
  rw [← parts, List.drop_left] at others
  exact ⟨seen, parts.symm, others⟩

end Beside

/-- The operation began when this much of the trace was there, and this holds of the list. -/
def Begun (n : Nat) (S : List Container → Prop) (w : World) : Prop := n ≤ w.trace.length ∧ S w.memory.registry

section

variable {n : Nat} {id : Text} {S : List Container → Prop} {w w' : World}

theorem Begun.keep (begun : Begun n S w) (registry : w'.memory.registry = w.memory.registry) (trace : w.trace <+: w'.trace) :
    Begun n S w' := ⟨begun.1.trans trace.length_le, registry ▸ begun.2⟩

/-- Nothing happens to the list. -/
theorem Begun.calm (begun : Begun n S w) (registry : w'.memory.registry = w.memory.registry) (trace : w.trace <+: w'.trace)
    (vacant : Vacant w.procs (w'.trace.drop n) w'.procs) : Beside n id w w' ∧ Begun n S w' := by
  have others : w'.others id = w.others id := by simp only [World.others, Memory.records, registry]
  exact ⟨.of_eq trace vacant others, begun.keep registry trace⟩

theorem Begun.aside (begun : Begun n S w) (aside : Aside w w') : Beside n id w w' ∧ Begun n S w' := by
  apply begun.calm aside.registry aside.trace
  intro pid free
  rcases aside.vacant pid free with still | taken
  · exact .inl still
  · exact .inr (appearances_subset (List.drop_subset_drop_left _ begun.1) taken)

/-- What is observed during the operation stays among what it has seen. -/
theorem Begun.observed (begun : Begun n S w) (obs : Obs) :
    Begun n S (w.observe obs) ∧ (w.observe obs).trace.drop n = w.trace.drop n ++ [obs] :=
  ⟨begun.keep rfl (List.prefix_append _ _), List.drop_append_of_le_length begun.1⟩

theorem begun_sided (n : Nat) (id : Text) (S : List Container → Prop) : Sided (Beside n id) (Begun n S) :=
  fun _ _ aside begun => begun.aside aside

theorem begun_log (entry : LogEvent) : Spec (Beside n id) (Begun n S) (logEventType entry) fun _ => Begun n S :=
  (begun_sided n id S).still.logEventType (fun _ begun => begun.calm rfl (List.prefix_refl _) fun _ => .inl) fun _ begun =>
    begun.calm rfl (List.prefix_append _ _) fun _ => .inl

theorem begun_save : Spec (Beside n id) (Begun n S) saveMetadata fun _ => Begun n S := by
  refine saveMetadata_rule (fun w w' filing begun => ?_)
    (fun w written begun _ => begun.calm rfl (List.prefix_append _ _) fun _ => .inl)
    fun w begun => begun.calm rfl (List.prefix_append _ _) fun _ => .inl
  cases filing with
  | idle _ idle => exact begun.aside idle.aside
  | log entry => exact begun.calm rfl (List.prefix_refl _) fun _ => .inl
  | miss entry => exact begun.calm rfl (List.prefix_append _ _) fun _ => .inl

end

/-! ## The steps that change the list -/

/-- The record at this position has the id. -/
def Own (id : Text) (i : Nat) (registry : List Container) : Prop := ∃ c, registry[i]? = some c ∧ c.id.text = id

/-- The other records of a list. -/
def othersOf (id : Text) (registry : List Container) : List Record := (registry.map (·.toRecord)).filter (·.id.text ≠ id)

section

variable {n : Nat} {id : Text} {i : Nat} {c : Container} {w : World}

theorem othersOf_append (front back : List Container) : othersOf id (front ++ back) = othersOf id front ++ othersOf id back := by
  simp [othersOf]

theorem othersOf_cons_own (own : c.id.text = id) (rest : List Container) : othersOf id (c :: rest) = othersOf id rest := by
  simp [othersOf, own]

theorem othersOf_cons_other (other : c.id.text ≠ id) (rest : List Container) :
    othersOf id (c :: rest) = c.toRecord :: othersOf id rest := by
  simp [othersOf, other]

/-- A change of the record that has the id. -/
theorem othersOf_modify {registry : List Container} {f : Container → Container} (named : ∀ c, (f c).id = c.id)
    (own : Own id i registry) : othersOf id (registry.modify i f) = othersOf id registry ∧ Own id i (registry.modify i f) := by
  obtain ⟨c, here, same⟩ := own
  obtain ⟨front, back, parts, -, modified, -⟩ := List.split_at here
  have still : (f c).id.text = id := by rw [named, same]
  refine ⟨?_, f c, ?_, still⟩
  · rw [modified f, parts, othersOf_append, othersOf_append, othersOf_cons_own same, othersOf_cons_own still]
  · rw [List.getElem?_modify_eq, here]
    rfl

/-- One step of the operation on its own record. -/
theorem own_modify {g : Memory → Memory} {f : Container → Container} (named : ∀ c, (f c).id = c.id)
    (changes : ∀ m, (g m).registry = m.registry.modify i f) :
    Spec (Beside n id) (Begun n (Own id i)) (modify (·.remember g)) fun _ => Begun n (Own id i) := by
  apply Spec.modify_step
  intro w begun
  obtain ⟨others, own⟩ := othersOf_modify named begun.2
  rw [← changes] at others own
  exact ⟨.of_eq (List.prefix_refl _) (fun _ => .inl) others, begun.1, own⟩

/-- Any container may leave RUNNING when its process has ended. -/
theorem Beside.retire (here : w.Here i c) (running : c.running = true) (gone : Gone (w.trace.drop n) w.procs c.pid) :
    Beside n id w (w.remember (·.retire i)) := by
  obtain ⟨front, back, parts, -, modified, -⟩ := List.split_at here
  have left : ∀ l, List.Forall₂ (Carried (w.trace.drop n) w.procs) l l := fun l => List.forall₂_same.mpr fun _ _ => .inl rfl
  refine ⟨List.prefix_refl _, fun _ => .inl, ?_⟩
  -- A record that has the id is among the others neither before nor after.
  change List.Forall₂ (Carried (w.trace.drop n) w.procs) (othersOf id w.memory.registry) (othersOf id (w.memory.registry.modify i _))
  rw [modified, parts, othersOf_append, othersOf_append]
  apply List.rel_append (left _)
  by_cases own : c.id.text = id
  · rw [othersOf_cons_own own, othersOf_cons_own (c := { c with state := .STOPPED, pid := -1, stack := false }) own]
    exact left _
  · rw [othersOf_cons_other own, othersOf_cons_other (c := { c with state := .STOPPED, pid := -1, stack := false }) own]
    exact .cons (.inr ⟨running, rfl, gone⟩) (left _)

end

/-! ## The operations -/

/-- Nothing is asked of the list. -/
def Whatever (_ : List Container) : Prop := True

section

variable {n : Nat} {id : Text}

theorem Begun.weaken {S : List Container → Prop} {w : World} (begun : Begun n S w) : Begun n Whatever w := ⟨begun.1, trivial⟩

theorem refused_begun {S : List Container → Prop} {α : Type} {value : α} :
    Spec (Beside n id) (Begun n S) (pure value) fun _ => Begun n Whatever := .pure fun _ begun => begun.weaken

/-- If `waitpid` returns the end of a process, that has been seen. -/
theorem waitpidNoHang_gone (S : List Container → Prop) (pid : Pid) :
    Spec (Beside n id) (Begun n S) (waitpidNoHang pid) fun result w =>
      Begun n S w ∧ ∀ status, result = .ok (some status) → Gone (w.trace.drop n) w.procs pid := by
  have sided := begun_sided n id S
  apply sided.bind_tick
  intro now
  cases now.waitFail with
  | some error => exact .pure fun _ begun => ⟨begun, fun _ same => by cases same⟩
  | none =>
    apply Spec.fix (·.procs pid)
    intro target
    -- What the call has found is in the trace from here on.
    refine .bind_modify (M := fun w => (Begun n S w ∧ Obs.waited pid target ∈ w.trace.drop n) ∧ w.procs pid = target)
      (fun w _ => .of_eq (List.prefix_append _ _) (fun _ => .inl) rfl) (fun w holds => ?_) ?_
    · obtain ⟨begun, seen⟩ := holds.1.observed (.waited pid (w.procs pid))
      refine ⟨⟨begun, ?_⟩, holds.2⟩
      rw [World.waited, seen, holds.2]
      exact List.mem_append_right _ List.mem_cons_self
    apply Spec.bind_read target (fun w holds => holds.2)
    rcases target with - | ⟨origin, child, exit, stopped⟩
    · exact .pure fun _ holds => ⟨holds.1.1, fun _ same => by cases same⟩
    · cases child with
      | false => exact .pure fun _ holds => ⟨holds.1.1, fun _ same => by cases same⟩
      | true =>
        cases exit with
        | none => exact .pure fun _ holds => ⟨holds.1.1, fun _ same => by cases same⟩
        | some status =>
          refine .bind_modify (M := fun w => Begun n S w ∧ Gone (w.trace.drop n) w.procs pid)
            (fun w holds => (holds.1.1.aside (.reaped w pid)).1) (fun w holds => ?_) (.pure fun _ holds => ?_)
          · refine ⟨holds.1.1.keep rfl (List.prefix_append _ _), .inl ⟨⟨origin, true, some status, stopped⟩, status, ?_, rfl⟩⟩
            rw [World.reaped, World.observe_trace, List.drop_append_of_le_length holds.1.1.1]
            exact List.mem_append_left _ holds.1.2
          · exact ⟨holds.1, fun _ _ => holds.2⟩

/-- If `kill(pid, 0)` finds no process, there is none. -/
theorem isPidAlive_gone (S : List Container → Prop) {pid : Pid} (positive : 0 < pid) :
    Spec (Beside n id) (Begun n S) (isPidAlive pid) fun alive w => Begun n S w ∧ (alive = false → w.procs pid = none) := by
  refine (begun_sided n id S).bind_tick fun _ => .read fun w begun => ⟨begun, fun dead => ?_⟩
  simpa [World.isPidAlive, World.found, positive] using dead

theorem syncContainerState_beside (i : Nat) :
    Spec (Beside n id) (Begun n Whatever) (syncContainerState i) fun _ => Begun n Whatever := by
  refine .fix (·.memory.registry[i]?) fun found => .bind_read found (fun w here => here.2) ?_
  cases found with
  | none => exact .pure fun _ here => here.1
  | some c =>
    simp only
    split
    · exact .pure fun _ here => here.1
    rename_i running
    have running : c.running = true := by simpa using running
    refine .pre (P := Begun n (·[i]? = some c)) ?_ fun w here => ⟨here.1.1, here.2⟩
    -- The record is retired when its process has been seen to be gone.
    have retired : Spec (Beside n id) (fun w => Begun n (·[i]? = some c) w ∧ Gone (w.trace.drop n) w.procs c.pid)
        (modify (·.remember (·.retire i))) fun _ => Begun n Whatever :=
      .modify (fun w holds => .retire holds.1.2 running holds.2) fun w holds => ⟨holds.1.1, trivial⟩
    apply Spec.bind (waitpidNoHang_gone _ c.pid)
    intro result
    rcases result with error | - | status
    · simp only
      refine .pre (P := Begun n (·[i]? = some c)) ?_ fun w holds => holds.1
      split
      · apply Spec.bind (isPidAlive_gone _ (of_decide_eq_true running).2)
        intro alive
        split
        · exact .pure fun _ holds => holds.1.weaken
        · rename_i dead
          refine .bind_modify (fun w holds => .of_eq (List.prefix_append _ _) (fun _ => .inl) rfl) (fun w holds => ?_)
            (.bind retired fun _ => .bind (begun_log _) fun _ => refused_begun)
          exact ⟨holds.1.keep rfl (List.prefix_append _ _), .inr (.inl (holds.2 (Bool.eq_false_iff.mpr dead)))⟩
      · exact refused_begun
    · exact .pure fun w holds => holds.1.weaken
    · apply Spec.bind (retired.pre fun w holds => ⟨holds.1, holds.2 status rfl⟩)
      intro _
      exact .bind ((begun_sided n id _).onStopped c.pid) fun _ => .bind (begun_log _) fun _ => refused_begun

theorem pollStates_beside : Spec (Beside n id) (Begun n Whatever) pollStates fun _ => Begun n Whatever :=
  pollStates_rule syncContainerState_beside begun_save

theorem markStopped_beside (i : Nat) (c : Container) :
    Spec (Beside n id) (Begun n (Own id i)) (stopContainerProcess.markStopped i c) fun _ => Begun n Whatever := by
  refine .bind (begun_log _) fun _ => .bind ((begun_sided n id _).onStopped c.pid) fun _ => ?_
  apply Spec.bind (own_modify (f := fun c => { c with state := .STOPPED, pid := -1, stack := false }) (fun _ => rfl) fun _ => rfl)
  intro _
  exact .bind begun_save fun _ => refused_begun

theorem stopContainerProcess_beside (i : Nat) :
    Spec (Beside n id) (Begun n (Own id i)) (stopContainerProcess i) fun _ => Begun n Whatever := by
  have sided := begun_sided n id (Own id i)
  apply Spec.bind_read_any
  intro found
  cases found with
  | none => exact refused_begun
  | some c =>
    simp only
    split
    · exact refused_begun
    apply Spec.bind (sided.kill c.id.text c.pid)
    intro killed
    split
    · exact .bind (begun_log _) fun _ => refused_begun
    apply Spec.bind (sided.waitpid c.pid)
    intro result
    cases result with
    | error error =>
      simp only
      split
      · exact .bind (begun_log _) fun _ => refused_begun
      · exact markStopped_beside i c
    | ok status => exact markStopped_beside i c

/-- What `find_container` has found has the id. -/
theorem own_of_find {registry : List Container} {i : Nat} (found : findContainer id registry = some i) : Own id i registry := by
  obtain ⟨inside, named, -⟩ := List.findIdx?_eq_some_iff_getElem.mp found
  exact ⟨registry[i], List.getElem?_eq_getElem inside, by simpa using named⟩

theorem own_of_find_at {registry : List Container} {i : Nat} {c : Container}
    (found : ((findContainer id registry).bind fun i => registry[i]?.map fun c => (i, c)) = some (i, c)) :
    registry[i]? = some c ∧ c.id.text = id := by
  have here : registry[i]? = some c := findContainer_at (m := { Memory.fresh with registry := registry }) found
  obtain ⟨j, position, record⟩ := Option.bind_eq_some_iff.mp found
  obtain ⟨d, -, pair⟩ := Option.map_eq_some_iff.mp record
  obtain ⟨rfl, rfl⟩ := Prod.mk.inj pair
  obtain ⟨e, there, named⟩ := own_of_find position
  rw [here] at there
  cases there
  exact ⟨here, named⟩

theorem containerStart_beside (scheduleTarget : Bool) :
    Spec (Beside n id) (Begun n Whatever) (startContainerById id scheduleTarget) fun _ => Begun n Whatever := by
  unfold startContainerById
  split
  · exact refused_begun
  refine .bind pollStates_beside fun _ => .fix (·.memory.registry) fun registry => ?_
  apply Spec.bind_read _ (fun w same => by rw [same.2])
  split
  · exact .pure fun _ holds => holds.1
  rename_i i c found
  -- Behind the poll every change is to the record at this position, which keeps its id.
  have sided := begun_sided n id (Own id i)
  refine .pre (P := Begun n (Own id i)) ?_ fun w holds => ⟨holds.1.1, c, holds.2 ▸ own_of_find_at found⟩
  split
  · exact refused_begun
  apply sided.bind_tick
  intro stack
  split
  · exact refused_begun
  apply Spec.bind (own_modify (f := fun c => { c with stack := true }) (fun _ => rfl) fun _ => rfl)
  intro _
  apply Spec.bind ((sided.namespaceStartContainer c).post fun _ _ holds => holds.1)
  intro result
  cases result with
  | error error =>
    apply Spec.bind (begun_log _)
    intro _
    exact .bind (own_modify (f := fun c => { c with stack := false }) (fun _ => rfl) fun _ => rfl) fun _ => refused_begun
  | ok pid =>
    apply Spec.bind (own_modify (f := fun c => { c with state := .RUNNING, pid := pid }) (fun _ => rfl) fun _ => rfl)
    intro _
    apply Spec.bind begun_save
    intro saved
    cases saved with
    | false => exact .bind (stopContainerProcess_beside i) fun _ => refused_begun
    | true =>
      apply Spec.bind (begun_log _)
      intro _
      have told : Spec (Beside n id) (Begun n (Own id i)) (containerSchedulerOnStarted pid) fun _ => Begun n (Own id i) :=
        sided.bind_tick fun _ => .modify (fun w _ => .of_eq (List.prefix_refl _) (fun _ => .inl) rfl) fun w begun => begun
      cases scheduleTarget with
      | true => exact .bind told fun _ => refused_begun
      | false => exact refused_begun

theorem containerStop_beside : Spec (Beside n id) (Begun n Whatever) (containerStop id) fun _ => Begun n Whatever := by
  unfold containerStop
  split
  · exact refused_begun
  refine .bind pollStates_beside fun _ => .fix (·.memory.registry) fun registry => ?_
  apply Spec.bind_read (findContainer id registry) (fun w same => by rw [same.2])
  cases found : findContainer id registry with
  | none => exact .pure fun _ holds => holds.1
  | some i => exact (stopContainerProcess_beside i).pre fun w holds => ⟨holds.1.1, holds.2 ▸ own_of_find found⟩

/-- A record that leaves the list, and comes back at its end if the file could not be written. -/
theorem containerDelete_beside : Spec (Beside n id) (Begun n Whatever) (containerDelete id) fun _ => Begun n Whatever := by
  unfold containerDelete
  split
  · exact refused_begun
  refine .bind pollStates_beside fun _ => .fix (·.memory.registry) fun registry => ?_
  apply Spec.bind_read _ (fun w same => by rw [same.2])
  split
  · exact .pure fun _ holds => holds.1
  rename_i i c found
  obtain ⟨here, own⟩ := own_of_find_at found
  split
  · exact .pure fun _ holds => holds.1
  obtain ⟨front, back, parts, -, -, erased⟩ := List.split_at here
  have without : othersOf id (registry.eraseIdx i) = othersOf id registry := by
    rw [erased, parts, othersOf_append, othersOf_append, othersOf_cons_own own]
  refine .bind_modify (M := Begun n Whatever) (fun w holds => .of_eq (List.prefix_refl _) (fun _ => .inl) ?_) (fun w holds => ⟨holds.1.1, trivial⟩) ?_
  · change othersOf id (w.memory.registry.eraseIdx i) = othersOf id w.memory.registry
    rw [holds.2, without]
  apply Spec.bind begun_save
  intro saved
  cases saved with
  | true =>
    apply Spec.bind (begun_log _)
    intro _
    exact .bind_modify (M := Begun n Whatever) (fun w _ => .of_eq (List.prefix_refl _) (fun _ => .inl) rfl) (fun w begun => begun) refused_begun
  | false =>
    -- It comes back behind all others, which have not moved among themselves.
    refine .bind_modify (M := Begun n Whatever) (fun w begun => .of_eq (List.prefix_refl _) (fun _ => .inl) ?_) (fun w begun => begun) refused_begun
    change othersOf id (w.memory.registry ++ [c]) = othersOf id w.memory.registry
    rw [othersOf_append, othersOf_cons_own own]
    exact List.append_nil _

theorem containerStats_beside : Spec (Beside n id) (Begun n Whatever) (containerStats id) fun _ => Begun n Whatever := by
  have sided := begun_sided n id Whatever
  unfold containerStats
  split
  · exact refused_begun
  refine .bind pollStates_beside fun _ => .bind_read_any fun found => ?_
  cases found with
  | none => exact refused_begun
  | some c =>
    simp only
    split
    · exact refused_begun
    · unfold monitorRead
      split
      · exact refused_begun
      apply sided.bind_tick
      intro stat
      split
      · exact refused_begun
      · exact sided.bind_tick fun _ => refused_begun

end

/-- Whatever an operation on one container does, and wherever it fails or is cut, the others stay in their order, and
each of them keeps its record unless its process has ended. -/
theorem idCall_frame (call : IdCall) (id : Text) (w : World) : Frame id w (call.program id w).2 := by
  have spec : Spec (Beside w.trace.length id) (Begun w.trace.length Whatever) (call.program id) fun _ => Begun w.trace.length Whatever := by
    cases call with
    | start => exact containerStart_beside true
    | stop => exact containerStop_beside
    | delete => exact containerDelete_beside
    | stats => exact containerStats_beside
  exact (Beside.of_chain (spec w ⟨Nat.le_refl _, trivial⟩).1).frame

end ContainerRuntime
