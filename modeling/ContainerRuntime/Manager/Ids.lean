import ContainerRuntime.Manager.Upkeep
import ContainerRuntime.Manager.RegistryInvariant

/-! Container ids over many sessions.

The next number is in the memory of the manager only, and start-up finds it
again from the records it reads. Within a session no number comes twice; over
several sessions none does as long as the highest number of all is still in the
file whenever a manager starts.
-/

set_option autoImplicit false

namespace ContainerRuntime

open CString Cli Program
open Prog (read modify forEach)

/-! ## What has been issued -/

/-- The numbers and ids that `container_create` has returned. -/
def World.issues (w : World) : List (Nat × Text) := w.notes.filterMap fun
  | .issued sequence id => some (sequence, id)
  | _ => none

theorem World.issues_noted {w : World} {note : Note} (other : ∀ sequence id, note ≠ .issued sequence id) :
    (w.observe (.noted note)).issues = w.issues := by
  have silent : ([note].filterMap fun
      | .issued sequence id => some (sequence, id)
      | _ => none : List (Nat × Text)) = [] := by
    cases note with
    | issued sequence id => exact absurd rfl (other sequence id)
    | _ => rfl
  rw [issues, notes_noted, List.filterMap_append, silent, List.append_nil]
  rfl

theorem World.issues_issued (w : World) (sequence : Nat) (id : Text) :
    (w.issued sequence id).issues = w.issues ++ [(sequence, id)] := by
  rw [issues, issued, notes_noted, List.filterMap_append]
  rfl

/-- Every id is that of its number, and no number has been issued twice. -/
structure World.Chronicle (w : World) : Prop where
  distinct : (w.issues.map Prod.fst).Nodup
  named : ∀ issue ∈ w.issues, issue.2 = (containerId issue.1).text

/-- And the manager will not issue any of them again. -/
structure World.Numbered (w : World) : Prop where
  chronicle : w.Chronicle
  below : ∀ issue ∈ w.issues, issue.1 < w.memory.nextSequence ∧ w.memory.draft ≠ some issue.1
  drawn : ∀ n, w.memory.draft = some n → n < w.memory.nextSequence

/-- Every state on the way has distinct numbers. -/
def Chronicled (_ w : World) : Prop := w.Chronicle

section

variable {w w' : World}

/-- Nothing happens to the issued ids and to the numbers. -/
structure Unnumbered (w w' : World) : Prop where
  issues : w'.issues = w.issues
  sequence : w'.memory.nextSequence = w.memory.nextSequence
  draft : w'.memory.draft = w.memory.draft

theorem World.Chronicle.of_same (chronicle : w.Chronicle) (same : w'.issues = w.issues) : w'.Chronicle :=
  ⟨same ▸ chronicle.distinct, same ▸ chronicle.named⟩

theorem World.Numbered.unnumbered (numbered : w.Numbered) (same : Unnumbered w w') : w'.Numbered where
  chronicle := numbered.chronicle.of_same same.issues
  below issue member := by
    rw [same.sequence, same.draft]
    exact numbered.below issue (same.issues ▸ member)
  drawn n drawn := by
    rw [same.sequence]
    exact numbered.drawn n (same.draft ▸ drawn)

theorem Aside.unnumbered (aside : Aside w w') : Unnumbered w w' :=
  ⟨by rw [World.issues, World.issues, aside.notes], aside.sequence, aside.draft⟩

theorem Unnumbered.noted (w : World) {note : Note} (other : ∀ sequence id, note ≠ .issued sequence id) :
    Unnumbered w (w.observe (.noted note)) := ⟨World.issues_noted other, rfl, rfl⟩

end

/-- The number of a record that is on its way. -/
structure World.Pending (w : World) (sequence : Nat) (record : Record) : Prop where
  numbered : w.Numbered
  idle : w.memory.draft = none
  new : ∀ issue ∈ w.issues, issue.1 ≠ sequence
  under : sequence < w.memory.nextSequence
  id : record.id = containerId sequence

/-- A condition that only depends on the issued ids and the numbers. -/
def Counted (P : World → Prop) : Prop := (∀ w, P w → w.Chronicle) ∧ ∀ w w', Unnumbered w w' → P w → P w'

theorem counted_numbered : Counted World.Numbered :=
  ⟨fun _ numbered => numbered.chronicle, fun _ _ same numbered => numbered.unnumbered same⟩

theorem counted_pending (sequence : Nat) (record : Record) : Counted (·.Pending sequence record) := by
  refine ⟨fun _ pending => pending.numbered.chronicle, fun w w' same pending => ?_⟩
  exact ⟨pending.numbered.unnumbered same, same.draft.trans pending.idle,
    fun issue member => pending.new issue (same.issues ▸ member), same.sequence.symm ▸ pending.under, pending.id⟩

namespace Counted

variable {P : World → Prop}

theorem step (counted : Counted P) {w w' : World} (same : Unnumbered w w') (pre : P w) : Chronicled w w' ∧ P w' :=
  have post := counted.2 w w' same pre
  ⟨counted.1 w' post, post⟩

theorem sided (counted : Counted P) : Sided Chronicled P := fun _ _ aside => counted.step aside.unnumbered

theorem modify (counted : Counted P) {f : World → World} (same : ∀ w, Unnumbered w (f w)) :
    Spec Chronicled P (Prog.modify f) fun _ => P :=
  .modify_step fun w => counted.step (same w)

theorem remember (counted : Counted P) {f : Memory → Memory}
    (same : ∀ m, (f m).nextSequence = m.nextSequence ∧ (f m).draft = m.draft) :
    Spec Chronicled P (Prog.modify (·.remember f)) fun _ => P :=
  counted.modify fun w => ⟨rfl, (same w.memory).1, (same w.memory).2⟩

theorem log (counted : Counted P) (entry : LogEvent) : Spec Chronicled P (logEventType entry) fun _ => P :=
  counted.sided.still.logEventType (fun _ => counted.step ⟨rfl, rfl, rfl⟩)
    fun w => counted.step (.noted w fun _ _ same => by cases same)

theorem save (counted : Counted P) : Spec Chronicled P saveMetadata fun _ => P := by
  refine saveMetadata_rule (fun w w' filing => counted.step ?_)
    (fun w written pre _ => counted.step ⟨World.issues_noted (fun _ _ same => nomatch same), rfl, rfl⟩ pre)
    fun w => counted.step (.noted w fun _ _ same => by cases same)
  cases filing with
  | idle _ idle => exact idle.aside.unnumbered
  | log entry => exact ⟨rfl, rfl, rfl⟩
  | miss entry => exact .noted w fun _ _ same => by cases same

end Counted

/-! ## The operations -/

theorem draw_numbered : Spec Chronicled World.Numbered (modify (·.remember (·.draw))) fun _ => World.Numbered := by
  have drawn : ∀ w : World, w.Numbered → (w.remember (·.draw)).Numbered := by
    intro w numbered
    refine ⟨numbered.chronicle.of_same rfl, fun issue member => ?_, fun n drawn => ?_⟩
    · have below := (numbered.below issue member).1
      refine ⟨Nat.lt_succ_of_lt below, fun same => ?_⟩
      exact absurd (Option.some.inj same) (Nat.ne_of_gt below)
    · cases drawn
      exact Nat.lt_succ_self _
  exact .modify (fun w numbered => (drawn w numbered).chronicle) drawn

theorem abandon_numbered :
    Spec Chronicled World.Numbered (modify (·.remember fun m => { m with draft := none })) fun _ => World.Numbered := by
  have abandoned : ∀ w : World, w.Numbered → (w.remember fun m => { m with draft := none }).Numbered := fun w numbered =>
    ⟨numbered.chronicle.of_same rfl, fun issue member => ⟨(numbered.below issue member).1, fun same => by cases same⟩,
      fun _ drawn => by cases drawn⟩
  exact .modify (fun w numbered => (abandoned w numbered).chronicle) abandoned

theorem enroll_pending {sequence : Nat} {record : Record} (id : record.id = containerId sequence) :
    Spec Chronicled (fun w => w.Numbered ∧ w.memory.draft = some sequence) (modify (·.enrolled record)) fun _ w =>
      w.Pending sequence record := by
  have enrolled : ∀ w : World, w.Numbered ∧ w.memory.draft = some sequence → (w.enrolled record).Pending sequence record := by
    rintro w ⟨numbered, drawn⟩
    have same : (w.enrolled record).issues = w.issues := by
      have notes : (w.enrolled record).notes = w.notes := World.notes_observe fun _ same => by cases same
      rw [World.issues, World.issues, notes]
    refine ⟨⟨numbered.chronicle.of_same same, fun issue member => ?_, fun _ drawn => by cases drawn⟩, rfl,
      fun issue member clash => ?_, numbered.drawn sequence drawn, id⟩
    · exact ⟨(numbered.below issue (same ▸ member)).1, fun absurd => by cases absurd⟩
    · exact (numbered.below issue (same ▸ member)).2 (clash ▸ drawn)
  exact .modify (fun w here => (enrolled w here).numbered.chronicle) enrolled

theorem issue_numbered (sequence : Nat) (record : Record) :
    Spec Chronicled (·.Pending sequence record) (modify (·.issued sequence record.id.text)) fun _ => World.Numbered := by
  have issued : ∀ w : World, w.Pending sequence record → (w.issued sequence record.id.text).Numbered := by
    intro w pending
    have grown := w.issues_issued sequence record.id.text
    have idle : (w.issued sequence record.id.text).memory.draft = none := pending.idle
    refine ⟨⟨?_, ?_⟩, ?_, fun n drawn => ?_⟩
    · rw [grown, List.map_append, List.map_singleton, List.nodup_append]
      refine ⟨pending.numbered.chronicle.distinct, List.nodup_singleton _, fun n early m late => ?_⟩
      obtain ⟨issue, member, rfl⟩ := List.mem_map.mp early
      rw [List.mem_singleton.mp late]
      exact pending.new issue member
    · rw [grown]
      intro issue member
      rcases List.mem_append.mp member with early | late
      · exact pending.numbered.chronicle.named issue early
      · rw [List.mem_singleton.mp late, pending.id]
    · rw [grown]
      intro issue member
      rcases List.mem_append.mp member with early | late
      · exact pending.numbered.below issue early
      · rw [List.mem_singleton.mp late]
        refine ⟨pending.under, fun drawn => ?_⟩
        rw [idle] at drawn
        cases drawn
    · rw [idle] at drawn
      cases drawn
  exact .modify (fun w pending => (issued w pending).chronicle) issued

/-- The numbers, as the operations of the manager keep them. -/
def idUpkeep : Upkeep Chronicled where
  rest := World.Numbered
  adopted _ _ := World.Numbered
  filed _ _ := World.Numbered
  foreground _ _ := World.Numbered
  enrolled sequence record w := w.Pending sequence record
  listed sequence record w := w.Pending sequence record
  chronicled sequence record w := w.Pending sequence record
  detached _ := World.Numbered
  removed _ := World.Numbered
  sided := counted_numbered.sided
  sided_foreground _ _ := counted_numbered.sided
  at_rest _ _ _ numbered := numbered
  save := counted_numbered.save
  remark entry _ := counted_numbered.log entry
  target pid := .pre (counted_numbered.sided.bind_tick fun now => counted_numbered.modify fun w => ⟨rfl, rfl, rfl⟩)
    fun _ holds => holds.1
  reaped i c status _ := .pre (.bind (counted_numbered.remember fun _ => ⟨rfl, rfl⟩) fun _ =>
    .bind (counted_numbered.sided.onStopped c.pid) fun _ => .bind (counted_numbered.log _) fun _ =>
      .pure fun _ numbered => numbered) fun _ holds => holds.1
  recovered i c _ := .pre (.bind (counted_numbered.modify fun w => .noted w fun _ _ same => nomatch same) fun _ =>
    .bind (counted_numbered.remember fun _ => ⟨rfl, rfl⟩) fun _ => .bind (counted_numbered.log _) fun _ =>
      .pure fun _ numbered => numbered) fun _ holds => holds.1
  marked i c _ := .pre (.bind (counted_numbered.log _) fun _ => .bind (counted_numbered.sided.onStopped c.pid) fun _ =>
    .bind (counted_numbered.remember fun _ => ⟨rfl, rfl⟩) fun _ => .bind counted_numbered.save fun _ =>
      .pure fun _ numbered => numbered) fun _ holds => holds.1
  finished i c moved status _ := .pre (.bind (counted_numbered.sided.restoreTerminal moved 0) fun _ =>
    .bind (counted_numbered.log _) fun _ => .bind (counted_numbered.remember fun _ => ⟨rfl, rfl⟩) fun _ =>
      counted_numbered.save) fun _ holds => holds.1
  begun _ _ _ := .pre (counted_numbered.remember fun _ => ⟨rfl, rfl⟩) fun _ holds => holds.1
  aborted _ _ _ := .pre (counted_numbered.remember fun _ => ⟨rfl, rfl⟩) fun _ holds => holds.1
  adopt _ _ _ _ _ := .pre (counted_numbered.remember fun _ => ⟨rfl, rfl⟩) fun _ holds => holds.1
  adopted_save _ _ := counted_numbered.save.post fun saved _ numbered => by cases saved <;> exact numbered
  started _ _ _ := counted_numbered.log _
  draw := draw_numbered
  abandon := abandon_numbered
  enroll _ _ _ := enroll_pending rfl
  enrolled_save sequence record := (counted_pending sequence record).save.post fun saved _ pending => by
    cases saved <;> exact pending
  created sequence record := (counted_pending sequence record).log _
  issue := issue_numbered
  unenroll sequence record := ((counted_pending sequence record).remember (f := (·.unenroll)) fun _ => ⟨rfl, rfl⟩).post fun _ _ pending =>
    pending.numbered
  detach _ _ _ := .pre (counted_numbered.remember fun _ => ⟨rfl, rfl⟩) fun _ holds => holds.1
  detached_save _ := counted_numbered.save.post fun saved _ numbered => by cases saved <;> exact numbered
  deleted _ := counted_numbered.log _
  discard _ := counted_numbered.remember fun _ => ⟨rfl, rfl⟩
  reattach _ _ := counted_numbered.remember fun _ => ⟨rfl, rfl⟩

/-! ## Start-up -/

/-- What `update_next_sequence` reads from an id. -/
def Record.number (record : Record) : Option Int := scanInt (lit "container-") record.id.text

theorem Memory.number_lt_updateNextSequence {record : Record} {value : Int} (read : record.number = some value) (next : Nat) :
    value < updateNextSequence record.id.text next := by
  rw [updateNextSequence, show scanInt (lit "container-") record.id.text = some value from read]
  simp only
  split <;> omega

/-- No number can be issued again once the records have been read. -/
structure World.Restoring (w : World) (records : List Record) : Prop where
  chronicle : w.Chronicle
  idle : w.memory.draft = none
  covered : ∀ issue ∈ w.issues, issue.1 < w.memory.nextSequence ∨
    ∃ record ∈ records, ∃ value, record.number = some value ∧ (issue.1 : Int) ≤ value

theorem counted_restoring (records : List Record) : Counted (·.Restoring records) := by
  refine ⟨fun _ restoring => restoring.chronicle, fun w w' same restoring => ?_⟩
  refine ⟨restoring.chronicle.of_same same.issues, same.draft.trans restoring.idle, fun issue member => ?_⟩
  rw [same.sequence]
  exact restoring.covered issue (same.issues ▸ member)

theorem World.Restoring.restored {w : World} {record : Record} {rest : List Record} (restoring : w.Restoring (record :: rest)) :
    (w.restored record rest).Restoring rest := by
  have same : (w.restored record rest).issues = w.issues := World.issues_noted fun _ _ same => nomatch same
  refine ⟨restoring.chronicle.of_same same, restoring.idle, fun issue member => ?_⟩
  have grows := Memory.le_updateNextSequence record.id.text w.memory.nextSequence
  have next : (w.restored record rest).memory.nextSequence = Memory.updateNextSequence record.id.text w.memory.nextSequence := rfl
  rw [next]
  rcases restoring.covered issue (same ▸ member) with below | ⟨other, listed, value, read, above⟩
  · exact .inl (Nat.lt_of_lt_of_le below grows)
  · rcases List.mem_cons.mp listed with rfl | later
    · have passed := Memory.number_lt_updateNextSequence read w.memory.nextSequence
      exact .inl (by omega)
    · exact .inr ⟨other, later, value, read, above⟩

theorem restoreRecords_numbered (records : List Record) :
    Spec Chronicled (·.Restoring records) (restoreRecords records) fun done w => done = true → w.Numbered := by
  induction records with
  | nil =>
    refine .pure fun w restoring _ => ⟨restoring.chronicle, fun issue member => ⟨?_, ?_⟩, fun n drawn => ?_⟩
    · rcases restoring.covered issue member with below | ⟨record, listed, -⟩
      · exact below
      · cases listed
    · rw [restoring.idle]
      exact fun same => nomatch same
    · rw [restoring.idle] at drawn
      cases drawn
  | cons record rest ih =>
    have appended : Spec Chronicled (·.Restoring (record :: rest)) (do modify (·.restored record rest); restoreRecords rest)
        fun done w => done = true → w.Numbered :=
      .bind_modify (M := (·.Restoring rest)) (fun _ restoring => restoring.restored.chronicle)
        (fun _ restoring => restoring.restored) ih
    apply (counted_restoring _).sided.bind_tick
    intro allocated
    split
    · exact .pure fun _ _ done => by cases done
    simp only
    split
    · exact (counted_restoring _).sided.bind_tick fun _ => appended
    · exact appended

/-- The file holds a record numbered as high, and start-up can open it. -/
def Covers (disk : Option Text) (opened : Tick) (number : Nat) : Prop :=
  opened.fail = none ∧ ∃ file ∈ disk, ∃ record ∈ decodeRegistry file, ∃ value ∈ record.number, (number : Int) ≤ value

instance (disk : Option Text) (opened : Tick) (number : Nat) : Decidable (Covers disk opened number) :=
  inferInstanceAs (Decidable (_ ∧ _))

/-- A manager that is starting up, after these numbers have been issued. -/
structure World.Rising (w : World) (disk : Option Text) (issues : List (Nat × Text)) : Prop where
  chronicle : w.Chronicle
  launched : Launched disk w
  issues : w.issues = issues

theorem still_rising (disk : Option Text) (issues : List (Nat × Text)) : Still Chronicled (·.Rising disk issues) := by
  intro w w' idle rising
  have same : w'.issues = w.issues := idle.aside.unnumbered.issues
  have after := rising.chronicle.of_same same
  exact ⟨after, after, rising.launched.idle idle, same.trans rising.issues⟩

theorem World.Rising.numbered {w : World} {disk : Option Text} (rising : w.Rising disk []) : w.Numbered := by
  refine ⟨rising.chronicle, fun issue member => ?_, fun n drawn => ?_⟩
  · rw [rising.issues] at member
    cases member
  · rw [rising.launched.memory] at drawn
    cases drawn

theorem containerManagerInit_numbered {disk : Option Text} {opened : Tick} {issues : List (Nat × Text)}
    (covered : ∀ issue ∈ issues, Covers disk opened issue.1) :
    Spec Chronicled (fun w => w.Rising disk issues ∧ w.oracle w.clock = opened) containerManagerInit fun done w =>
      done = true → w.Numbered := by
  -- Without a file that can be read, nothing has been issued yet.
  have unread : (∀ issue ∈ issues, ¬ Covers disk opened issue.1) →
      Spec Chronicled (·.Rising disk issues) (pure true) fun done w => done = true → w.Numbered := by
    intro uncovered
    have none : issues = [] := List.eq_nil_iff_forall_not_mem.mpr fun issue member =>
      uncovered issue member (covered issue member)
    subst none
    exact .pure fun _ rising _ => rising.numbered
  apply Spec.bind ((still_rising disk issues).tick.and (tick_now opened))
  intro now
  apply Spec.given (now = opened) (fun _ holds => holds.2)
  intro same
  subst same
  refine .pre (P := (·.Rising disk issues)) ?_ fun _ holds => holds.1.1
  apply Spec.bind_read disk (fun w rising => rising.launched.disk)
  cases disk with
  | none => exact unread fun _ _ covers => by simp [Covers] at covers
  | some file =>
    simp only
    split
    · rename_i refused
      apply unread
      intro _ _ covers
      rw [covers.1] at refused
      cases refused
    refine .bind_modify (M := (·.Restoring (decodeRegistry file))) (fun w rising => rising.chronicle.of_same rfl)
      (fun w rising => ?_) ?_
    · refine ⟨rising.chronicle.of_same rfl, by rw [World.remember, rising.launched.memory]; rfl, fun issue member => .inr ?_⟩
      obtain ⟨-, found, same, record, listed, value, read, above⟩ := covered issue (rising.issues ▸ member)
      cases same
      exact ⟨record, listed, value, read, above⟩
    apply Spec.bind (restoreRecords_numbered _)
    intro done
    split
    · rename_i loaded
      refine .pre (P := World.Numbered) ?_ fun _ holds => holds loaded
      apply Spec.bind idUpkeep.pollStates
      intro _
      split
      · exact .bind (counted_numbered.log _) fun _ => .pure fun _ numbered _ => numbered
      · exact .pure fun _ numbered _ => numbered
    · exact .pure fun _ _ done => by cases done

/-! ## Runs -/

/-- At every start-up of the run, the file covers all numbers issued before. -/
def World.Retains (w : World) : List Step → Prop
  | [] => True
  | step :: rest =>
    (step = .boot → w.up = false → ∀ issue ∈ w.issues, Covers w.disk (w.oracle w.clock) issue.1) ∧ (w.step step).Retains rest

instance World.decidableRetains : (w : World) → (steps : List Step) → Decidable (w.Retains steps)
  | _, [] => isTrue trivial
  | w, step :: rest =>
    have := decidableRetains (w.step step) rest
    inferInstanceAs (Decidable (_ ∧ _))

/-- Between two steps of a run. -/
def World.IdsKept (w : World) : Prop := w.Chronicle ∧ (w.up = true → w.Numbered)

theorem chronicle_of_chain {w w' : World} (chain : Relation.ReflTransGen Chronicled w w') (chronicle : w.Chronicle) :
    w'.Chronicle := by
  have closed : ∀ v v', Chronicled v v' → v.Chronicle → v'.Chronicle := fun _ _ step _ => step
  exact closed_of_chain closed chain chronicle

theorem World.Chronicle.crash {w : World} (chronicle : w.Chronicle) : w.crash.Chronicle :=
  chronicle.of_same (World.issues_noted (w := { w.launched with up := false, procs := w.procs.orphaned })
    fun _ _ same => nomatch same)

theorem World.IdsKept.step {w : World} (kept : w.IdsKept) (step : Step)
    (retained : step = .boot → w.up = false → ∀ issue ∈ w.issues, Covers w.disk (w.oracle w.clock) issue.1) :
    (w.step step).IdsKept := by
  have crashed : ∀ v : World, v.Chronicle → v.crash.IdsKept := fun v chronicle =>
    ⟨chronicle.crash, fun up => by cases up⟩
  have rising : w.launched.Rising w.disk w.issues := ⟨kept.1.of_same rfl, ⟨rfl, rfl, rfl⟩, rfl⟩
  apply World.step_rule step kept
  case booted =>
    intro boot down v result
    obtain ⟨chain, numbered⟩ := containerManagerInit_numbered (retained boot down) w.launched ⟨rising, rfl⟩
    have chronicle := chronicle_of_chain chain rising.chronicle
    rw [result] at chronicle numbered
    exact ⟨chronicle.of_same rfl, fun _ => (numbered true rfl rfl).unnumbered ⟨rfl, rfl, rfl⟩⟩
  case failed =>
    intro boot down outcome v result
    have chronicle := chronicle_of_chain (containerManagerInit_numbered (retained boot down) w.launched ⟨rising, rfl⟩).1 rising.chronicle
    rw [result] at chronicle
    exact crashed v chronicle
  case served =>
    intro up command value v result
    obtain ⟨chain, numbered⟩ := idUpkeep.command command w (kept.2 up)
    have chronicle := chronicle_of_chain chain kept.1
    rw [result] at chronicle numbered
    exact ⟨chronicle, fun _ => numbered value rfl⟩
  case cut =>
    intro up command v result
    have chronicle := chronicle_of_chain (idUpkeep.command command w (kept.2 up)).1 kept.1
    rw [result] at chronicle
    exact crashed v chronicle
  case exited =>
    intro up
    have freed : ∀ v : World, v.Numbered → Chronicled v v.freed ∧ v.freed.Numbered := fun v =>
      counted_numbered.step ⟨rfl, rfl, rfl⟩
    obtain ⟨chain, -⟩ := idUpkeep.cleanupAllContainers counted_numbered.sided freed w (kept.2 up)
    exact crashed _ (chronicle_of_chain chain kept.1)

/-- In every run in which each start-up finds, for every number issued before, a record numbered as high, and
in which the `int` that counts them does not overflow, no id is issued twice. -/
theorem ids_never_recycled (oracle : Nat → Tick) (procs : Procs) (steps : List Step)
    (retains : (World.initial oracle procs).Retains steps) :
    let after := (World.initial oracle procs).run steps
    (∀ issue ∈ after.issues, issue.1 ≤ intMax) → (after.issues.map Prod.snd).Nodup := by
  intro after fits
  have kept : ∀ (steps : List Step) {w : World}, w.IdsKept → w.Retains steps → (w.run steps).IdsKept := by
    intro steps
    induction steps with
    | nil => exact fun kept _ => kept
    | cons first rest ih => exact fun kept retains => ih (kept.step first retains.1) retains.2
  have chronicle := (kept steps (w := World.initial oracle procs) ⟨⟨List.nodup_nil, by simp [World.issues, World.notes, World.initial]⟩,
    fun up => by cases up⟩ retains).1
  have ids : after.issues.map Prod.snd = (after.issues.map Prod.fst).map fun n => (containerId n).text := by
    rw [List.map_map]
    exact List.map_congr_left chronicle.named
  rw [ids]
  refine List.Nodup.map_on (fun n first m second same => ?_) chronicle.distinct
  obtain ⟨a, early, rfl⟩ := List.mem_map.mp first
  obtain ⟨b, late, rfl⟩ := List.mem_map.mp second
  exact containerId_injective (fits a early) (fits b late) (Buffer.ext same)

/-- The first of two containers is deleted, and the number of the second is still in the file at the restart. -/
theorem ids_differ_after_restart :
    let spec : ContainerSpec := ⟨some (lit "web"), none, none, some (lit "sleep 9"), .unlimited⟩
    let steps := [.boot, .command (.create spec), .command (.create spec), .command (.delete (lit "container-0001")),
      .exit, .boot, .command (.create spec)]
    let after := (World.initial (fun _ => Tick.calm) fun _ => none).run steps
    after.issues.map Prod.snd = [lit "container-0001", lit "container-0002", lit "container-0003"] ∧
      (after.issues.map Prod.snd).Nodup := by
  intro spec steps after
  refine ⟨by decide +kernel, ids_never_recycled _ _ steps ?_ ?_⟩
  · decide +kernel
  · decide +kernel

/-- The last container is deleted before the manager is restarted: its id is issued once more. -/
theorem deleted_id_issued_again :
    let spec : ContainerSpec := ⟨some (lit "web"), none, none, some (lit "sleep 9"), .unlimited⟩
    let steps := [.boot, .command (.create spec), .command (.delete (lit "container-0001")), .exit, .boot,
      .command (.create spec)]
    let after := (World.initial (fun _ => Tick.calm) fun _ => none).run steps
    after.issues.map Prod.snd = [lit "container-0001", lit "container-0001"] ∧ ¬ (after.issues.map Prod.snd).Nodup := by
  decide +kernel

end ContainerRuntime
