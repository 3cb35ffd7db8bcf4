import ContainerRuntime.Manager.Ids
import ContainerRuntime.Manager.Durability

/-! The log follows the registry.

Every change of a container's state is logged next to it, but the list, the
file and the log are written one after the other. A manager that dies between
two of these writes leaves them apart, and start-up mends the list without a
word in the log. Where neither happens, the last record of every container
tells its state.
-/

set_option autoImplicit false

namespace ContainerRuntime

open CString Cli Program
open Prog (read modify forEach)

/-! ## The last record of a container -/

/-- The types of records that tell a state. -/
def lifecycle : List Text :=
  [lit "CONTAINER_CREATED", lit "CONTAINER_STARTED", CONTAINER_STOPPED, RESOURCE_LIMIT_HIT]

/-- The last of them for this id. -/
def lastRecord (log : List LogEvent) (id : Text) : Option LogEvent :=
  (log.filter fun entry => entry.eventType ∈ lifecycle ∧ entry.subject = some id).getLast?

/-- The state it puts the container in. -/
def lastState (log : List LogEvent) (id : Text) : Option ContainerState :=
  (lastRecord log id).bind fun entry => entry.transition.map Prod.snd

namespace LogEvent

/-- The records that tell a state are those of a transition. -/
theorem transition_eq (entry : LogEvent) :
    entry.transition = none ∧ entry.eventType ∉ lifecycle ∨
      ∃ id state, entry.transition = some (id, state) ∧ entry.eventType ∈ lifecycle ∧ entry.subject = some id ∧
        inferRecordStatus entry.eventType id = stateToString state := by
  have created : lit "CONTAINER_CREATED" ∈ lifecycle := by decide
  have started : lit "CONTAINER_STARTED" ∈ lifecycle := by decide
  have stopped : CONTAINER_STOPPED ∈ lifecycle := by decide
  have limited : RESOURCE_LIMIT_HIT ∈ lifecycle := by decide
  cases entry with
  | created record => exact .inr ⟨_, _, rfl, created, rfl, rfl⟩
  | started record pid => exact .inr ⟨_, _, rfl, started, rfl, rfl⟩
  | recovered id => exact .inr ⟨_, _, rfl, stopped, rfl, rfl⟩
  | stopped id pid => exact .inr ⟨_, _, rfl, stopped, rfl, rfl⟩
  | exited id how status =>
    cases status with
    | exited code => exact .inr ⟨_, _, rfl, stopped, rfl, rfl⟩
    | signaled signal =>
      refine .inr ⟨id, .STOPPED, rfl, ?_, rfl, ?_⟩
      · simp only [eventType]
        split
        · exact limited
        · exact stopped
      · simp only [eventType]
        split <;> rfl
  | deleted id => exact .inl ⟨rfl, (by decide : lit "CONTAINER_DELETED" ∉ lifecycle)⟩
  | restored count => exact .inl ⟨rfl, (by decide : lit "MANAGER" ∉ lifecycle)⟩
  | schedulerEnabled slice => exact .inl ⟨rfl, (by decide : lit "SCHEDULER_ENABLED" ∉ lifecycle)⟩
  | schedulerDisabled => exact .inl ⟨rfl, (by decide : lit "SCHEDULER_DISABLED" ∉ lifecycle)⟩
  | _ => exact .inl ⟨rfl, (by decide : lit "ERROR" ∉ lifecycle)⟩

end LogEvent

theorem lastRecord_concat (log : List LogEvent) (entry : LogEvent) (id : Text) :
    lastRecord (log ++ [entry]) id =
      if entry.eventType ∈ lifecycle ∧ entry.subject = some id then some entry else lastRecord log id := by
  unfold lastRecord
  rw [List.filter_append]
  split
  · rename_i told
    rw [List.filter_singleton, decide_eq_true told, cond_true, List.getLast?_concat]
  · rename_i untold
    rw [List.filter_singleton, decide_eq_false untold, cond_false, List.append_nil]

theorem lastState_remark {entry : LogEvent} (minor : entry.transition = none) (log : List LogEvent) :
    lastState (log ++ [entry]) = lastState log := by
  funext id
  rcases entry.transition_eq with ⟨-, other⟩ | ⟨_, _, same, -⟩
  · rw [lastState, lastRecord_concat, if_neg fun told => other told.1, lastState]
  · rw [minor] at same
    cases same

theorem lastState_transition {entry : LogEvent} {who : Text} {state : ContainerState}
    (moves : entry.transition = some (who, state)) (log : List LogEvent) :
    lastState (log ++ [entry]) = Function.update (lastState log) who (some state) := by
  funext id
  rcases entry.transition_eq with ⟨none, -⟩ | ⟨_, _, same, told, subject, -⟩
  · rw [moves] at none
    cases none
  · cases moves.symm.trans same
    rw [lastState, lastRecord_concat, Function.update_apply]
    by_cases own : id = who
    · rw [if_pos ⟨told, own ▸ subject⟩, if_pos own, Option.bind_some, moves, Option.map_some]
    · rw [if_neg, if_neg own, lastState]
      rintro ⟨-, named⟩
      exact own (Option.some.inj (named.symm.trans subject))

/-- The last record shows the state. -/
theorem lastRecord_of_lastState {log : List LogEvent} {id : Text} {state : ContainerState}
    (last : lastState log id = some state) :
    ∃ entry, lastRecord log id = some entry ∧ inferRecordStatus entry.eventType id = stateToString state := by
  obtain ⟨entry, found, moves⟩ := Option.bind_eq_some_iff.mp last
  refine ⟨entry, found, ?_⟩
  have chosen := (List.mem_filter.mp (List.mem_of_getLast? found)).2
  obtain ⟨told, named⟩ := of_decide_eq_true chosen
  rcases entry.transition_eq with ⟨-, other⟩ | ⟨who, next, same, -, subject, shown⟩
  · exact absurd told other
  · rw [same] at moves
    cases Option.some.inj moves
    cases Option.some.inj (named.symm.trans subject)
    exact shown

/-! ## What has to be so for the log to follow -/

/-- The log tells the state of the record, or that it is over. -/
def Record.Told (last : Text → Option ContainerState) (record : Record) : Prop :=
  last record.id.text = some record.state ∨ record.state = .RUNNING ∧ last record.id.text = some .STOPPED

instance (last : Text → Option ContainerState) : DecidablePred (Record.Told last) := fun _ =>
  inferInstanceAs (Decidable (_ ∨ _))

/-- The number in its id is an `int`, and so is the next one. -/
def Record.InRange (record : Record) : Prop :=
  (record.number.any fun value : Int => value < intMax ∧ record.id = containerId value.toNat) = true

instance : DecidablePred Record.InRange := fun _ => inferInstanceAs (Decidable (_ = true))

/-- Start-up reads nothing from the file but these records. -/
def ReadsBack (records : List Record) : Prop := (decodeRegistry (encodeRegistry records)).Sublist records

instance : DecidablePred ReadsBack := fun _ => inferInstanceAs (Decidable (List.Sublist _ _))

/-- The writes of the log and of the file succeed. -/
def Note.Written : Note → Prop
  | .unlogged _ => False
  | .saved wanted written => written = some wanted
  | _ => True

instance : DecidablePred Note.Written
  | .unlogged _ => isFalse id
  | .saved wanted written => inferInstanceAs (Decidable (written = some wanted))
  | .givenUp _ _ | .checked _ _ _ | .issued _ _ | .died _ _ _ => isTrue trivial

/-- What is saved can be read back; the manager does not die between a save and the entry that goes with it; and start-up
finds the process of a RUNNING record exactly if the log has it running. -/
def Note.Timely : Note → Prop
  | .saved wanted _ => ReadsBack wanted ∧ ∀ record ∈ wanted, record.InRange
  | .died records disk log => ∀ record ∈ records, record ∈ decodeRegistry (disk.getD []) → record.Told (lastState log)
  | .checked record alive log => record.state = .RUNNING → (alive = true ↔ lastState log record.id.text = some .RUNNING)
  | _ => True

instance : DecidablePred Note.Timely
  | .saved wanted _ => inferInstanceAs (Decidable (ReadsBack wanted ∧ ∀ record ∈ wanted, record.InRange))
  | .died records disk log =>
    inferInstanceAs (Decidable (∀ record ∈ records, record ∈ decodeRegistry (disk.getD []) → record.Told (lastState log)))
  | .checked record alive log =>
    inferInstanceAs (Decidable (record.state = .RUNNING → (alive = true ↔ lastState log record.id.text = some .RUNNING)))
  | .unlogged _ | .givenUp _ _ | .issued _ _ => isTrue trivial

def World.Upheld (w : World) : Prop := ∀ note ∈ w.notes, note.Written ∧ note.Timely

theorem World.Upheld.of_noted {w : World} {note : Note} (upheld : (w.observe (.noted note)).Upheld) :
    w.Upheld ∧ note.Written ∧ note.Timely := by
  rw [Upheld, notes_noted] at upheld
  exact ⟨fun other member => upheld other (List.mem_append_left _ member),
    upheld note (List.mem_append_right _ (List.mem_singleton_self note))⟩

theorem Record.InRange.bounded {record : Record} (inRange : record.InRange) : ∃ n < intMax, record.id = containerId n := by
  obtain ⟨value, -, found⟩ := (Option.any_eq_true _ _).mp inRange
  obtain ⟨below, named⟩ := of_decide_eq_true found
  refine ⟨value.toNat, ?_, named⟩
  have positive : 0 < intMax := by decide
  omega

/-- An id that is short enough was not cut off. -/
theorem containerId_unique {n m : Nat} (bounded : m ≤ intMax) (same : containerId n = containerId m) : n = m := by
  have digits := length_showPadded_le (n := m) (by unfold intMax at bounded; unfold uintSize; omega)
  have texts := congrArg Buffer.text same
  rw [containerId_text bounded] at texts
  have literal : (lit "container-").length = 10 := by decide
  by_cases fits : (lit "container-" ++ showPadded n).length < 64
  · rw [containerId, copyString_of_fits fits] at texts
    exact showPadded_injective (List.append_cancel_left texts)
  · have long : (containerId n).text.length = 63 := by
      simp only [containerId, copyString, snprintf, List.length_take]
      omega
    rw [texts, List.length_append, literal] at long
    omega

/-! ## The list, the file and the log -/

structure View where
  registry : List Container
  next : Nat
  draft : Option Nat
  /-- What start-up would read from the file. -/
  stored : List Record
  last : Text → Option ContainerState

def World.view (w : World) : View :=
  ⟨w.memory.registry, w.memory.nextSequence, w.memory.draft, decodeRegistry (w.disk.getD []), lastState w.log⟩

namespace View

def records (v : View) : List Record := v.registry.map (·.toRecord)

/-- A manager that starts from this file finds the log in step with it. -/
structure Safe (v : View) : Prop where
  distinct : (v.stored.map (·.id)).Nodup
  each : ∀ record ∈ v.stored, record.InRange ∧ record.Told v.last

/-- What is both in the list and in the file is in the log. -/
def Reported (v : View) : Prop := ∀ record ∈ v.records, record ∈ v.stored → record.Told v.last

/-- The file may still have a container RUNNING that is not any more. -/
def Lags (record : Record) (c : Container) : Prop :=
  record.state = c.state ∨ record.state = .RUNNING ∧ c.state = .STOPPED

structure Rest (v : View) : Prop where
  distinct : (v.registry.map (·.id)).Nodup
  numbered : ∀ c ∈ v.registry, ∃ n < v.next, (∀ m, v.draft = some m → n < m) ∧ c.id = containerId n
  drawn : ∀ m, v.draft = some m → m < v.next
  told : ∀ c ∈ v.registry, v.last c.id.text = some c.state
  safe : v.Safe
  lags : ∀ record ∈ v.stored, ∀ c ∈ v.registry, record.id = c.id → Lags record c

/-- An entry that tells a state. -/
def tell (who : Text) (state : ContainerState) (v : View) : View := { v with last := Function.update v.last who (some state) }

@[simp] theorem tell_self (who : Text) (state : ContainerState) (v : View) : (tell who state v).last who = some state :=
  Function.update_self _ _ _

theorem tell_other {who name : Text} (other : name ≠ who) (state : ContainerState) (v : View) :
    (tell who state v).last name = v.last name := Function.update_of_ne other _ _

/-- A save, after which start-up would read these records. -/
def file (stored : List Record) (v : View) : View := { v with stored := stored }

/-- They are among those of the list, and numbered. -/
def Files (stored : List Record) (v : View) : Prop := stored.Sublist v.records ∧ ∀ record ∈ v.records, record.InRange

end View

/-- As long as the notes are good. -/
def Stage (P : View → Prop) (w : World) : Prop := w.Upheld → P w.view

/-- If the manager dies here, the file is safe. -/
def Mortal (_ w : World) : Prop := w.Upheld → w.view.Reported → w.view.Safe

/-- In this stage the manager may die. -/
def Secure (P : View → Prop) : Prop := ∀ v, P v → v.Reported → v.Safe

theorem View.Rest.secure : Secure View.Rest := fun _ rest _ => rest.safe

theorem Secure.mortal {P : View → Prop} (secure : Secure P) {w : World} (stage : Stage P w) (before : World) : Mortal before w :=
  fun upheld reported => secure w.view (stage upheld) reported

theorem Aside.view {w w' : World} (aside : Aside w w') : w'.view = w.view := by
  rw [World.view, World.view, aside.registry, aside.sequence, aside.draft, aside.disk, aside.log]

namespace Stage

variable {P Q : View → Prop}

theorem aside {w w' : World} (stage : Stage P w) (aside : Aside w w') : Stage P w' := by
  intro upheld
  rw [World.Upheld, aside.notes] at upheld
  rw [aside.view]
  exact stage upheld

theorem sided (secure : Secure P) : Sided Mortal (Stage P) := fun w _ aside stage =>
  ⟨secure.mortal (stage.aside aside) w, stage.aside aside⟩

/-- After a bad note nothing is asked any more. -/
theorem lost {w : World} (lost : ¬ w.Upheld) : Stage P w := fun upheld => absurd upheld lost

theorem mortal_lost {w : World} (lost : ¬ w.Upheld) (before : World) : Mortal before w := fun upheld => absurd upheld lost

/-- One action of the manager. -/
theorem modify {f : World → World} {g : View → View} (secure : Secure Q) (notes : ∀ w, (f w).notes = w.notes)
    (view : ∀ w, (f w).view = g w.view) (next : ∀ v, P v → Q (g v)) :
    Spec Mortal (Stage P) (Prog.modify f) fun _ => Stage Q := by
  have moved : ∀ w, Stage P w → Stage Q (f w) := by
    intro w stage upheld
    rw [World.Upheld, notes] at upheld
    rw [view]
    exact next w.view (stage upheld)
  exact .modify (fun w stage => secure.mortal (moved w stage) w) moved

theorem unlogged_lost (w : World) (entry : LogEvent) : ¬ (w.observe (.noted (.unlogged entry))).Upheld :=
  fun upheld => upheld.of_noted.2.1

theorem log {entry : LogEvent} {g : View → View} (still : Secure P) (secure : Secure Q)
    (view : ∀ w : World, (w.logged entry).view = g w.view) (next : ∀ v, P v → Q (g v)) :
    Spec Mortal (Stage P) (logEventType entry) fun _ => Stage Q := by
  refine (sided still).still.logEventType (fun w stage => ?_) fun w _ => ?_
  · have moved : Stage Q (w.logged entry) := fun upheld => (view w).symm ▸ next w.view (stage upheld)
    exact ⟨secure.mortal moved w, moved⟩
  · exact ⟨mortal_lost (unlogged_lost w entry) w, lost (unlogged_lost w entry)⟩

theorem remark_view {entry : LogEvent} (minor : entry.transition = none) (w : World) : (w.logged entry).view = w.view := by
  rw [World.view, World.view, World.logged, lastState_remark minor]

/-- An entry that tells no state. -/
theorem remark {entry : LogEvent} (secure : Secure P) (minor : entry.transition = none) :
    Spec Mortal (Stage P) (logEventType entry) fun _ => Stage P :=
  log secure secure (remark_view minor) fun _ holds => holds

theorem tell_view {entry : LogEvent} {who : Text} {state : ContainerState} (moves : entry.transition = some (who, state))
    (w : World) : (w.logged entry).view = w.view.tell who state := by
  rw [World.view, World.view, World.logged, View.tell, lastState_transition moves]

theorem save (still : Secure P) (secure : Secure Q) (next : ∀ v stored, P v → v.Files stored → Q (v.file stored)) :
    Spec Mortal (Stage P) saveMetadata fun done w => (done = true → Stage Q w) ∧ (done = false → ¬ w.Upheld) := by
  refine saveMetadata_rule (fun w w' filing stage => ?_) (fun w written stage _ => ?_) fun w _ => ?_
  · cases filing with
    | idle _ idle => exact sided still w w' idle.aside stage
    | log entry error =>
      have minor : entry.transition = none := by rcases error with rfl | rfl | rfl <;> rfl
      have kept : Stage P (w.logged entry) := fun upheld => (remark_view minor w).symm ▸ stage upheld
      exact ⟨still.mortal kept w, kept⟩
    | miss entry error => exact ⟨mortal_lost (unlogged_lost w entry) w, lost (unlogged_lost w entry)⟩
  · have filed : Stage Q (w.published written) := by
      intro upheld
      obtain ⟨before, whole, fewer, inRange⟩ := World.Upheld.of_noted upheld
      cases whole
      exact next w.view _ (stage before) ⟨fewer, inRange⟩
    exact ⟨secure.mortal filed w, fun _ => filed, nofun⟩
  · have gone : ¬ w.unsaved.Upheld := fun upheld => by
      have whole := (World.Upheld.of_noted upheld).2.1
      cases whole
    exact ⟨mortal_lost gone w, nofun, fun _ => gone⟩

end Stage

/-! ## Steps of the view -/

namespace View

variable {v w : View} {i : Nat} {c : Container}

/-- A change at one position leaves the containers with other ids. -/
theorem mem_modify {registry : List Container} {f : Container → Container} (distinct : (registry.map (·.id)).Nodup)
    (here : registry[i]? = some c) {d : Container} (member : d ∈ registry.modify i f) :
    d = f c ∨ d ∈ registry ∧ d.id ≠ c.id := by
  obtain ⟨front, back, rfl, -, modified, -⟩ := List.split_at here
  rw [modified] at member
  simp only [List.map_append, List.map_cons, List.nodup_append, List.nodup_cons, List.mem_map] at distinct
  obtain ⟨-, ⟨later, -⟩, apart⟩ := distinct
  rcases List.mem_append.mp member with early | late
  · exact .inr ⟨List.mem_append_left _ early, apart d.id ⟨d, early, rfl⟩ c.id List.mem_cons_self⟩
  · rcases List.mem_cons.mp late with rfl | late
    · exact .inl rfl
    · exact .inr ⟨List.mem_append_right _ (List.mem_cons_of_mem _ late), fun same => later ⟨d, late, same⟩⟩

theorem ids_modify {registry : List Container} {f : Container → Container} (here : registry[i]? = some c)
    (id : (f c).id = c.id) : (registry.modify i f).map (·.id) = registry.map (·.id) := by
  obtain ⟨front, back, rfl, -, modified, -⟩ := List.split_at here
  simp [modified, id]

/-- One container changes its state, and the log tells it. -/
theorem Rest.change {f : Container → Container} (rest : v.Rest) (here : v.registry[i]? = some c)
    (registry : w.registry = v.registry.modify i f) (next : w.next = v.next) (draft : w.draft = v.draft)
    (id : (f c).id = c.id) (own : w.last c.id.text = some (f c).state)
    (others : ∀ name, name ≠ c.id.text → w.last name = v.last name) (safe : w.Safe)
    (lags : ∀ record ∈ w.stored, ∀ d ∈ w.registry, record.id = d.id → Lags record d) : w.Rest := by
  have cases_of : ∀ {d : Container}, d ∈ w.registry → d = f c ∨ d ∈ v.registry ∧ d.id ≠ c.id := by
    intro d member
    rw [registry] at member
    exact mem_modify rest.distinct here member
  have member := List.mem_of_getElem? here
  refine ⟨?_, fun d listed => ?_, ?_, fun d listed => ?_, safe, lags⟩
  · rw [registry, ids_modify here id]
    exact rest.distinct
  · rw [next, draft]
    rcases cases_of listed with rfl | ⟨old, -⟩
    · rw [id]
      exact rest.numbered c member
    · exact rest.numbered d old
  · rw [next, draft]
    exact rest.drawn
  · rcases cases_of listed with rfl | ⟨old, other⟩
    · rw [id]
      exact own
    · rw [others _ fun same => other (Buffer.ext same)]
      exact rest.told d old

/-- An entry for one container keeps the file safe if it has the container in that state, or RUNNING before its end. -/
theorem Safe.tell {who : Text} {state : ContainerState} (safe : v.Safe)
    (fits : ∀ record ∈ v.stored, record.id.text = who → record.state = state ∨ record.state = .RUNNING ∧ state = .STOPPED) :
    (v.tell who state).Safe := by
  refine ⟨safe.distinct, fun record member => ?_⟩
  obtain ⟨inRange, told⟩ := safe.each record member
  refine ⟨inRange, ?_⟩
  rw [Record.Told]
  by_cases own : record.id.text = who
  · rw [own, tell_self]
    rcases fits record member own with same | ⟨running, rfl⟩
    · exact .inl (congrArg some same.symm)
    · exact .inr ⟨running, rfl⟩
  · rw [tell_other own]
    exact told

theorem same_of_id (distinct : (v.registry.map (·.id)).Nodup) {c d : Container} (one : c ∈ v.registry) (two : d ∈ v.registry)
    (same : c.id = d.id) : c = d := List.inj_on_of_nodup_map distinct one two same

theorem Files.ids {stored : List Record} (files : v.Files stored) : (stored.map (·.id)).Sublist (v.registry.map (·.id)) := by
  have ids : v.records.map (·.id) = v.registry.map (·.id) := by simp [records]
  rw [← ids]
  exact files.1.map _

/-- After a save the file says what the list says. -/
theorem Files.safe {stored : List Record} (files : v.Files stored) (distinct : (v.registry.map (·.id)).Nodup)
    (told : ∀ c ∈ v.registry, c.toRecord ∈ stored → c.toRecord.Told v.last) : (v.file stored).Safe := by
  refine ⟨distinct.sublist files.ids, fun record member => ?_⟩
  have listed := files.1.subset member
  obtain ⟨c, there, rfl⟩ := List.mem_map.mp listed
  exact ⟨files.2 _ listed, told c there member⟩

theorem Files.lags {stored : List Record} (files : v.Files stored) (distinct : (v.registry.map (·.id)).Nodup) :
    ∀ record ∈ stored, ∀ c ∈ v.registry, record.id = c.id → Lags record c := by
  intro record member c listed same
  obtain ⟨d, there, rfl⟩ := List.mem_map.mp (files.1.subset member)
  rw [same_of_id distinct there listed same]
  exact .inl rfl

theorem Rest.file {stored : List Record} (rest : v.Rest) (files : v.Files stored) : (v.file stored).Rest where
  distinct := rest.distinct
  numbered := rest.numbered
  drawn := rest.drawn
  told := rest.told
  safe := files.safe rest.distinct fun c member _ => .inl (rest.told c member)
  lags := files.lags rest.distinct

/-! A container ends: the log is told before the list, or after it. -/

def retire (i : Nat) (v : View) : View :=
  { v with registry := v.registry.modify i fun c => { c with state := .STOPPED, pid := -1, stack := false } }

def RestAt (i : Nat) (c : Container) (v : View) : Prop := v.Rest ∧ v.registry[i]? = some c

def Retired (i : Nat) (c : Container) (v : View) : Prop := ∃ u : View, u.RestAt i c ∧ v = u.retire i

def Ended (i : Nat) (c : Container) (v : View) : Prop := ∃ u : View, u.RestAt i c ∧ v = u.tell c.id.text .STOPPED

theorem RestAt.secure : Secure (RestAt i c) := fun _ rest _ => rest.1.safe

theorem Retired.secure : Secure (Retired i c) := by
  rintro _ ⟨u, rest, rfl⟩ -
  exact ⟨rest.1.safe.distinct, rest.1.safe.each⟩

/-- While it runs, the file has it RUNNING. -/
theorem RestAt.stored_running (rest : v.RestAt i c) (running : c.state = .RUNNING) {record : Record} (member : record ∈ v.stored)
    (same : record.id = c.id) : record.state = .RUNNING := by
  rcases rest.1.lags record member c (List.mem_of_getElem? rest.2) same with equal | ⟨here, -⟩
  · exact equal.trans running
  · exact here

theorem RestAt.ended_safe (rest : v.RestAt i c) (running : c.state = .RUNNING) : (v.tell c.id.text .STOPPED).Safe :=
  rest.1.safe.tell fun _ member same => .inr ⟨rest.stored_running running member (Buffer.ext same), rfl⟩

theorem Ended.secure (running : c.state = .RUNNING) : Secure (Ended i c) := by
  rintro _ ⟨u, rest, rfl⟩ -
  exact rest.ended_safe running

theorem RestAt.finished (rest : v.RestAt i c) (running : c.state = .RUNNING) : ((v.retire i).tell c.id.text .STOPPED).Rest := by
  have safe := rest.ended_safe running
  refine rest.1.change rest.2 rfl rfl rfl rfl (tell_self _ _ _) (fun _ other => tell_other other _ _)
    ⟨safe.distinct, safe.each⟩ fun record member d listed same => ?_
  rcases mem_modify rest.1.distinct rest.2 listed with rfl | ⟨old, -⟩
  · exact .inr ⟨rest.stored_running running member same, rfl⟩
  · exact rest.1.lags record member d old same

/-! A container is started. -/

def adopt (i : Nat) (pid : Pid) (v : View) : View :=
  { v with registry := v.registry.modify i fun c => { c with state := .RUNNING, pid := pid } }

def Adopted (i : Nat) (c : Container) (v : View) : Prop :=
  ∃ u d pid, RestAt i d u ∧ c = { d with state := .RUNNING, pid := pid } ∧ v = u.adopt i pid

def Filed (i : Nat) (c : Container) (v : View) : Prop :=
  ∃ u stored, Adopted i c u ∧ u.Files stored ∧ v = u.file stored

theorem Adopted.secure : Secure (Adopted i c) := by
  rintro _ ⟨u, d, pid, rest, -, rfl⟩ -
  exact ⟨rest.1.safe.distinct, rest.1.safe.each⟩

theorem Adopted.distinct (adopted : v.Adopted i c) : (v.registry.map (·.id)).Nodup := by
  obtain ⟨u, d, pid, rest, rfl, rfl⟩ := adopted
  rw [adopt, ids_modify rest.2 rfl]
  exact rest.1.distinct

/-- All that is in the file is in the log, if the new process is. -/
theorem Filed.secure : Secure (Filed i c) := by
  rintro _ ⟨v, stored, adopted, files, rfl⟩ reported
  exact files.safe adopted.distinct fun d member there => reported _ (List.mem_map_of_mem member) there

theorem Filed.started (filed : v.Filed i c) : (v.tell c.id.text .RUNNING).Rest := by
  obtain ⟨w, stored, adopted, files, rfl⟩ := filed
  have distinct := adopted.distinct
  obtain ⟨u, d, pid, rest, rfl, rfl⟩ := adopted
  refine rest.1.change rest.2 rfl rfl rfl rfl (tell_self _ _ _) (fun _ other => tell_other other _ _) ?_ (files.lags distinct)
  have files : ((u.adopt i pid).tell d.id.text .RUNNING).Files stored := files
  refine files.safe distinct fun e member _ => .inl ?_
  rcases mem_modify rest.1.distinct rest.2 member with rfl | ⟨old, other⟩
  · exact tell_self _ _ _
  · exact (tell_other (fun same => other (Buffer.ext same)) _ _).trans (rest.1.told e old)

/-- Only the stack of its process is allocated or freed. -/
theorem RestAt.restack (rest : v.RestAt i c) (stack : Bool) :
    Rest { v with registry := v.registry.modify i fun c => { c with stack := stack } } := by
  refine rest.1.change rest.2 rfl rfl rfl rfl (rest.1.told c (List.mem_of_getElem? rest.2)) (fun _ _ => rfl)
    ⟨rest.1.safe.distinct, rest.1.safe.each⟩ fun record member d listed same => ?_
  rcases mem_modify rest.1.distinct rest.2 listed with rfl | ⟨old, -⟩
  · exact rest.1.lags record member c (List.mem_of_getElem? rest.2) same
  · exact rest.1.lags record member d old same

/-! A container is created. -/

def draw (v : View) : View := { v with draft := some v.next, next := v.next + 1 }

theorem Rest.draw (rest : v.Rest) : v.draw.Rest := by
  refine ⟨rest.distinct, fun c member => ?_, fun m drawn => ?_, rest.told, ⟨rest.safe.distinct, rest.safe.each⟩, rest.lags⟩
  · obtain ⟨n, below, -, named⟩ := rest.numbered c member
    refine ⟨n, Nat.lt_succ_of_lt below, fun m drawn => ?_, named⟩
    cases drawn
    exact below
  · cases drawn
    exact Nat.lt_succ_self _

theorem Rest.abandon (rest : v.Rest) : Rest { v with draft := none } := by
  refine ⟨rest.distinct, fun c member => ?_, nofun, rest.told, ⟨rest.safe.distinct, rest.safe.each⟩, rest.lags⟩
  obtain ⟨n, below, -, named⟩ := rest.numbered c member
  exact ⟨n, below, nofun, named⟩

def enroll (record : Record) (v : View) : View := { v with registry := v.registry ++ [⟨record, false⟩], draft := none }

def Enrolled (sequence : Nat) (record : Record) (v : View) : Prop :=
  ∃ u : View, u.Rest ∧ u.draft = some sequence ∧ record.id = containerId sequence ∧ record.state = .CREATED ∧ v = u.enroll record

def Listed (sequence : Nat) (record : Record) (v : View) : Prop :=
  ∃ u stored, Enrolled sequence record u ∧ u.Files stored ∧ v = u.file stored

variable {sequence : Nat} {record : Record}

theorem Enrolled.secure : Secure (Enrolled sequence record) := by
  rintro _ ⟨u, rest, -, -, -, rfl⟩ -
  exact ⟨rest.safe.distinct, rest.safe.each⟩

theorem Enrolled.unenroll (enrolled : v.Enrolled sequence record) : Rest { v with registry := v.registry.dropLast } := by
  obtain ⟨u, rest, -, -, -, rfl⟩ := enrolled
  have parted : (u.enroll record).registry.dropLast = u.registry := List.dropLast_concat
  rw [parted]
  exact rest.abandon

/-- A number that was drawn later makes another id. -/
theorem Rest.id_ne (rest : v.Rest) (drawn : v.draft = some sequence) (named : record.id = containerId sequence)
    (inRange : record.InRange) (member : c ∈ v.registry) : c.id ≠ record.id := by
  intro same
  obtain ⟨m, bounded, id⟩ := inRange.bounded
  obtain ⟨n, -, below, own⟩ := rest.numbered c member
  have first : sequence = m := containerId_unique (Nat.le_of_lt bounded) (named.symm.trans id)
  have second : n = m := containerId_unique (Nat.le_of_lt bounded) (own.symm.trans (same.trans id))
  exact Nat.ne_of_lt (below sequence drawn) (second.trans first.symm)

theorem Enrolled.distinct (enrolled : v.Enrolled sequence record) (inRange : ∀ record ∈ v.records, record.InRange) :
    (v.registry.map (·.id)).Nodup := by
  obtain ⟨u, rest, drawn, named, -, rfl⟩ := enrolled
  have own : record.InRange := inRange record (by simp [records, View.enroll])
  rw [View.enroll, List.map_append, List.map_singleton, List.nodup_append]
  refine ⟨rest.distinct, List.nodup_singleton _, fun id early other late => ?_⟩
  obtain ⟨c, member, rfl⟩ := List.mem_map.mp early
  rw [List.mem_singleton.mp late]
  exact rest.id_ne drawn named own member

/-- All that is in the file is in the log, if the new record is. -/
theorem Listed.secure : Secure (Listed sequence record) := by
  rintro _ ⟨v, stored, enrolled, files, rfl⟩ reported
  exact files.safe (enrolled.distinct files.2) fun c member there => reported _ (List.mem_map_of_mem member) there

theorem Listed.created (listed : v.Listed sequence record) : (v.tell record.id.text .CREATED).Rest := by
  obtain ⟨w, stored, enrolled, files, rfl⟩ := listed
  have distinct := enrolled.distinct files.2
  obtain ⟨u, rest, drawn, named, state, rfl⟩ := enrolled
  have inRange : record.InRange := files.2 record (by simp [records, View.enroll])
  have told : ∀ c ∈ (u.enroll record).registry, ((u.enroll record).tell record.id.text .CREATED).last c.id.text = some c.state := by
    intro c member
    rcases List.mem_append.mp member with early | new
    · rw [tell_other fun same => rest.id_ne drawn named inRange early (Buffer.ext same)]
      exact rest.told c early
    · rw [List.mem_singleton.mp new, tell_self, state]
  have files : ((u.enroll record).tell record.id.text .CREATED).Files stored := files
  refine ⟨distinct, fun c member => ?_, nofun, told, files.safe distinct fun c member _ => .inl (told c member), files.lags distinct⟩
  rcases List.mem_append.mp member with early | new
  · obtain ⟨n, below, -, id⟩ := rest.numbered c early
    exact ⟨n, below, nofun, id⟩
  · rw [List.mem_singleton.mp new]
    exact ⟨sequence, rest.drawn sequence drawn, nofun, named⟩

/-! A container is deleted. -/

theorem Rest.perm {registry : List Container} (rest : v.Rest) (perm : registry.Perm v.registry) :
    Rest { v with registry := registry } where
  distinct := (perm.map (·.id)).nodup_iff.mpr rest.distinct
  numbered c member := rest.numbered c (perm.mem_iff.mp member)
  drawn := rest.drawn
  told c member := rest.told c (perm.mem_iff.mp member)
  safe := ⟨rest.safe.distinct, rest.safe.each⟩
  lags record stored c member := rest.lags record stored c (perm.mem_iff.mp member)

theorem Rest.sublist {registry : List Container} (rest : v.Rest) (fewer : registry.Sublist v.registry) :
    Rest { v with registry := registry } where
  distinct := rest.distinct.sublist (fewer.map (·.id))
  numbered c member := rest.numbered c (fewer.subset member)
  drawn := rest.drawn
  told c member := rest.told c (fewer.subset member)
  safe := ⟨rest.safe.distinct, rest.safe.each⟩
  lags record stored c member := rest.lags record stored c (fewer.subset member)

def Detached (c : Container) (v : View) : Prop :=
  ∃ (u : View) (i : Nat), u.RestAt i c ∧ v = { u with registry := u.registry.eraseIdx i }

theorem Detached.rest (detached : v.Detached c) : v.Rest := by
  obtain ⟨u, i, rest, rfl⟩ := detached
  exact rest.1.sublist (List.eraseIdx_sublist _ _)

theorem Detached.secure : Secure (Detached c) := fun _ detached _ => detached.rest.safe

theorem Detached.reattach (detached : v.Detached c) : Rest { v with registry := v.registry ++ [c] } := by
  obtain ⟨u, i, rest, rfl⟩ := detached
  obtain ⟨front, back, parts, -, -, erased⟩ := List.split_at rest.2
  have perm : (u.registry.eraseIdx i ++ [c]).Perm u.registry := by
    rw [erased, parts]
    exact List.perm_append_singleton c _ |>.trans List.perm_middle.symm
  exact rest.1.perm perm

end View

/-! ## The operations -/

namespace Stage

variable {P : View → Prop}

/-- A note about something else, or one that is good. -/
theorem noted {w : World} (stage : Stage P w) (note : Note) : Stage P (w.observe (.noted note)) := fun upheld =>
  stage upheld.of_noted.1

theorem note (secure : Secure P) {f : World → World} (noted : ∀ w, ∃ note, f w = w.observe (.noted note)) :
    Spec Mortal (Stage P) (Prog.modify f) fun _ => Stage P := by
  have moved : ∀ w, Stage P w → Stage P (f w) := by
    intro w stage
    obtain ⟨note, same⟩ := noted w
    rw [same]
    exact stage.noted note
  exact .modify (fun w stage => secure.mortal (moved w stage) w) moved

/-- One action on the memory. -/
theorem remember {Q : View → Prop} {f : Memory → Memory} {g : View → View} (secure : Secure Q)
    (view : ∀ w : World, (w.remember f).view = g w.view) (next : ∀ v, P v → Q (g v)) :
    Spec Mortal (Stage P) (Prog.modify (·.remember f)) fun _ => Stage Q :=
  modify secure (fun _ => rfl) view next

theorem here {i : Nat} {c : Container} {w : World} (holds : Stage View.Rest w ∧ w.Here i c) : Stage (View.RestAt i c) w :=
  fun upheld => ⟨holds.1 upheld, holds.2⟩

/-- A save between two operations. -/
theorem save_rest : Spec Mortal (Stage View.Rest) saveMetadata fun _ => Stage View.Rest := by
  apply (save View.Rest.secure View.Rest.secure fun _ _ rest files => rest.file files).post
  intro done w holds
  cases done with
  | true => exact holds.1 rfl
  | false => exact lost (holds.2 rfl)

/-- A save within an operation: if it fails, that was it. -/
theorem save_to {Q S : View → Prop} (still : Secure P) (secure : Secure Q)
    (next : ∀ v stored, P v → v.Files stored → Q (v.file stored)) :
    Spec Mortal (Stage P) saveMetadata fun done w => if done then Stage Q w else Stage S w := by
  apply (save still secure next).post
  intro done w holds
  cases done with
  | true => exact holds.1 rfl
  | false => exact lost (holds.2 rfl)

/-- The log tells that a container has ended; then the list does, and then the file. -/
theorem ended {i : Nat} {c : Container} (running : c.state = .RUNNING) {entry : LogEvent}
    (moves : entry.transition = some (c.id.text, .STOPPED)) :
    Spec Mortal (Stage (View.RestAt i c)) (logEventType entry) fun _ => Stage (View.Ended i c) :=
  log View.RestAt.secure (View.Ended.secure running) (tell_view moves) fun v rest => ⟨v, rest, rfl⟩

theorem ended_retire {i : Nat} {c : Container} (running : c.state = .RUNNING) :
    Spec Mortal (Stage (View.Ended i c)) (Prog.modify (·.remember (·.retire i))) fun _ => Stage View.Rest := by
  apply remember (g := View.retire i) View.Rest.secure (fun _ => rfl)
  rintro _ ⟨u, rest, rfl⟩
  exact rest.finished running

/-- The list tells it, and then the log does. -/
theorem retire {i : Nat} {c : Container} :
    Spec Mortal (Stage (View.RestAt i c)) (Prog.modify (·.remember (·.retire i))) fun _ => Stage (View.Retired i c) :=
  remember (g := View.retire i) View.Retired.secure (fun _ => rfl) fun v rest => ⟨v, rest, rfl⟩

theorem retired {i : Nat} {c : Container} (running : c.state = .RUNNING) {entry : LogEvent}
    (moves : entry.transition = some (c.id.text, .STOPPED)) :
    Spec Mortal (Stage (View.Retired i c)) (logEventType entry) fun _ => Stage View.Rest := by
  apply log View.Retired.secure View.Rest.secure (tell_view moves)
  rintro _ ⟨u, rest, rfl⟩
  exact rest.finished running

end Stage

theorem Record.state_of_running {record : Record} (running : record.running = true) : record.state = .RUNNING := by
  simp only [Record.running, decide_eq_true_eq] at running
  exact running.1

open View in
/-- The list, the file and the log, as the operations of the manager keep them. -/
def logUpkeep : Upkeep Mortal where
  rest := Stage Rest
  adopted i c := Stage (Adopted i c)
  filed i c := Stage (Filed i c)
  foreground _ _ := Stage Rest
  enrolled sequence record := Stage (Enrolled sequence record)
  listed sequence record := Stage (Listed sequence record)
  chronicled _ _ := Stage Rest
  detached c := Stage (Detached c)
  removed _ := Stage Rest
  sided := Stage.sided Rest.secure
  sided_foreground _ _ := Stage.sided Rest.secure
  at_rest _ _ _ rest := rest
  save := Stage.save_rest
  remark _ minor := Stage.remark Rest.secure minor
  target pid := .pre ((Stage.sided Rest.secure).bind_tick fun _ =>
    Stage.modify (g := id) Rest.secure (fun _ => rfl) (fun _ => rfl) fun _ rest => rest) fun _ holds => holds.1
  reaped i c status running := .pre (.bind Stage.retire fun _ =>
    .bind ((Stage.sided Retired.secure).onStopped c.pid) fun _ =>
      .bind (Stage.retired (Record.state_of_running running) rfl) fun _ => .pure fun _ rest => rest) fun _ => Stage.here
  recovered i c running := .pre (.bind (Stage.note RestAt.secure fun w => ⟨_, rfl⟩) fun _ => .bind Stage.retire fun _ =>
    .bind (Stage.retired (Record.state_of_running running) rfl) fun _ => .pure fun _ rest => rest) fun _ => Stage.here
  marked i c running :=
    have state := Record.state_of_running running
    .pre (.bind (Stage.ended state rfl) fun _ => .bind ((Stage.sided (Ended.secure state)).onStopped c.pid) fun _ =>
      .bind (Stage.ended_retire state) fun _ => .bind Stage.save_rest fun _ => .pure fun _ rest => rest) fun _ => Stage.here
  finished i c moved status running :=
    have state := Record.state_of_running running
    .pre (.bind ((Stage.sided RestAt.secure).restoreTerminal moved 0) fun _ => .bind (Stage.ended state rfl) fun _ =>
      .bind (Stage.ended_retire state) fun _ => Stage.save_rest) fun _ => Stage.here
  begun i c _ := .pre (Stage.remember (P := RestAt i c)
    (g := fun v => { v with registry := v.registry.modify i fun c => { c with stack := true } }) Rest.secure (fun _ => rfl)
    fun _ rest => rest.restack true) fun _ => Stage.here
  aborted i c _ := .pre (Stage.remember (P := RestAt i c)
    (g := fun v => { v with registry := v.registry.modify i fun c => { c with stack := false } }) Rest.secure (fun _ => rfl)
    fun _ rest => rest.restack false) fun _ => Stage.here
  adopt i c pid _ _ := .pre (Stage.remember (P := RestAt i c) (g := View.adopt i pid) Adopted.secure (fun _ => rfl)
    fun v rest => ⟨v, c, pid, rest, rfl, rfl⟩) fun _ => Stage.here
  adopted_save i c := Stage.save_to Adopted.secure Filed.secure fun v stored adopted files => ⟨v, stored, adopted, files, rfl⟩
  started i c _ := Stage.log Filed.secure Rest.secure (Stage.tell_view rfl) fun _ filed => filed.started
  draw := Stage.remember (g := View.draw) Rest.secure (fun _ => rfl) fun _ rest => rest.draw
  abandon := Stage.remember (g := fun v => { v with draft := none }) Rest.secure (fun _ => rfl) fun _ rest => rest.abandon
  enroll spec sequence resolved := by
    refine .pre (P := Stage fun v => v.Rest ∧ v.draft = some sequence) ?_ fun w holds upheld => ⟨holds.1 upheld, holds.2⟩
    refine Stage.modify (g := View.enroll _) Enrolled.secure (fun w => World.notes_observe fun _ same => nomatch same) (fun _ => rfl)
      fun v holds => ⟨v, holds.1, holds.2, rfl, rfl, rfl⟩
  enrolled_save sequence record :=
    (Stage.save_to (S := Enrolled sequence record) Enrolled.secure Listed.secure
      fun v stored enrolled files => ⟨v, stored, enrolled, files, rfl⟩).post fun saved _ holds => by cases saved <;> exact holds
  created sequence record := Stage.log Listed.secure Rest.secure (Stage.tell_view rfl) fun _ listed => listed.created
  issue sequence record := Stage.note Rest.secure fun w => ⟨_, rfl⟩
  unenroll sequence record := Stage.remember (g := fun v => { v with registry := v.registry.dropLast }) Rest.secure (fun _ => rfl)
    fun _ enrolled => enrolled.unenroll
  detach i c _ := .pre (Stage.remember (P := RestAt i c) (g := fun v => { v with registry := v.registry.eraseIdx i })
    Detached.secure (fun _ => rfl) fun v rest => ⟨v, i, rest, rfl⟩) fun _ => Stage.here
  detached_save c :=
    (Stage.save_to (S := Detached c) Detached.secure Rest.secure fun _ _ detached files => detached.rest.file files).post
      fun saved _ holds => by cases saved <;> exact holds
  deleted c := Stage.remark Rest.secure rfl
  discard c := Stage.remember (g := id) Rest.secure (fun _ => rfl) fun _ rest => rest
  reattach c _ := Stage.remember (g := fun v => { v with registry := v.registry ++ [c] }) Rest.secure (fun _ => rfl)
    fun _ detached => detached.reattach

/-! ## Start-up -/

namespace View

/-- `container_manager_init` has these records still to append. -/
structure Restoring (left : List Record) (v : View) : Prop where
  rest : v.Rest
  idle : v.draft = none
  stored : left ⊆ v.stored
  apart : ∀ record ∈ left, ∀ c ∈ v.registry, c.id ≠ record.id
  distinct : (left.map (·.id)).Nodup

theorem Restoring.secure {left : List Record} : Secure (Restoring left) := fun _ restoring _ => restoring.rest.safe

def restore (record : Record) (alive : Bool) (v : View) : View :=
  { v with
    registry := v.registry ++ [⟨Memory.revived record alive, false⟩]
    next := Memory.updateNextSequence record.id.text v.next }

/-- A RUNNING record is over exactly if its process is gone. -/
theorem revived_state {record : Record} {alive : Bool} {last : Text → Option ContainerState} (told : record.Told last)
    (agrees : record.state = .RUNNING → (alive = true ↔ last record.id.text = some .RUNNING)) :
    last record.id.text = some (Memory.revived record alive).state := by
  unfold Memory.revived
  split
  · rename_i dead
    rcases told with same | ⟨-, stopped⟩
    · have alive := (agrees dead.1).mpr (same.trans (congrArg some dead.1))
      rw [dead.2] at alive
      cases alive
    · exact stopped
  · rename_i kept
    rcases told with same | ⟨running, stopped⟩
    · exact same
    · cases alive with
      | true =>
        have wrong := (agrees running).mp rfl
        rw [stopped] at wrong
        cases wrong
      | false => exact absurd ⟨running, rfl⟩ kept

theorem revived_lags (record : Record) (alive : Bool) : Lags record ⟨Memory.revived record alive, false⟩ := by
  unfold Memory.revived
  split
  · rename_i dead
    exact .inr ⟨dead.1, rfl⟩
  · exact .inl rfl

theorem Restoring.restore {v : View} {record : Record} {rest : List Record} {alive : Bool}
    (restoring : v.Restoring (record :: rest))
    (agrees : record.state = .RUNNING → (alive = true ↔ v.last record.id.text = some .RUNNING)) :
    (v.restore record alive).Restoring rest := by
  have old := restoring.rest
  have stored := restoring.stored List.mem_cons_self
  have new := restoring.apart record List.mem_cons_self
  have id := Memory.revived_id record alive
  obtain ⟨inRange, told⟩ := old.safe.each record stored
  obtain ⟨later, distinct⟩ := List.nodup_cons.mp restoring.distinct
  -- Whatever holds of the old containers and of the new one holds of all of them.
  have each : ∀ {S : Container → Prop}, (∀ c ∈ v.registry, S c) → S ⟨Memory.revived record alive, false⟩ →
      ∀ c ∈ (v.restore record alive).registry, S c := by
    intro S early last c member
    rcases List.mem_append.mp member with there | added
    · exact early c there
    · exact List.mem_singleton.mp added ▸ last
  refine ⟨⟨?_, each (fun c member => ?_) ?_, ?_, each old.told ?_, ⟨old.safe.distinct, old.safe.each⟩, fun other member => ?_⟩,
    restoring.idle, fun other member => restoring.stored (List.mem_cons_of_mem _ member), fun other member => each ?_ ?_, distinct⟩
  · rw [View.restore, List.map_append, List.map_singleton, id, List.nodup_append]
    refine ⟨old.distinct, List.nodup_singleton _, fun name early other late => ?_⟩
    obtain ⟨c, member, rfl⟩ := List.mem_map.mp early
    rw [List.mem_singleton.mp late]
    exact new c member
  · obtain ⟨n, below, drawn, named⟩ := old.numbered c member
    exact ⟨n, Nat.lt_of_lt_of_le below (Memory.le_updateNextSequence _ _), drawn, named⟩
  · obtain ⟨n, bounded, named⟩ := inRange.bounded
    refine ⟨n, ?_, fun m drawn => ?_, id.trans named⟩
    · have below := Memory.lt_updateNextSequence v.next bounded
      rwa [← named] at below
    · rw [View.restore, restoring.idle] at drawn
      cases drawn
  · intro m drawn
    rw [View.restore, restoring.idle] at drawn
    cases drawn
  · rw [id]
    exact revived_state told agrees
  · apply each (old.lags other member)
    intro same
    have same : other = record := List.inj_on_of_nodup_map old.safe.distinct member stored (same.trans id)
    rw [same]
    exact revived_lags record alive
  · exact restoring.apart other (List.mem_cons_of_mem _ member)
  · rw [id]
    intro same
    exact later (List.mem_map.mpr ⟨other, member, same.symm⟩)

end View

theorem restoreRecords_logged (records : List Record) :
    Spec Mortal (Stage (View.Restoring records)) (restoreRecords records) fun done w => done = true → Stage View.Rest w := by
  induction records with
  | nil => exact .pure fun _ stage _ upheld => (stage upheld).rest
  | cons record rest ih =>
    have restored : ∀ w, Stage (View.Restoring (record :: rest)) w → Stage (View.Restoring rest) (w.restored record rest) := by
      intro w stage upheld
      obtain ⟨before, -, agrees⟩ := World.Upheld.of_noted upheld
      exact (stage before).restore agrees
    have appended : Spec Mortal (Stage (View.Restoring (record :: rest))) (do modify (·.restored record rest); restoreRecords rest)
        fun done w => done = true → Stage View.Rest w :=
      .bind_modify (fun w stage => View.Restoring.secure.mortal (restored w stage) w) restored ih
    apply (Stage.sided View.Restoring.secure).bind_tick
    intro allocated
    split
    · exact .pure fun _ _ done => by cases done
    simp only
    split
    · exact (Stage.sided View.Restoring.secure).bind_tick fun _ => appended
    · exact appended

/-- A manager that has not read the file yet. -/
structure World.Blank (disk : Option Text) (w : World) : Prop where
  launched : Launched disk w
  safe : Stage View.Safe w

theorem Secure.safe : Secure View.Safe := fun _ safe _ => safe

theorem still_blank (disk : Option Text) : Still Mortal (World.Blank disk) := fun w w' idle blank =>
  have safe : Stage View.Safe w' := blank.safe.aside idle.aside
  ⟨Secure.safe.mortal safe w, blank.launched.idle idle, safe⟩

theorem View.Safe.rest {v : View} (safe : v.Safe) (registry : v.registry = []) (idle : v.draft = none) : v.Rest := by
  have nobody : ∀ c, c ∉ v.registry := fun c member => by
    rw [registry] at member
    cases member
  refine ⟨by rw [registry]; exact List.nodup_nil, fun c member => absurd member (nobody c), fun m drawn => ?_,
    fun c member => absurd member (nobody c), safe, fun _ _ c member => absurd member (nobody c)⟩
  rw [idle] at drawn
  cases drawn

theorem World.Blank.rest {disk : Option Text} {w : World} (blank : w.Blank disk) : Stage View.Rest w := fun upheld =>
  (blank.safe upheld).rest (congrArg Memory.registry blank.launched.memory) (congrArg Memory.draft blank.launched.memory)

theorem containerManagerInit_logged (disk : Option Text) :
    Spec Mortal (World.Blank disk) containerManagerInit fun done w => done = true → Stage View.Rest w := by
  refine (still_blank disk).bind_tick fun opened => .bind_read disk (fun w blank => blank.launched.disk) ?_
  cases disk with
  | none => exact .pure fun _ blank _ => blank.rest
  | some file =>
    simp only
    split
    · exact .pure fun _ blank _ => blank.rest
    have loaded : ∀ w : World, w.Blank (some file) →
        Stage (View.Restoring (decodeRegistry file)) (w.remember fun m => { m with restoring := decodeRegistry file }) := by
      intro w blank upheld
      have upheld : w.Upheld := upheld
      have stored : w.view.stored = decodeRegistry file := by rw [World.view, blank.launched.disk]; rfl
      have registry : w.view.registry = [] := congrArg Memory.registry blank.launched.memory
      refine ⟨blank.rest upheld, congrArg Memory.draft blank.launched.memory, ?_, fun _ _ c member => ?_, ?_⟩
      · exact stored ▸ List.Subset.refl _
      · have member : c ∈ w.view.registry := member
        rw [registry] at member
        cases member
      · exact stored ▸ (blank.safe upheld).distinct
    apply Spec.bind_modify (fun w blank => View.Restoring.secure.mortal (loaded w blank) w) loaded
    apply Spec.bind (restoreRecords_logged _)
    intro done
    split
    · rename_i all
      refine .pre (P := Stage View.Rest) ?_ fun _ holds => holds all
      apply Spec.bind logUpkeep.pollStates
      intro _
      split
      · exact .bind (Stage.remark View.Rest.secure rfl) fun _ => .pure fun _ rest _ => rest
      · exact .pure fun _ rest _ => rest
    · exact .pure fun _ _ done => by cases done

/-! ## Runs -/

/-- Between two steps of a run. -/
structure World.InStep (w : World) : Prop where
  safe : Stage View.Safe w
  rest : w.up = true → Stage View.Rest w

/-- Wherever the manager dies, the next one finds a safe file. -/
theorem World.InStep.crash {w : World} (mortal : Mortal w w) : w.crash.InStep := by
  refine ⟨fun upheld => ?_, nofun⟩
  obtain ⟨before, -, timely⟩ :=
    World.Upheld.of_noted (w := { w.launched with up := false, procs := w.procs.orphaned }) upheld
  have safe : w.view.Safe := mortal before timely
  exact ⟨safe.distinct, safe.each⟩

theorem Mortal.of_chain {w w' : World} (chain : Relation.ReflTransGen Mortal w w') (safe : Stage View.Safe w) : Mortal w' w' := by
  cases chain with
  | refl => exact Secure.safe.mortal safe w
  | tail _ step => exact step

theorem World.InStep.step {w : World} (inStep : w.InStep) (step : Step) : (w.step step).InStep := by
  have safe : Stage View.Safe w.launched := fun upheld => ⟨(inStep.safe upheld).distinct, (inStep.safe upheld).each⟩
  have init := containerManagerInit_logged w.disk w.launched ⟨⟨rfl, rfl, rfl⟩, safe⟩
  have resting : ∀ v : World, Stage View.Rest v → v.InStep := fun v rest => ⟨fun upheld => (rest upheld).safe, fun _ => rest⟩
  apply World.step_rule step inStep
  case booted =>
    intro _ _ v result
    rw [result] at init
    have rest : Stage View.Rest v := init.2 true rfl rfl
    exact ⟨fun upheld => (rest upheld).safe, fun _ => rest⟩
  case failed =>
    intro _ _ outcome v result
    have mortal := Mortal.of_chain init.1 safe
    rw [result] at mortal
    exact .crash mortal
  case served =>
    intro up command value v result
    have served := (logUpkeep.command command w (inStep.rest up)).2 value
    rw [result] at served
    exact resting v (served rfl)
  case cut =>
    intro up command v result
    have mortal := Mortal.of_chain (logUpkeep.command command w (inStep.rest up)).1 inStep.safe
    rw [result] at mortal
    exact .crash mortal
  case exited =>
    intro up
    have freed : ∀ v, Stage View.Rest v → Mortal v v.freed ∧ Stage View.Safe v.freed := by
      intro v rest
      have safe : Stage View.Safe v.freed := fun upheld => ⟨(rest upheld).safe.distinct, (rest upheld).safe.each⟩
      exact ⟨Secure.safe.mortal safe v, safe⟩
    obtain ⟨chain, -⟩ := logUpkeep.cleanupAllContainers (Stage.sided Secure.safe) freed w (inStep.rest up)
    exact .crash (Mortal.of_chain chain inStep.safe)

theorem World.run_inStep (oracle : Nat → Tick) (procs : Procs) (steps : List Step) :
    ((World.initial oracle procs).run steps).InStep := by
  have start : (World.initial oracle procs).InStep := ⟨fun _ => ⟨List.nodup_nil, nofun⟩, nofun⟩
  exact World.run_rule (fun _ inStep => inStep.step) start steps

/-- In every run whose writes succeed and whose deaths and start-ups are timely, the last record of every container
shows its state. -/
theorem log_follows_registry (oracle : Nat → Tick) (procs : Procs) (steps : List Step) :
    let after := (World.initial oracle procs).run steps
    (∀ note ∈ after.notes, note.Written) → (∀ note ∈ after.notes, note.Timely) →
      ∀ c ∈ after.memory.registry, ∃ entry, lastRecord after.log c.id.text = some entry ∧
        inferRecordStatus entry.eventType c.id.text = stateToString c.state := by
  intro after written timely c member
  have upheld : after.Upheld := fun note noted => ⟨written note noted, timely note noted⟩
  apply lastRecord_of_lastState
  -- Without a manager there is no list.
  rcases World.run_resting oracle procs steps with ⟨-, fresh⟩ | ⟨up, -⟩
  · have member : c ∈ after.memory.registry := member
    rw [show after.memory = .fresh from fresh] at member
    cases member
  · exact (((World.run_inStep oracle procs steps).rest up) upheld).told c member

/-- A manager dies while its container runs, and the next one takes it over. -/
theorem log_follows_takeover :
    let script := [(26, { Tick.calm with cut := true })]
    let spec : ContainerSpec := ⟨some (lit "web"), none, none, some (lit "sleep 9"), .unlimited⟩
    let steps := [.boot, .command (.runbg spec), .command .poll, .boot]
    let after := (World.initial (scripted script) fun _ => none).run steps
    after.memory.registry.map (·.state) = [.RUNNING] ∧
      ∀ c ∈ after.memory.registry, ∃ entry, lastRecord after.log c.id.text = some entry ∧
        inferRecordStatus entry.eventType c.id.text = stateToString c.state := by
  intro script spec steps after
  have written : ∀ note ∈ after.notes, note.Written := by decide +kernel
  have timely : ∀ note ∈ after.notes, note.Timely := by decide +kernel
  have follows := log_follows_registry (scripted script) (fun _ => none) steps written timely
  constructor
  · decide +kernel
  · -- The run is not to be evaluated any more.
    clear_value steps
    exact follows

/-- A container's process ends while no manager runs. All writes succeed, but start-up puts the container in
STOPPED without a word, and the log shows RUNNING from then on. -/
theorem reconciled_not_logged :
    let script := [(26, { Tick.calm with cut := true }),
      (27, { Tick.calm with events := [.exits 1 (.exited 0), .vanishes 1] })]
    let spec : ContainerSpec := ⟨some (lit "web"), none, none, some (lit "sleep 9"), .unlimited⟩
    let steps := [.boot, .command (.runbg spec), .command .poll, .boot, .command .poll]
    let after := (World.initial (scripted script) fun _ => none).run steps
    (∀ note ∈ after.notes, note.Written) ∧
      after.memory.registry.map (fun c => (c.id.text, c.state)) = [(lit "container-0001", .STOPPED)] ∧
      (lastRecord after.log (lit "container-0001")).map (fun entry => inferRecordStatus entry.eventType (lit "container-0001")) =
        some (stateToString .RUNNING) := by
  decide +kernel

end ContainerRuntime
