import ContainerRuntime.Manager.Upkeep
import ContainerRuntime.Logic.Lists

/-! The registry invariant over whole sessions.

Between operations the ids are distinct and below `next_sequence`, a record is
RUNNING exactly when it has a pid, and a record that is not has no stack. In
the middle of an operation the records that are on their way into the list or
out of it count as well.
-/

set_option autoImplicit false

namespace ContainerRuntime

open CString Cli Program
open Prog (read modify)

/-- State and pid agree. -/
def Record.Coherent (record : Record) : Prop :=
  (record.state = .RUNNING ↔ 0 < record.pid) ∧ (record.state ≠ .RUNNING → record.pid = -1)

/-- The registry between two operations. -/
structure Memory.Sound (m : Memory) : Prop where
  distinct : (m.registry.map (·.id)).Nodup
  numbered : ∀ c ∈ m.registry, ∃ n < m.nextSequence, c.id = containerId n
  coherent : ∀ c ∈ m.registry, c.Coherent
  stackless : ∀ c ∈ m.registry, c.state ≠ .RUNNING → c.stack = false

/-- None of these records that had left CREATED is in CREATED again. -/
def Memory.NoReturn (before : List Record) (after : Memory) : Prop :=
  ∀ record ∈ before, ∀ d ∈ after.registry, d.id = record.id → record.state ≠ .CREATED → d.state ≠ .CREATED

theorem Record.coherent_of_down {record : Record} (down : record.state ≠ .RUNNING) (pid : record.pid = -1) :
    record.Coherent := by
  refine ⟨⟨fun running => absurd running down, fun positive => ?_⟩, fun _ => pid⟩
  rw [pid] at positive
  exact absurd positive (by decide)

/-! ## Lists of records -/

structure Distinct (records : List Record) : Prop where
  ids : (records.map (·.id)).Nodup
  each : ∀ record ∈ records, record.Coherent

namespace Distinct

theorem perm {records others : List Record} (distinct : Distinct records) (same : others.Perm records) :
    Distinct others where
  ids := (same.map (·.id)).nodup_iff.mpr distinct.ids
  each record member := distinct.each record (same.mem_iff.mp member)

theorem sublist {records others : List Record} (distinct : Distinct records) (fewer : others.Sublist records) :
    Distinct others where
  ids := distinct.ids.sublist (fewer.map (·.id))
  each record member := distinct.each record (fewer.subset member)

theorem cons {records : List Record} {record : Record} (distinct : Distinct records)
    (fresh : ∀ other ∈ records, other.id ≠ record.id) (coherent : record.Coherent) :
    Distinct (record :: records) where
  ids := by
    refine List.nodup_cons.mpr ⟨fun member => ?_, distinct.ids⟩
    obtain ⟨other, listed, same⟩ := List.mem_map.mp member
    exact fresh other listed same
  each other member := by
    rcases List.mem_cons.mp member with rfl | member
    · exact coherent
    · exact distinct.each other member

/-- A record may change what is not its identity. -/
theorem replace {front back : List Record} {record changed : Record} (distinct : Distinct (front ++ record :: back))
    (id : changed.id = record.id) (coherent : changed.Coherent) :
    Distinct (front ++ changed :: back) where
  ids := by simpa [id] using distinct.ids
  each other member := by
    rcases List.mem_append.mp member with early | late
    · exact distinct.each other (by simp [early])
    · rcases List.mem_cons.mp late with rfl | late
      · exact coherent
      · exact distinct.each other (by simp [late])

end Distinct

/-! ## In the middle of an operation -/

namespace Memory

/-- The records in the list and the one that is being deleted. -/
def owned (m : Memory) : List Record := m.records ++ (m.detached.map (·.toRecord)).toList

structure Kept (m : Memory) : Prop where
  distinct : Distinct m.held
  numbered : ∀ record ∈ m.owned, ∃ n < m.nextSequence, record.id = containerId n
  restorable : ∀ record ∈ m.restoring, ∃ n < intMax, record.id = containerId n
  drawn : ∀ n, m.draft = some n → n < m.nextSequence ∧ ∀ record ∈ m.held, record.id ≠ containerId n
  stacked : ∀ i c, m.registry[i]? = some c → c.state ≠ .RUNNING → c.stack = true → m.starting = some i
  parted : ∀ c, m.detached = some c → c.stack = false

/-- In a settled memory nothing is on its way. -/
theorem Kept.sound {m : Memory} (kept : m.Kept) (settled : m.Settled) : m.Sound := by
  have all : m.held = m.records := by simp [held, settled.restoring, settled.detached]
  have listed : ∀ c ∈ m.registry, c.toRecord ∈ m.held := fun c member => Memory.mem_held member
  refine ⟨?_, fun c member => ?_, fun c member => kept.distinct.each _ (listed c member), fun c member down => ?_⟩
  · have ids := kept.distinct.ids
    rwa [all, records, List.map_map] at ids
  · exact kept.numbered _ (List.mem_append_left _ (List.mem_map_of_mem member))
  · obtain ⟨i, inside, here⟩ := List.getElem_of_mem member
    by_contra stack
    have starting := kept.stacked i c (List.getElem?_eq_some_iff.mpr ⟨inside, here⟩) down (by simpa using stack)
    rw [settled.starting] at starting
    cases starting

theorem fresh_kept : Memory.fresh.Kept where
  distinct := ⟨List.nodup_nil, fun _ member => absurd member List.not_mem_nil⟩
  numbered _ member := absurd member List.not_mem_nil
  restorable _ member := absurd member List.not_mem_nil
  drawn _ drawn := by cases drawn
  stacked _ _ here := by cases here
  parted _ parted := by cases parted

/-- One record of the list changes in place. -/
theorem Kept.modify {m m' : Memory} {i : Nat} {c : Container} {f : Container → Container} (kept : m.Kept)
    (here : m.registry[i]? = some c) (registry : m'.registry = m.registry.modify i f)
    (same : m'.nextSequence = m.nextSequence ∧ m'.draft = m.draft ∧ m'.detached = m.detached ∧
      m'.restoring = m.restoring)
    (id : (f c).id = c.id) (coherent : (f c).Coherent)
    (stack : (f c).state ≠ .RUNNING → (f c).stack = true → m'.starting = some i)
    (others : ∀ j, j ≠ i → m.starting = some j → m'.starting = some j) : m'.Kept := by
  obtain ⟨front, back, parts, position, modified, -⟩ := List.split_at here
  obtain ⟨next, draft, detached, restoring⟩ := same
  have changed : m'.registry = front ++ f c :: back := registry.trans (modified f)
  have owned_eq : m.owned = front.map (·.toRecord) ++ c.toRecord ::
      (back.map (·.toRecord) ++ (m.detached.map (·.toRecord)).toList) := by simp [owned, records, parts]
  have owned_eq' : m'.owned = front.map (·.toRecord) ++ (f c).toRecord ::
      (back.map (·.toRecord) ++ (m.detached.map (·.toRecord)).toList) := by simp [owned, records, changed, detached]
  have held_eq : m.held = front.map (·.toRecord) ++ c.toRecord ::
      (back.map (·.toRecord) ++ m.restoring ++ (m.detached.map (·.toRecord)).toList) := by
    simp [held, records, parts]
  have held_eq' : m'.held = front.map (·.toRecord) ++ (f c).toRecord ::
      (back.map (·.toRecord) ++ m.restoring ++ (m.detached.map (·.toRecord)).toList) := by
    simp [held, records, changed, detached, restoring]
  have ids : m'.held.map (·.id) = m.held.map (·.id) := by simp [held_eq, held_eq', id]
  have owned_ids : m'.owned.map (·.id) = m.owned.map (·.id) := by simp [owned_eq, owned_eq', id]
  refine ⟨?_, ?_, ?_, ?_, ?_, ?_⟩
  · rw [held_eq']
    exact (held_eq ▸ kept.distinct).replace id coherent
  · intro record member
    have listed : record.id ∈ m.owned.map (·.id) := owned_ids ▸ List.mem_map_of_mem member
    obtain ⟨before, there, named⟩ := List.mem_map.mp listed
    rw [next, ← named]
    exact kept.numbered before there
  · rw [restoring]
    exact kept.restorable
  · intro n drawn
    rw [next]
    refine ⟨(kept.drawn n (draft ▸ drawn)).1, fun record member => ?_⟩
    have listed : record.id ∈ m.held.map (·.id) := ids ▸ List.mem_map_of_mem member
    obtain ⟨before, there, named⟩ := List.mem_map.mp listed
    rw [← named]
    exact (kept.drawn n (draft ▸ drawn)).2 before there
  · intro j d at_j down stacked
    by_cases moved : j = i
    · subst moved
      rw [registry, List.getElem?_modify_eq, here] at at_j
      cases at_j
      exact stack down stacked
    · rw [registry, List.getElem?_modify_ne _ _ (Ne.symm moved)] at at_j
      exact others j moved (kept.stacked j d at_j down stacked)
  · rw [detached]
    exact kept.parted

theorem Kept.draw {m : Memory} (kept : m.Kept) (settled : m.Settled) (bounded : m.nextSequence < intMax) :
    m.draw.Kept where
  distinct := kept.distinct
  numbered record member := by
    obtain ⟨n, below, named⟩ := kept.numbered record member
    exact ⟨n, Nat.lt_succ_of_lt below, named⟩
  restorable := kept.restorable
  drawn n drawn := by
    cases drawn
    refine ⟨Nat.lt_succ_self _, fun record member clash => ?_⟩
    have owned_eq : m.held = m.owned := by simp [held, owned, settled.restoring]
    obtain ⟨n, below, named⟩ := kept.numbered record (owned_eq ▸ member)
    have same := containerId_injective (by omega) (Nat.le_of_lt bounded) (named.symm.trans clash)
    omega
  stacked := kept.stacked
  parted := kept.parted

theorem Kept.enroll {m : Memory} {spec : ContainerSpec} {sequence : Nat} {resolved : ResolvedPath} (kept : m.Kept)
    (drawn : m.draft = some sequence) : (m.enroll (createdRecord spec sequence resolved.1)).Kept := by
  set record := createdRecord spec sequence resolved.1 with record_eq
  obtain ⟨below, fresh⟩ := kept.drawn sequence drawn
  have grown : (m.enroll record).held.Perm (record :: m.held) := by
    simp only [held, records, Memory.enroll, List.map_append, List.map_cons, List.map_nil, List.append_assoc]
    exact List.perm_middle
  refine ⟨?_, ?_, kept.restorable, ?_, ?_, kept.parted⟩
  · refine (kept.distinct.cons (fun other member => ?_) ?_).perm grown
    · exact fresh other member
    · exact Record.coherent_of_down ContainerState.noConfusion rfl
  · intro other member
    have listed : other ∈ m.owned ∨ other = record := by
      simp only [owned, records, Memory.enroll, List.map_append, List.map_cons, List.map_nil, List.mem_append,
        List.mem_singleton] at member ⊢
      tauto
    rcases listed with known | rfl
    · exact kept.numbered other known
    · exact ⟨sequence, below, rfl⟩
  · intro n absurd
    cases absurd
  · intro i c here down stacked
    simp only [Memory.enroll] at here ⊢
    rcases List.getElem?_concat_cases here with early | rfl
    · exact kept.stacked i c early down stacked
    · cases stacked

/-- Records leave the manager's hands. -/
theorem Kept.fewer {m m' : Memory} (kept : m.Kept) (held : m'.held.Sublist m.held) (owned : m'.owned.Sublist m.owned)
    (next : m'.nextSequence = m.nextSequence) (restoring : m'.restoring = m.restoring)
    (draft : ∀ n, m'.draft = some n → m.draft = some n)
    (stacked : ∀ i c, m'.registry[i]? = some c → c.state ≠ .RUNNING → c.stack = true → m'.starting = some i)
    (parted : ∀ c, m'.detached = some c → c.stack = false) : m'.Kept where
  distinct := kept.distinct.sublist held
  numbered record member := next ▸ kept.numbered record (owned.subset member)
  restorable := restoring ▸ kept.restorable
  drawn n drawn := by
    obtain ⟨below, fresh⟩ := kept.drawn n (draft n drawn)
    exact ⟨next ▸ below, fun record member => fresh record (held.subset member)⟩
  stacked := stacked
  parted := parted

theorem Kept.unenroll {m : Memory} (kept : m.Kept) (settled : m.Settled) : m.unenroll.Kept := by
  have fewer : m.unenroll.registry.Sublist m.registry := List.dropLast_sublist _
  have shorter : m.unenroll.records.Sublist m.records := fewer.map _
  refine kept.fewer ((shorter.append_right _).append_right _) (shorter.append_right _) rfl rfl (fun _ drawn => drawn)
    (fun i c here down stacked => ?_) kept.parted
  have stackless := (kept.sound settled).stackless c (fewer.subset (List.mem_of_getElem? here)) down
  exact absurd stacked (by simp [stackless])

theorem Kept.detach {m : Memory} {i : Nat} {c : Container} (kept : m.Kept) (settled : m.Settled)
    (here : m.registry[i]? = some c) (down : c.state ≠ .RUNNING) : (m.detach i c).Kept := by
  obtain ⟨front, back, parts, -, -, erased⟩ := List.split_at here
  have sound := kept.sound settled
  have before : m.records = front.map (·.toRecord) ++ c.toRecord :: back.map (·.toRecord) := by
    rw [records, parts, List.map_append, List.map_cons]
  have after : (m.detach i c).records = front.map (·.toRecord) ++ back.map (·.toRecord) := by
    rw [records, Memory.detach, erased, List.map_append]
  have moved : (m.detach i c).held.Perm m.held := by
    rw [held, after, held, before, settled.detached, settled.restoring, Memory.detach, settled.restoring]
    simp only [Option.map_some, Option.toList_some, Option.map_none, Option.toList_none, List.append_nil]
    exact (List.perm_append_singleton _ _).trans List.perm_middle.symm
  have owned_eq : (m.detach i c).owned = (m.detach i c).held := by
    simp [owned, held, Memory.detach, settled.restoring]
  have owned_eq' : m.owned = m.held := by simp [owned, held, settled.restoring]
  refine ⟨kept.distinct.perm moved, fun record member => ?_, kept.restorable, fun n drawn => ?_,
    fun j d at_j off stacked => ?_, fun d parted => ?_⟩
  · exact kept.numbered record (owned_eq' ▸ moved.mem_iff.mp (owned_eq ▸ member))
  · exact absurd (drawn.symm.trans settled.draft) (by simp)
  · have member : d ∈ m.registry := (List.eraseIdx_sublist _ _).subset (List.mem_of_getElem? at_j)
    exact absurd stacked (by simp [sound.stackless d member off])
  · cases parted
    exact sound.stackless c (List.mem_of_getElem? here) down

theorem Kept.reattach {m : Memory} {c : Container} (kept : m.Kept) (parted : m.detached = some c) :
    (m.reattach c).Kept := by
  have moved : (m.reattach c).held.Perm m.held := by
    simp only [held, records, Memory.reattach, parted, List.map_append, List.map_cons, List.map_nil, Option.map_some,
      Option.toList_some, Option.map_none, Option.toList_none, List.append_nil, List.append_assoc]
    exact (List.perm_append_comm).append_left _
  have owned_eq : (m.reattach c).owned = m.owned := by simp [owned, records, Memory.reattach, parted]
  refine ⟨kept.distinct.perm moved, fun record member => kept.numbered record (owned_eq ▸ member), kept.restorable,
    fun n drawn => ?_, fun i d here down stacked => ?_, fun d absurd => by cases absurd⟩
  · obtain ⟨below, fresh⟩ := kept.drawn n drawn
    exact ⟨below, fun record member => fresh record (moved.mem_iff.mp member)⟩
  · rcases List.getElem?_concat_cases here with early | rfl
    · exact kept.stacked i d early down stacked
    · exact absurd stacked (by simp [kept.parted d parted])

theorem Kept.discard {m : Memory} (kept : m.Kept) : Kept { m with detached := none } := by
  refine kept.fewer ?_ ?_ rfl rfl (fun _ drawn => drawn) kept.stacked (fun _ absurd => by cases absurd)
  · exact (List.Sublist.refl _).append (List.nil_sublist _)
  · exact (List.Sublist.refl _).append (List.nil_sublist _)

theorem revived_coherent {record : Record} (coherent : record.Coherent) (alive : Bool) :
    (revived record alive).Coherent := by
  unfold revived
  split
  · exact Record.coherent_of_down ContainerState.noConfusion rfl
  · exact coherent

theorem revived_id (record : Record) (alive : Bool) : (revived record alive).id = record.id := by
  unfold revived
  split <;> rfl

theorem revived_onward {record : Record} (left : record.state ≠ .CREATED) (alive : Bool) :
    (revived record alive).state ≠ .CREATED := by
  unfold revived
  split
  · exact ContainerState.noConfusion
  · exact left

theorem revived_made {record : Record} (made : record.Made) (alive : Bool) : (revived record alive).Made := by
  unfold revived
  split
  · exact made.changed (-1) .STOPPED
  · exact made

theorem le_updateNextSequence (id : Text) (next : Nat) : next ≤ updateNextSequence id next := by
  unfold updateNextSequence
  cases scanInt (lit "container-") id with
  | none => exact Nat.le_refl _
  | some value =>
    simp only
    split <;> omega

/-- `update_next_sequence` makes room for every number it reads. -/
theorem lt_updateNextSequence {n : Nat} (next : Nat) (bounded : n < intMax) :
    n < updateNextSequence (containerId n).text next := by
  rw [updateNextSequence, scanInt_containerId (Nat.le_of_lt bounded)]
  simp only
  split <;> omega

/-- It makes no more room than that. -/
theorem updateNextSequence_le {n next bound : Nat} (below : n < bound) (small : next ≤ bound) (bounded : bound ≤ intMax) :
    updateNextSequence (containerId n).text next ≤ bound := by
  rw [updateNextSequence, scanInt_containerId (by omega)]
  simp only
  split <;> omega

theorem Kept.restore {m : Memory} {record : Record} {rest : List Record} (kept : m.Kept)
    (next : m.restoring = record :: rest) (alive : Bool) : (m.restore record alive rest).Kept := by
  obtain ⟨n, bounded, named⟩ := kept.restorable record (by simp [next])
  have later := le_updateNextSequence record.id.text m.nextSequence
  have below := lt_updateNextSequence m.nextSequence bounded
  rw [← named] at below
  have id := revived_id record alive
  have held_eq : m.held = m.records ++ record :: (rest ++ (m.detached.map (·.toRecord)).toList) := by
    simp [held, next]
  have held_eq' : (m.restore record alive rest).held =
      m.records ++ revived record alive :: (rest ++ (m.detached.map (·.toRecord)).toList) := by
    simp [held, records, Memory.restore]
  have before := kept.distinct.each record (by rw [held_eq]; simp)
  have ids : (m.restore record alive rest).held.map (·.id) = m.held.map (·.id) := by simp [held_eq, held_eq', id]
  refine ⟨?_, fun other member => ?_, fun other member => ?_, fun k drawn => ?_, fun i c here down stacked => ?_,
    kept.parted⟩
  · rw [held_eq']
    exact (held_eq ▸ kept.distinct).replace id (revived_coherent before alive)
  · have listed : other ∈ m.owned ∨ other = revived record alive := by
      simp only [owned, records, Memory.restore, List.map_append, List.map_cons, List.map_nil, List.mem_append,
        List.mem_singleton] at member ⊢
      tauto
    rcases listed with known | rfl
    · obtain ⟨k, small, same⟩ := kept.numbered other known
      exact ⟨k, Nat.lt_of_lt_of_le small later, same⟩
    · exact ⟨n, below, id.trans named⟩
  · exact kept.restorable other (by rw [next]; exact List.mem_cons_of_mem _ member)
  · obtain ⟨small, fresh⟩ := kept.drawn k drawn
    refine ⟨Nat.lt_of_lt_of_le small later, fun other member clash => ?_⟩
    have listed : other.id ∈ m.held.map (·.id) := ids ▸ List.mem_map_of_mem member
    obtain ⟨earlier, there, same⟩ := List.mem_map.mp listed
    exact fresh earlier there (same.trans clash)
  · rcases List.getElem?_concat_cases here with early | rfl
    · exact kept.stacked i c early down stacked
    · cases stacked

end Memory

/-! ## Along a chain of moves -/

theorem Move.nextSequence_le {w w' : World} (move : Move w w') : w.memory.nextSequence ≤ w'.memory.nextSequence := by
  cases move with
  | quiet _ quiet => rw [quiet.memory]
  | draw settled => exact Nat.le_succ _
  | _ => exact Nat.le_refl _

theorem Move.kept {w w' : World} (move : Move w w') (bounded : w'.memory.nextSequence ≤ intMax)
    (kept : w.memory.Kept) : w'.memory.Kept := by
  cases move with
  | quiet _ quiet => rwa [quiet.memory]
  | kill | wait | signal | killInflight | waitInflight | enable | disable | sweep | sweepNext | swept => exact kept
  | reap | clone | reapInflight | leakInflight => exact { kept with }
  | retire i c here running nobody gone =>
    refine kept.modify here rfl ⟨rfl, rfl, rfl, rfl⟩ rfl ?_ ?_ fun _ _ starting => starting
    · exact Record.coherent_of_down ContainerState.noConfusion rfl
    · exact fun _ stack => by cases stack
  | beginStart i c here down settled =>
    refine kept.modify here rfl ⟨rfl, rfl, rfl, rfl⟩ rfl ?_ (fun _ _ => rfl) fun j _ starting => ?_
    · exact (kept.sound settled).coherent c (List.mem_of_getElem? here)
    · rw [settled.starting] at starting
      cases starting
  | abortStart i c starting here down nobody =>
    refine kept.modify here rfl ⟨rfl, rfl, rfl, rfl⟩ rfl ?_ ?_ fun j other started => ?_
    · exact kept.distinct.each c.toRecord (Memory.mem_held (List.mem_of_getElem? here))
    · exact fun _ stack => by cases stack
    · exact absurd (Option.some.inj (started.symm.trans starting)) other
  | adopt i c pid starting here down inflight positive =>
    refine kept.modify here rfl ⟨rfl, rfl, rfl, rfl⟩ rfl ?_ ?_ fun j other started => ?_
    · exact ⟨⟨fun _ => positive, fun _ => rfl⟩, fun absurd => (absurd rfl).elim⟩
    · exact fun absurd => (absurd rfl).elim
    · exact absurd (Option.some.inj (started.symm.trans starting)) other
  | draw settled => exact kept.draw settled bounded
  | abandon => exact { kept with drawn := fun _ drawn => by cases drawn }
  | enroll spec sequence resolved drawn nobody => exact kept.enroll drawn
  | unenroll c last created settled => exact kept.unenroll settled
  | detach i c here down settled => exact kept.detach settled here down
  | reattach c detached nobody => exact kept.reattach detached
  | discard => exact kept.discard

theorem BootMove.nextSequence_le {file : Text} {w w' : World} (move : BootMove file w w') :
    w.memory.nextSequence ≤ w'.memory.nextSequence := by
  cases move with
  | move _ move => exact move.nextSequence_le
  | load => exact Nat.le_refl _
  | restore record rest next => exact Memory.le_updateNextSequence _ _

/-! ## Where the records come from -/

theorem Move.made {w w' : World} (move : Move w w') (made : ∀ record ∈ w.memory.held, record.Made) :
    ∀ record ∈ w'.memory.held, record.Made := by
  have listed : ∀ {i : Nat} {c : Container}, w.memory.registry[i]? = some c → c.toRecord.Made := fun here =>
    made _ (Memory.mem_held (List.mem_of_getElem? here))
  cases move with
  | quiet _ quiet => rwa [quiet.memory]
  | kill | wait | signal | killInflight | waitInflight | enable | disable | sweep | sweepNext | swept => exact made
  | reap | clone | reapInflight | leakInflight | draw | abandon => exact made
  | retire i c here running nobody gone =>
    intro record member
    rcases Memory.mem_held_retire here member with known | rfl
    · exact made record known
    · exact (listed here).changed (-1) .STOPPED
  | beginStart i c here down settled => exact fun record member => made record (Memory.mem_held_beginStart here member)
  | abortStart i c starting here down nobody =>
    exact fun record member => made record (Memory.mem_held_abortStart here member)
  | adopt i c pid starting here down inflight positive =>
    intro record member
    rcases Memory.mem_held_adopt here member with known | rfl
    · exact made record known
    · exact (listed here).changed pid .RUNNING
  | enroll spec sequence resolved drawn nobody =>
    intro record member
    rcases Memory.mem_held_enroll member with known | rfl
    · exact made record known
    · exact .created spec sequence resolved.2
  | unenroll c last created settled => exact fun record member => made record (Memory.mem_held_unenroll member)
  | detach i c here down settled => exact fun record member => made record (Memory.mem_held_detach here member)
  | reattach c detached nobody => exact fun record member => made record (Memory.mem_held_reattach detached member)
  | discard => exact fun record member => made record (Memory.mem_held_discard member)

theorem BootMove.made {file : Text} {w w' : World} (move : BootMove file w w') (made : ∀ record ∈ w.memory.held, record.Made) :
    ∀ record ∈ w'.memory.held, record.Made := by
  cases move with
  | move _ move => exact move.made made
  | load stored fresh never =>
    intro record member
    simp only [World.remember, fresh, Memory.held, Memory.records, Memory.fresh, List.map_nil, List.nil_append,
      Option.map_none, Option.toList_none, List.append_nil] at member
    exact made_of_decodeRegistry member
  | restore record rest next nobody =>
    intro other member
    rcases Memory.mem_held_restore next member with known | ⟨rfl, known⟩
    · exact made other known
    · exact Memory.revived_made (made record known) _

/-- What a manager can have in its memory at any moment, whatever file it found. -/
inductive Memory.Reached : Memory → Prop
  | fresh : Memory.fresh.Reached
  | moved {file : Text} {w w' : World} (reached : w.memory.Reached) (move : BootMove file w w') : w'.memory.Reached

theorem Memory.Reached.made {m : Memory} (reached : m.Reached) : ∀ record ∈ m.held, record.Made := by
  induction reached with
  | fresh => exact fun _ member => absurd member List.not_mem_nil
  | moved _ move ih => exact move.made ih

theorem Memory.Reached.filled {m : Memory} (reached : m.Reached) : ∀ c ∈ m.registry, c.Filled := fun _ member =>
  (reached.made _ (Memory.mem_held member)).filled

theorem Memory.Reached.chain {file : Text} {w w' : World} (reached : w.memory.Reached)
    (chain : Relation.ReflTransGen (BootMove file) w w') : w'.memory.Reached := by
  induction chain with
  | refl => exact reached
  | tail _ move ih => exact ih.moved move

/-- A file that `save_metadata` can have written for a sound registry with clean texts. -/
structure StoredSound (file : Text) : Prop where
  distinct : Distinct (decodeRegistry file)
  restorable : ∀ record ∈ decodeRegistry file, ∃ n < intMax, record.id = containerId n

theorem BootMove.kept {file : Text} {w w' : World} (stored : StoredSound file) (move : BootMove file w w')
    (bounded : w'.memory.nextSequence ≤ intMax) (kept : w.memory.Kept) : w'.memory.Kept := by
  cases move with
  | move _ move => exact move.kept bounded kept
  | load _ fresh =>
    simp only [World.remember, fresh]
    refine { Memory.fresh_kept with distinct := ?_, restorable := stored.restorable, drawn := fun _ drawn => by cases drawn }
    simpa [Memory.held, Memory.records, Memory.fresh] using stored.distinct
  | restore record rest next => exact kept.restore next _

/-! ## No way back to CREATED -/

/-- How the records of an earlier moment have fared. -/
structure Memory.Follows (before m : Memory) : Prop where
  later : before.nextSequence ≤ m.nextSequence
  drawn : ∀ n, m.draft = some n → before.nextSequence ≤ n
  onward : ∀ c ∈ before.registry, ∀ record ∈ m.owned, record.id = c.id → c.state ≠ .CREATED →
    record.state ≠ .CREATED

namespace Memory.Follows

variable {before m m' : Memory}

theorem refl (sound : m.Sound) (settled : m.Settled) : m.Follows m where
  later := Nat.le_refl _
  drawn n drawn := by
    rw [settled.draft] at drawn
    cases drawn
  onward c member record listed same left := by
    have owned_eq : m.owned = m.registry.map (·.toRecord) := by simp [owned, records, settled.detached]
    rw [owned_eq] at listed
    obtain ⟨d, there, rfl⟩ := List.mem_map.mp listed
    rwa [List.inj_on_of_nodup_map sound.distinct there member same]

/-- Every record there was, or its successor, is one that was there before. -/
theorem of_owned (follows : before.Follows m) (later : m.nextSequence ≤ m'.nextSequence)
    (drawn : ∀ n, m'.draft = some n → m.draft = some n ∨ m.nextSequence ≤ n)
    (owned : ∀ record ∈ m'.owned, ∃ earlier ∈ m.owned, record.id = earlier.id ∧
      (earlier.state ≠ .CREATED → record.state ≠ .CREATED)) : before.Follows m' where
  later := Nat.le_trans follows.later later
  drawn n now := by
    rcases drawn n now with held | beyond
    · exact follows.drawn n held
    · exact Nat.le_trans follows.later beyond
  onward c member record listed same left := by
    obtain ⟨earlier, there, named, onward⟩ := owned record listed
    exact onward (follows.onward c member earlier there (named.symm.trans same) left)

theorem modify {i : Nat} {c : Container} {f : Container → Container} (follows : before.Follows m)
    (here : m.registry[i]? = some c) (registry : m'.registry = m.registry.modify i f)
    (same : m'.nextSequence = m.nextSequence ∧ m'.draft = m.draft ∧ m'.detached = m.detached)
    (id : (f c).id = c.id) (onward : c.state ≠ .CREATED → (f c).state ≠ .CREATED) : before.Follows m' := by
  obtain ⟨front, back, parts, -, modified, -⟩ := List.split_at here
  obtain ⟨next, draft, detached⟩ := same
  apply follows.of_owned (Nat.le_of_eq next.symm) (fun n drawn => .inl (draft ▸ drawn))
  intro record listed
  have changed : m'.registry = front ++ f c :: back := registry.trans (modified f)
  have inside : record = (f c).toRecord ∨ record ∈ m.owned := by
    simp only [owned, records, changed, detached, parts, List.map_append, List.map_cons,
      List.mem_append, List.mem_cons] at listed ⊢
    tauto
  rcases inside with rfl | known
  · refine ⟨c.toRecord, ?_, id, onward⟩
    exact List.mem_append_left _ (List.mem_map_of_mem (List.mem_of_getElem? here))
  · exact ⟨record, known, rfl, fun left => left⟩

end Memory.Follows

theorem Move.follows {before : Memory} {w w' : World} (move : Move w w') (sound : before.Sound)
    (bounded : w'.memory.nextSequence ≤ intMax) (kept : w.memory.Kept) (follows : before.Follows w.memory) :
    before.Follows w'.memory := by
  have subset : ∀ {m' : Memory}, m'.nextSequence = w.memory.nextSequence →
      (∀ n, m'.draft = some n → w.memory.draft = some n) → (∀ record ∈ m'.owned, record ∈ w.memory.owned) →
      before.Follows m' := fun next drawn fewer =>
    follows.of_owned (Nat.le_of_eq next.symm) (fun n now => .inl (drawn n now)) fun record listed =>
      ⟨record, fewer record listed, rfl, fun left => left⟩
  cases move with
  | quiet _ quiet => rwa [quiet.memory]
  | kill | wait | signal | killInflight | waitInflight | enable | disable | sweep | sweepNext | swept => exact follows
  | reap | clone | reapInflight | leakInflight => exact { follows with }
  | retire i c here => exact follows.modify here rfl ⟨rfl, rfl, rfl⟩ rfl fun _ => ContainerState.noConfusion
  | beginStart i c here => exact follows.modify here rfl ⟨rfl, rfl, rfl⟩ rfl fun left => left
  | abortStart i c _ here => exact follows.modify here rfl ⟨rfl, rfl, rfl⟩ rfl fun left => left
  | adopt i c pid _ here => exact follows.modify here rfl ⟨rfl, rfl, rfl⟩ rfl fun _ => ContainerState.noConfusion
  | draw settled =>
    refine follows.of_owned (Nat.le_succ _) (fun n drawn => .inr ?_) fun record listed =>
      ⟨record, listed, rfl, fun left => left⟩
    cases drawn
    exact Nat.le_refl _
  | abandon => exact subset rfl (fun _ drawn => by cases drawn) fun _ listed => listed
  | enroll spec sequence resolved drawn nobody =>
    refine ⟨follows.later, (fun _ absurd => by cases absurd), fun c member record listed same left => ?_⟩
    have inside : record ∈ w.memory.owned ∨ record = createdRecord spec sequence resolved.1 := by
      simp only [World.enrolled, World.observe, World.remember, Memory.enroll, Memory.owned, Memory.records, List.map_append, List.map_cons,
        List.map_nil, List.mem_append, List.mem_singleton] at listed ⊢
      tauto
    rcases inside with known | rfl
    · exact follows.onward c member record known same left
    · -- The drawn number is beyond every number the earlier registry had used.
      obtain ⟨k, below, named⟩ := sound.numbered c member
      have beyond := follows.drawn sequence drawn
      have small := (kept.drawn sequence drawn).1
      have clash : containerId sequence = containerId k := same.trans named
      have bound : w.memory.nextSequence ≤ intMax := bounded
      have := containerId_injective (by omega) (by omega) clash
      omega
  | unenroll c last created settled =>
    refine subset rfl (fun _ drawn => drawn) fun record listed => ?_
    have fewer : w.memory.unenroll.records.Sublist w.memory.records := (List.dropLast_sublist _).map _
    exact (fewer.append_right _).subset listed
  | detach i c here down settled =>
    refine subset rfl (fun _ drawn => drawn) fun record listed => ?_
    have fewer : (w.memory.detach i c).records.Sublist w.memory.records := (List.eraseIdx_sublist _ _).map _
    rcases List.mem_append.mp listed with early | parted
    · exact List.mem_append_left _ (fewer.subset early)
    · simp only [World.remember, Memory.detach, Option.map_some, Option.toList_some, List.mem_singleton] at parted
      rw [parted]
      exact List.mem_append_left _ (List.mem_map_of_mem (List.mem_of_getElem? here))
  | reattach c detached nobody =>
    refine subset rfl (fun _ drawn => drawn) fun record listed => ?_
    simpa [World.remember, Memory.reattach, Memory.owned, Memory.records, detached] using listed
  | discard =>
    refine subset rfl (fun _ drawn => drawn) fun record listed => ?_
    exact ((List.Sublist.refl _).append (List.nil_sublist _)).subset listed

/-! ## Sessions -/

theorem kept_of_chain {w w' : World} (chain : Relation.ReflTransGen Move w w')
    (bounded : w'.memory.nextSequence ≤ intMax) (kept : w.memory.Kept) : w'.memory.Kept := by
  induction chain with
  | refl => exact kept
  | tail _ move ih => exact move.kept bounded (ih (Nat.le_trans move.nextSequence_le bounded))

theorem le_nextSequence_of_chain {w w' : World} (chain : Relation.ReflTransGen Move w w') :
    w.memory.nextSequence ≤ w'.memory.nextSequence := by
  induction chain with
  | refl => exact Nat.le_refl _
  | tail _ move ih => exact Nat.le_trans ih move.nextSequence_le

theorem kept_of_bootChain {file : Text} (stored : StoredSound file) {w w' : World}
    (chain : Relation.ReflTransGen (BootMove file) w w') (kept : w.memory.Kept)
    (bounded : w'.memory.nextSequence ≤ intMax) : w'.memory.Kept := by
  induction chain with
  | refl => exact kept
  | tail _ move ih => exact move.kept stored bounded (ih (Nat.le_trans move.nextSequence_le bounded))

theorem follows_of_chain {before : Memory} (sound : before.Sound) {w w' : World}
    (chain : Relation.ReflTransGen Move w w') (bounded : w'.memory.nextSequence ≤ intMax) (kept : w.memory.Kept)
    (follows : before.Follows w.memory) : before.Follows w'.memory := by
  induction chain with
  | refl => exact follows
  | tail earlier move ih =>
    have small := Nat.le_trans move.nextSequence_le bounded
    exact move.follows sound bounded (kept_of_chain earlier small kept) (ih small)

/-- `containers.meta` before start-up: missing, or what a manager has written for a sound registry with clean texts. -/
def SavedSound (disk : Option Text) : Prop :=
  disk = none ∨ ∃ m : Memory, m.Reached ∧ m.Sound ∧ m.nextSequence ≤ intMax ∧ (∀ c ∈ m.registry, c.Clean) ∧
    disk = some (encodeRegistry m.records)

section

variable {m : Memory}

theorem Memory.read_back (good : ∀ c ∈ m.registry, c.Filled ∧ c.Clean) : decodeRegistry (encodeRegistry m.records) = m.records :=
  decodeRegistry_encodeRegistry (List.forall_mem_map.mpr good)

theorem Memory.Sound.stored (sound : m.Sound) (bounded : m.nextSequence ≤ intMax) (good : ∀ c ∈ m.registry, c.Filled ∧ c.Clean) :
    StoredSound (encodeRegistry m.records) := by
  refine ⟨⟨?_, fun record member => ?_⟩, fun record member => ?_⟩
  · rw [Memory.read_back good, Memory.records, List.map_map]
    exact sound.distinct
  · rw [Memory.read_back good] at member
    obtain ⟨c, listed, rfl⟩ := List.mem_map.mp member
    exact sound.coherent c listed
  · rw [Memory.read_back good] at member
    obtain ⟨c, listed, rfl⟩ := List.mem_map.mp member
    obtain ⟨n, below, named⟩ := sound.numbered c listed
    exact ⟨n, Nat.lt_of_lt_of_le below bounded, named⟩

end

theorem SavedSound.stored {disk : Option Text} (saved : SavedSound disk) : StoredSound (disk.getD []) := by
  rcases saved with rfl | ⟨m, reached, sound, bounded, clean, rfl⟩
  · exact ⟨⟨List.nodup_nil, fun _ member => by cases member⟩, fun _ member => by cases member⟩
  · exact sound.stored bounded fun c listed => ⟨reached.filled c listed, clean c listed⟩

/-- A record whose process is there is taken as it is. -/
theorem revived_present {record : Record} {w : World} (coherent : record.Coherent) (present : w.found record.pid = true) :
    Memory.revived record (w.isPidAlive record.pid) = record := by
  unfold Memory.revived
  split
  · rename_i gone
    have positive := coherent.1.mp gone.1
    have there : w.isPidAlive record.pid = true := by simp [World.isPidAlive, positive, present]
    rw [there] at gone
    cases gone.2
  · rfl

/-- On a host where every process is there, start-up takes all records as they are. -/
theorem bootChain_restores {file : Text} {bound next : Nat} {taken : List Container} {rest : List Record} {w : World}
    (memory : w.memory = { Memory.fresh with registry := taken, nextSequence := next, restoring := rest })
    (present : ∀ pid, w.found pid = true) (each : ∀ record ∈ rest, record.Coherent ∧ ∃ n < bound, record.id = containerId n)
    (small : next ≤ bound) (bounded : bound ≤ intMax) :
    ∃ w', Relation.ReflTransGen (BootMove file) w w' ∧ w'.memory.records = taken.map (·.toRecord) ++ rest ∧ w'.memory.Settled ∧
      w'.memory.nextSequence ≤ bound := by
  induction rest generalizing w taken next with
  | nil =>
    refine ⟨w, .refl, ?_, ?_, ?_⟩
    · rw [memory, List.append_nil]
      rfl
    · rw [memory]
      exact ⟨rfl, rfl, rfl, rfl, rfl, rfl⟩
    · rw [memory]
      exact small
  | cons record rest ih =>
    obtain ⟨⟨coherent, n, below, id⟩, others⟩ := List.forall_mem_cons.mp each
    have first : BootMove file w (w.restored record rest) := .restore w record rest (by rw [memory]) (by rw [memory]; rfl)
    have grown : (w.restored record rest).memory =
        { Memory.fresh with
          registry := taken ++ [⟨record, false⟩]
          nextSequence := Memory.updateNextSequence record.id.text next
          restoring := rest } := by
      simp only [World.restored, World.observe_memory, World.remember, Memory.restore, revived_present coherent (present _), memory]
    have room : Memory.updateNextSequence record.id.text next ≤ bound := id ▸ Memory.updateNextSequence_le below small bounded
    obtain ⟨w', chain, records, settled, fits⟩ := ih grown present others room
    refine ⟨w', .head first chain, ?_, settled, fits⟩
    rw [records, List.map_append, List.append_assoc]
    rfl

/-- A manager can have written every sound registry of clean texts, none of them empty. -/
theorem SavedSound.of_filled {m : Memory} (sound : m.Sound) (bounded : m.nextSequence ≤ intMax)
    (good : ∀ c ∈ m.registry, c.Filled ∧ c.Clean) : SavedSound (some (encodeRegistry m.records)) := by
  have stored := sound.stored bounded good
  -- The manager that reads the file while all processes are there has the same records.
  let host : World := World.initial (fun _ => Tick.calm) fun _ => some ⟨none, false, none, false⟩
  let start : World := { host with disk := some (encodeRegistry m.records) }
  have load : BootMove (encodeRegistry m.records) start _ := .load start rfl rfl rfl
  rw [Memory.read_back good] at load
  have each : ∀ record ∈ m.records, record.Coherent ∧ ∃ n < max 1 m.nextSequence, record.id = containerId n := by
    refine List.forall_mem_map.mpr fun c listed => ⟨sound.coherent c listed, ?_⟩
    obtain ⟨n, below, named⟩ := sound.numbered c listed
    exact ⟨n, by omega, named⟩
  have loaded : (start.remember fun fresh => { fresh with restoring := m.records }).memory =
      { Memory.fresh with registry := [], nextSequence := 1, restoring := m.records } := rfl
  have low : max 1 m.nextSequence ≤ intMax := Nat.max_le.mpr ⟨by decide, bounded⟩
  obtain ⟨w, restores, records, settled, fits⟩ :=
    @bootChain_restores (encodeRegistry m.records) _ _ _ _ _ loaded (fun _ => rfl) each (Nat.le_max_left _ _) low
  have chain := Relation.ReflTransGen.head load restores
  have kept := kept_of_bootChain stored chain Memory.fresh_kept (fits.trans low)
  have reached : w.memory.Reached := .chain .fresh chain
  rw [List.map_nil, List.nil_append] at records
  refine .inr ⟨w.memory, reached, kept.sound settled, fits.trans low, fun c listed => ?_, by rw [records]⟩
  have member : c.toRecord ∈ m.records := records ▸ List.mem_map_of_mem listed
  obtain ⟨d, known, same⟩ := List.mem_map.mp member
  exact same ▸ (good d known).2

/-! ## What start-up makes of the file -/

/-- Every container goes back to one of these records. -/
def Memory.Continues (records : List Record) (m : Memory) : Prop :=
  ∀ c ∈ m.registry, ∃ record ∈ records, c.id = record.id ∧ (record.state ≠ .CREATED → c.state ≠ .CREATED)

section

variable {records : List Record}

theorem continues_sided : Sided Anyhow (·.memory.Continues records) := fun _ _ aside continues => by
  refine ⟨trivial, ?_⟩
  simpa only [Memory.Continues, aside.registry] using continues

theorem continues_log (entry : LogEvent) :
    Spec Anyhow (·.memory.Continues records) (logEventType entry) fun _ w => w.memory.Continues records :=
  continues_sided.still.logEventType (fun _ continues => ⟨trivial, continues⟩) fun _ continues => ⟨trivial, continues⟩

theorem continues_save : Spec Anyhow (·.memory.Continues records) saveMetadata fun _ w => w.memory.Continues records := by
  refine saveMetadata_rule (fun w w' filing continues => ⟨trivial, ?_⟩) (fun _ _ continues _ => ⟨trivial, continues⟩)
    fun _ continues => ⟨trivial, continues⟩
  cases filing with
  | idle _ idle => exact (continues_sided w w' idle.aside continues).2
  | log | miss => exact continues

theorem Memory.Continues.retire {m : Memory} (continues : m.Continues records) (i : Nat) : (m.retire i).Continues records := by
  intro c member
  obtain ⟨j, inside, rfl⟩ := List.getElem_of_mem member
  simp only [Memory.retire, List.length_modify] at inside
  obtain ⟨record, listed, id, onward⟩ := continues _ (List.getElem_mem inside)
  refine ⟨record, listed, ?_⟩
  simp only [Memory.retire, List.getElem_modify]
  split
  · exact ⟨id, fun _ => ContainerState.noConfusion⟩
  · exact ⟨id, onward⟩

theorem continues_retire (i : Nat) {rest : Prog World Bool}
    (later : Spec Anyhow (·.memory.Continues records) rest fun _ w => w.memory.Continues records) :
    Spec Anyhow (·.memory.Continues records) (do modify (·.remember (·.retire i)); rest) fun _ w => w.memory.Continues records :=
  .bind_modify (M := (·.memory.Continues records)) (fun _ _ => trivial) (fun _ continues => continues.retire i) later

theorem continues_poll : Spec Anyhow (·.memory.Continues records) pollStates fun _ w => w.memory.Continues records := by
  refine pollStates_rule (fun i => ?_) continues_save
  have sided : Sided Anyhow (·.memory.Continues records) := continues_sided
  have here := fun c : Container => sided.registry (·[i]? = some c)
  refine syncContainerState_rule (fun c => (here c).waitpidNoHang c.pid) (fun c => (here c).isPidAlive c.pid) ?_ ?_
  · intro c status _
    refine .pre (continues_retire i ?_) fun _ holds => holds.1
    exact .bind (continues_sided.onStopped c.pid) fun _ => .bind (continues_log _) fun _ => .pure fun _ holds => holds
  · intro c _
    refine .bind_modify (M := (·.memory.Continues records)) (fun _ _ => trivial) (fun _ holds => holds.1) ?_
    exact continues_retire i (.bind (continues_log _) fun _ => .pure fun _ holds => holds)

theorem restoreRecords_continues {rest : List Record} (listed : rest ⊆ records) :
    Spec Anyhow (·.memory.Continues records) (restoreRecords rest) fun _ w => w.memory.Continues records := by
  have refuse : ∀ done : Bool, Spec Anyhow (·.memory.Continues records) (pure done) fun _ w => w.memory.Continues records :=
    fun _ => .pure fun _ continues => continues
  induction rest with
  | nil => exact refuse true
  | cons record rest ih =>
    have later := ih fun other member => listed (List.mem_cons_of_mem record member)
    have appended : Spec Anyhow (·.memory.Continues records) (do modify (·.restored record rest); restoreRecords rest)
        fun _ w => w.memory.Continues records := by
      refine .bind_modify (M := (·.memory.Continues records)) (fun _ _ => trivial) (fun w continues c member => ?_) later
      rcases List.mem_append.mp member with early | new
      · exact continues c early
      · rw [List.mem_singleton.mp new]
        exact ⟨record, listed List.mem_cons_self, Memory.revived_id record _, fun left => Memory.revived_onward left _⟩
    apply continues_sided.bind_tick
    intro allocated
    split
    · exact refuse false
    simp only
    split
    · exact continues_sided.bind_tick fun _ => appended
    · exact appended

end

theorem containerManagerInit_continues (disk : Option Text) :
    Spec Anyhow (Launched disk) containerManagerInit fun _ w => w.memory.Continues (decodeRegistry (disk.getD [])) := by
  have empty : ∀ {w : World} {records : List Record}, Launched disk w → w.memory.Continues records := by
    intro w records here c member
    rw [here.memory] at member
    cases member
  have unread : Spec Anyhow (Launched disk) (pure true) fun _ w => w.memory.Continues (decodeRegistry (disk.getD [])) :=
    .pure fun _ here => empty here
  have still : Still Anyhow (Launched disk) := fun w w' idle here => ⟨trivial, here.idle idle⟩
  refine still.bind_tick fun opened => .bind_read disk (fun w here => here.disk) ?_
  cases disk with
  | none => exact unread
  | some file =>
    simp only
    split
    · exact unread
    refine .bind_modify (M := (·.memory.Continues (decodeRegistry file))) (fun _ _ => trivial) (fun _ here => empty here) ?_
    apply Spec.bind (restoreRecords_continues (List.Subset.refl _))
    intro done
    split
    · refine .bind continues_poll fun _ => ?_
      split
      · exact .bind (continues_log _) fun _ => .pure fun _ continues => continues
      · exact .pure fun _ continues => continues
    · exact .pure fun _ continues => continues

theorem World.boot_continues {w : World} (down : w.up = false) :
    (w.run [.boot]).memory.Continues (decodeRegistry (w.disk.getD [])) := by
  have post := (containerManagerInit_continues w.disk w.launched ⟨rfl, rfl, rfl⟩).2
  rw [World.run, List.foldl_cons, List.foldl_nil]
  simp only [World.step, down]
  rcases result : containerManagerInit w.launched with ⟨outcome, v⟩
  rw [result] at post
  rcases outcome with (- | -) | -
  · exact fun _ member => absurd member List.not_mem_nil
  · exact post true rfl
  · exact fun _ member => absurd member List.not_mem_nil

/-- The records of `containers.meta` that start-up puts in the list. -/
def World.taken (w : World) : List Record :=
  (decodeRegistry (w.disk.getD [])).filter (·.id ∈ (w.run [.boot]).memory.registry.map (·.id))

/-! ## Whole sessions -/

theorem World.run_append (w : World) (front back : List Step) : w.run (front ++ back) = (w.run front).run back :=
  List.foldl_append

/-- After start-up and any commands, the manager is gone or between two operations. -/
theorem session_cases {w : World} (down : w.up = false) (saved : SavedSound w.disk) (commands : List Command) :
    let after := w.run (.boot :: commands.map .command)
    (after.up = false ∧ after.memory = .fresh) ∨
      after.up = true ∧ after.memory.Settled ∧ after.memory.Reached ∧
        (after.memory.nextSequence ≤ intMax → after.memory.Kept) := by
  obtain ⟨v, boot, gone | ⟨ready, settled⟩⟩ := w.boot_cases down
  · left
    simp only [World.run, List.foldl_cons, gone]
    have idle := World.run_commands_of_down (w := v.crash) rfl commands
    rw [World.run] at idle
    rw [idle]
    exact ⟨rfl, rfl⟩
  · simp only [World.run, List.foldl_cons, ready]
    have booted : v.memory.Reached := Memory.Reached.chain (w := w.launched) .fresh boot
    rcases World.commands_cases (w := { v with up := true }) commands rfl settled with ⟨chain, up, settled⟩ | lost
    · have moves : Relation.ReflTransGen (BootMove []) _ _ := Relation.ReflTransGen.mono BootMove.move _ _ chain
      have reached := Memory.Reached.chain (w := { v with up := true }) booted moves
      refine .inr ⟨up, settled, reached, fun bounded => kept_of_chain chain bounded ?_⟩
      have small : v.memory.nextSequence ≤ intMax :=
        Nat.le_trans (le_nextSequence_of_chain (w := { v with up := true }) chain) bounded
      have kept : v.memory.Kept := kept_of_bootChain saved.stored boot Memory.fresh_kept small
      exact kept
    · obtain ⟨v, -, gone⟩ := lost
      rw [World.run] at gone
      rw [gone]
      exact .inl ⟨rfl, rfl⟩

theorem session_reached {w : World} (down : w.up = false) (saved : SavedSound w.disk) (commands : List Command) :
    (w.run (.boot :: commands.map .command)).memory.Reached := by
  rcases session_cases down saved commands with ⟨-, lost⟩ | ⟨-, -, reached, -⟩
  · exact lost ▸ .fresh
  · exact reached

theorem session_kept {w : World} (down : w.up = false) (saved : SavedSound w.disk) (commands : List Command)
    (bounded : (w.run (.boot :: commands.map .command)).memory.nextSequence ≤ intMax) :
    (w.run (.boot :: commands.map .command)).memory.Sound := by
  rcases session_cases down saved commands with ⟨-, lost⟩ | ⟨-, settled, -, kept⟩
  · exact lost ▸ Memory.fresh_kept.sound Memory.fresh_settled
  · exact (kept bounded).sound settled

/-- A file that holds the registry of a session, with clean texts, is one the next session may start from. -/
theorem session_saved {w : World} (down : w.up = false) (saved : SavedSound w.disk) (commands : List Command)
    (bounded : (w.run (.boot :: commands.map .command)).memory.nextSequence ≤ intMax)
    (clean : ∀ c ∈ (w.run (.boot :: commands.map .command)).memory.registry, c.Clean) :
    SavedSound (some (encodeRegistry (w.run (.boot :: commands.map .command)).memory.records)) :=
  .inr ⟨_, session_reached down saved commands, session_kept down saved commands bounded, bounded, clean, rfl⟩

/-- What has left CREATED at one moment of a session is not in CREATED later. -/
theorem session_onward {w : World} (down : w.up = false) (saved : SavedSound w.disk) (front back : List Command)
    (bounded : (w.run (.boot :: (front ++ back).map .command)).memory.nextSequence ≤ intMax) :
    (w.run (.boot :: (front ++ back).map .command)).memory.NoReturn (w.run (.boot :: front.map .command)).memory.records := by
  have step : w.run (.boot :: (front ++ back).map .command) = (w.run (.boot :: front.map .command)).run (back.map .command) := by
    rw [List.map_append]
    exact World.run_append w (.boot :: front.map .command) _
  intro record member d listed same left
  rcases session_cases down saved front with ⟨-, lost⟩ | ⟨up, settled, -, kept⟩
  · rw [lost] at member
    cases member
  rcases World.commands_cases back up settled with ⟨chain, -, settled'⟩ | ⟨v, -, lost⟩
  · rw [← step] at chain settled'
    have small := Nat.le_trans (le_nextSequence_of_chain chain) bounded
    have sound := (kept small).sound settled
    have follows := follows_of_chain sound chain bounded (kept small) (.refl sound settled)
    obtain ⟨c, there, rfl⟩ := List.mem_map.mp member
    exact follows.onward c there d.toRecord (List.mem_append_left _ (List.mem_map_of_mem listed)) same left
  · rw [step, lost] at listed
    cases listed

/-- The registry is sound between any two operations, and nothing that has left CREATED returns to it: neither what was in
the list at an earlier moment, nor what start-up has found in the file. -/
theorem session_sound (w : World) (down : w.up = false) (saved : SavedSound w.disk) (front back : List Command)
    (bounded : (w.run (.boot :: (front ++ back).map .command)).memory.nextSequence ≤ intMax) :
    let middle := w.run (.boot :: front.map .command)
    let after := w.run (.boot :: (front ++ back).map .command)
    after.memory.Sound ∧ (∀ c ∈ after.memory.registry, c.Filled) ∧
      after.memory.NoReturn middle.memory.records ∧ after.memory.NoReturn w.taken := by
  intro middle after
  refine ⟨session_kept down saved (front ++ back) bounded, (session_reached down saved (front ++ back)).filled,
    session_onward down saved front back bounded, ?_⟩
  intro record taken d listed same left
  obtain ⟨stored, here⟩ := List.mem_filter.mp taken
  obtain ⟨c, member, id⟩ := List.mem_map.mp (of_decide_eq_true here)
  obtain ⟨origin, there, named, onward⟩ := World.boot_continues down c member
  have one : origin = record := List.inj_on_of_nodup_map saved.stored.distinct.ids there stored (named.symm.trans id)
  have later := session_onward down saved [] (front ++ back) bounded
  exact later c.toRecord (List.mem_map_of_mem member) d listed (same.trans id.symm) (onward (one ▸ left))

/-- A container is started in the background and stopped; the next manager restores it, and makes another one. -/
theorem session_sound_two_managers :
    let w := World.initial (fun _ => Tick.calm) (fun _ => none)
    let spec : ContainerSpec := ⟨some (lit "web"), none, none, some (lit "sleep 9"), .unlimited⟩
    let next := w.run (.boot :: [Command.runbg spec, Command.stop (lit "container-0001")].map .command ++ [.exit])
    let after := next.run (.boot :: ([] ++ [Command.create spec]).map .command)
    next.taken.map (·.state) = [.STOPPED] ∧ after.memory.registry.map (·.state) = [.STOPPED, .CREATED] ∧
      after.memory.Sound ∧ after.memory.NoReturn next.taken := by
  intro w spec next after
  have stored : next.disk = some (encodeRegistry
      (w.run (.boot :: [Command.runbg spec, Command.stop (lit "container-0001")].map .command)).memory.records) := by
    decide +kernel
  have saved : SavedSound next.disk := stored ▸ session_saved rfl (.inl rfl) _ (by decide +kernel) (by decide +kernel)
  have sound := session_sound next (by decide +kernel) saved [] [Command.create spec] (by decide +kernel)
  exact ⟨by decide +kernel, by decide +kernel, sound.1, sound.2.2.2⟩

end ContainerRuntime
