import Mathlib.Logic.Function.Basic
import Mathlib.Logic.Relation

/-! Threads that share a memory under one lock.

A thread takes one step at a time: it takes the lock, accesses the memory once,
gives the lock back, or does something that others can see. The steps of the
threads come in any order. Where each thread accesses the memory only between
taking the lock and giving it back, every run is one in which what a thread does
in between is a single step.
-/

set_option autoImplicit false

namespace Mutex

/-- What a thread does next. What a section is to find outside the memory is settled when the lock is taken. -/
inductive Doing (σ κ α ε : Type) where
  | lock (enter : α → κ)
  | access (act : σ → Option (σ × κ))
  | unlock (next : κ)
  | emit (event : ε) (next : κ)
  | halt

/-- The memory, the thread that has the lock, and the places where the threads are. -/
structure State (ι σ κ : Type) where
  memory : σ
  holder : Option ι
  place : ι → κ

section Machine

variable {ι σ κ α ε : Type} [DecidableEq ι]

/-- A thread has gone on to another place. -/
def State.moved (s : State ι σ κ) (memory : σ) (holder : Option ι) (i : ι) (next : κ) : State ι σ κ :=
  ⟨memory, holder, Function.update s.place i next⟩

variable (code : κ → Doing σ κ α ε)

/-- One step of a thread; it has none while it waits for the lock, and where its access is undefined. -/
def step (s : State ι σ κ) (i : ι) (a : α) : Option (State ι σ κ × List (ι × ε)) :=
  match code (s.place i) with
  | .lock enter => if s.holder = none then some (s.moved s.memory (some i) i (enter a), []) else none
  | .access act => (act s.memory).map fun (memory, next) => (s.moved memory s.holder i next, [])
  | .unlock next => some (s.moved s.memory none i next, [])
  | .emit event next => some (s.moved s.memory s.holder i next, [(i, event)])
  | .halt => none

/-- The turns of the threads, and what others have seen. -/
def run (s : State ι σ κ) : List (ι × α) → Option (State ι σ κ × List (ι × ε))
  | [] => some (s, [])
  | (i, a) :: rest =>
    match step code s i a with
    | none => none
    | some (t, events) => (run t rest).map fun (u, later) => (u, events ++ later)

/-- The thread is about to make an access that is undefined. -/
def Faulty (s : State ι σ κ) (i : ι) : Prop := ∃ act, code (s.place i) = .access act ∧ act s.memory = none

/-- What a thread makes of the memory from a place on until it gives the lock back. -/
inductive Section : κ → σ → σ → κ → Prop where
  | leave (place next : κ) (memory : σ) (unlocks : code place = .unlock next) : Section place memory memory next
  | access (place middle next : κ) (memory between after : σ) (act : σ → Option (σ × κ)) (accesses : code place = .access act)
      (acts : act memory = some (between, middle)) (later : Section middle between after next) : Section place memory after next

/-- A part of a section. -/
inductive Comes (start : κ) (memory : σ) : κ → σ → Prop where
  | here : Comes start memory start memory
  | access (place next : κ) (between after : σ) (act : σ → Option (σ × κ)) (before : Comes start memory place between)
      (accesses : code place = .access act) (acts : act between = some (after, next)) : Comes start memory next after

/-- The runs in which a section is one step, which `atomic` says the effect of, and finds what is allowed. -/
inductive Serially (atomic : κ → α → σ → Option (σ × κ)) (Allowed : α → Prop) :
    σ → (ι → κ) → List (ι × ε) → σ → (ι → κ) → Prop where
  | done (memory : σ) (place : ι → κ) : Serially atomic Allowed memory place [] memory place
  | atomic (memory between after : σ) (place last : ι → κ) (events : List (ι × ε)) (i : ι) (a : α) (next : κ)
      (allowed : Allowed a) (effect : atomic (place i) a memory = some (between, next))
      (later : Serially atomic Allowed between (Function.update place i next) events after last) :
      Serially atomic Allowed memory place events after last
  | emit (memory after : σ) (place last : ι → κ) (events : List (ι × ε)) (i : ι) (event : ε) (next : κ)
      (emits : code (place i) = .emit event next)
      (later : Serially atomic Allowed memory (Function.update place i next) events after last) :
      Serially atomic Allowed memory place ((i, event) :: events) after last

/-- What a thread does at a place stays on its side of the lock. -/
def Respects (Inside : κ → Prop) (place : κ) : Doing σ κ α ε → Prop
  | .lock enter => ¬ Inside place ∧ ∀ a, Inside (enter a)
  | .access act => Inside place ∧ ∀ memory after next, act memory = some (after, next) → Inside next
  | .unlock next => Inside place ∧ ¬ Inside next
  | .emit _ next => ¬ Inside place ∧ ¬ Inside next
  | .halt => ¬ Inside place

/-- The memory is accessed inside the sections only. -/
def Disciplined (Inside : κ → Prop) : Prop := ∀ place, Respects Inside place (code place)

/-- One access after another, where `act` says what an access comes to. -/
def Goes (act : σ → κ → Option (σ × κ)) : σ × κ → σ × κ → Prop :=
  Relation.ReflTransGen fun here there => act here.1 here.2 = some there

/-- Every section comes to its end, with the effect that `atomic` says, from a memory that is as it should be. -/
def Implements (atomic : κ → α → σ → Option (σ × κ)) (Good : σ → Prop) : Prop :=
  ∀ place enter a memory, code place = .lock enter → Good memory →
    ∃ after next, Section code (enter a) memory after next ∧ atomic place a memory = some (after, next) ∧ Good after

end Machine

section Simulation

variable {ι σ κ α ε : Type} [DecidableEq ι] {code : κ → Doing σ κ α ε} {atomic : κ → α → σ → Option (σ × κ)}
  {Inside : κ → Prop} {Allowed : α → Prop} {Good : σ → Prop} {s t : State ι σ κ} {memory between after : σ}
  {place next first : κ} {last : ι → κ}

@[simp] theorem State.moved_memory (holder : Option ι) (i : ι) : (s.moved memory holder i next).memory = memory := rfl

@[simp] theorem State.moved_holder (holder : Option ι) (i : ι) : (s.moved memory holder i next).holder = holder := rfl

@[simp] theorem State.moved_self (holder : Option ι) (i : ι) : (s.moved memory holder i next).place i = next := by
  simp [State.moved]

theorem State.moved_other {holder : Option ι} {i j : ι} (elsewhere : j ≠ i) :
    (s.moved memory holder i next).place j = s.place j := by
  simp [State.moved, elsewhere]

theorem Disciplined.lock (disciplined : Disciplined code Inside) {enter : α → κ} (locks : code place = .lock enter) :
    ¬ Inside place ∧ ∀ a, Inside (enter a) := by
  have respects := disciplined place
  rw [locks] at respects
  exact respects

theorem Disciplined.access (disciplined : Disciplined code Inside) {act : σ → Option (σ × κ)}
    (accesses : code place = .access act) :
    Inside place ∧ ∀ memory after next, act memory = some (after, next) → Inside next := by
  have respects := disciplined place
  rw [accesses] at respects
  exact respects

theorem Disciplined.unlock (disciplined : Disciplined code Inside) (unlocks : code place = .unlock next) :
    Inside place ∧ ¬ Inside next := by
  have respects := disciplined place
  rw [unlocks] at respects
  exact respects

theorem Disciplined.emit (disciplined : Disciplined code Inside) {event : ε} (emits : code place = .emit event next) :
    ¬ Inside place ∧ ¬ Inside next := by
  have respects := disciplined place
  rw [emits] at respects
  exact respects

theorem Disciplined.halt (disciplined : Disciplined code Inside) (halts : code place = .halt) : ¬ Inside place := by
  have respects := disciplined place
  rw [halts] at respects
  exact respects

section Accesses

variable {spots : Type} {act : σ → spots → Option (σ × spots)} {spot elsewhere : spots} {last here : σ × spots}

theorem Goes.head (acts : act memory spot = some (after, elsewhere)) (later : Goes act (after, elsewhere) last) :
    Goes act (memory, spot) last := Relation.ReflTransGen.head acts later

theorem Goes.single (acts : act memory spot = some last) : Goes act (memory, spot) last := Relation.ReflTransGen.single acts

theorem Goes.trans {middle : σ × spots} (goes : Goes act here middle) (later : Goes act middle last) : Goes act here last :=
  Relation.ReflTransGen.trans goes later

/-- Accesses up to an unlock, each of them one of the code. -/
theorem Goes.section (into : spots → κ)
    (accesses : ∀ s spot there, act s spot = some there →
      code (into spot) = .access fun s => (act s spot).map (Prod.map id into))
    (unlocks : code (into spot) = .unlock next) (goes : Goes act here (after, spot)) :
    Section code (into here.2) here.1 after next := by
  induction goes using Relation.ReflTransGen.head_induction_on with
  | refl => exact .leave _ _ _ unlocks
  | head first _ ih => exact .access _ _ _ _ _ _ _ (accesses _ _ _ first) (by rw [first]; rfl) ih

end Accesses

theorem Section.unique (once : Section code place memory after next) {other : σ} {elsewhere : κ}
    (again : Section code place memory other elsewhere) : after = other ∧ next = elsewhere := by
  induction once with
  | leave place next memory unlocks =>
    cases again with
    | leave _ _ _ unlocks' =>
      cases unlocks.symm.trans unlocks'
      exact ⟨rfl, rfl⟩
    | access _ _ _ _ _ _ _ accesses => cases unlocks.symm.trans accesses
  | access place middle next memory between after act accesses acts _ ih =>
    cases again with
    | leave _ _ _ unlocks => cases accesses.symm.trans unlocks
    | access _ _ _ _ _ _ _ accesses' acts' later =>
      cases accesses.symm.trans accesses'
      cases acts.symm.trans acts'
      exact ih later

/-- What is left of a section. -/
theorem Comes.rest (comes : Comes code first memory place between) (whole : Section code first memory after next) :
    Section code place between after next := by
  induction comes with
  | here => exact whole
  | access place next' between after' act _ accesses acts ih =>
    cases ih with
    | leave _ _ _ unlocks => cases accesses.symm.trans unlocks
    | access _ _ _ _ _ _ _ accesses' acts' later =>
      cases accesses.symm.trans accesses'
      cases acts.symm.trans acts'
      exact later

/-- The state of a run, and that of a run in which the section under way has not begun yet. -/
structure Follows (code : κ → Doing σ κ α ε) (Inside : κ → Prop) (Allowed : α → Prop) (s : State ι σ κ) (memory : σ)
    (last : ι → κ) : Prop where
  exclusive : ∀ i, Inside (s.place i) ↔ s.holder = some i
  others : ∀ i, s.holder ≠ some i → s.place i = last i
  free : s.holder = none → s.memory = memory
  taken : ∀ i, s.holder = some i → ∃ enter a, Allowed a ∧ code (last i) = .lock enter ∧
    Comes code (enter a) memory (s.place i) s.memory

omit [DecidableEq ι] in
theorem Follows.start (free : s.holder = none) (outside : ∀ i, ¬ Inside (s.place i)) :
    Follows code Inside Allowed s s.memory s.place where
  exclusive i := by simp [free, outside]
  others _ _ := rfl
  free _ := rfl
  taken i held := by cases free.symm.trans held

/-- A thread that moves takes part in nothing but its own place. -/
theorem exclusive_moved {holder : Option ι} {i : ι} (exclusive : ∀ j, Inside (s.place j) ↔ s.holder = some j)
    (here : Inside next ↔ holder = some i) (others : ∀ j, j ≠ i → (s.holder = some j ↔ holder = some j)) (j : ι) :
    Inside ((s.moved memory holder i next).place j) ↔ (s.moved memory holder i next).holder = some j := by
  by_cases same : j = i
  · rw [same, State.moved_self]
    exact here
  · rw [State.moved_other same]
    exact (exclusive j).trans (others j same)

theorem moved_place {holder : Option ι} {i j : ι} (others : j ≠ i → s.place j = last j) :
    (s.moved memory holder i next).place j = Function.update last i next j := by
  by_cases same : j = i
  · rw [same, State.moved_self, Function.update_self]
  · rw [State.moved_other same, Function.update_of_ne same]
    exact others same

theorem Follows.lock (disciplined : Disciplined code Inside) (follows : Follows code Inside Allowed s memory last) {i : ι}
    {a : α} {enter : α → κ} (allowed : Allowed a) (free : s.holder = none) (locks : code (s.place i) = .lock enter) :
    Follows code Inside Allowed (s.moved s.memory (some i) i (enter a)) memory last where
  exclusive := by
    apply exclusive_moved follows.exclusive
    · simp [(disciplined.lock locks).2 a]
    · intro j other
      simp [free, Ne.symm other]
  others j elsewhere := by
    have other : j ≠ i := fun same => elsewhere (congrArg some same.symm)
    rw [State.moved_other other]
    exact follows.others j (by simp [free])
  free unheld := by cases unheld
  taken j held := by
    cases held
    have same : s.place i = last i := follows.others i (by simp [free])
    rw [State.moved_self, State.moved_memory, follows.free free]
    exact ⟨enter, a, allowed, same ▸ locks, .here⟩

theorem Follows.access (disciplined : Disciplined code Inside) (follows : Follows code Inside Allowed s memory last) {i : ι}
    {act : σ → Option (σ × κ)} (accesses : code (s.place i) = .access act) (acts : act s.memory = some (after, next)) :
    Follows code Inside Allowed (s.moved after s.holder i next) memory last := by
  obtain ⟨inside, stays⟩ := disciplined.access accesses
  have held := (follows.exclusive i).mp inside
  refine ⟨?_, fun j elsewhere => ?_, fun free => ?_, fun j holds => ?_⟩
  · apply exclusive_moved follows.exclusive
    · simp [stays _ _ _ acts, held]
    · exact fun _ _ => Iff.rfl
  · have other : j ≠ i := fun same => elsewhere (same ▸ held)
    rw [State.moved_other other]
    exact follows.others j elsewhere
  · cases held.symm.trans free
  · cases held.symm.trans holds
    obtain ⟨enter, a, possible, locks, comes⟩ := follows.taken i held
    rw [State.moved_self]
    exact ⟨enter, a, possible, locks, .access _ _ _ _ act comes accesses acts⟩

/-- At its end the section has had the whole of its effect. -/
theorem Follows.unlock (disciplined : Disciplined code Inside) (implements : Implements code atomic Good)
    (follows : Follows code Inside Allowed s memory last) (good : Good memory) {i : ι}
    (unlocks : code (s.place i) = .unlock next) :
    Follows code Inside Allowed (s.moved s.memory none i next) s.memory (Function.update last i next) ∧ Good s.memory ∧
      ∃ a, Allowed a ∧ atomic (last i) a memory = some (s.memory, next) := by
  obtain ⟨inside, outside⟩ := disciplined.unlock unlocks
  have held := (follows.exclusive i).mp inside
  obtain ⟨enter, a, possible, locks, comes⟩ := follows.taken i held
  obtain ⟨after, next', whole, effect, good'⟩ := implements _ enter a memory locks good
  obtain ⟨rfl, rfl⟩ := (comes.rest whole).unique (.leave _ _ _ unlocks)
  refine ⟨⟨?_, fun j _ => ?_, fun _ => rfl, fun j held => by cases held⟩, good', a, possible, effect⟩
  · apply exclusive_moved follows.exclusive
    · simp [outside]
    · intro j other
      simp [held, Ne.symm other]
  · apply moved_place
    intro other
    exact follows.others j (by simp [held, Ne.symm other])

theorem Follows.emit (disciplined : Disciplined code Inside) (follows : Follows code Inside Allowed s memory last) {i : ι}
    {event : ε} (emits : code (s.place i) = .emit event next) :
    Follows code Inside Allowed (s.moved s.memory s.holder i next) memory (Function.update last i next) ∧
      code (last i) = .emit event next := by
  obtain ⟨outside, stays⟩ := disciplined.emit emits
  have other : s.holder ≠ some i := fun held => outside ((follows.exclusive i).mpr held)
  have same : s.place i = last i := follows.others i other
  refine ⟨⟨?_, fun j elsewhere => ?_, follows.free, fun j held => ?_⟩, same ▸ emits⟩
  · apply exclusive_moved follows.exclusive
    · simp [stays, other]
    · exact fun _ _ => Iff.rfl
  · apply moved_place
    exact fun _ => follows.others j elsewhere
  · have elsewhere : j ≠ i := fun same => other (same ▸ held)
    rw [State.moved_other elsewhere, Function.update_of_ne elsewhere]
    exact follows.taken j held

/-- A step of the threads is none of the other run, or the one that its section or its event is there. -/
theorem Follows.step (disciplined : Disciplined code Inside) (implements : Implements code atomic Good)
    (follows : Follows code Inside Allowed s memory last) (good : Good memory) {i : ι} {a : α} (allowed : Allowed a)
    {events : List (ι × ε)} (steps : step code s i a = some (t, events)) :
    ∃ memory' last', Follows code Inside Allowed t memory' last' ∧ Good memory' ∧
      ∀ {after : σ} {final : ι → κ} {later : List (ι × ε)}, Serially code atomic Allowed memory' last' later after final →
        Serially code atomic Allowed memory last (events ++ later) after final := by
  unfold Mutex.step at steps
  cases doing : code (s.place i) with
  | lock enter =>
    rw [doing] at steps
    dsimp only at steps
    split at steps
    · rename_i free
      cases steps
      exact ⟨memory, last, follows.lock disciplined allowed free doing, good, id⟩
    · cases steps
  | access act =>
    rw [doing] at steps
    obtain ⟨⟨after, next⟩, acts, same⟩ := Option.map_eq_some_iff.mp steps
    cases same
    exact ⟨memory, last, follows.access disciplined doing acts, good, id⟩
  | unlock next =>
    rw [doing] at steps
    cases steps
    obtain ⟨follows', good', b, possible, effect⟩ := follows.unlock disciplined implements good doing
    exact ⟨_, _, follows', good', fun later => .atomic memory s.memory _ last _ _ i b next possible effect later⟩
  | emit event next =>
    rw [doing] at steps
    cases steps
    obtain ⟨follows', emits⟩ := follows.emit disciplined doing
    exact ⟨_, _, follows', good, fun later => .emit memory _ last _ _ i event next emits later⟩
  | halt =>
    rw [doing] at steps
    cases steps

omit [DecidableEq ι] in
/-- Each access is defined, and the section under way comes to its end. -/
theorem Follows.able (disciplined : Disciplined code Inside) (implements : Implements code atomic Good)
    (follows : Follows code Inside Allowed s memory last) (good : Good memory) (i : ι) :
    ¬ Faulty code s i ∧ (s.holder = some i → ∃ after next, Section code (s.place i) s.memory after next) := by
  have ends (held : s.holder = some i) : ∃ after next, Section code (s.place i) s.memory after next := by
    obtain ⟨enter, a, possible, locks, comes⟩ := follows.taken i held
    obtain ⟨after, next, whole, -, -⟩ := implements _ enter a memory locks good
    exact ⟨after, next, comes.rest whole⟩
  refine ⟨fun ⟨act, accesses, undefined⟩ => ?_, ends⟩
  obtain ⟨inside, -⟩ := disciplined.access accesses
  obtain ⟨after, next, later⟩ := ends ((follows.exclusive i).mp inside)
  cases later with
  | leave _ _ _ unlocks => cases accesses.symm.trans unlocks
  | access _ _ _ _ _ _ _ accesses' acts =>
    cases accesses.symm.trans accesses'
    cases undefined.symm.trans acts

/-- A thread that is alone takes its section to the end. -/
theorem Section.runs {i : ι} (a : α) (whole : Section code place memory after next) (here : s.place i = place)
    (same : s.memory = memory) :
    ∃ n t, run code s (List.replicate n (i, a)) = some (t, []) ∧ t.holder = none ∧ t.memory = after ∧ t.place i = next := by
  induction whole generalizing s with
  | leave place next memory unlocks =>
    refine ⟨1, s.moved s.memory none i next, ?_, rfl, same, State.moved_self none i⟩
    simp [run, Mutex.step, here, unlocks]
  | access place middle next memory between after act accesses acts _ ih =>
    obtain ⟨n, t, later, rest⟩ := ih (s := s.moved between s.holder i middle) (State.moved_self s.holder i) rfl
    refine ⟨n + 1, t, ?_, rest⟩
    simp [List.replicate_succ, run, Mutex.step, here, same, accesses, acts, later]

/-- While nobody has the lock no thread has to wait. -/
theorem Disciplined.unblocked (disciplined : Disciplined code Inside) (free : s.holder = none) {i : ι}
    (outside : ¬ Inside (s.place i)) (going : code (s.place i) ≠ .halt) (a : α) : (Mutex.step code s i a).isSome := by
  unfold Mutex.step
  cases doing : code (s.place i) with
  | lock enter => simp [free]
  | access act => exact absurd (disciplined.access doing).1 outside
  | unlock next => rfl
  | emit event next => rfl
  | halt => exact absurd doing going

theorem Follows.run (disciplined : Disciplined code Inside) (implements : Implements code atomic Good)
    (follows : Follows code Inside Allowed s memory last) (good : Good memory) {turns : List (ι × α)}
    (allowed : ∀ turn ∈ turns, Allowed turn.2) {events : List (ι × ε)} (runs : run code s turns = some (t, events)) :
    ∃ memory' last', Follows code Inside Allowed t memory' last' ∧ Good memory' ∧
      Serially code atomic Allowed memory last events memory' last' := by
  induction turns generalizing s memory last events with
  | nil =>
    cases runs
    exact ⟨memory, last, follows, good, .done memory last⟩
  | cons turn rest ih =>
    obtain ⟨i, a⟩ := turn
    rw [Mutex.run] at runs
    split at runs
    · cases runs
    · rename_i middle first steps
      obtain ⟨⟨final, later⟩, goes, same⟩ := Option.map_eq_some_iff.mp runs
      cases same
      have now : Allowed a := allowed (i, a) List.mem_cons_self
      have behind : ∀ turn ∈ rest, Allowed turn.2 := fun turn later => allowed turn (List.mem_cons_of_mem _ later)
      obtain ⟨memory', last', follows', good', before⟩ := follows.step disciplined implements good now steps
      obtain ⟨memory'', last'', follows'', good'', serial⟩ := ih follows' good' behind goes
      exact ⟨memory'', last'', follows'', good'', before serial⟩

/-- Every run is one in which the sections are single steps, but for a section that is still under way. -/
theorem serializes (Allowed : α → Prop) (disciplined : Disciplined code Inside) (implements : Implements code atomic Good)
    (free : s.holder = none) (outside : ∀ i, ¬ Inside (s.place i)) (good : Good s.memory) {turns : List (ι × α)}
    (allowed : ∀ turn ∈ turns, Allowed turn.2) {events : List (ι × ε)} (runs : run code s turns = some (t, events)) :
    ∃ memory last, Serially code atomic Allowed s.memory s.place events memory last ∧ Good memory ∧
      (t.holder = none → t.memory = memory ∧ t.place = last) := by
  obtain ⟨memory, last, follows, good, serial⟩ := (Follows.start free outside).run disciplined implements good allowed runs
  refine ⟨memory, last, serial, good, fun free => ⟨follows.free free, ?_⟩⟩
  funext i
  exact follows.others i (by simp [free])

/-- In every state of a run the accesses are defined, one thread at most is inside, and the others wait for no longer than
it takes that one to leave. -/
theorem excludes (disciplined : Disciplined code Inside) (implements : Implements code atomic Good)
    (free : s.holder = none) (outside : ∀ i, ¬ Inside (s.place i)) (good : Good s.memory) {turns : List (ι × α)}
    {events : List (ι × ε)} (runs : run code s turns = some (t, events)) :
    (∀ i, ¬ Faulty code t i) ∧ (∀ i, Inside (t.place i) ↔ t.holder = some i) ∧
      (∀ i a, t.holder = some i → ∃ n u, run code t (List.replicate n (i, a)) = some (u, []) ∧ u.holder = none) ∧
      ∀ i a, t.holder = none → code (t.place i) ≠ .halt → (Mutex.step code t i a).isSome := by
  have begins : Follows code Inside (fun _ => True) s s.memory s.place := .start free outside
  obtain ⟨memory, last, follows, good, -⟩ := begins.run disciplined implements good (fun _ _ => trivial) runs
  have able := follows.able disciplined implements good
  refine ⟨fun i => (able i).1, follows.exclusive, fun i a held => ?_, fun i a free going => ?_⟩
  · obtain ⟨after, next, later⟩ := (able i).2 held
    obtain ⟨n, u, alone, left, -⟩ := later.runs a rfl rfl
    exact ⟨n, u, alone, left⟩
  · have outside : ¬ Inside (t.place i) := by simp [follows.exclusive, free]
    exact disciplined.unblocked free outside going a

end Simulation

end Mutex
