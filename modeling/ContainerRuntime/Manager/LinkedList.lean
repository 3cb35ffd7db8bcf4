import ContainerRuntime.Logic.Chains
import ContainerRuntime.Manager.Operations
import Mathlib.Data.List.InsertIdx
import Mathlib.Data.List.Induction

/-! The linked list of `container.c`, as nodes in memory.

Everywhere else in the development the registry is a list of containers. Here it
is `head`, `tail` and the `next` field of every node, with the three functions
that work on them. A loop over the nodes has a bound, and no result when it is
reached.
-/

set_option autoImplicit false

namespace ContainerRuntime.LinkedList

open CString

/-- The nodes, at addresses of any kind, and the two variables of the file. -/
structure Heap (Addr : Type) where
  container : Addr → Container
  next : Addr → Option Addr
  head : Option Addr
  tail : Option Addr

variable {Addr : Type}

namespace Heap

/-- The loop of `find_container`, from `cursor` on. -/
def findFrom (h : Heap Addr) (id : Text) : Nat → Option Addr → Option (Option Addr)
  | 0, _ => none
  | _ + 1, none => some none
  | rounds + 1, some cursor =>
    if (h.container cursor).id.text = id then some (some cursor) else h.findFrom id rounds (h.next cursor)

def findContainer (h : Heap Addr) (rounds : Nat) (id : Text) : Option (Option Addr) := h.findFrom id rounds h.head

/-! ## The list that the nodes form -/

/-- `head` leads through these nodes, each of them once, and `tail` is the last of them. -/
structure Lists (h : Heap Addr) (nodes : List Addr) : Prop where
  chain : Chain h.next h.head nodes none
  distinct : nodes.Nodup
  ends : h.tail = nodes.getLast?

namespace Lists

variable {h : Heap Addr} {nodes : List Addr}

theorem head_eq (lists : h.Lists nodes) : h.head = nodes.head? := lists.chain.first_eq

/-- Both variables are null pointers, or none is. -/
theorem null_iff (lists : h.Lists nodes) : (h.head = none ↔ nodes = []) ∧ (h.tail = none ↔ nodes = []) := by
  rw [lists.head_eq, lists.ends]
  exact ⟨List.head?_eq_none_iff, List.getLast?_eq_none_iff⟩

theorem findFrom {id : Text} {cursor : Option Addr} {rounds : Nat} (chain : Chain h.next cursor nodes none)
    (enough : nodes.length < rounds) :
    h.findFrom id rounds cursor = some (nodes.find? fun node => (h.container node).id.text = id) := by
  induction nodes generalizing cursor rounds with
  | nil =>
    obtain ⟨rounds, rfl⟩ := Nat.exists_eq_add_of_lt enough
    cases chain
    rfl
  | cons node rest ih =>
    obtain ⟨rfl, behind⟩ := chain
    obtain ⟨rounds, rfl⟩ : ∃ fewer, rounds = fewer + 1 := ⟨rounds - 1, by omega⟩
    rw [Heap.findFrom]
    by_cases here : (h.container node).id.text = id
    · rw [if_pos here, List.find?_cons_of_pos (by simpa using here)]
    · rw [if_neg here, List.find?_cons_of_neg (by simpa using here)]
      exact ih behind (Nat.lt_of_succ_lt_succ enough)

theorem find (lists : h.Lists nodes) (id : Text) {rounds : Nat} (enough : nodes.length < rounds) :
    h.findContainer rounds id = some (nodes.find? fun node => (h.container node).id.text = id) :=
  findFrom lists.chain enough

end Lists

/-- What the operations of the manager know of the list. -/
def registry (h : Heap Addr) (nodes : List Addr) : List Container := nodes.map h.container

/-- `find_container` gives the node of the position that the operations work with. -/
theorem find_registry {h : Heap Addr} {nodes : List Addr} (lists : h.Lists nodes) (id : Text) {rounds : Nat}
    (enough : nodes.length < rounds) :
    h.findContainer rounds id = some ((ContainerRuntime.findContainer id (h.registry nodes)).bind (nodes[·]?)) := by
  rw [lists.find id enough, List.find?_eq_bind_findIdx?_getElem?, ContainerRuntime.findContainer, registry, List.findIdx?_map]
  rfl

/-! ## Changes -/

variable [DecidableEq Addr]

def setNext (h : Heap Addr) (node : Addr) (value : Option Addr) : Heap Addr :=
  { h with next := Function.update h.next node value }

def appendContainer (h : Heap Addr) (container : Addr) : Heap Addr :=
  let h := h.setNext container none
  match h.tail with
  | none => { h with head := some container, tail := some container }
  | some last => { h.setNext last (some container) with tail := some container }

/-- The body of the loop for the node that is looked for. -/
def cutOut (h : Heap Addr) (prev : Option Addr) (cursor : Addr) : Heap Addr :=
  let h := match prev with
    | none => { h with head := h.next cursor }
    | some before => h.setNext before (h.next cursor)
  let h := if h.tail = some cursor then { h with tail := prev } else h
  h.setNext cursor none

/-- The loop of `remove_container`, from `cursor` on. -/
def removeFrom (h : Heap Addr) (container : Addr) : Nat → Option Addr → Option Addr → Option (Heap Addr)
  | 0, _, _ => none
  | _ + 1, _, none => some h
  | rounds + 1, prev, some cursor =>
    if cursor ≠ container then h.removeFrom container rounds (some cursor) (h.next cursor)
    else some (h.cutOut prev cursor)

def removeContainer (h : Heap Addr) (rounds : Nat) (container : Addr) : Option (Heap Addr) :=
  h.removeFrom container rounds none h.head

@[simp] theorem appendContainer_tail (h : Heap Addr) (node : Addr) : (h.appendContainer node).tail = some node := by
  cases ends : h.tail <;> simp [appendContainer, setNext, ends]

@[simp] theorem cutOut_tail (h : Heap Addr) (prev : Option Addr) (cursor : Addr) :
    (h.cutOut prev cursor).tail = if h.tail = some cursor then prev else h.tail := by
  by_cases ends : h.tail = some cursor <;> cases prev <;> simp [cutOut, setNext, ends]

@[simp] theorem cutOut_head (h : Heap Addr) (prev : Option Addr) (cursor : Addr) :
    (h.cutOut prev cursor).head = if prev = none then h.next cursor else h.head := by
  by_cases ends : h.tail = some cursor <;> cases prev <;> simp [cutOut, setNext, ends]

theorem cutOut_next_none (h : Heap Addr) (cursor : Addr) :
    (h.cutOut none cursor).next = Function.update h.next cursor none := by
  by_cases ends : h.tail = some cursor <;> simp [cutOut, setNext, ends]

theorem cutOut_next_some (h : Heap Addr) (before cursor : Addr) :
    (h.cutOut (some before) cursor).next = Function.update (Function.update h.next before (h.next cursor)) cursor none := by
  by_cases ends : h.tail = some cursor <;> simp [cutOut, setNext, ends]

namespace Lists

variable {h : Heap Addr} {nodes : List Addr}

theorem append (lists : h.Lists nodes) {node : Addr} (fresh : node ∉ nodes) :
    (h.appendContainer node).Lists (nodes ++ [node]) := by
  have distinct : (nodes ++ [node]).Nodup := List.nodup_append.mpr ⟨lists.distinct, List.nodup_singleton node, by
    rintro a member b last rfl
    exact fresh (List.mem_singleton.mp last ▸ member)⟩
  refine ⟨?_, distinct, ?_⟩
  · rcases List.eq_nil_or_concat nodes with rfl | ⟨front, last, rfl⟩
    · have empty : h.tail = none := lists.ends
      simp [appendContainer, setNext, empty]
    · rw [List.concat_eq_append] at *
      have full : h.tail = some last := by rw [lists.ends, List.getLast?_concat]
      have once : last ∉ front := fun member =>
        (List.nodup_append.mp lists.distinct).2.2 last member last (List.mem_singleton_self last) rfl
      have other : last ≠ node := by
        rintro rfl
        exact fresh (by simp)
      have started : Chain (Function.update h.next node none) h.head (front ++ [last]) none :=
        (Chain.update fresh).mpr lists.chain
      -- The old last node gets a next field, and the chain in front of it stays.
      simp only [appendContainer, setNext, full]
      exact Chain.append_iff.mpr ⟨some node, started.relink once, by simp [other.symm]⟩
  · rw [List.getLast?_concat, appendContainer_tail]

/-- The last node is the node that is cut out, or stays the last one. -/
theorem last_left {front back : List Addr} {cursor : Addr} (lists : h.Lists (front ++ cursor :: back)) :
    (if h.tail = some cursor then front.getLast? else h.tail) = (front ++ back).getLast? := by
  have distinct := lists.distinct
  rw [lists.ends]
  cases back using List.reverseRecOn with
  | nil => simp
  | append_singleton back last =>
    have apart : last ≠ cursor := by
      rintro rfl
      simp [List.nodup_append] at distinct
    have ends : (front ++ cursor :: (back ++ [last])).getLast? = some last := by
      rw [← List.cons_append, ← List.append_assoc, List.getLast?_concat]
    rw [ends, if_neg (by simpa using apart), ← List.append_assoc, List.getLast?_concat]

theorem cutOut {front back : List Addr} {cursor : Addr} (lists : h.Lists (front ++ cursor :: back)) :
    (h.cutOut front.getLast? cursor).Lists (front ++ back) := by
  obtain ⟨outside, distinct⟩ := List.nodup_cons.mp (List.nodup_middle.mp lists.distinct)
  refine ⟨?_, distinct, (Heap.cutOut_tail h front.getLast? cursor).trans lists.last_left⟩
  rw [cutOut_head]
  -- Either `head` goes round the node, or the next field of the one in front does.
  rcases List.eq_nil_or_concat front with rfl | ⟨rest, before, rfl⟩
  · rw [List.getLast?_nil, cutOut_next_none, if_pos rfl]
    exact (Chain.update outside).mpr lists.chain.2
  · rw [List.concat_eq_append] at *
    rw [List.getLast?_concat, cutOut_next_some, if_neg (by simp)]
    exact (Chain.update outside).mpr (lists.chain.unlink lists.distinct rfl)

/-- The loop stands behind the nodes of `front`, none of which is the one that is looked for. -/
theorem removeFrom {front back : List Addr} {container : Addr} {cursor : Option Addr} {rounds : Nat}
    (lists : h.Lists (front ++ back)) (passed : container ∉ front) (stands : Chain h.next cursor back none)
    (enough : back.length < rounds) :
    ∃ after, h.removeFrom container rounds front.getLast? cursor = some after ∧
      after.Lists ((front ++ back).erase container) ∧ (container ∉ back → after = h) := by
  -- By induction on the nodes ahead; a node that is passed goes to `front`.
  induction back generalizing front cursor rounds with
  | nil =>
    obtain ⟨rounds, rfl⟩ := Nat.exists_eq_add_of_lt enough
    cases stands
    refine ⟨h, rfl, ?_, fun _ => rfl⟩
    rw [List.append_nil] at lists ⊢
    rw [List.erase_of_not_mem passed]
    exact lists
  | cons node back ih =>
    obtain ⟨rfl, behind⟩ := stands
    obtain ⟨rounds, rfl⟩ : ∃ fewer, rounds = fewer + 1 := ⟨rounds - 1, by omega⟩
    rw [Heap.removeFrom]
    by_cases here : node = container
    · subst here
      refine ⟨_, if_neg (by simp), ?_, fun absent => absurd List.mem_cons_self absent⟩
      rw [List.erase_append_right _ passed, List.erase_cons_head]
      exact lists.cutOut
    · rw [if_pos here]
      have further : container ∉ front ++ [node] := by simp [passed, Ne.symm here]
      have moved : h.Lists ((front ++ [node]) ++ back) := by rwa [List.append_assoc, List.singleton_append]
      obtain ⟨after, done, listed, unchanged⟩ := ih moved further behind (Nat.lt_of_succ_lt_succ enough)
      rw [List.getLast?_concat] at done
      rw [List.append_assoc, List.singleton_append] at listed
      exact ⟨after, done, listed, fun absent => unchanged fun later => absent (List.mem_cons_of_mem _ later)⟩

theorem remove (lists : h.Lists nodes) (container : Addr) {rounds : Nat} (enough : nodes.length < rounds) :
    ∃ after, h.removeContainer rounds container = some after ∧ after.Lists (nodes.erase container) ∧
      (container ∉ nodes → after = h) := by
  have whole : h.Lists ([] ++ nodes) := lists
  exact removeFrom whole (by simp) lists.chain enough

/-- What has been appended last is taken back. -/
theorem append_remove (lists : h.Lists nodes) {node : Addr} (fresh : node ∉ nodes) {rounds : Nat}
    (enough : nodes.length + 1 < rounds) :
    ∃ after, (h.appendContainer node).removeContainer rounds node = some after ∧ after.Lists nodes ∧
      after.head = h.head ∧ after.tail = h.tail := by
  have longer : (nodes ++ [node]).length < rounds := by
    rw [List.length_append]
    exact enough
  obtain ⟨after, done, listed, _⟩ := (lists.append fresh).remove node longer
  rw [List.erase_append_right _ fresh, List.erase_cons_head, List.append_nil] at listed
  exact ⟨after, done, listed, listed.head_eq.trans lists.head_eq.symm, listed.ends.trans lists.ends.symm⟩

end Lists

end Heap

/-! ## Sequences of calls -/

inductive Update (Addr : Type) where
  | append (node : Addr)
  | remove (node : Addr)

variable [DecidableEq Addr]

/-- What a call is for. -/
def Update.apply (nodes : List Addr) : Update Addr → List Addr
  | .append node => nodes ++ [node]
  | .remove node => nodes.erase node

/-- No node is appended that is in the list. -/
def Permitted (nodes : List Addr) : List (Update Addr) → Prop
  | [] => True
  | .append node :: rest => node ∉ nodes ∧ Permitted (nodes ++ [node]) rest
  | .remove node :: rest => Permitted (nodes.erase node) rest

namespace Heap

def update (rounds : Nat) (h : Heap Addr) : Update Addr → Option (Heap Addr)
  | .append node => some (h.appendContainer node)
  | .remove node => h.removeContainer rounds node

def run (rounds : Nat) (h : Heap Addr) (updates : List (Update Addr)) : Option (Heap Addr) :=
  updates.foldlM (update rounds) h

theorem Lists.run {h : Heap Addr} {nodes : List Addr} (lists : h.Lists nodes) {updates : List (Update Addr)}
    (permitted : Permitted nodes updates) {rounds : Nat} (enough : nodes.length + updates.length < rounds) :
    ∃ after, h.run rounds updates = some after ∧ after.Lists (updates.foldl Update.apply nodes) := by
  -- An append makes the list longer and the calls that are left fewer.
  induction updates generalizing h nodes with
  | nil => exact ⟨h, rfl, lists⟩
  | cons first rest ih =>
    rw [List.length_cons] at enough
    cases first with
    | append node =>
      have longer : (nodes ++ [node]).length + rest.length < rounds := by
        rw [List.length_append, List.length_singleton]
        omega
      exact ih (lists.append permitted.1) permitted.2 longer
    | remove node =>
      have shorter := nodes.length_erase_le (a := node)
      obtain ⟨between, removed, listed, _⟩ := lists.remove node (show nodes.length < rounds by omega)
      obtain ⟨after, done, last⟩ := ih listed permitted (by omega)
      refine ⟨after, ?_, last⟩
      unfold Heap.run
      rw [List.foldlM_cons, update, removed]
      exact done

/-- What a node costs is at most the call that has appended it. -/
theorem length_foldl_apply_le (nodes : List Addr) (updates : List (Update Addr)) :
    (updates.foldl Update.apply nodes).length ≤ nodes.length + updates.length := by
  induction updates generalizing nodes with
  | nil => exact Nat.le_refl _
  | cons first rest ih =>
    have one : (first.apply nodes).length ≤ nodes.length + 1 := by
      cases first with
      | append node => exact Nat.le_of_eq List.length_append
      | remove node => exact Nat.le_trans List.length_erase_le (Nat.le_succ _)
    have later := ih (first.apply nodes)
    rw [List.foldl_cons, List.length_cons]
    omega

/-- How the functions work on a heap whose list these nodes are. -/
structure Serves (h : Heap Addr) (rounds : Nat) (nodes : List Addr) : Prop where
  lists : h.Lists nodes
  null : (h.head = none ↔ nodes = []) ∧ (h.tail = none ↔ nodes = [])
  append : ∀ node ∉ nodes, (h.appendContainer node).Lists (nodes ++ [node])
  remove : ∀ node, ∃ after, h.removeContainer rounds node = some after ∧ after.Lists (nodes.erase node) ∧
    (node ∉ nodes → after = h)
  append_remove : ∀ node ∉ nodes, ∃ after, (h.appendContainer node).removeContainer rounds node = some after ∧
    after.Lists nodes ∧ after.head = h.head ∧ after.tail = h.tail
  find : ∀ id, h.findContainer rounds id = some (nodes.find? fun node => (h.container node).id.text = id)

/-- After any calls that append no node twice, starting from an empty list. -/
theorem serves_run {h : Heap Addr} (head : h.head = none) (tail : h.tail = none) {updates : List (Update Addr)}
    (permitted : Permitted [] updates) {rounds : Nat} (enough : updates.length + 1 < rounds) :
    ∃ after, h.run rounds updates = some after ∧ after.Serves rounds (updates.foldl Update.apply []) := by
  have empty : h.Lists [] := ⟨head, List.nodup_nil, tail⟩
  have bound := length_foldl_apply_le ([] : List Addr) updates
  rw [List.length_nil, Nat.zero_add] at bound
  have room : ([] : List Addr).length + updates.length < rounds := by
    rw [List.length_nil]
    omega
  obtain ⟨after, done, lists⟩ := empty.run permitted room
  refine ⟨after, done, ?_⟩
  exact {
    lists := lists
    null := lists.null_iff
    append := fun node fresh => lists.append fresh
    remove := fun node => lists.remove node (by omega)
    append_remove := fun node fresh => lists.append_remove fresh (by omega)
    find := fun id => lists.find id (by omega) }

/-- The addresses are numbers, and no container is listed. -/
def unlisted : Heap Nat where
  container n := ⟨createdRecord ⟨none, none, none, none, .unlimited⟩ n (copyString 512 (lit "/srv")), false⟩
  next := fun _ => some 7
  head := none
  tail := none

theorem serves_run_four :
    ∃ after, unlisted.run 9 [.append 1, .append 2, .remove 2, .append 3] = some after ∧ after.Serves 9 [1, 3] :=
  serves_run rfl rfl (by simp [Permitted]) (by decide)

/-! ## Changes of the registry -/

theorem appendContainer_container (h : Heap Addr) (node : Addr) : (h.appendContainer node).container = h.container := by
  cases ends : h.tail <;> simp [appendContainer, setNext, ends]

theorem cutOut_container (h : Heap Addr) (prev : Option Addr) (cursor : Addr) :
    (h.cutOut prev cursor).container = h.container := by
  by_cases ends : h.tail = some cursor <;> cases prev <;> simp [cutOut, setNext, ends]

theorem removeFrom_container {h after : Heap Addr} {container : Addr} {rounds : Nat} {prev cursor : Option Addr}
    (removed : h.removeFrom container rounds prev cursor = some after) : after.container = h.container := by
  induction rounds generalizing prev cursor with
  | zero => cases removed
  | succ rounds ih =>
    cases cursor with
    | none =>
      cases removed
      rfl
    | some cursor =>
      rw [removeFrom] at removed
      split at removed
      · exact ih removed
      · cases removed
        exact cutOut_container h prev cursor

theorem registry_append (h : Heap Addr) (nodes : List Addr) (node : Addr) :
    (h.appendContainer node).registry (nodes ++ [node]) = h.registry nodes ++ [h.container node] := by
  rw [registry, appendContainer_container, List.map_append, List.map_singleton]
  rfl

theorem registry_remove {h after : Heap Addr} {nodes : List Addr} (lists : h.Lists nodes) {i : Nat} {node : Addr}
    (here : nodes[i]? = some node) {rounds : Nat} (removed : h.removeContainer rounds node = some after) :
    after.registry (nodes.erase node) = (h.registry nodes).eraseIdx i := by
  obtain ⟨inside, same⟩ := List.getElem?_eq_some_iff.mp here
  -- The nodes are distinct, so the first one with this address is at this position.
  have position : nodes.idxOf node = i := same ▸ lists.distinct.idxOf_getElem i inside
  rw [registry, registry, removeFrom_container removed, List.erase_eq_eraseIdx_of_idxOf position, List.eraseIdx_map]

end Heap

end ContainerRuntime.LinkedList
