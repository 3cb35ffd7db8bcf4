import ContainerRuntime.Namespace.Runs

/-! The command never runs outside its sandbox.

The guards of the two codes speak of one process each. They are joined by the
pipes: the token the child has read was written by the manager, and the status
the manager has read was written by the child.
-/

set_option autoImplicit false

namespace ContainerRuntime.Namespace

open CString Coroutine

namespace System.Sound

variable {s : System}

/-- The token the child has read was written when both maps had been. -/
theorem mapped (sound : s.Sound) {before after : List Event} {e : Event} (parts : s.trace = before ++ e :: after)
    (told : ∃ more, (⟨.read .continue 1, .ok (token :: more)⟩ : Done) ∈ history before e.start .child) :
    Succeeded (history before e.start .parent) (.writeTextFile .uidMap) ∧
      Succeeded (history before e.start .parent) (.writeTextFile .gidMap) := by
  obtain ⟨start, here, -, flowed⟩ := sound.guarded before e after parts
  obtain ⟨more, read⟩ := told
  have got : token ∈ drawn before e.start .continue := by
    refine List.mem_flatMap.mpr ⟨_, mem_history.mp read, ?_⟩
    rw [if_pos rfl]
    exact List.mem_cons_self
  obtain ⟨who, bytes, written⟩ := mem_poured ((flowed .continue).subset got)
  obtain ⟨front, back, cut⟩ := List.append_of_mem written
  have parts' : s.trace = front ++ ⟨e.start, who, ⟨.write .continue bytes, .ok ()⟩⟩ :: (back ++ e :: after) := by
    rw [parts, cut, List.append_assoc, List.cons_append]
  obtain ⟨_, -, kept, -⟩ := sound.guarded _ _ _ parts'
  cases who with
  | child => exact kept.elim
  | parent =>
    have earlier : history front e.start .parent ⊆ history before e.start .parent := by
      rw [cut]
      exact history_subset _ _
    exact ⟨kept.2.2.1.mono earlier, kept.2.2.2.mono earlier⟩

/-- What has been put into the status pipe is one status of the child, or nothing. -/
theorem poured_status (sound : s.Sound) (k : Nat) :
    poured s.trace k .status = [] ∨ ∃ before after, ∃ status : NamespaceStatus,
      s.trace = before ++ ⟨k, .child, ⟨.write .status status.bytes, .ok ()⟩⟩ :: after ∧
      poured s.trace k .status = status.bytes := by
  rcases sound.poured_report k .status (by decide) with nothing | ⟨before, after, bytes, parts, all⟩
  · exact .inl nothing
  · obtain ⟨start, -, kept, -⟩ := sound.guarded _ _ _ parts
    obtain ⟨-, status, rfl, -⟩ := kept
    exact .inr ⟨before, after, status, parts, all⟩

/-- A status the manager has read as ready was sent so by the child. -/
theorem read_ready (sound : s.Sound) {k : Nat} {start : Start} (here : s.starts k = some start)
    (read : ReadReady (history s.trace k .parent)) :
    ∃ before after, ∃ status : NamespaceStatus, status.ready ≠ 0 ∧
      s.trace = before ++ ⟨k, .child, ⟨.write .status status.bytes, .ok ()⟩⟩ :: after := by
  obtain ⟨whole, ready⟩ := read
  have read : drawn s.trace k .status <+: poured s.trace k .status := ⟨_, sound.flow k start .status here⟩
  rw [sound.drawn_report k (by decide)] at read
  rcases sound.poured_status k with nothing | ⟨before, after, status, parts, sent⟩
  · rw [nothing, List.prefix_nil] at read
    rw [read] at whole
    cases whole
  · rw [sent] at read
    have same : taken (history s.trace k .parent) .status = status.bytes := read.eq_of_length (by rw [whole]; rfl)
    rw [same, NamespaceStatus.ofBytes_bytes] at ready
    exact ⟨before, after, status, ready, parts⟩

end System.Sound

/-- The maps of the child's user namespace were written, and the child has done what has to come before `execvp`. -/
structure Sandboxed (t : List Event) (k : Nat) (config : NamespaceConfig) : Prop where
  uidMap : Succeeded (history t k .parent) (.writeTextFile .uidMap)
  gidMap : Succeeded (history t k .parent) (.writeTextFile .gidMap)
  ready : Ready config (history t k .child)

/-- In every run, `execvp` is called by a child only, and only after its sandbox is complete; and
`namespace_start_container` returns 0 only if the child has sent a status with `ready = 1` after that. -/
theorem command_runs_sandboxed (turns : List Turn) :
    let s := System.initial.run turns
    (∀ before e after argv, s.trace = before ++ e :: after → e.done.call = .execvp argv →
      e.party = .child ∧ ∃ start, s.starts e.start = some start ∧ Sandboxed before e.start start.config ∧
        buildExecArgv start.config.commandLine 256 32 = .ok argv) ∧
    ∀ k start result, s.starts k = some start → start.outcome = some (.ok result) →
      ∃ before after, ∃ status : NamespaceStatus, status.ready = 1 ∧
        s.trace = before ++ ⟨k, .child, ⟨.write .status status.bytes, .ok ()⟩⟩ :: after ∧ Sandboxed before k start.config := by
  intro s
  have sound : s.Sound := System.Sound.initial.run turns
  constructor
  · intro before e after argv parts called
    obtain ⟨start, here, kept, -⟩ := sound.guarded before e after parts
    cases party : e.party with
    | parent =>
      rw [party, called] at kept
      exact kept.elim
    | child =>
      rw [party, called] at kept
      obtain ⟨ready, built, -, -⟩ := kept
      obtain ⟨uid, gid⟩ := sound.mapped parts ready.told
      exact ⟨rfl, start, here, ⟨uid, gid, ready⟩, built⟩
  · intro k start result here returned
    have outcome := sound.parent k start here
    rw [Start.code_of_outcome returned] at outcome
    obtain ⟨before, after, status, ready, parts⟩ := sound.read_ready here outcome.1
    obtain ⟨other, there, kept, -⟩ := sound.guarded _ _ _ parts
    obtain rfl : start = other := Option.some.inj (here.symm.trans there)
    obtain ⟨-, known, encoded, said⟩ := kept
    obtain rfl := NamespaceStatus.bytes_injective encoded
    rcases said with blank | ⟨one, complete⟩
    · exact absurd blank ready
    · obtain ⟨uid, gid⟩ := sound.mapped parts complete.told
      exact ⟨before, after, status, one, parts, ⟨uid, gid, complete⟩⟩

end ContainerRuntime.Namespace
