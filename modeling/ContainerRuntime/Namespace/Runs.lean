import ContainerRuntime.Namespace.Kernel
import ContainerRuntime.Namespace.Protocol
import ContainerRuntime.Logic.Lists

/-! Runs of the handshake, as the histories of both sides.

Whatever the order of the turns, each side has made the calls its code makes,
every call has kept to its guard, and what was taken out of a pipe had been put
into it before.
-/

set_option autoImplicit false

namespace ContainerRuntime.Namespace

open CString Coroutine

/-! ## What a turn can do -/

/-- The effect of a turn. -/
inductive Step (s : System) : Turn → System → Prop where
  | nothing (turn : Turn) : Step s turn s
  | start (config : NamespaceConfig) (up : s.up = true) (idle : s.idle = true) : Step s (.start config) (s.begun config)
  | parent (fate : Fate) (start : Start) (c : Call) (next : c.Answer → Code (Except Int32 NamespaceStartResult))
      (answer : c.Answer) (up : s.up = true) (here : s.starts (s.count - 1) = some start) (code : start.code = .call c next)
      (answered : s.reply (s.count - 1) .parent fate c = some answer) :
      Step s (.parent fate) (s.parentMade (s.count - 1) ⟨c, answer⟩ (next answer))
  | child (k : Nat) (fate : Fate) (start : Start) (c : Call) (next : c.Answer → Code Nat) (fds : List Held)
      (answer : c.Answer) (here : s.starts k = some start) (child : start.child = some ⟨.running (.call c next), fds⟩)
      (answered : s.reply k .child fate c = some answer) :
      Step s (.child k fate) (s.childMade k ⟨c, answer⟩ (next answer))
  | exits (k : Nat) (fate : Fate) (start : Start) (value : Nat) (fds : List Held) (here : s.starts k = some start)
      (child : start.child = some ⟨.running (.ret value), fds⟩) : Step s (.child k fate) (s.childGone k)
  | childDies (k : Nat) : Step s (.childDies k) (s.childGone k)
  | parentDies : Step s .parentDies { s with up := false, fds := [] }

theorem System.step_cases (s : System) (turn : Turn) : Step s turn (s.step turn) := by
  cases turn with
  | start config =>
    simp only [System.step]
    split
    · rename_i ready
      exact .start config ready.1 ready.2
    · exact .nothing _
  | parent fate =>
    simp only [System.step]
    split
    · rename_i up
      unfold System.parentTurn
      simp only
      split
      · rename_i config c next pipes child here
        split
        · rename_i answer answered
          exact .parent fate _ c next answer up here rfl answered
        · exact .nothing _
      · exact .nothing _
      · exact .nothing _
    · exact .nothing _
  | child k fate =>
    simp only [System.step]
    unfold System.childTurn System.child
    cases here : s.starts k with
    | none => exact .nothing _
    | some start =>
      simp only [Option.bind_some]
      split
      · rename_i c next fds child
        split
        · rename_i answer answered
          exact .child k fate start c next fds answer here child answered
        · exact .nothing _
      · rename_i value fds child
        exact .exits k fate start value fds here child
      · exact .nothing _
      · exact .nothing _
      · exact .nothing _
  | childDies k => exact .childDies k
  | parentDies => exact .parentDies

/-! ## Histories and flows -/

/-- What one side of a start has done. -/
def history (t : List Event) (k : Nat) (who : Party) : List Done :=
  t.filterMap fun e => if e.start = k ∧ e.party = who then some e.done else none

/-- What both sides have taken out of a pipe. -/
def drawn (t : List Event) (k : Nat) (pipe : Pipe) : List UInt8 :=
  t.flatMap fun e => if e.start = k then e.done.taken pipe else []

/-- What both sides have put into it. -/
def poured (t : List Event) (k : Nat) (pipe : Pipe) : List UInt8 :=
  t.flatMap fun e => if e.start = k then e.done.sent pipe else []

section

variable {t : List Event} {k : Nat} {who : Party}

theorem mem_history {d : Done} : d ∈ history t k who ↔ ⟨k, who, d⟩ ∈ t := by
  simp only [history, List.mem_filterMap, Option.ite_none_right_eq_some, Option.some.injEq]
  constructor
  · rintro ⟨⟨_, _, _⟩, member, ⟨rfl, rfl⟩, rfl⟩
    exact member
  · exact fun member => ⟨_, member, ⟨rfl, rfl⟩, rfl⟩

theorem mem_calls_history {d : Done} (member : ⟨k, who, d⟩ ∈ t) : d.call ∈ calls (history t k who) :=
  List.mem_map.mpr ⟨d, mem_history.mpr member, rfl⟩

theorem history_self (d : Done) : history (t ++ [⟨k, who, d⟩]) k who = history t k who ++ [d] := by
  simp [history]

theorem history_other {e : Event} (other : ¬ (e.start = k ∧ e.party = who)) :
    history (t ++ [e]) k who = history t k who := by
  simp [history, other]

theorem history_subset (before after : List Event) : history before k who ⊆ history (before ++ after) k who := by
  rw [history, history, List.filterMap_append]
  exact List.subset_append_left _ _

theorem drawn_concat (e : Event) (pipe : Pipe) :
    drawn (t ++ [e]) k pipe = drawn t k pipe ++ if e.start = k then e.done.taken pipe else [] := by
  simp [drawn]

theorem poured_concat (e : Event) (pipe : Pipe) :
    poured (t ++ [e]) k pipe = poured t k pipe ++ if e.start = k then e.done.sent pipe else [] := by
  simp [poured]

end

/-- A read that succeeds gets bytes that are in the pipe, or none at its end. -/
theorem System.reply_read {s : System} {k : Nat} {who : Party} {fate : Fate} {pipe : Pipe} {count : Nat} {bytes : List UInt8}
    (answered : s.reply k who fate (.read pipe count) = some (.ok bytes)) :
    s.contents k pipe = [] ∧ ¬ s.Open k ⟨pipe, .writing⟩ ∧ bytes = [] ∨
      s.contents k pipe ≠ [] ∧ bytes = (s.contents k pipe).take (min count (max 1 fate.bytes)) := by
  unfold System.reply at answered
  cases failure : fate.fail with
  | some error =>
    simp only [failure] at answered
    split at answered <;> cases answered
  | none =>
    simp only [failure, System.succeed] at answered
    split at answered
    · cases there : s.contents k pipe with
      | nil =>
        simp only [there] at answered
        split at answered
        · cases answered
        · rename_i closed
          cases answered
          exact .inl ⟨rfl, closed, rfl⟩
      | cons first more =>
        simp only [there] at answered
        cases answered
        exact .inr ⟨nofun, rfl⟩
    · cases answered

/-- It gets nothing at the end of the pipe only. -/
theorem System.reply_end {s : System} {k : Nat} {who : Party} {fate : Fate} {pipe : Pipe} {count : Nat} (positive : 0 < count)
    (answered : s.reply k who fate (.read pipe count) = some (.ok [])) :
    s.contents k pipe = [] ∧ ¬ s.Open k ⟨pipe, .writing⟩ := by
  rcases System.reply_read answered with ⟨empty, closed, -⟩ | ⟨full, nothing⟩
  · exact ⟨empty, closed⟩
  · have short : min count (max 1 fate.bytes) ≠ 0 := by omega
    rcases List.take_eq_nil_iff.mp nothing.symm with zero | empty
    · exact absurd zero short
    · exact absurd empty full

theorem System.reply_taken {s : System} {k : Nat} {who : Party} {fate : Fate} {c : Call} {answer : c.Answer}
    (answered : s.reply k who fate c = some answer) (pipe : Pipe) :
    Done.taken pipe ⟨c, answer⟩ <+: s.contents k pipe := by
  cases c with
  | read source count =>
    cases answer with
    | error error => exact List.nil_prefix
    | ok bytes =>
      by_cases same : source = pipe
      · subst same
        have got : Done.taken source ⟨.read source count, .ok bytes⟩ = bytes := if_pos rfl
        rw [got]
        rcases System.reply_read answered with ⟨-, -, rfl⟩ | ⟨-, rfl⟩
        · exact List.nil_prefix
        · exact List.take_prefix _ _
      · have nothing : Done.taken pipe ⟨.read source count, .ok bytes⟩ = [] := if_neg same
        rw [nothing]
        exact List.nil_prefix
  | _ => exact List.nil_prefix

/-! ## The joint invariant -/

/-- What the side keeps to. -/
def guard (config : NamespaceConfig) : Party → List Done → Call → Prop
  | .parent => parentGuard
  | .child => childGuard config

structure System.Sound (s : System) : Prop where
  known : ∀ k start, s.starts k = some start → k < s.count
  dated : ∀ e ∈ s.trace, e.start < s.count
  parent : ∀ k start, s.starts k = some start → ParentObeys (history s.trace k .parent) start.code
  child : ∀ k start code fds, s.starts k = some start → start.child = some ⟨.running code, fds⟩ →
    ChildObeys start.config (history s.trace k .child) code
  /-- There is no child before `clone`. -/
  unborn : ∀ k start, s.starts k = some start → start.child = none → history s.trace k .child = []
  cloned : ∀ k start child, s.starts k = some start → start.child = some child → Succeeded (history s.trace k .parent) .clone
  flow : ∀ k start pipe, s.starts k = some start → drawn s.trace k pipe ++ start.pipes pipe = poured s.trace k pipe
  /-- Every call has kept to its guard, and was made when everything taken had been put there before. -/
  guarded : ∀ before e after, s.trace = before ++ e :: after → ∃ start, s.starts e.start = some start ∧
    guard start.config e.party (history before e.start e.party) e.done.call ∧
    ∀ pipe, drawn before e.start pipe <+: poured before e.start pipe

namespace System.Sound

variable {s : System}

theorem initial : System.initial.Sound where
  known _ _ here := nomatch here
  dated _ member := nomatch member
  parent _ _ here := nomatch here
  child _ _ _ _ here := nomatch here
  unborn _ _ here := nomatch here
  cloned _ _ _ here := nomatch here
  flow _ _ _ here := nomatch here
  guarded before _ _ parts := by
    have empty := congrArg List.length parts
    simp [System.initial] at empty

/-- Without a start there is no history. -/
theorem history_missing (sound : s.Sound) {k : Nat} (missing : s.starts k = none) (who : Party) :
    history s.trace k who = [] := by
  apply List.filterMap_eq_nil_iff.mpr
  intro e member
  rw [if_neg]
  rintro ⟨rfl, -⟩
  obtain ⟨before, after, parts⟩ := List.append_of_mem member
  obtain ⟨start, here, -⟩ := sound.guarded before e after parts
  rw [missing] at here
  cases here

theorem missing_new (sound : s.Sound) : s.starts s.count = none := by
  cases there : s.starts s.count with
  | none => rfl
  | some start => exact absurd (sound.known s.count start there) (Nat.lt_irrefl _)

/-- The parts that do not depend on whose call it was. -/
theorem called (sound : s.Sound) {t : System} {k : Nat} {who : Party} {d : Done} {start next : Start}
    (here : s.starts k = some start) (trace : t.trace = s.trace ++ [⟨k, who, d⟩]) (count : t.count = s.count)
    (starts : t.starts = Function.update s.starts k (some next)) (config : next.config = start.config)
    (pipes : next.pipes = System.pour d start.pipes) (allowed : guard start.config who (history s.trace k who) d.call)
    (fetched : ∀ pipe, d.taken pipe <+: start.pipes pipe) :
    (∀ j other, t.starts j = some other → j < t.count) ∧ (∀ e ∈ t.trace, e.start < t.count) ∧
      (∀ j other pipe, t.starts j = some other → drawn t.trace j pipe ++ other.pipes pipe = poured t.trace j pipe) ∧
      ∀ before e after, t.trace = before ++ e :: after → ∃ other, t.starts e.start = some other ∧
        guard other.config e.party (history before e.start e.party) e.done.call ∧
        ∀ pipe, drawn before e.start pipe <+: poured before e.start pipe := by
  have inside := sound.known k start here
  have lookup : ∀ j, t.starts j = if j = k then some next else s.starts j := by
    intro j
    rw [starts]
    exact Function.update_apply _ _ _ _
  refine ⟨fun j other there => ?_, fun e member => ?_, fun j other pipe there => ?_, fun before e after parts => ?_⟩
  · rw [count]
    rw [lookup] at there
    split at there
    · rename_i same
      rw [same]
      exact inside
    · exact sound.known j other there
  · rw [count]
    rw [trace] at member
    exact List.forall_mem_concat sound.dated inside e member
  · rw [trace, drawn_concat, poured_concat]
    rw [lookup] at there
    split at there
    · rename_i same
      cases there
      subst same
      obtain ⟨rest, whole⟩ := fetched pipe
      have before := sound.flow j start pipe here
      rw [← whole] at before
      rw [pipes, System.pour, ← whole, List.drop_left, if_pos rfl, if_pos rfl, ← before]
      simp only [List.append_assoc]
    · rename_i other
      rw [if_neg (Ne.symm other), if_neg (Ne.symm other), List.append_nil, List.append_nil]
      exact sound.flow j _ pipe there
  · rw [trace] at parts
    rcases List.concat_split parts with ⟨rfl, rfl⟩ | ⟨rest, earlier⟩
    · refine ⟨next, by rw [lookup, if_pos rfl], by rwa [config], fun pipe => ?_⟩
      exact ⟨start.pipes pipe, sound.flow k start pipe here⟩
    · obtain ⟨other, there, kept, flowed⟩ := sound.guarded before e rest earlier
      rw [lookup]
      split
      · rename_i same
        rw [same, here] at there
        cases there
        exact ⟨next, rfl, by rwa [config], flowed⟩
      · exact ⟨other, there, kept, flowed⟩

end System.Sound

/-- After a call of the manager the child is as it was, or gone, or new. -/
theorem System.rechild_cases {config : NamespaceConfig} {fds : List Held} {d : Done} {child : Option Child} {now : Child}
    (after : System.rechild config fds d child = some now) :
    child = some now ∨ (child ≠ none ∧ ∃ pid, d.call = .kill pid) ∧ now = .gone ∨
      d.call = .clone ∧ now = ⟨.running (namespaceChild config), fds⟩ := by
  obtain ⟨c, answer⟩ := d
  cases answer with
  | error error =>
    left
    cases c <;> exact after
  | ok value =>
    cases c with
    | clone =>
      cases after
      exact .inr (.inr ⟨rfl, rfl⟩)
    | kill pid =>
      obtain ⟨before, there, gone⟩ := Option.map_eq_some_iff.mp after
      exact .inr (.inl ⟨⟨by simp [there], pid, rfl⟩, gone.symm⟩)
    | _ => exact .inl after

/-- After a call of its own the child runs on, or is the program it has executed. -/
theorem System.restage_cases (next : Code Nat) (d : Done) (fds : List Held) :
    System.restage next d fds = ⟨.running next, fds⟩ ∨
      (∃ argv, d = ⟨.execvp argv, .ok ()⟩) ∧
        System.restage next d fds = ⟨.executed, fds.filter fun held => ¬ held.closeOnExec⟩ := by
  obtain ⟨c, answer⟩ := d
  cases answer with
  | error error =>
    left
    cases c <;> rfl
  | ok value =>
    cases c with
    | execvp argv => exact .inr ⟨⟨argv, rfl⟩, rfl⟩
    | _ => exact .inl rfl

section

variable {s : System} {k : Nat} {start : Start}

theorem System.parentMade_starts (here : s.starts k = some start) (d : Done) (code : Code (Except Int32 NamespaceStartResult)) :
    (s.parentMade k d code).starts = Function.update s.starts k (some
      { start with
        code := code
        pipes := System.pour d start.pipes
        child := System.rechild start.config s.fds d start.child }) := by
  simp only [System.parentMade, System.record, System.change, here, Option.map_some]

theorem System.childMade_starts {child : Child} (here : s.starts k = some start) (there : start.child = some child) (d : Done)
    (code : Code Nat) :
    (s.childMade k d code).starts = Function.update s.starts k (some
      { start with
        pipes := System.pour d start.pipes
        child := some (System.restage code d (System.retable k d child.fds)) }) := by
  simp only [System.childMade, System.record, System.change, here, there, Option.map_some]

theorem System.childGone_starts (here : s.starts k = some start) :
    (s.childGone k).starts = Function.update s.starts k (some { start with child := start.child.map fun _ => .gone }) := by
  simp only [System.childGone, System.change, here, Option.map_some]

theorem System.childGone_of_none (missing : s.starts k = none) : s.childGone k = s := by
  rw [System.childGone, System.change, missing, Option.map_none, ← missing, Function.update_eq_self]

end

theorem System.rechild_none {config : NamespaceConfig} {fds : List Held} {d : Done} {child : Option Child}
    (after : System.rechild config fds d child = none) : child = none := by
  obtain ⟨c, answer⟩ := d
  cases answer with
  | error error => cases c <;> exact after
  | ok value =>
    cases c with
    | clone => cases after
    | kill pid => exact Option.map_eq_none_iff.mp after
    | _ => exact after

theorem System.rechild_some {config : NamespaceConfig} {fds : List Held} {d : Done} {child : Option Child} {now : Child}
    (after : System.rechild config fds d child = some now) : child ≠ none ∨ ∃ pid, d = ⟨.clone, .ok pid⟩ := by
  obtain ⟨c, answer⟩ := d
  cases answer with
  | error error =>
    left
    cases c <;> (intro none; rw [none] at after; cases after)
  | ok value =>
    cases c with
    | clone => exact .inr ⟨value, rfl⟩
    | _ =>
      left
      intro none
      rw [none] at after
      cases after

namespace System.Sound

variable {s : System}

/-- Whatever is left of a start that is not `k` is as it was. -/
theorem lookup_update {starts : Nat → Option Start} {k j : Nat} {next other : Start}
    (there : Function.update starts k (some next) j = some other) : j = k ∧ other = next ∨ j ≠ k ∧ starts j = some other := by
  rw [Function.update_apply] at there
  split at there
  · rename_i same
    exact .inl ⟨same, (Option.some.inj there).symm⟩
  · rename_i different
    exact .inr ⟨different, there⟩

/-- A child is cloned once, when there is none. -/
theorem clone_first (sound : s.Sound) {k : Nat} {start : Start} {next : _ → Code (Except Int32 NamespaceStartResult)}
    (here : s.starts k = some start) (code : start.code = .call .clone next) :
    history s.trace k .parent = opening ∧ start.child = none := by
  have obeys := sound.parent k start here
  rw [code] at obeys
  have opened : history s.trace k .parent = opening := obeys.1
  refine ⟨opened, ?_⟩
  cases there : start.child with
  | none => rfl
  | some child =>
    have earlier := (sound.cloned k start child here there).mem_calls
    rw [opened] at earlier
    exact absurd earlier (by decide)

/-- So a call of the manager leaves a child as it is, or kills it. -/
theorem rechild_born (sound : s.Sound) {k : Nat} {start : Start} {c : Call} {answer : c.Answer} {child : Child} {fds : List Held}
    {next : c.Answer → Code (Except Int32 NamespaceStartResult)} (here : s.starts k = some start)
    (code : start.code = .call c next) (born : start.child = some child) :
    System.rechild start.config fds ⟨c, answer⟩ start.child = some child ∨
      (∃ pid, c = .kill pid) ∧ System.rechild start.config fds ⟨c, answer⟩ start.child = some .gone := by
  cases after : System.rechild start.config fds ⟨c, answer⟩ start.child with
  | none => cases (System.rechild_none after).symm.trans born
  | some now =>
    rcases System.rechild_cases after with same | ⟨⟨-, killed⟩, rfl⟩ | ⟨rfl, -⟩
    · exact .inl (same.symm.trans born)
    · exact .inr ⟨killed, rfl⟩
    · cases (sound.clone_first here code).2.symm.trans born

theorem parentMade (sound : s.Sound) {k : Nat} {start : Start} {c : Call} {answer : c.Answer}
    {next : c.Answer → Code (Except Int32 NamespaceStartResult)} (here : s.starts k = some start)
    (code : start.code = .call c next) (fetched : ∀ pipe, Done.taken pipe ⟨c, answer⟩ <+: start.pipes pipe) :
    (s.parentMade k ⟨c, answer⟩ (next answer)).Sound := by
  have obeys := sound.parent k start here
  rw [code] at obeys
  have starts := System.parentMade_starts here ⟨c, answer⟩ (next answer)
  have others : ∀ j, history (s.trace ++ [⟨k, .parent, ⟨c, answer⟩⟩]) j .child = history s.trace j .child :=
    fun j => history_other (by simp)
  have apart : ∀ j, j ≠ k → history (s.trace ++ [⟨k, .parent, ⟨c, answer⟩⟩]) j .parent = history s.trace j .parent :=
    fun j other => history_other (by simp [Ne.symm other])
  have trace : (s.parentMade k ⟨c, answer⟩ (next answer)).trace = s.trace ++ [⟨k, .parent, ⟨c, answer⟩⟩] := rfl
  obtain ⟨known, dated, flow, guarded⟩ := sound.called here trace rfl starts rfl rfl obeys.1 fetched
  refine ⟨known, dated, fun j other there => ?_, fun j other held fds there running => ?_, fun j other there unborn => ?_,
    fun j other child there born => ?_, flow, guarded⟩
  · rcases lookup_update (starts ▸ there) with ⟨rfl, rfl⟩ | ⟨different, there⟩
    · rw [System.parentMade, System.record, history_self]
      exact obeys.2 answer
    · exact (apart j different).symm ▸ sound.parent j other there
  · refine (others j).symm ▸ ?_
    rcases lookup_update (starts ▸ there) with ⟨rfl, rfl⟩ | ⟨different, there⟩
    · rcases System.rechild_cases running with before | ⟨-, gone⟩ | ⟨cloned, new⟩
      · exact sound.child j start held fds here before
      · cases gone
      · cases new
        obtain rfl : c = .clone := cloned
        rw [sound.unborn j start here (sound.clone_first here code).2]
        exact namespaceChild_obeys start.config
    · exact sound.child j other held fds there running
  · refine (others j).symm ▸ ?_
    rcases lookup_update (starts ▸ there) with ⟨rfl, rfl⟩ | ⟨different, there⟩
    · exact sound.unborn j start here (System.rechild_none unborn)
    · exact sound.unborn j other there unborn
  · rcases lookup_update (starts ▸ there) with ⟨rfl, rfl⟩ | ⟨different, there⟩
    · rw [System.parentMade, System.record, history_self]
      rcases System.rechild_some born with before | ⟨pid, done⟩
      · obtain ⟨earlier, some⟩ := Option.ne_none_iff_exists'.mp before
        exact (sound.cloned j start earlier here some).concat
      · rw [done]
        exact .last pid
    · exact (apart j different).symm ▸ sound.cloned j other child there born

theorem childMade (sound : s.Sound) {k : Nat} {start : Start} {c : Call} {answer : c.Answer} {fds : List Held}
    {next : c.Answer → Code Nat} (here : s.starts k = some start) (child : start.child = some ⟨.running (.call c next), fds⟩)
    (fetched : ∀ pipe, Done.taken pipe ⟨c, answer⟩ <+: start.pipes pipe) :
    (s.childMade k ⟨c, answer⟩ (next answer)).Sound := by
  have obeys := sound.child k start _ fds here child
  have starts := System.childMade_starts here child ⟨c, answer⟩ (next answer)
  have others : ∀ j, history (s.trace ++ [⟨k, .child, ⟨c, answer⟩⟩]) j .parent = history s.trace j .parent :=
    fun j => history_other (by simp)
  have apart : ∀ j, j ≠ k → history (s.trace ++ [⟨k, .child, ⟨c, answer⟩⟩]) j .child = history s.trace j .child :=
    fun j other => history_other (by simp [Ne.symm other])
  have trace : (s.childMade k ⟨c, answer⟩ (next answer)).trace = s.trace ++ [⟨k, .child, ⟨c, answer⟩⟩] := rfl
  obtain ⟨known, dated, flow, guarded⟩ := sound.called here trace rfl starts rfl rfl obeys.1 fetched
  refine ⟨known, dated, fun j other there => ?_, fun j other held fds there running => ?_, fun j other there unborn => ?_,
    fun j other child there born => ?_, flow, guarded⟩
  · refine (others j).symm ▸ ?_
    rcases lookup_update (starts ▸ there) with ⟨rfl, rfl⟩ | ⟨different, there⟩
    · exact sound.parent j start here
    · exact sound.parent j other there
  · rcases lookup_update (starts ▸ there) with ⟨rfl, rfl⟩ | ⟨different, there⟩
    · rw [System.childMade, System.record, history_self]
      rcases System.restage_cases (next answer) ⟨c, answer⟩ (System.retable j ⟨c, answer⟩ _) with same | ⟨-, same⟩
      · cases same.symm.trans (Option.some.inj running)
        exact obeys.2 answer
      · cases same.symm.trans (Option.some.inj running)
    · exact (apart j different).symm ▸ sound.child j other held fds there running
  · rcases lookup_update (starts ▸ there) with ⟨rfl, rfl⟩ | ⟨different, there⟩
    · cases unborn
    · exact (apart j different).symm ▸ sound.unborn j other there unborn
  · refine (others j).symm ▸ ?_
    rcases lookup_update (starts ▸ there) with ⟨rfl, rfl⟩ | ⟨different, there⟩
    · exact sound.cloned j start _ here ‹start.child = some _›
    · exact sound.cloned j other child there born

/-- No call is made, and every start has the codes and pipes it had. -/
theorem uncalled (sound : s.Sound) {t : System} (trace : t.trace = s.trace) (count : t.count = s.count)
    (starts : ∀ j other, t.starts j = some other → ∃ start, s.starts j = some start ∧ other.config = start.config ∧
      other.code = start.code ∧ other.pipes = start.pipes ∧ (other.child = none ↔ start.child = none) ∧
      ∀ code fds, other.child = some ⟨.running code, fds⟩ → start.child = some ⟨.running code, fds⟩)
    (kept : ∀ j start, s.starts j = some start → ∃ other, t.starts j = some other ∧ other.config = start.config) :
    t.Sound := by
  refine ⟨fun j other there => ?_, fun e member => ?_, fun j other there => ?_, fun j other code fds there running => ?_,
    fun j other there unborn => ?_, fun j other child there born => ?_, fun j other pipe there => ?_,
    fun before e after parts => ?_⟩
  · obtain ⟨start, here, -⟩ := starts j other there
    exact count ▸ sound.known j start here
  · exact count ▸ sound.dated e (trace ▸ member)
  · obtain ⟨start, here, -, same, -⟩ := starts j other there
    rw [trace, same]
    exact sound.parent j start here
  · obtain ⟨start, here, config, -, -, -, before⟩ := starts j other there
    rw [trace, config]
    exact sound.child j start code fds here (before code fds running)
  · obtain ⟨start, here, -, -, -, both, -⟩ := starts j other there
    rw [trace]
    exact sound.unborn j start here (both.mp unborn)
  · obtain ⟨start, here, -, -, -, both, -⟩ := starts j other there
    rw [trace]
    obtain ⟨earlier, before⟩ := Option.ne_none_iff_exists'.mp fun none => by
      rw [both.mpr none] at born
      cases born
    exact sound.cloned j start earlier here before
  · obtain ⟨start, here, -, -, pipes, -⟩ := starts j other there
    rw [trace, pipes]
    exact sound.flow j start pipe here
  · obtain ⟨start, here, kept_guard, flowed⟩ := sound.guarded before e after (trace ▸ parts)
    obtain ⟨other, there, config⟩ := kept e.start start here
    exact ⟨other, there, config.symm ▸ kept_guard, flowed⟩

theorem childGone (sound : s.Sound) (k : Nat) : (s.childGone k).Sound := by
  cases here : s.starts k with
  | none => rwa [System.childGone_of_none here]
  | some start =>
    have starts := System.childGone_starts here
    refine sound.uncalled rfl rfl (fun j other there => ?_) fun j other there => ?_
    · rcases lookup_update (starts ▸ there) with ⟨rfl, rfl⟩ | ⟨different, there⟩
      · refine ⟨start, here, rfl, rfl, rfl, Option.map_eq_none_iff, fun code fds running => ?_⟩
        obtain ⟨-, -, gone⟩ := Option.map_eq_some_iff.mp running
        cases gone
      · exact ⟨other, there, rfl, rfl, rfl, .rfl, fun _ _ => id⟩
    · rw [starts, Function.update_apply]
      split
      · rename_i same
        rw [same, here] at there
        cases there
        exact ⟨_, rfl, rfl⟩
      · exact ⟨other, there, rfl⟩

theorem begun (sound : s.Sound) (config : NamespaceConfig) : (s.begun config).Sound := by
  have new := sound.missing_new
  have cases_of : ∀ {j : Nat} {other : Start}, (s.begun config).starts j = some other →
      j = s.count ∧ other = ⟨config, namespaceStartContainer config, fun _ => [], none⟩ ∨ j ≠ s.count ∧ s.starts j = some other :=
    fun there => lookup_update there
  refine ⟨fun j other there => ?_, fun e member => ?_, fun j other there => ?_, fun j other code fds there running => ?_,
    fun j other there unborn => ?_, fun j other child there born => ?_, fun j other pipe there => ?_,
    fun before e after parts => ?_⟩
  · rcases cases_of there with ⟨rfl, -⟩ | ⟨-, there⟩
    · exact Nat.lt_succ_self _
    · exact Nat.lt_succ_of_lt (sound.known j other there)
  · exact Nat.lt_succ_of_lt (sound.dated e member)
  · rcases cases_of there with ⟨rfl, rfl⟩ | ⟨-, there⟩
    · have nothing := sound.history_missing new .parent
      simp only [System.begun, nothing]
      exact namespaceStartContainer_obeys config
    · exact sound.parent j other there
  · rcases cases_of there with ⟨rfl, rfl⟩ | ⟨-, there⟩
    · cases running
    · exact sound.child j other code fds there running
  · rcases cases_of there with ⟨rfl, rfl⟩ | ⟨-, there⟩
    · exact sound.history_missing new .child
    · exact sound.unborn j other there unborn
  · rcases cases_of there with ⟨rfl, rfl⟩ | ⟨-, there⟩
    · cases born
    · exact sound.cloned j other child there born
  · rcases cases_of there with ⟨rfl, rfl⟩ | ⟨-, there⟩
    · have drawn_nil : drawn s.trace s.count pipe = [] := by
        apply List.flatMap_eq_nil_iff.mpr
        intro e member
        exact if_neg (Nat.ne_of_lt (sound.dated e member))
      have poured_nil : poured s.trace s.count pipe = [] := by
        apply List.flatMap_eq_nil_iff.mpr
        intro e member
        exact if_neg (Nat.ne_of_lt (sound.dated e member))
      simp only [System.begun, drawn_nil, poured_nil, List.append_nil]
    · exact sound.flow j other pipe there
  · obtain ⟨start, here, kept, flowed⟩ := sound.guarded before e after parts
    have different : e.start ≠ s.count := fun same => by
      rw [same, new] at here
      cases here
    exact ⟨start, (Function.update_of_ne different _ _).trans here, kept, flowed⟩

theorem contents_eq {k : Nat} {start : Start} (here : s.starts k = some start) (pipe : Pipe) :
    s.contents k pipe = start.pipes pipe := by
  simp [System.contents, here]

theorem step (sound : s.Sound) (turn : Turn) : (s.step turn).Sound := by
  have taken := s.step_cases turn
  generalize s.step turn = after at taken
  cases taken with
  | nothing => exact sound
  | start config up idle => exact sound.begun config
  | parent fate start c next answer up here code answered =>
    exact sound.parentMade here code fun pipe => contents_eq here pipe ▸ System.reply_taken answered pipe
  | child k fate start c next fds answer here child answered =>
    exact sound.childMade here child fun pipe => contents_eq here pipe ▸ System.reply_taken answered pipe
  | exits k => exact sound.childGone k
  | childDies k => exact sound.childGone k
  | parentDies =>
    exact sound.uncalled rfl rfl (fun j other there => ⟨other, there, rfl, rfl, rfl, .rfl, fun _ _ => id⟩)
      fun j start here => ⟨start, here, rfl⟩

theorem run (sound : s.Sound) (turns : List Turn) : (s.run turns).Sound := by
  induction turns generalizing s with
  | nil => exact sound
  | cons first rest ih => exact ih (sound.step first)

end System.Sound

/-! ## What a turn does to one start -/

/-- The start `k` after a turn. -/
inductive StartStep (s : System) (k : Nat) (start : Start) (turn : Turn) : Start → Prop where
  | same : StartStep s k start turn start
  | parent (fate : Fate) (c : Call) (next : c.Answer → Code (Except Int32 NamespaceStartResult)) (answer : c.Answer)
      (made : turn = .parent fate) (code : start.code = .call c next) : StartStep s k start turn
        { start with
          code := next answer
          pipes := System.pour ⟨c, answer⟩ start.pipes
          child := System.rechild start.config s.fds ⟨c, answer⟩ start.child }
  | child (fate : Fate) (c : Call) (next : c.Answer → Code Nat) (answer : c.Answer) (fds : List Held) (made : turn = .child k fate)
      (child : start.child = some ⟨.running (.call c next), fds⟩) : StartStep s k start turn
        { start with
          pipes := System.pour ⟨c, answer⟩ start.pipes
          child := some (System.restage (next answer) ⟨c, answer⟩ (System.retable k ⟨c, answer⟩ fds)) }
  | gone : StartStep s k start turn { start with child := start.child.map fun _ => .gone }

/-- A start stays on record. -/
theorem System.Sound.step_start {s : System} (sound : s.Sound) {k : Nat} {start : Start} (here : s.starts k = some start)
    (turn : Turn) : ∃ after, (s.step turn).starts k = some after ∧ StartStep s k start turn after := by
  have taken := s.step_cases turn
  generalize s.step turn = next at taken
  cases taken with
  | nothing => exact ⟨start, here, .same⟩
  | start config up idle =>
    have different : k ≠ s.count := by
      rintro rfl
      cases sound.missing_new.symm.trans here
    exact ⟨start, (Function.update_of_ne different _ _).trans here, .same⟩
  | parent fate before c next answer up known code answered =>
    rw [System.parentMade_starts known, Function.update_apply]
    split
    · rename_i same
      cases known.symm.trans (same ▸ here)
      exact ⟨_, rfl, .parent fate c next answer rfl code⟩
    · exact ⟨start, here, .same⟩
  | child j fate before c next fds answer known running answered =>
    rw [System.childMade_starts known running, Function.update_apply]
    split
    · rename_i same
      subst same
      cases known.symm.trans here
      exact ⟨_, rfl, .child fate c next answer fds rfl running⟩
    · exact ⟨start, here, .same⟩
  | exits j fate before value fds known running =>
    rw [System.childGone_starts known, Function.update_apply]
    split
    · rename_i same
      cases known.symm.trans (same ▸ here)
      exact ⟨_, rfl, .gone⟩
    · exact ⟨start, here, .same⟩
  | childDies j =>
    cases known : s.starts j with
    | none =>
      rw [System.childGone_of_none known]
      exact ⟨start, here, .same⟩
    | some before =>
      rw [System.childGone_starts known, Function.update_apply]
      split
      · rename_i same
        cases known.symm.trans (same ▸ here)
        exact ⟨_, rfl, .gone⟩
      · exact ⟨start, here, .same⟩
  | parentDies => exact ⟨start, here, .same⟩

/-! ## What came through the pipes -/

theorem Done.mem_sent {d : Done} {pipe : Pipe} {b : UInt8} (member : b ∈ d.sent pipe) :
    ∃ bytes, d = ⟨.write pipe bytes, .ok ()⟩ := by
  obtain ⟨c, answer⟩ := d
  cases c with
  | write target bytes =>
    cases answer with
    | error error => cases member
    | ok value =>
      by_cases same : target = pipe
      · subst same
        exact ⟨bytes, rfl⟩
      · have nothing : Done.sent pipe ⟨.write target bytes, .ok value⟩ = [] := if_neg same
        rw [nothing] at member
        cases member
  | _ => cases member

theorem Done.mem_taken {d : Done} {pipe : Pipe} {b : UInt8} (member : b ∈ d.taken pipe) :
    ∃ count, d.call = .read pipe count := by
  obtain ⟨c, answer⟩ := d
  cases c with
  | read source count =>
    cases answer with
    | error error => cases member
    | ok bytes =>
      by_cases same : source = pipe
      · subst same
        exact ⟨count, rfl⟩
      · have nothing : Done.taken pipe ⟨.read source count, .ok bytes⟩ = [] := if_neg same
        rw [nothing] at member
        cases member
  | _ => cases member

theorem mem_poured {t : List Event} {k : Nat} {pipe : Pipe} {b : UInt8} (member : b ∈ poured t k pipe) :
    ∃ who bytes, (⟨k, who, ⟨.write pipe bytes, .ok ()⟩⟩ : Event) ∈ t := by
  obtain ⟨⟨j, who, d⟩, listed, inside⟩ := List.mem_flatMap.mp member
  simp only at inside
  split at inside
  · rename_i same
    obtain ⟨bytes, rfl⟩ := d.mem_sent inside
    exact ⟨who, bytes, same ▸ listed⟩
  · cases inside

/-- A pipe that the other side does not read. -/
theorem drawn_eq_taken {t : List Event} {k : Nat} {pipe : Pipe} {who : Party}
    (alone : ∀ e ∈ t, e.start = k → e.party ≠ who → e.done.taken pipe = []) :
    drawn t k pipe = taken (history t k who) pipe := by
  induction t with
  | nil => rfl
  | cons e rest ih =>
    have later := ih fun other member => alone other (List.mem_cons_of_mem e member)
    have split_drawn : drawn (e :: rest) k pipe = (if e.start = k then e.done.taken pipe else []) ++ drawn rest k pipe := rfl
    by_cases mine : e.start = k ∧ e.party = who
    · have first : history (e :: rest) k who = e.done :: history rest k who := by simp [history, mine]
      rw [split_drawn, if_pos mine.1, first, later]
      rfl
    · have first : history (e :: rest) k who = history rest k who := by simp [history, mine]
      rw [split_drawn, first, later]
      split
      · rename_i same
        rw [alone e List.mem_cons_self same fun party => mine ⟨same, party⟩]
        rfl
      · rfl

namespace System.Sound

variable {s : System}

/-- The guard of an event that has happened. -/
theorem guard_of_mem (sound : s.Sound) {e : Event} (member : e ∈ s.trace) :
    ∃ before start, (∃ after, s.trace = before ++ e :: after) ∧ s.starts e.start = some start ∧
      guard start.config e.party (history before e.start e.party) e.done.call := by
  obtain ⟨before, after, parts⟩ := List.append_of_mem member
  obtain ⟨start, here, kept, -⟩ := sound.guarded before e after parts
  exact ⟨before, start, ⟨after, parts⟩, here, kept⟩

/-- Without a token from the manager there is none in the pipe. -/
theorem poured_continue (sound : s.Sound) {k : Nat} (untold : NoToken (history s.trace k .parent)) :
    poured s.trace k .continue = [] := by
  rw [List.eq_nil_iff_forall_not_mem]
  intro b member
  obtain ⟨who, bytes, written⟩ := mem_poured member
  cases who with
  | parent => exact untold bytes ⟨(), mem_history.mpr written⟩
  | child =>
    obtain ⟨_, _, -, -, kept⟩ := sound.guard_of_mem written
    exact kept

/-- A call that is guarded by there having been none of its kind is made once. -/
theorem once (sound : s.Sound) {k : Nat} {who : Party} (kind : Call → Prop)
    (first : ∀ config h c, kind c → guard config who h c → ∀ other, kind other → other ∉ calls h) {d e : Done}
    (made : d ∈ history s.trace k who) (again : e ∈ history s.trace k who) (one : kind d.call) (two : kind e.call) : d = e := by
  -- The later of two such calls would have broken its guard.
  have apart : ∀ {d e : Done} {before after : List Event}, s.trace = before ++ ⟨k, who, e⟩ :: after →
      (⟨k, who, d⟩ : Event) ∈ before → kind d.call → ¬ kind e.call := by
    intro d e before after parts earlier one two
    obtain ⟨start, -, kept, -⟩ := sound.guarded _ _ _ parts
    exact first _ _ _ two kept _ one (mem_calls_history earlier)
  obtain ⟨before, after, parts⟩ := List.append_of_mem (mem_history.mp made)
  have listed := mem_history.mp again
  rw [parts] at listed
  rcases List.mem_append.mp listed with earlier | later
  · exact absurd one (apart parts earlier two)
  rcases List.mem_cons.mp later with same | later
  · cases same
    rfl
  · obtain ⟨middle, back, cut⟩ := List.append_of_mem later
    rw [cut, ← List.cons_append, ← List.append_assoc] at parts
    exact absurd two (apart parts (List.mem_append_right _ List.mem_cons_self) one)

/-- What has been put into a pipe on which the child reports is one report, or nothing. -/
theorem poured_report (sound : s.Sound) (k : Nat) (pipe : Pipe) (reported : pipe ≠ .continue) :
    poured s.trace k pipe = [] ∨ ∃ before after bytes,
      s.trace = before ++ ⟨k, .child, ⟨.write pipe bytes, .ok ()⟩⟩ :: after ∧ poured s.trace k pipe = bytes := by
  have by_child : ∀ {who : Party} {bytes : List UInt8}, (⟨k, who, ⟨.write pipe bytes, .ok ()⟩⟩ : Event) ∈ s.trace →
      who = .child := by
    intro who bytes written
    cases who with
    | child => rfl
    | parent =>
      obtain ⟨_, _, -, -, kept⟩ := sound.guard_of_mem written
      exact absurd kept.1 reported
  cases all : poured s.trace k pipe with
  | nil => exact .inl rfl
  | cons b more =>
    right
    obtain ⟨who, bytes, written⟩ := mem_poured (all.symm ▸ List.mem_cons_self)
    obtain rfl := by_child written
    obtain ⟨before, after, parts⟩ := List.append_of_mem written
    refine ⟨before, after, bytes, parts, ?_⟩
    -- Neither before nor after it has a report been sent.
    have nothing_before : poured before k pipe = [] := by
      rw [List.eq_nil_iff_forall_not_mem]
      intro b member
      obtain ⟨who, other, early⟩ := mem_poured member
      obtain rfl := by_child (parts ▸ List.mem_append_left _ early)
      obtain ⟨_, -, kept, -⟩ := sound.guarded _ _ _ parts
      exact childGuard.first_report reported kept other (mem_calls_history early)
    have nothing_after : poured after k pipe = [] := by
      rw [List.eq_nil_iff_forall_not_mem]
      intro b member
      obtain ⟨who, other, late⟩ := mem_poured member
      obtain ⟨middle, back, cut⟩ := List.append_of_mem late
      have parts' : s.trace = (before ++ ⟨k, .child, ⟨.write pipe bytes, .ok ()⟩⟩ :: middle) ++
          ⟨k, who, ⟨.write pipe other, .ok ()⟩⟩ :: back := by
        rw [parts, cut, List.append_assoc, List.cons_append]
      obtain rfl := by_child (parts'.symm ▸ List.mem_append_right _ List.mem_cons_self)
      obtain ⟨_, -, kept, -⟩ := sound.guarded _ _ _ parts'
      exact childGuard.first_report reported kept bytes
        (mem_calls_history (List.mem_append_right _ List.mem_cons_self : (⟨k, .child, ⟨.write pipe bytes, .ok ()⟩⟩ : Event) ∈ _))
    have whole : poured (before ++ ⟨k, .child, ⟨.write pipe bytes, .ok ()⟩⟩ :: after) k pipe =
        poured before k pipe ++ (bytes ++ poured after k pipe) := by
      simp [poured, Done.sent]
    rw [← all, parts, whole, nothing_before, nothing_after, List.append_nil, List.nil_append]

/-- Nobody but the manager reads it. -/
theorem drawn_report (sound : s.Sound) (k : Nat) {pipe : Pipe} (reported : pipe ≠ .continue) :
    drawn s.trace k pipe = taken (history s.trace k .parent) pipe := by
  apply drawn_eq_taken
  intro e member _ other
  obtain ⟨before, start, -, -, kept⟩ := sound.guard_of_mem member
  rw [List.eq_nil_iff_forall_not_mem]
  intro b taken
  obtain ⟨count, read⟩ := Done.mem_taken taken
  cases party : e.party with
  | parent => exact other party
  | child =>
    rw [party, read] at kept
    exact reported kept.1

end System.Sound

end ContainerRuntime.Namespace
