import ContainerRuntime.Cli.MainLoop
import ContainerRuntime.Host.Basic

/-! Ctrl+C and the end of input.

The handler of SIGINT sets a flag, and four loops look at it: those of
`container_stats_watch`, `container_stats_all_watch` and `logger_follow`, and the
read loop of `main`, which does so only when a read has failed. That loop looks
at `errno` as well, which nothing but a failed call changes. A history is the
list of all that happens to the process, calls and signals in one order.
-/

set_option autoImplicit false

namespace ContainerRuntime.Cli

open CString

/-! ## The loops -/

/-- A call of `container_stats_watch`, `container_stats_all_watch` or `logger_follow`. -/
inductive Watching where
  | one (id : Text)
  | all
  | log
  deriving DecidableEq

inductive Place where
  /-- At the prompt of `main`, with the read ahead. -/
  | prompt
  /-- In a command that does not look at the flag. -/
  | command
  /-- In front of the loop of a watching call. -/
  | opening (call : Watching)
  /-- At the top of its loop. -/
  | testing (call : Watching)
  /-- Behind the test. -/
  | round (call : Watching)
  /-- In `nanosleep`, with the signals that have arrived there. -/
  | asleep (call : Watching) (struck : Bool)
  /-- `cleanup_all_containers` has been called and the loop of `main` left. -/
  | left
  deriving DecidableEq

structure Shell where
  errno : Errno
  /-- `g_interrupt_requested`. -/
  interruptRequested : Bool
  place : Place
  deriving DecidableEq

/-- What `fgets` returns at the prompt; a null pointer is the end of the input or an error. -/
inductive Read where
  | line (piece : Text)
  | eof
  | error (error : Errno)
  deriving DecidableEq

inductive Event where
  | sigint
  /-- A call returns: it succeeds, or fails and sets `errno`. -/
  | call (failure : Option Errno)
  | fgets (result : Read)
  /-- The `container_consume_interrupt` of a watching call. -/
  | test
  /-- The call goes on: into its loop, or from its round to `nanosleep`. -/
  | proceeds
  /-- It returns, for any reason but an interrupt. -/
  | returns
  /-- `nanosleep` returns. -/
  | wakes (interrupted : Bool)
  deriving DecidableEq

namespace Shell

/-- `main` in front of its loop. -/
def start : Shell := ⟨0, false, .prompt⟩

def containerRequestInterrupt (s : Shell) : Shell := { s with interruptRequested := true }

def containerConsumeInterrupt (s : Shell) : Bool × Shell :=
  if s.interruptRequested then (true, { s with interruptRequested := false }) else (false, s)

/-- The branch of `main` for a null pointer; the flag is not looked at when `errno` is EINTR. -/
def readFailed (s : Shell) : Shell :=
  if s.errno = Errno.EINTR then s
  else
    match s.containerConsumeInterrupt with
    | (true, s) => s
    | (false, s) => { s with place := .left }

end Shell

/-- Where `main` goes with a line. -/
def commandPlace (piece : Text) : Place :=
  match readRequest (cutAt [newline] piece) with
  | none => .prompt
  | some (.ok .exit) => .left
  -- The watching calls refuse an interval of 0 in front of their loops.
  | some (.ok (.statsAllWatch sec)) => if sec = 0 then .command else .opening .all
  | some (.ok (.statsWatch id sec)) => if sec = 0 then .command else .opening (.one id)
  | some (.ok (.logs _ true _)) => .opening .log
  | some _ => .command

/-- SIGINT cuts a sleep short; reads and waits are restarted. -/
def Place.strike : Place → Place
  | .asleep call _ => .asleep call true
  | place => place

def Shell.step (s : Shell) (event : Event) : Option Shell :=
  match event, s.place with
  -- The handler runs wherever the process is.
  | .sigint, place => some { s.containerRequestInterrupt with place := place.strike }
  | .call failure, .prompt | .call failure, .command | .call failure, .opening _ | .call failure, .round _ =>
    some { s with errno := failure.getD s.errno }
  | .fgets (.line piece), .prompt => some { s with place := commandPlace piece }
  | .fgets .eof, .prompt => some s.readFailed
  | .fgets (.error error), .prompt => some { s with errno := error }.readFailed
  | .proceeds, .opening call => some { s with place := .testing call }
  | .test, .testing call =>
    match s.containerConsumeInterrupt with
    | (true, s) => some { s with place := .prompt }
    | (false, s) => some { s with place := .round call }
  | .proceeds, .round call => some { s with place := .asleep call false }
  | .wakes false, .asleep call _ => some { s with place := .testing call }
  -- `sleep_interval` returns all the same when a signal has cut it short.
  | .wakes true, .asleep call true => some { s with errno := Errno.EINTR, place := .testing call }
  | .returns, .command => some { s with place := .prompt }
  -- `logger_follow` gives up in front of its loop only, and the others in it only.
  | .returns, .opening .log => some { s with place := .prompt }
  | .returns, .round (.one _) | .returns, .round .all => some { s with place := .prompt }
  | _, _ => none

/-- A history that the process can have. -/
def Shell.run (s : Shell) (history : List Event) : Option Shell := history.foldlM Shell.step s

/-- All that a step can do. -/
inductive Moves (s : Shell) : Event → Shell → Prop where
  | sigint : Moves s .sigint { s with interruptRequested := true, place := s.place.strike }
  | call (failure : Option Errno) : Moves s (.call failure) { s with errno := failure.getD s.errno }
  | line (piece : Text) (here : s.place = .prompt) : Moves s (.fgets (.line piece)) { s with place := commandPlace piece }
  | eof (here : s.place = .prompt) : Moves s (.fgets .eof) s.readFailed
  | error (error : Errno) (here : s.place = .prompt) : Moves s (.fgets (.error error)) { s with errno := error }.readFailed
  | opens (call : Watching) (here : s.place = .opening call) : Moves s .proceeds { s with place := .testing call }
  | interrupted (call : Watching) (here : s.place = .testing call) (requested : s.interruptRequested = true) :
      Moves s .test { s with interruptRequested := false, place := .prompt }
  | stays (call : Watching) (here : s.place = .testing call) (clear : s.interruptRequested = false) :
      Moves s .test { s with place := .round call }
  | sleeps (call : Watching) (here : s.place = .round call) : Moves s .proceeds { s with place := .asleep call false }
  | wakes (call : Watching) (struck interrupted : Bool) (here : s.place = .asleep call struck) :
      Moves s (.wakes interrupted) { s with errno := if interrupted then Errno.EINTR else s.errno, place := .testing call }
  | returns (elsewhere : s.place ≠ .left) : Moves s .returns { s with place := .prompt }

theorem Shell.moves {s t : Shell} {event : Event} (step : s.step event = some t) : Moves s event t := by
  obtain ⟨errno, requested, place⟩ := s
  cases event with
  | sigint => cases step; exact .sigint
  | call failure => cases place <;> cases step <;> exact .call failure
  | fgets result =>
    cases result with
    | line piece => cases place <;> cases step; exact .line piece rfl
    | eof => cases place <;> cases step; exact .eof rfl
    | error error => cases place <;> cases step; exact .error error rfl
  | test =>
    cases place with
    | testing call =>
      cases requested with
      | true => cases step; exact .interrupted call rfl rfl
      | false => cases step; exact .stays call rfl rfl
    | _ => cases step
  | proceeds =>
    cases place with
    | opening call => cases step; exact .opens call rfl
    | round call => cases step; exact .sleeps call rfl
    | _ => cases step
  | returns =>
    cases place with
    | command => cases step; exact .returns (by simp)
    | opening call => cases call <;> cases step; exact .returns (by simp)
    | round call => cases call <;> cases step <;> exact .returns (by simp)
    | _ => cases step
  | wakes interrupted =>
    cases place with
    | asleep call struck =>
      cases interrupted with
      | false => cases step; exact .wakes call struck false rfl
      | true => cases struck <;> cases step; exact .wakes call true true rfl
    | _ => cases interrupted <;> cases step

namespace Shell

variable {s t : Shell} {event : Event} {history : List Event}

theorem run_cons (s : Shell) (event : Event) (rest : List Event) : s.run (event :: rest) = (s.step event).bind (·.run rest) := rfl

/-- The first step of a history. -/
theorem run_first {rest : List Event} (reached : s.run (event :: rest) = some t) :
    ∃ u, s.step event = some u ∧ u.run rest = some t := by
  rw [run_cons] at reached
  exact Option.bind_eq_some_iff.mp reached

theorem run_append {front back : List Event} (reached : s.run (front ++ back) = some t) :
    ∃ u, s.run front = some u ∧ u.run back = some t := by
  induction front generalizing s with
  | nil => exact ⟨s, rfl, reached⟩
  | cons event rest ih =>
    obtain ⟨u, first, later⟩ := run_first reached
    obtain ⟨v, there, back⟩ := ih later
    refine ⟨v, ?_, back⟩
    rw [run_cons, first]
    exact there

end Shell

/-! ## What `errno` holds -/

/-- The error of a call that fails. -/
def Event.failure : Event → Option Errno
  | .call failure => failure
  | .fgets (.error error) => some error
  | .wakes true => some Errno.EINTR
  | _ => none

/-- The error of the last call that failed. -/
def lastFailure (history : List Event) : Option Errno := (history.filterMap Event.failure).getLast?

namespace Shell

variable {s t : Shell} {event : Event} {history : List Event}

/-- What `main` makes of a null pointer: it goes on while `errno` is EINTR, else it takes a request, else it leaves. -/
theorem readFailed_cases (s : Shell) :
    s.errno = Errno.EINTR ∧ s.readFailed = s ∨
      s.errno ≠ Errno.EINTR ∧ s.interruptRequested = true ∧ s.readFailed = { s with interruptRequested := false } ∨
      s.errno ≠ Errno.EINTR ∧ s.interruptRequested = false ∧ s.readFailed = { s with place := .left } := by
  unfold readFailed containerConsumeInterrupt
  by_cases stuck : s.errno = Errno.EINTR
  · exact .inl ⟨stuck, by rw [if_pos stuck]⟩
  · cases requested : s.interruptRequested with
    | true => exact .inr (.inl ⟨stuck, rfl, by simp [stuck]⟩)
    | false => exact .inr (.inr ⟨stuck, rfl, by simp [stuck, requested]⟩)

theorem readFailed_errno (s : Shell) : s.readFailed.errno = s.errno := by
  rcases s.readFailed_cases with ⟨-, same⟩ | ⟨-, -, same⟩ | ⟨-, -, same⟩ <;> rw [same]

/-- Only a call that fails changes `errno`. -/
theorem step_errno (step : s.step event = some t) : t.errno = event.failure.getD s.errno := by
  cases moves step with
  | eof => exact readFailed_errno s
  | error error => exact readFailed_errno _
  | wakes call struck interrupted => cases interrupted <;> rfl
  | _ => rfl

theorem run_errno (reached : s.run history = some t) : t.errno = (lastFailure history).getD s.errno := by
  induction history generalizing s with
  | nil => cases reached; rfl
  | cons event rest ih =>
    obtain ⟨u, first, later⟩ := run_first reached
    rw [ih later, step_errno first, lastFailure, lastFailure]
    cases failed : event.failure with
    | none => rw [List.filterMap_cons_none failed]; rfl
    | some error => rw [List.filterMap_cons_some failed, List.getLast?_cons]; rfl

end Shell

/-! ## The end of the input -/

/-- No signal arrives, and the input is at its end: calls do not fail with EINTR, and every read finds the end. -/
def Event.AtEnd : Event → Prop
  | .call failure => failure ≠ some Errno.EINTR
  | .fgets .eof => True
  | _ => False

/-- The iterations of the loop of `main`. -/
def iterations (future : List Event) : Nat := future.count (.fgets .eof)

/-- At the end of the input, the loop is left within a number of iterations. -/
def Shell.ShutsDown (s : Shell) : Prop :=
  ∃ bound, ∀ future t, (∀ event ∈ future, event.AtEnd) → s.run future = some t → t.place = .left ∨ iterations future < bound

namespace Shell

variable {s t : Shell} {future : List Event}

/-- Nothing happens behind the loop. -/
theorem run_left (gone : s.place = .left) (ends : ∀ event ∈ future, event.AtEnd) (reached : s.run future = some t) : t = s := by
  cases future with
  | nil => cases reached; rfl
  | cons event rest =>
    obtain ⟨u, first, -⟩ := run_first reached
    have atEnd := ends event List.mem_cons_self
    obtain ⟨errno, requested, place⟩ := s
    subst gone
    cases event with
    | call failure => cases first
    | fgets result => cases result <;> cases first
    | _ => cases atEnd

/-- A request that is still there costs one iteration, and the next one leaves. -/
theorem run_leaves (here : s.place = .prompt) (free : s.errno ≠ Errno.EINTR) (ends : ∀ event ∈ future, event.AtEnd)
    (reached : s.run future = some t) : t.place = .left ∨ iterations future < if s.interruptRequested then 2 else 1 := by
  -- By induction on the future: no call that fails brings EINTR back, and the first read takes the request.
  induction future generalizing s with
  | nil =>
    right
    rw [iterations, List.count_nil]
    split <;> omega
  | cons event rest ih =>
    obtain ⟨u, first, later⟩ := run_first reached
    have atEnd := ends event List.mem_cons_self
    have rests : ∀ event ∈ rest, event.AtEnd := fun event member => ends event (List.mem_cons_of_mem _ member)
    cases event with
    | call failure =>
      cases moves first with
      | call =>
        have still : failure.getD s.errno ≠ Errno.EINTR := by
          cases failure with
          | none => exact free
          | some error => exact fun same => atEnd (congrArg some same)
        have bound := ih (s := { s with errno := failure.getD s.errno }) here still rests later
        rwa [iterations, List.count_cons_of_ne (by simp)]
    | fgets result =>
      cases moves first with
      | eof =>
        have one : iterations (.fgets .eof :: rest) = iterations rest + 1 := List.count_cons_self
        rcases s.readFailed_cases with ⟨stuck, -⟩ | ⟨-, requested, next⟩ | ⟨-, clear, next⟩
        · exact absurd stuck free
        · rw [next] at later
          rw [one, requested]
          rcases ih (s := { s with interruptRequested := false }) here free rests later with gone | few
          · exact .inl gone
          · exact .inr (Nat.succ_lt_succ few)
        · rw [next] at later
          rw [run_left rfl rests later]
          exact .inl rfl
      | line => cases atEnd
      | error => cases atEnd
    | _ => cases atEnd

/-- With EINTR left in `errno` the loop goes round for ever. -/
theorem run_stuck (here : s.place = .prompt) (stuck : s.errno = Errno.EINTR) (n : Nat) :
    s.run (List.replicate n (.fgets .eof)) = some s := by
  induction n with
  | zero => rfl
  | succ n ih =>
    have round : s.step (.fgets .eof) = some s.readFailed := by
      obtain ⟨errno, requested, place⟩ := s
      subst here
      rfl
    rcases s.readFailed_cases with ⟨-, same⟩ | ⟨free, -⟩ | ⟨free, -⟩
    · rw [List.replicate_succ, run_cons, round, same]
      exact ih
    · exact absurd stuck free
    · exact absurd stuck free

theorem not_shutsDown (here : s.place = .prompt) (stuck : s.errno = Errno.EINTR) : ¬ s.ShutsDown := by
  rintro ⟨bound, leaves⟩
  have ends : ∀ event ∈ List.replicate bound (Event.fgets .eof), event.AtEnd := by
    intro event member
    rw [List.eq_of_mem_replicate member]
    trivial
  rcases leaves _ s ends (run_stuck here stuck bound) with gone | few
  · rw [here] at gone
    cases gone
  · rw [iterations, List.count_replicate_self] at few
    exact Nat.lt_irrefl _ few

end Shell

/-- After any history, the end of the input leads out of the loop exactly where the last call that failed did not
fail with EINTR. -/
theorem shutsDown_iff {history : List Event} {s : Shell} (reached : Shell.start.run history = some s) (here : s.place = .prompt) :
    s.ShutsDown ↔ lastFailure history ≠ some Errno.EINTR := by
  have errno : s.errno = (lastFailure history).getD 0 := Shell.run_errno reached
  have same : s.errno = Errno.EINTR ↔ lastFailure history = some Errno.EINTR := by
    rw [errno]
    cases lastFailure history with
    | none => simp [Errno.EINTR]
    | some error => simp
  rw [Ne, ← same]
  constructor
  · exact fun leaves stuck => Shell.not_shutsDown here stuck leaves
  · intro free
    exact ⟨_, fun future t ends later => Shell.run_leaves here free ends later⟩

/-- A `list` whose poll has met an unknown child, and the input ends. -/
theorem shutsDown_after_list :
    let history := [Event.fgets (.line (lit "list\n")), .call (some Errno.ECHILD), .call none, .returns]
    Shell.start.run history = some ⟨Errno.ECHILD, false, .prompt⟩ ∧ Shell.ShutsDown ⟨Errno.ECHILD, false, .prompt⟩ := by
  intro history
  have reached : Shell.start.run history = some ⟨Errno.ECHILD, false, .prompt⟩ := by decide +kernel
  exact ⟨reached, (shutsDown_iff reached rfl).mpr (by decide)⟩

/-- `stats --watch 1`, ended by Ctrl+C in its sleep. -/
def watchEnded : List Event :=
  [.fgets (.line (lit "stats --watch 1\n")), .proceeds, .test, .proceeds, .sigint, .wakes true, .test]

/-- After it, the end of the input is never noticed. -/
theorem watchEnded_stuck :
    Shell.start.run watchEnded = some ⟨Errno.EINTR, false, .prompt⟩ ∧ ¬ Shell.ShutsDown ⟨Errno.EINTR, false, .prompt⟩ :=
  ⟨by decide +kernel, Shell.not_shutsDown rfl rfl⟩

/-! ## Whose interrupt it is -/

/-- The line makes a watching call begin. -/
def Begins (piece : Text) : Prop := ∃ call, commandPlace piece = .opening call

/-- A watching call that begins in the one state and comes to a test of its own in the other. -/
structure Tested (history middle : List Event) (began tested : Shell) : Prop where
  reached : ∃ front piece back, history = front ++ .fgets (.line piece) :: (middle ++ .test :: back) ∧
    Shell.start.run front = some began ∧ Begins piece ∧ began.run (.fgets (.line piece) :: middle) = some tested
  /-- No other command is read in between. -/
  same : ∀ piece, Event.fgets (.line piece) ∉ middle

/-- A watching call returns because of an interrupt only if SIGINT has arrived since it began. -/
def InterruptsOwn (history : List Event) : Prop :=
  ∀ middle began tested, Tested history middle began tested → tested.interruptRequested = true → .sigint ∈ middle

/-- A watching call that begins with a request already there does not come to its first test without a SIGINT. -/
def FindsNoRequest (history : List Event) : Prop :=
  ∀ middle began tested, Tested history middle began tested → began.interruptRequested = true → .test ∉ middle → .sigint ∈ middle

def Place.InCall : Place → Prop
  | .opening _ | .testing _ | .round _ | .asleep _ _ => True
  | _ => False

namespace Shell

variable {s t : Shell} {event : Event} {middle : List Event}

theorem readFailed_place (s : Shell) (here : s.place = .prompt) : ¬ s.readFailed.place.InCall := by
  rcases s.readFailed_cases with ⟨-, same⟩ | ⟨-, -, same⟩ | ⟨-, -, same⟩ <;> rw [same]
  · simp [here, Place.InCall]
  · simp [here, Place.InCall]
  · simp [Place.InCall]

theorem strike_inCall (place : Place) : place.strike.InCall ↔ place.InCall := by
  cases place <;> exact Iff.rfl

/-- Without a new command there is no new call. -/
theorem step_outside (outside : ¬ s.place.InCall) (step : s.step event = some t) (unread : ∀ piece, event ≠ .fgets (.line piece)) :
    ¬ t.place.InCall := by
  cases moves step with
  | sigint => exact fun inside => outside ((strike_inCall s.place).mp inside)
  | call => exact outside
  | line piece => exact absurd rfl (unread piece)
  | eof here => exact readFailed_place s here
  | error error here => exact readFailed_place _ here
  | opens call here | interrupted call here | stays call here | sleeps call here | wakes call struck interrupted here =>
    exact absurd (here ▸ trivial) outside
  | returns => exact id

theorem run_outside (outside : ¬ s.place.InCall) (reached : s.run middle = some t) (unread : ∀ piece, Event.fgets (.line piece) ∉ middle) :
    ¬ t.place.InCall := by
  induction middle generalizing s with
  | nil => cases reached; exact outside
  | cons event rest ih =>
    obtain ⟨u, first, later⟩ := run_first reached
    have next := step_outside outside first fun piece same => unread piece (same ▸ List.mem_cons_self)
    exact ih next later fun piece member => unread piece (List.mem_cons_of_mem _ member)

/-- Inside a call the flag stays as it is, unless a signal arrives or the call returns. -/
theorem step_inside (inside : s.place.InCall) (step : s.step event = some t) (quiet : event ≠ .sigint) :
    ¬ t.place.InCall ∨ t.interruptRequested = s.interruptRequested ∧ (event = .test → s.interruptRequested = false) := by
  cases moves step with
  | sigint => exact absurd rfl quiet
  | line piece here | eof here | error error here => exact absurd inside (by rw [here]; exact id)
  | interrupted call here requested => exact .inl id
  | returns => exact .inl id
  | stays call here clear => exact .inr ⟨rfl, fun _ => clear⟩
  | call | opens | sleeps | wakes => exact .inr ⟨rfl, nofun⟩

/-- So a request that is found without a signal was there when the call began, and it is found by the first test. -/
theorem run_inside (inside : s.place.InCall) (reached : s.run middle = some t) (still : t.place.InCall)
    (unread : ∀ piece, Event.fgets (.line piece) ∉ middle) (quiet : .sigint ∉ middle) :
    t.interruptRequested = true ↔ s.interruptRequested = true ∧ .test ∉ middle := by
  -- By induction on the events: a test that is passed has found the flag clear, and nothing sets it afterwards.
  induction middle generalizing s with
  | nil =>
    cases reached
    simp
  | cons event rest ih =>
    obtain ⟨u, first, later⟩ := run_first reached
    have unread' : ∀ piece, Event.fgets (.line piece) ∉ rest := fun piece member => unread piece (List.mem_cons_of_mem _ member)
    rcases step_inside inside first (fun same => quiet (same ▸ List.mem_cons_self)) with outside | ⟨flag, clear⟩
    · exact absurd still (run_outside outside later unread')
    · by_cases within : u.place.InCall
      · rw [ih within later unread' fun member => quiet (List.mem_cons_of_mem _ member), flag, List.mem_cons, not_or]
        constructor
        · rintro ⟨requested, untested⟩
          refine ⟨requested, fun same => ?_, untested⟩
          rw [clear same.symm] at requested
          cases requested
        · rintro ⟨requested, -, untested⟩
          exact ⟨requested, untested⟩
      · exact absurd still (run_outside within later unread')

end Shell

/-- In a history of the process, a test of a watching call. -/
theorem Tested.inside {history middle : List Event} {began tested s : Shell} (accepted : Shell.start.run history = some s)
    (call : Tested history middle began tested) (quiet : .sigint ∉ middle) :
    tested.interruptRequested = true ↔ began.interruptRequested = true ∧ .test ∉ middle := by
  obtain ⟨front, piece, back, rfl, before, ⟨kind, opened⟩, reached⟩ := call.reached
  obtain ⟨u, first, later⟩ := Shell.run_first reached
  obtain ⟨v, there, rest⟩ := Shell.run_append accepted
  rw [before] at there
  cases there
  rw [← List.cons_append] at rest
  obtain ⟨v, there, rest⟩ := Shell.run_append rest
  rw [reached] at there
  cases there
  -- The next event is a test, so the call is at the top of its loop.
  obtain ⟨after, test, -⟩ := Shell.run_first rest
  have still : tested.place.InCall := by
    cases Shell.moves test with
    | interrupted call here | stays call here => rw [here]; trivial
  cases Shell.moves first with
  | line =>
    have begun : Place.InCall { began with place := commandPlace piece }.place := by
      rw [opened]
      trivial
    exact Shell.run_inside (s := { began with place := commandPlace piece }) begun later still call.same quiet

/-- In every history, all interrupts of watching calls are their own exactly where no such call begins with a request
already there and comes to its first test without a SIGINT. -/
theorem interruptsOwn_iff {history : List Event} {s : Shell} (accepted : Shell.start.run history = some s) :
    InterruptsOwn history ↔ FindsNoRequest history := by
  constructor
  · intro own middle began tested call requested untested
    by_contra quiet
    exact quiet (own middle began tested call ((call.inside accepted quiet).mpr ⟨requested, untested⟩))
  · intro fresh middle began tested call requested
    by_contra quiet
    obtain ⟨stale, untested⟩ := (call.inside accepted quiet).mp requested
    exact quiet (fresh middle began tested call stale untested)

/-- The request that ends the watch above is its own. -/
theorem interruptsOwn_watchEnded : Shell.start.run watchEnded = some ⟨Errno.EINTR, false, .prompt⟩ ∧ InterruptsOwn watchEnded := by
  have accepted : Shell.start.run watchEnded = some ⟨Errno.EINTR, false, .prompt⟩ := by decide +kernel
  refine ⟨accepted, (interruptsOwn_iff accepted).mpr ?_⟩
  intro middle began tested call requested untested
  obtain ⟨front, piece, back, split, before, -, -⟩ := call.reached
  -- There is one line in it, which is read with no request.
  cases front with
  | nil =>
    cases before
    cases requested
  | cons event rest =>
    rw [watchEnded, List.cons_append, List.cons.injEq] at split
    have member : Event.fgets (.line piece) ∈ rest ++ .fgets (.line piece) :: (middle ++ .test :: back) := by simp
    rw [← split.2] at member
    simp at member

/-- Ctrl+C at the prompt, then `stats --watch 1`. -/
def staleRequest : List Event := [.sigint, .fgets (.line (lit "stats --watch 1\n")), .proceeds, .test]

/-- The watch ends before its first round. -/
theorem staleRequest_ends_watch :
    Shell.start.run staleRequest = some ⟨0, false, .prompt⟩ ∧ ¬ InterruptsOwn staleRequest := by
  have begins : commandPlace (lit "stats --watch 1\n") = .opening .all := by decide +kernel
  refine ⟨by decide +kernel, fun own => ?_⟩
  have call : Tested staleRequest [.proceeds] ⟨0, true, .prompt⟩ ⟨0, true, .testing .all⟩ := by
    refine ⟨⟨[.sigint], _, [], rfl, rfl, ⟨.all, begins⟩, by decide +kernel⟩, ?_⟩
    simp
  exact absurd (own _ _ _ call rfl) (by decide)

end ContainerRuntime.Cli
