import ContainerRuntime.Logic.Mutex
import ContainerRuntime.Scheduler.Array

/-! The functions of `scheduler.c` access by access, under their mutex.

Any number of threads call the functions, and any number run
`scheduler_thread_main`, from any time on; a join may return at any time. Between
two accesses of `g_state` of one thread the others may do anything they can. What
they see is what they would see if each part that is between a lock and its unlock
were one step, as it is in the other modules.
-/

set_option autoImplicit false

namespace ContainerRuntime.Locking

open Mutex

/-- What `kill(pid, 0)`, `realloc` and `pthread_create` will answer in one section, in which no pid is asked for twice. -/
structure Answers where
  alive : Pid → Bool
  memory : Option (Nat → Pid)
  created : Bool

/-- The functions that other parts of the program call. -/
inductive Api where
  | setEnabled (enabled : Bool)
  | setTimeSliceMs (ms : UInt32)
  | isEnabled
  | getTimeSliceMs
  | addTarget (pid : Pid)
  | removeTarget (pid : Pid)
  | clearTargets
  | start (ms : UInt32)
  | stop
  deriving DecidableEq

/-- What a function returns, or the `errno` with its -1. -/
inductive Returned where
  | nothing
  | value (n : Int)
  | failed (error : Errno)
  deriving DecidableEq

/-- A call that is refused without a look at `g_state`. -/
def Api.refused : Api → Option Errno
  | .setTimeSliceMs ms | .start ms => if ms = 0 then some Errno.EINVAL else none
  | _ => none

/-! ## The accesses of the functions -/

/-- Behind the unlock. -/
inductive Left where
  | returned (result : Returned)
  /-- `scheduler_stop` goes on to join the thread. -/
  | joins
  deriving DecidableEq

/-- The next access of a function that has the lock, with what it has read so far. -/
inductive Spot where
  | setEnabled (enabled : Bool)
  | setSlice (ms : UInt32)
  | isEnabled
  | getSlice
  | addTest (pid : Pid) (i : Nat)
  | addCompare (pid : Pid) (i : Nat)
  | addDesired (pid : Pid)
  | ensureTest (pid : Pid) (desired : Nat)
  | ensureNext (pid : Pid) (desired : Nat)
  | ensureBlock (pid : Pid) (nextCapacity : Nat)
  | ensureCapacity (pid : Pid) (nextCapacity : Nat)
  | addIndex (pid : Pid)
  | addStore (pid : Pid) (index : Nat)
  | addCount (index : Nat)
  | removeTest (pid : Pid) (i : Nat)
  | removeCompare (pid : Pid) (i : Nat)
  | removeLast (i : Nat)
  | removeLoad (i last : Nat)
  | removeStore (i : Nat) (pid : Pid)
  | removeCount
  | removeDecrement (count : Nat)
  | resetLoad (removed : Bool)
  | resetTest (removed : Bool) (index : Nat)
  | resetStore (removed : Bool)
  | clearCount
  | clearIndex
  | startSlice (ms : UInt32)
  | startTest
  | startRequested
  | startCreate
  | stopTest
  | stopRequest
  | finishStarted
  | finishRequested
  | leave (left : Left)
  deriving DecidableEq

/-- The first access. -/
def Api.entry : Api → Spot
  | .setEnabled enabled => .setEnabled enabled
  | .setTimeSliceMs ms => .setSlice ms
  | .isEnabled => .isEnabled
  | .getTimeSliceMs => .getSlice
  | .addTarget pid => .addTest pid 0
  | .removeTarget pid => .removeTest pid 0
  | .clearTargets => .clearCount
  | .start ms => .startSlice ms
  | .stop => .stopTest

/-- `return 0`. -/
def Spot.done : Spot := .leave (.returned (.value 0))

/-- The end of a function of type `void`. -/
def Spot.ended : Spot := .leave (.returned .nothing)

/-- The `-1` of `scheduler_remove_target` comes without an `errno`. -/
def removedResult (removed : Bool) : Returned := .value (if removed then 0 else -1)

/-- One access of `g_state`. A cell is reached through the pointer in the same step, and `realloc` comes with the store of
what it returns. -/
def Spot.act (answers : Answers) (s : SchedulerState) : Spot → Option (SchedulerState × Spot)
  | .setEnabled enabled => some ({ s with enabled }, .done)
  | .setSlice ms => some ({ s with timeSliceMs := ms }, .done)
  | .isEnabled => some (s, .leave (.returned (.value (if s.enabled then 1 else 0))))
  | .getSlice => some (s, .leave (.returned (.value s.timeSliceMs.toNat)))
  | .addTest pid i => some (s, if i < s.targetCount then .addCompare pid i else .addDesired pid)
  | .addCompare pid i => (s.load i).map fun here => (s, if here = pid then .done else .addTest pid (i + 1))
  | .addDesired pid => some (s, .ensureTest pid ((s.targetCount + 1) % sizeSpace))
  | .ensureTest pid desired => some (s, if desired ≤ s.targetCapacity then .addIndex pid else .ensureNext pid desired)
  | .ensureNext pid desired =>
    (SchedulerState.doubleUp desired 65 (if s.targetCapacity = 0 then 8 else s.targetCapacity)).map fun next =>
      (s, .ensureBlock pid next)
  | .ensureBlock pid next =>
    match answers.memory with
    | none => some (s, .leave (.returned (.failed Errno.ENOMEM)))
    | some memory =>
      some ({ s with cells := SchedulerState.realloc s.cells (next * pidSize % sizeSpace) memory }, .ensureCapacity pid next)
  | .ensureCapacity pid next => some ({ s with targetCapacity := next }, .addIndex pid)
  | .addIndex pid => some (s, .addStore pid s.targetCount)
  | .addStore pid index => (s.store index pid).map fun stored => (stored, .addCount index)
  | .addCount index => some ({ s with targetCount := (index + 1) % sizeSpace }, .done)
  | .removeTest pid i => some (s, if i < s.targetCount then .removeCompare pid i else .resetLoad false)
  | .removeCompare pid i => (s.load i).map fun here => (s, if here = pid then .removeLast i else .removeTest pid (i + 1))
  | .removeLast i => some (s, .removeLoad i (s.targetCount - 1))
  | .removeLoad i last => (s.load last).map fun pid => (s, .removeStore i pid)
  | .removeStore i pid => (s.store i pid).map fun stored => (stored, .removeCount)
  | .removeCount => some (s, .removeDecrement s.targetCount)
  | .removeDecrement count => some ({ s with targetCount := count - 1 }, .resetLoad true)
  | .resetLoad removed => some (s, .resetTest removed s.currentIndex)
  | .resetTest removed index =>
    some (s, if s.targetCount ≤ index then .resetStore removed else .leave (.returned (removedResult removed)))
  | .resetStore removed => some ({ s with currentIndex := 0 }, .leave (.returned (removedResult removed)))
  | .clearCount => some ({ s with targetCount := 0 }, .clearIndex)
  | .clearIndex => some ({ s with currentIndex := 0 }, .ended)
  | .startSlice ms => some ({ s with timeSliceMs := ms }, .startTest)
  | .startTest => some (s, if s.threadStarted then .done else .startRequested)
  | .startRequested => some ({ s with stopRequested := false }, .startCreate)
  | .startCreate =>
    if answers.created then some ({ s with threadStarted := true }, .done)
    else some (s, .leave (.returned (.failed Errno.EAGAIN)))
  | .stopTest => some (s, if s.threadStarted then .stopRequest else .ended)
  | .stopRequest => some ({ s with stopRequested := true }, .leave .joins)
  | .finishStarted => some ({ s with threadStarted := false }, .finishRequested)
  | .finishRequested => some ({ s with stopRequested := false }, .ended)
  | .leave _ => none

/-! ## The accesses of the thread -/

/-- Behind the unlock of the thread. -/
inductive Chosen where
  | stops
  | idles
  | pair (current next : Pid) (sliceMs : UInt32)
  deriving DecidableEq

/-- What a turn of the thread has read first. -/
structure Turn where
  enabled : Bool
  sliceMs : UInt32
  deriving DecidableEq

/-- The next access of `scheduler_thread_main` while it has the lock. -/
inductive ThreadSpot where
  | stopTest
  | loadEnabled
  | loadSlice (enabled : Bool)
  | pruneTest (turn : Turn) (i write : Nat)
  | pruneLoad (turn : Turn) (i write : Nat)
  | pruneStore (turn : Turn) (i write : Nat) (pid : Pid)
  | pruneCount (turn : Turn) (write : Nat)
  | resetLoad (turn : Turn)
  | resetTest (turn : Turn) (index : Nat)
  | resetStore (turn : Turn)
  | loadCount (turn : Turn)
  | currentIndex (turn : Turn) (count : Nat)
  | currentLoad (turn : Turn) (count index : Nat)
  | advance (turn : Turn) (count : Nat) (current : Pid)
  | advanceStore (turn : Turn) (count : Nat) (current : Pid) (index : Nat)
  | nextIndex (turn : Turn) (count : Nat) (current : Pid)
  | nextLoad (turn : Turn) (current : Pid) (index : Nat)
  | leave (chosen : Chosen)
  deriving DecidableEq

/-- One access of `g_state` by the thread. -/
def ThreadSpot.act (answers : Answers) (s : SchedulerState) : ThreadSpot → Option (SchedulerState × ThreadSpot)
  | .stopTest => some (s, if s.stopRequested then .leave .stops else .loadEnabled)
  | .loadEnabled => some (s, .loadSlice s.enabled)
  | .loadSlice enabled => some (s, .pruneTest ⟨enabled, s.timeSliceMs⟩ 0 0)
  | .pruneTest turn i write => some (s, if i < s.targetCount then .pruneLoad turn i write else .pruneCount turn write)
  | .pruneLoad turn i write =>
    (s.load i).map fun pid =>
      (s, if Scheduler.pidIsAlive answers.alive pid = false then .pruneTest turn (i + 1) write
        else .pruneStore turn i write pid)
  | .pruneStore turn i write pid => (s.store write pid).map fun stored => (stored, .pruneTest turn (i + 1) (write + 1))
  | .pruneCount turn write => some ({ s with targetCount := write }, .resetLoad turn)
  | .resetLoad turn => some (s, .resetTest turn s.currentIndex)
  | .resetTest turn index => some (s, if s.targetCount ≤ index then .resetStore turn else .loadCount turn)
  | .resetStore turn => some ({ s with currentIndex := 0 }, .loadCount turn)
  | .loadCount turn =>
    some (s, if turn.enabled = false ∨ s.targetCount < 2 then .leave .idles else .currentIndex turn s.targetCount)
  | .currentIndex turn count => some (s, .currentLoad turn count (s.currentIndex % count))
  | .currentLoad turn count index => (s.load index).map fun current => (s, .advance turn count current)
  | .advance turn count current => some (s, .advanceStore turn count current ((s.currentIndex + 1) % sizeSpace % count))
  | .advanceStore turn count current index => some ({ s with currentIndex := index }, .nextIndex turn count current)
  | .nextIndex turn count current => some (s, .nextLoad turn current (s.currentIndex % count))
  | .nextLoad turn current index => (s.load index).map fun next => (s, .leave (.pair current next turn.sliceMs))
  | .leave _ => none

/-! ## The threads -/

/-- Where a thread is: in a list of calls, or in `scheduler_thread_main`. -/
inductive Place where
  | calls (todo : List Api)
  | calling (answers : Answers) (spot : Spot) (call : Api) (rest : List Api)
  | returning (call : Api) (result : Returned) (rest : List Api)
  | joining (rest : List Api)
  | finishing (rest : List Api)
  | thread
  | choosing (answers : Answers) (spot : ThreadSpot)
  | signalling (current next : Pid) (sliceMs : UInt32)
  | resuming (next : Pid) (sliceMs : UInt32)
  | sleeping (ms : UInt32)
  | finished

/-- What is seen of a thread from outside. -/
inductive Event where
  | returned (call : Api) (result : Returned)
  | joined
  | signal (pid : Pid) (signal : Signal)
  /-- A pid that is not positive is not signalled. -/
  | spared (pid : Pid)
  | slept (ms : UInt32)
  deriving DecidableEq

def Left.place (call : Api) (rest : List Api) : Left → Place
  | .returned result => .returning call result rest
  | .joins => .joining rest

def Chosen.place : Chosen → Place
  | .stops => .finished
  | .idles => .sleeping 50
  | .pair current next sliceMs => .signalling current next sliceMs

def signalled (pid : Pid) (signal : Signal) : Event := if 0 < pid then .signal pid signal else .spared pid

/-- What a thread does next; a part that has begun keeps the answers that it will get. -/
def code : Place → Doing SchedulerState Place Answers Event
  | .calls [] => .halt
  | .calls (call :: rest) =>
    match call.refused with
    | some error => .emit (.returned call (.failed error)) (.calls rest)
    | none => .lock fun answers => .calling answers call.entry call rest
  | .calling _ (.leave left) call rest => .unlock (left.place call rest)
  | .calling answers spot call rest =>
    .access fun s => (spot.act answers s).map (Prod.map id fun next => .calling answers next call rest)
  | .returning call result rest => .emit (.returned call result) (.calls rest)
  | .joining rest => .emit .joined (.finishing rest)
  | .finishing rest => .lock fun answers => .calling answers .finishStarted .stop rest
  | .thread => .lock fun answers => .choosing answers .stopTest
  | .choosing _ (.leave chosen) => .unlock chosen.place
  | .choosing answers spot => .access fun s => (spot.act answers s).map (Prod.map id fun next => .choosing answers next)
  | .signalling current next sliceMs => .emit (signalled current .SIGSTOP) (.resuming next sliceMs)
  | .resuming next sliceMs => .emit (signalled next .SIGCONT) (.sleeping sliceMs)
  | .sleeping ms => .emit (.slept ms) .thread
  | .finished => .halt

/-- The thread has the lock. -/
def Inside : Place → Prop
  | .calling .. | .choosing .. => True
  | _ => False

end ContainerRuntime.Locking
