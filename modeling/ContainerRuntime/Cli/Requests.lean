import ContainerRuntime.Cli.Tokenizer
import ContainerRuntime.Resource.Limits

/-! The dispatch of the main loop: from an argument vector to a request.

`argc` and `argv` are one list here. The limit flags in front of a container
specification are consumed one pair at a time; a value is read by `strtoul`
without a look at what follows its digits.
-/

set_option autoImplicit false

namespace ContainerRuntime.Cli

open CString

/-- `ContainerSpec`; a null pointer is `none`. -/
structure ContainerSpec where
  name : Option Text
  hostname : Option Text
  rootfs : Option Text
  commandLine : Option Text
  resourceLimits : ResourceConfig
  deriving DecidableEq, Repr

inductive LimitFlag where
  | cpu | mem | pids
  deriving DecidableEq, Repr

def LimitFlag.ofText (text : Text) : Option LimitFlag :=
  if text = lit "--cpu" then some .cpu
  else if text = lit "--mem" then some .mem
  else if text = lit "--pids" then some .pids
  else none

def LimitFlag.store (flag : LimitFlag) (value : UInt32) (limits : ResourceConfig) : ResourceConfig :=
  match flag with
  | .cpu => { limits with cpuSeconds := value }
  | .mem => { limits with memoryMb := value }
  | .pids => { limits with maxProcesses := value }

/-- `parse_limit_flags`: the arguments behind the flags, and the limits read from them. -/
def parseLimitFlags : List Text → ResourceConfig → Option (List Text × ResourceConfig)
  | [], limits => some ([], limits)
  | flag :: rest, limits =>
    if flag.take 2 ≠ lit "--" then some (flag :: rest, limits)
    else
      match LimitFlag.ofText flag, rest with
      | none, _ => none
      | some _, [] => none
      | some limit, value :: more => parseLimitFlags more (limit.store (readLimit value) limits)

/-- The flag and value pairs `parse_limit_flags` goes through. -/
def limitValues : List Text → List (LimitFlag × Text)
  | flag :: value :: more =>
    match LimitFlag.ofText flag with
    | none => []
    | some limit => (limit, value) :: limitValues more
  | _ => []

inductive CliError where
  | runUsage (command : Text)
  | commandTooLong
  | createUsage
  | schedUsage
  | schedSliceUsage
  | startUsage | stopUsage | deleteUsage | listUsage
  | logsUsage
  | statsUsage
  | unknownCommand (command : Text)
  deriving DecidableEq, Repr

def CliError.message : CliError → Text
  | .runUsage command => lit "[error] usage: " ++ command ++
      lit " [--cpu SEC] [--mem MB] [--pids N] <name> <hostname> <rootfs> <command> [args...]\n\n"
  | .commandTooLong => lit "[error] command is too long\n\n"
  | .createUsage => lit "[error] usage: create [--cpu SEC] [--mem MB] [--pids N] [name] [hostname] [rootfs]\n\n"
  | .schedUsage => lit "[error] usage: sched on|off|slice <ms>|status\n\n"
  | .schedSliceUsage => lit "[error] usage: sched slice <ms>\n\n"
  | .startUsage => lit "[error] usage: start <id>\n\n"
  | .stopUsage => lit "[error] usage: stop <id>\n\n"
  | .deleteUsage => lit "[error] usage: delete <id>\n\n"
  | .listUsage => lit "[error] usage: list\n\n"
  | .logsUsage => lit "[error] usage: logs [-f] [-n N] [id]\n\n"
  | .statsUsage => lit "[error] usage: stats [id] | stats --watch <sec> [id]\n\n"
  | .unknownCommand command => lit "[error] unknown command: '" ++ command ++ lit "'\n\n"

inductive Request where
  | run (background : Bool) (spec : ContainerSpec)
  | create (spec : ContainerSpec)
  | schedOn | schedOff | schedSlice (ms : UInt32) | schedStatus
  | start (id : Text) | stop (id : Text) | delete (id : Text)
  | list
  | logs (id : Option Text) (follow : Bool) (tail : Int32)
  | statsAll | stats (id : Text) | statsAllWatch (sec : UInt32) | statsWatch (id : Text) (sec : UInt32)
  | help | exit
  deriving DecidableEq, Repr

/-- `char command_line[CONTAINER_COMMAND_LEN]`. -/
def commandLineSize : Nat := 256

/-- The loop that prints the command arguments into `command_line`, one blank between two of them. -/
def appendArgs (written : Text) (first : Bool) : List Text → Option Text
  | [] => some written
  | arg :: rest =>
    let piece := (if first then [] else [' ']) ++ arg
    if commandLineSize - written.length ≤ piece.length then none
    else appendArgs (written ++ piece) false rest

/-- The `run` and `runbg` branch. -/
def runSpec (command : Text) (args : List Text) : Except CliError ContainerSpec :=
  match parseLimitFlags args .unlimited with
  | some (name :: hostname :: rootfs :: first :: more, limits) =>
    match appendArgs [] true (first :: more) with
    | none => .error .commandTooLong
    | some line => .ok ⟨some name, some hostname, some rootfs, some line, limits⟩
  | _ => .error (.runUsage command)

/-- The `create` branch. -/
def createSpec (args : List Text) : Except CliError ContainerSpec :=
  match parseLimitFlags args .unlimited with
  | some ([], limits) => .ok ⟨none, none, none, none, limits⟩
  | some ([name], limits) => .ok ⟨some name, none, none, none, limits⟩
  | some ([name, hostname], limits) => .ok ⟨some name, some hostname, none, none, limits⟩
  | some ([name, hostname, rootfs], limits) => .ok ⟨some name, some hostname, some rootfs, none, limits⟩
  | _ => .error .createUsage

def schedRequest : List Text → Except CliError Request
  | [] => .error .schedUsage
  | action :: rest =>
    if action = lit "on" then .ok .schedOn
    else if action = lit "off" then .ok .schedOff
    else if action = lit "slice" then
      match rest with
      | [ms] => .ok (.schedSlice (readLimit ms))
      | _ => .error .schedSliceUsage
    else if action = lit "status" then .ok .schedStatus
    else .error .schedUsage

def oneId (make : Text → Request) (usage : CliError) : List Text → Except CliError Request
  | [id] => .ok (make id)
  | _ => .error usage

/-- The option loop of `logs`. A trailing `-n` without a value is taken for an id. -/
def logsRequest (id : Option Text) (follow : Bool) (tail : Int32) : List Text → Except CliError Request
  | [] => .ok (.logs id follow tail)
  | arg :: rest =>
    if arg = lit "-f" ∨ arg = lit "--follow" then logsRequest id true tail rest
    else
      match decide (arg = lit "-n" ∨ arg = lit "--tail"), rest with
      | true, value :: more => logsRequest id follow (Int32.ofInt (strtol value)) more
      | _, rest =>
        match id with
        | none => logsRequest (some arg) follow tail rest
        | some _ => .error .logsUsage

def statsRequest : List Text → Except CliError Request
  | [] => .ok .statsAll
  | [id] => .ok (.stats id)
  | [watch, sec] => if watch = lit "--watch" then .ok (.statsAllWatch (readLimit sec)) else .error .statsUsage
  | [watch, sec, id] => if watch = lit "--watch" then .ok (.statsWatch id (readLimit sec)) else .error .statsUsage
  | _ => .error .statsUsage

inductive Verb where
  | run | runbg | create | sched | start | stop | delete | list | logs | stats | help | exit
  deriving DecidableEq, Repr

def Verb.name : Verb → Text
  | .run => lit "run"
  | .runbg => lit "runbg"
  | .create => lit "create"
  | .sched => lit "sched"
  | .start => lit "start"
  | .stop => lit "stop"
  | .delete => lit "delete"
  | .list => lit "list"
  | .logs => lit "logs"
  | .stats => lit "stats"
  | .help => lit "help"
  | .exit => lit "exit"

/-- The chain of `strcmp(args[0], ...)` tests. -/
def Verb.ofText (command : Text) : Option Verb :=
  [.run, .runbg, .create, .sched, .start, .stop, .delete, .list, .logs, .stats, .help, .exit].find?
    fun verb => command = verb.name

def dispatch (command : Text) (args : List Text) : Except CliError Request :=
  match Verb.ofText command with
  | some .run => (runSpec command args).map (.run false)
  | some .runbg => (runSpec command args).map (.run true)
  | some .create => (createSpec args).map .create
  | some .sched => schedRequest args
  | some .start => oneId .start .startUsage args
  | some .stop => oneId .stop .stopUsage args
  | some .delete => oneId .delete .deleteUsage args
  | some .list => if args = [] then .ok .list else .error .listUsage
  | some .logs => logsRequest none false (-1) args
  | some .stats => statsRequest args
  | some .help => .ok .help
  | some .exit => .ok .exit
  | none => .error (.unknownCommand command)

/-- One input line; a line without arguments is skipped. -/
def readRequest (line : Text) : Option (Except CliError Request) :=
  match commandArgs line with
  | [] => none
  | command :: args => some (dispatch command args)

/-- A line as `fgets` into `char line[256]` and the newline cut deliver it. -/
def InputLine (line : Text) : Prop := line.length ≤ 255 ∧ newline ∉ line ∧ nul ∉ line

instance (line : Text) : Decidable (InputLine line) :=
  inferInstanceAs (Decidable (line.length ≤ 255 ∧ newline ∉ line ∧ nul ∉ line))

/-! ## Requests that make a container -/

/-- The specification a request hands to `container_create`. -/
def Request.spec : Request → Option ContainerSpec
  | .run _ spec => some spec
  | .create spec => some spec
  | _ => none

theorem schedRequest_spec {args : List Text} {request : Request} (done : schedRequest args = .ok request) :
    request.spec = none := by
  unfold schedRequest at done
  repeat' split at done
  all_goals cases done <;> rfl

theorem oneId_spec {make : Text → Request} {usage : CliError} {args : List Text} {request : Request}
    (plain : ∀ id, (make id).spec = none) (done : oneId make usage args = .ok request) : request.spec = none := by
  unfold oneId at done
  split at done <;> cases done
  exact plain _

theorem logsRequest_spec {id : Option Text} {follow : Bool} {tail : Int32} {args : List Text} {request : Request}
    (done : logsRequest id follow tail args = .ok request) : request.spec = none := by
  fun_induction logsRequest id follow tail args with
  | case1 => cases done; rfl
  | case2 id follow tail arg rest _ ih => exact ih done
  | case3 id follow tail arg _ value more _ ih => exact ih done
  | case4 => rename_i ih; exact ih done
  | case5 => cases done

theorem statsRequest_spec {args : List Text} {request : Request} (done : statsRequest args = .ok request) :
    request.spec = none := by
  unfold statsRequest at done
  repeat' split at done
  all_goals cases done <;> rfl

theorem except_map_ok {ε α β : Type} {result : Except ε α} {make : α → β} {value : β}
    (done : result.map make = .ok value) : ∃ given, result = .ok given ∧ make given = value := by
  cases result with
  | error e => cases done
  | ok given => exact ⟨given, rfl, Except.ok.inj done⟩

/-- Only `run`, `runbg` and `create` make a container, each from its own branch. -/
theorem dispatch_spec {command : Text} {args : List Text} {request : Request} {spec : ContainerSpec}
    (done : dispatch command args = .ok request) (made : request.spec = some spec) :
    (runSpec command args = .ok spec ∧ ∃ background, request = .run background spec) ∨
    (createSpec args = .ok spec ∧ request = .create spec) := by
  have plain : request.spec = none → False := fun none_made => by rw [none_made] at made; cases made
  unfold dispatch at done
  split at done
  case h_1 | h_2 =>
    obtain ⟨given, same, rfl⟩ := except_map_ok done
    cases made
    exact Or.inl ⟨same, _, rfl⟩
  case h_3 =>
    obtain ⟨given, same, rfl⟩ := except_map_ok done
    cases made
    exact Or.inr ⟨same, rfl⟩
  case h_4 => exact (plain (schedRequest_spec done)).elim
  case h_5 | h_6 | h_7 => exact (plain (oneId_spec (fun _ => rfl) done)).elim
  case h_8 =>
    split at done <;> cases done
    exact (plain rfl).elim
  case h_9 => exact (plain (logsRequest_spec done)).elim
  case h_10 => exact (plain (statsRequest_spec done)).elim
  case h_11 | h_12 =>
    cases done
    exact (plain rfl).elim
  case h_13 => cases done

/-! ## The joined command line -/

theorem appendArgs_eq (written : Text) (args : List Text) (room : written.length < commandLineSize) :
    appendArgs written false args =
      if (written ++ args.flatMap (' ' :: ·)).length < commandLineSize
      then some (written ++ args.flatMap (' ' :: ·)) else none := by
  induction args generalizing written with
  | nil => simp [appendArgs, room]
  | cons arg rest ih =>
    simp only [appendArgs, Bool.false_eq_true, if_false, List.singleton_append]
    split
    · rename_i full
      rw [if_neg]
      simp only [List.flatMap_cons, List.length_append, List.length_cons] at full ⊢
      omega
    · rename_i space
      have fits : (written ++ ' ' :: arg).length < commandLineSize := by
        simp only [List.length_append, List.length_cons] at space ⊢
        omega
      rw [ih _ fits]
      simp [List.flatMap_cons, List.append_assoc]

theorem intercalate_blank (arg : Text) (rest : List Text) :
    [' '].intercalate (arg :: rest) = arg ++ rest.flatMap (' ' :: ·) := by
  induction rest generalizing arg with
  | nil => simp
  | cons next rest ih =>
    rw [List.intercalate_cons_cons, ih next]
    simp

/-- `main` accepts a command exactly when its arguments, joined by blanks, fit the buffer. -/
theorem appendArgs_some_iff (arg : Text) (rest : List Text) (line : Text) :
    appendArgs [] true (arg :: rest) = some line ↔
      line = [' '].intercalate (arg :: rest) ∧ line.length < commandLineSize := by
  simp only [appendArgs, if_true, List.nil_append, List.length_nil, Nat.sub_zero]
  rw [intercalate_blank]
  by_cases space : arg.length < commandLineSize
  · rw [if_neg (by omega), appendArgs_eq arg rest space]
    constructor
    · intro done
      split at done
      · rename_i fits
        cases done
        exact ⟨rfl, fits⟩
      · cases done
    · rintro ⟨rfl, fits⟩
      rw [if_pos fits]
  · rw [if_pos (by omega)]
    constructor
    · intro done
      cases done
    · rintro ⟨rfl, fits⟩
      simp only [List.length_append] at fits
      omega

theorem runSpec_ok {command : Text} {args : List Text} {spec : ContainerSpec}
    (accepted : runSpec command args = .ok spec) :
    ∃ name hostname rootfs first more line limits,
      parseLimitFlags args .unlimited = some (name :: hostname :: rootfs :: first :: more, limits) ∧
      spec = ⟨some name, some hostname, some rootfs, some line, limits⟩ ∧
      line = [' '].intercalate (first :: more) ∧ line.length < commandLineSize := by
  unfold runSpec at accepted
  split at accepted
  · rename_i name hostname rootfs first more limits parsed
    split at accepted
    · cases accepted
    · rename_i line joined
      obtain ⟨same, fits⟩ := (appendArgs_some_iff first more line).mp joined
      cases accepted
      exact ⟨name, hostname, rootfs, first, more, line, limits, parsed, rfl, same, fits⟩
  · cases accepted

theorem parseLimitFlags_length {args rest : List Text} {limits after : ResourceConfig}
    (parsed : parseLimitFlags args limits = some (rest, after)) : rest.length ≤ args.length := by
  fun_induction parseLimitFlags args limits with
  | case1 limits =>
    simp only [Option.some.injEq, Prod.mk.injEq] at parsed
    simp [← parsed.1]
  | case2 flag more limits plain =>
    simp only [Option.some.injEq, Prod.mk.injEq] at parsed
    simp [← parsed.1]
  | case3 => cases parsed
  | case4 => cases parsed
  | case5 flag limits dashed limit value more known ih =>
    have shorter := ih parsed
    simp only [List.length_cons]
    omega

end ContainerRuntime.Cli
