import ContainerRuntime.Registry.Container

/-! From the command tokens of a `run` line to the vector handed to `execvp`.

The tokens are printed into one string by `main`, stored in the record, and
split again at blanks by `build_exec_argv` in the child.
-/

set_option autoImplicit false

namespace ContainerRuntime

open CString Cli

/-- `build_exec_argv` with a buffer of `bufferSize` bytes and `maxArgs` slots, the last one for `NULL`. -/
def buildExecArgv (commandLine : Text) (bufferSize maxArgs : Nat) : Except Errno (List Text) :=
  if commandLine = [] ∨ bufferSize = 0 ∨ maxArgs < 2 then .error Errno.EINVAL
  else if bufferSize ≤ commandLine.length then .error Errno.ENAMETOOLONG
  else if maxArgs - 1 < (strtok ' ' commandLine).length then .error Errno.E2BIG
  else if strtok ' ' commandLine = [] then .error Errno.EINVAL
  else .ok (strtok ' ' commandLine)

/-- The vector `namespace_child` builds for a record. -/
def Record.execArgv (record : Record) : Except Errno (List Text) := buildExecArgv record.commandLine.text 256 32

theorem buildExecArgv_ok {commandLine : Text} {bufferSize maxArgs : Nat} {argv : List Text}
    (done : buildExecArgv commandLine bufferSize maxArgs = .ok argv) : argv = strtok ' ' commandLine := by
  unfold buildExecArgv at done
  repeat (split at done; cases done)
  cases done
  rfl

theorem buildExecArgv_of_fits {commandLine : Text} {bufferSize maxArgs : Nat}
    (fits : commandLine.length < bufferSize) (some_token : strtok ' ' commandLine ≠ [])
    (room : (strtok ' ' commandLine).length < maxArgs) (two : 2 ≤ maxArgs) :
    buildExecArgv commandLine bufferSize maxArgs = .ok (strtok ' ' commandLine) := by
  have given : commandLine ≠ [] := by
    rintro rfl
    exact some_token (by simp [strtok])
  unfold buildExecArgv
  rw [if_neg (by simp only [given, false_or]; omega), if_neg (by omega), if_neg (by omega), if_neg some_token]

/-- `args[index + 3] .. args[argc - 1]` of a `run` or `runbg` line. -/
def commandTokens (line : Text) : List Text :=
  match commandArgs line with
  | [] => []
  | _ :: args =>
    match parseLimitFlags args .unlimited with
    | none => []
    | some (rest, _) => rest.drop 3

/-- What an accepted `run` line hands over: its tokens, joined, are the command of the specification. -/
theorem run_commandLine {line : Text} {background : Bool} {spec : ContainerSpec}
    (accepted : readRequest line = some (.ok (.run background spec))) :
    spec.commandLine = some ([' '].intercalate (commandTokens line)) ∧ commandTokens line ≠ [] ∧
      ([' '].intercalate (commandTokens line)).length < commandLineSize ∧ (commandTokens line).length ≤ 28 := by
  have count := length_commandArgs_le line
  unfold readRequest at accepted
  unfold commandTokens
  cases split : commandArgs line with
  | nil => simp [split] at accepted
  | cons command args =>
    simp only [split, Option.some.injEq] at accepted
    rcases dispatch_spec accepted rfl with ⟨run, _⟩ | ⟨_, other⟩
    · obtain ⟨name, hostname, rootfs, first, more, joined, limits, parsed, rfl, rfl, fits⟩ := runSpec_ok run
      have shorter := parseLimitFlags_length parsed
      simp only [split, maxArgs, List.length_cons] at count shorter
      simp only [parsed, List.drop_succ_cons, List.drop_zero]
      refine ⟨trivial, by simp, fits, ?_⟩
      simp only [List.length_cons]
      omega
    · cases other

/-- The child's vector is the list of tokens the user's line was split into exactly when
no token was quoted for a blank or for being empty. -/
theorem run_argv_eq_tokens_iff {line : Text} {background : Bool} {spec : ContainerSpec}
    (accepted : readRequest line = some (.ok (.run background spec))) (sequence : Nat) (resolved : Buffer 512) :
    (createdRecord spec sequence resolved).execArgv = .ok (commandTokens line) ↔
      ∀ token ∈ commandTokens line, token ≠ [] ∧ ' ' ∉ token := by
  obtain ⟨command, given, fits, few⟩ := run_commandLine accepted
  constructor
  · intro same token member
    rw [buildExecArgv_ok same] at member
    exact strtok_token member
  · intro plain
    have joined : [' '].intercalate (commandTokens line) ≠ [] := by
      intro empty
      have back := strtok_intercalate ' ' plain
      rw [empty] at back
      exact given back.symm
    have stored : (createdRecord spec sequence resolved).commandLine.text =
        [' '].intercalate (commandTokens line) := by
      simp only [createdRecord, command, orDefault_of_ne_nil joined]
      exact copyString_of_fits fits
    have back := strtok_intercalate ' ' plain
    unfold Record.execArgv
    rw [stored, buildExecArgv_of_fits (show _ < 256 from fits), back]
    · rw [back]; exact given
    · rw [back]; omega
    · decide

def quotedLine : Text := lit "run web host /srv/web sh -c \"echo hi\""

def plainLine : Text := lit "run web host /srv/web sh -c true"

def lineSpec (line : Text) : ContainerSpec :=
  ((readRequest line).bind fun result => result.toOption.bind Request.spec).getD ⟨none, none, none, none, .unlimited⟩

/-- The help text tells users to quote such an argument; the child receives it in two pieces. -/
theorem quoted_argument_split :
    readRequest quotedLine = some (.ok (.run false (lineSpec quotedLine))) ∧
    commandTokens quotedLine = [lit "sh", lit "-c", lit "echo hi"] ∧
    (createdRecord (lineSpec quotedLine) 1 (copyString 512 (lit "/srv/web"))).execArgv =
      .ok [lit "sh", lit "-c", lit "echo", lit "hi"] ∧
    (createdRecord (lineSpec quotedLine) 1 (copyString 512 (lit "/srv/web"))).execArgv ≠
      .ok (commandTokens quotedLine) := by
  decide +kernel

theorem plain_arguments_kept :
    (createdRecord (lineSpec plainLine) 1 (copyString 512 (lit "/srv/web"))).execArgv =
      .ok (commandTokens plainLine) := by
  have accepted : readRequest plainLine = some (.ok (.run false (lineSpec plainLine))) := by decide +kernel
  exact (run_argv_eq_tokens_iff accepted 1 _).mpr (by decide +kernel)

end ContainerRuntime
