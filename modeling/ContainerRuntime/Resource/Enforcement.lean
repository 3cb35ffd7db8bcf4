import ContainerRuntime.Registry.Metadata

/-! A limit flag on its way from the command line to `setrlimit`.

The text of the value is read by `strtoul`, narrowed to `unsigned int`, stored
in the record, possibly written to `containers.meta` and read back, and applied
in the child. Only a numeral that fits `unsigned int` arrives as it was typed,
and after a restart only where no text of the saved registry has a separator in it.
-/

set_option autoImplicit false

namespace ContainerRuntime

open CString Cli

namespace Cli

def LimitFlag.resource : LimitFlag → Resource
  | .cpu => .RLIMIT_CPU
  | .mem => .RLIMIT_AS
  | .pids => .RLIMIT_NPROC

/-- One unit of the flag's value, in the unit of the kernel's limit. -/
def LimitFlag.unit : LimitFlag → Nat
  | .mem => 2 ^ 20
  | _ => 1

def LimitFlag.stored (flag : LimitFlag) (limits : ResourceConfig) : UInt32 :=
  match flag with
  | .cpu => limits.cpuSeconds
  | .mem => limits.memoryMb
  | .pids => limits.maxProcesses

theorem LimitFlag.stored_store_self (flag : LimitFlag) (value : UInt32) (limits : ResourceConfig) :
    flag.stored (flag.store value limits) = value := by cases flag <;> rfl

theorem LimitFlag.stored_store_other {flag other : LimitFlag} (different : other ≠ flag) (value : UInt32)
    (limits : ResourceConfig) : flag.stored (other.store value limits) = flag.stored limits := by
  cases flag <;> cases other <;> first | rfl | exact absurd rfl different

theorem LimitFlag.requested_resource (flag : LimitFlag) (limits : ResourceConfig) :
    limits.requested flag.resource = (flag.stored limits).toNat * flag.unit := by
  cases flag <;> simp [resource, stored, unit, ResourceConfig.requested]

/-- The value of the last occurrence of a flag. -/
def lastValue (flag : LimitFlag) (args : List Text) : Option Text :=
  (((limitValues args).filter (·.1 = flag)).getLast?).map Prod.snd

def storeValue (limits : ResourceConfig) (pair : LimitFlag × Text) : ResourceConfig :=
  pair.1.store (readLimit pair.2) limits

theorem LimitFlag.ofText_dashes {text : Text} {flag : LimitFlag} (known : LimitFlag.ofText text = some flag) :
    text.take 2 = lit "--" := by
  unfold LimitFlag.ofText at known
  split at known
  · rename_i same; rw [same]; decide
  · split at known
    · rename_i same; rw [same]; decide
    · split at known
      · rename_i same; rw [same]; decide
      · cases known

/-- Accepted flags are stored one after the other. -/
theorem parseLimitFlags_stores {args rest : List Text} {limits after : ResourceConfig}
    (parsed : parseLimitFlags args limits = some (rest, after)) :
    after = (limitValues args).foldl storeValue limits := by
  fun_induction parseLimitFlags args limits with
  | case1 limits =>
    cases parsed
    rfl
  | case2 flag more limits plain =>
    cases parsed
    have unknown : LimitFlag.ofText flag = none := by
      cases known : LimitFlag.ofText flag with
      | none => rfl
      | some limit => exact absurd (LimitFlag.ofText_dashes known) plain
    cases more <;> simp [limitValues, unknown]
  | case3 => cases parsed
  | case4 => cases parsed
  | case5 flag limits dashed limit value more known ih =>
    rw [ih parsed]
    simp [limitValues, known, storeValue]

/-- The last store of a flag is the one that counts. -/
theorem stored_foldl (flag : LimitFlag) (pairs : List (LimitFlag × Text)) (limits : ResourceConfig) :
    flag.stored (pairs.foldl storeValue limits) =
      ((pairs.filter (·.1 = flag)).getLast?.map fun pair => readLimit pair.2).getD (flag.stored limits) := by
  induction pairs generalizing limits with
  | nil => rfl
  | cons pair rest ih =>
    rw [List.foldl_cons, ih]
    by_cases same : pair.1 = flag
    · subst same
      have value : pair.1.stored (storeValue limits pair) = readLimit pair.2 :=
        LimitFlag.stored_store_self _ _ _
      cases kept : rest.filter (fun other => decide (other.1 = pair.1)) with
      | nil => simp [kept, value]
      | cons first more =>
        have ended : (first :: more).getLast? = some ((first :: more).getLast (by simp)) :=
          List.getLast?_eq_some_getLast (by simp)
        simp [kept, ended, List.getLast?_cons_cons]
    · have value : flag.stored (storeValue limits pair) = flag.stored limits :=
        LimitFlag.stored_store_other same _ _
      simp [same, value]

theorem stored_lastValue {args rest : List Text} {limits : ResourceConfig} {flag : LimitFlag} {text : Text}
    (parsed : parseLimitFlags args .unlimited = some (rest, limits)) (last : lastValue flag args = some text) :
    flag.stored limits = readLimit text := by
  rw [parseLimitFlags_stores parsed, stored_foldl]
  unfold lastValue at last
  cases found : ((limitValues args).filter (·.1 = flag)).getLast? with
  | none => simp [found] at last
  | some pair =>
    simp only [found, Option.map_some, Option.some.injEq] at last
    simp [last]

theorem lastValue_mem {flag : LimitFlag} {args : List Text} {text : Text} (last : lastValue flag args = some text) :
    (flag, text) ∈ limitValues args := by
  unfold lastValue at last
  cases found : ((limitValues args).filter (·.1 = flag)).getLast? with
  | none => simp [found] at last
  | some pair =>
    simp only [found, Option.map_some, Option.some.injEq] at last
    have member := List.mem_of_getLast? found
    simp only [List.mem_filter, decide_eq_true_eq] at member
    obtain ⟨listed, same⟩ := member
    rw [← same, ← last]
    exact listed

end Cli

/-- A numeral of the range of `unsigned int`. -/
def FittingNumeral (text : Text) : Prop := Numeral text ∧ numeralValue text < uintSize

instance (text : Text) : Decidable (FittingNumeral text) :=
  inferInstanceAs (Decidable (Numeral text ∧ numeralValue text < uintSize))

/-! ## The records of a registry -/

/-- The characters that the reader of `containers.meta` cuts at. -/
def separators : List Char := [tab, carriageReturn, newline]

/-- The texts of the record hold no separators besides these. -/
def Record.HoldsOnly (held : List Char) (record : Record) : Prop :=
  ∀ text ∈ record.texts, ∀ c ∈ text, c ∈ separators → c ∈ held

theorem Record.HoldsOnly.clean {held : List Char} {record : Record} (only : record.HoldsOnly held)
    (none : ∀ c ∈ separators, c ∉ held) : record.Clean := by
  intro text member
  have absent : ∀ c ∈ separators, c ∉ text := fun c separator inside =>
    none c separator (only text member c inside separator)
  exact ⟨absent tab (by decide), absent carriageReturn (by decide), absent newline (by decide)⟩

/-- The registry of a manager that reads what its predecessor saved. -/
def reloaded (registry : List Record) : List Record := decodeRegistry (encodeRegistry registry)

/-- The configurations that can reach the child of a container: that of the record which stands under its id after any
number of restarts. -/
def Delivered (registry : List Record) (id : Buffer 64) (config : ResourceConfig) : Prop :=
  ∃ restarts record, (reloaded^[restarts] registry).find? (·.id = id) = some record ∧ record.resourceLimits = config

theorem Delivered.eq {registry : List Record} {id : Buffer 64} {record : Record} {config : ResourceConfig}
    (good : ∀ other ∈ registry, other.Filled ∧ other.Clean) (here : registry.find? (·.id = id) = some record)
    (delivered : Delivered registry id config) : config = record.resourceLimits := by
  obtain ⟨restarts, found, there, rfl⟩ := delivered
  have same : reloaded^[restarts] registry = registry := Function.iterate_fixed (decodeRegistry_encodeRegistry good) restarts
  rw [same, here] at there
  cases there
  rfl

/-! ## A record that comes back without its limits -/

/-- A container whose command line has the separator in it. -/
def splitRecord (limits : ResourceConfig) (separator : Char) : Record :=
  createdRecord ⟨some (lit "a"), none, none, some ['a', separator, 'b', separator, 'c', separator, 'd'], limits⟩ 1
    (copyString 512 (lit "/a"))

/-- Its line up to the first separator of the command. -/
def splitFront : Text := lit "container-0001\ta\t-1\ta\t/a\tCREATED\ta"

/-- Its first ten columns, where the separator is a tab. -/
def shiftedFront : Text := splitFront ++ tab :: ['b', tab, 'c', tab, 'd']

/-- The limits as they end its line. -/
def limitFields (limits : ResourceConfig) : Text :=
  tab :: (showLimit limits.cpuSeconds ++ tab :: (showLimit limits.memoryMb ++ tab :: showLimit limits.maxProcesses))

theorem splitRecord_texts (limits : ResourceConfig) (separator : Char) :
    (splitRecord limits separator).texts =
      [lit "container-0001", lit "a", lit "a", lit "/a", ['a', separator, 'b', separator, 'c', separator, 'd']] := by
  have id : (containerId 1).text = lit "container-0001" := by decide +kernel
  simp [Record.texts, splitRecord, createdRecord, createdName, orDefault, id, copyString_of_fits, lit]

theorem splitRecord_line (limits : ResourceConfig) (separator : Char) :
    (splitRecord limits separator).line =
      splitFront ++ separator :: (['b', separator, 'c', separator, 'd'] ++ limitFields limits) := by
  have id : (containerId 1).text = lit "container-0001" := by decide +kernel
  have pid : showPid (-1) = lit "-1" := by decide +kernel
  simp [Record.line, Record.fields, splitRecord, createdRecord, createdName, orDefault, id, pid, copyString_of_fits,
    stateToString, splitFront, limitFields, lit, List.intercalate_cons_cons, tab]

theorem limitFields_unbroken (limits : ResourceConfig) : ∀ c ∈ limitFields limits, c ∉ [carriageReturn, newline] := by
  intro c member broken
  have apart : ∀ value, c ∉ showLimit value := by
    intro value inside
    obtain ⟨-, noReturn, noNewline⟩ := plain_showLimit value
    simp only [List.mem_cons, List.not_mem_nil, or_false] at broken
    rcases broken with rfl | rfl
    · exact noReturn inside
    · exact noNewline inside
  have other : c ≠ tab := fun same => absurd (same ▸ broken) (by decide)
  simp [limitFields, other, apart] at member

/-- What is read of the line in front of its first separator. -/
def splitFound : Record :=
  recordOfFields (lit "container-0001") (lit "a") (lit "-1") (lit "a") (lit "/a") (lit "CREATED") (lit "a") .unlimited

/-- Whichever separator it is, what is read first is a record of the same id without limits. -/
theorem splitRecord_reloaded (limits : ResourceConfig) {separator : Char} (one : separator ∈ separators) :
    ∃ others, reloaded [splitRecord limits separator] = splitFound :: others := by
  have line := splitRecord_line limits separator
  have fits := (splitRecord limits separator).length_line_lt
  have file : encodeRegistry [splitRecord limits separator] = (splitRecord limits separator).line ++ [newline] := by
    simp [encodeRegistry]
  have ended := limitFields_unbroken limits
  rw [reloaded, decodeRegistry, file]
  simp only [separators, List.mem_cons, List.not_mem_nil, or_false] at one
  rcases one with rfl | rfl | rfl
  · -- The tabs shift the columns: the limits are read from the pieces of the command.
    have unbroken : ∀ c ∈ (splitRecord limits tab).line, c ∉ [carriageReturn, newline] := by
      rw [line, List.forall_mem_append, List.forall_mem_cons, List.forall_mem_append]
      exact ⟨clean_of_all (by decide), by decide, clean_of_all (by decide), ended⟩
    rw [fgetsAll_line [] (fun inside => unbroken newline inside (by decide)) fits]
    have read : decodeLine ((splitRecord limits tab).line ++ [newline]) = some splitFound := by
      rw [decodeLine, splitFields, trimNewline, cutAt_append unbroken (by decide), line]
      have ten : (strtok tab shiftedFront).length = 10 := by decide +kernel
      have tokens : strtok tab (shiftedFront ++ limitFields limits) =
          strtok tab shiftedFront ++ strtok tab (limitFields limits).tail := strtok_append_cons tab _ _
      have cut : splitFront ++ tab :: (['b', tab, 'c', tab, 'd'] ++ limitFields limits) =
          shiftedFront ++ limitFields limits := by simp [shiftedFront]
      rw [cut, tokens, List.take_left' ten]
      decide +kernel
    exact ⟨_, List.filterMap_cons_some read⟩
  · -- The line ends at CR, with seven fields.
    have whole : newline ∉ (splitRecord limits carriageReturn).line := by
      rw [line, List.mem_append, List.mem_cons, List.mem_append]
      intro inside
      have later : newline ∈ limitFields limits := by
        rcases inside with front | same | command | last
        · exact absurd front (by decide)
        · exact absurd same (by decide)
        · exact absurd command (by decide)
        · exact last
      exact ended newline later (by decide)
    rw [fgetsAll_line [] whole fits]
    have read : decodeLine ((splitRecord limits carriageReturn).line ++ [newline]) = some splitFound := by
      rw [decodeLine, splitFields, trimNewline, line, List.append_assoc, List.cons_append,
        cutAt_append (clean_of_all (by decide)) (by decide)]
      decide +kernel
    exact ⟨_, List.filterMap_cons_some read⟩
  · -- The line ends at LF, with seven fields; what follows has a line of its own.
    rw [line, List.append_assoc, List.cons_append, fgetsAll_line _ (by decide) (by decide)]
    have read : decodeLine (splitFront ++ [newline]) = some splitFound := by decide +kernel
    exact ⟨_, List.filterMap_cons_some read⟩

/-- `create --cpu 5 "a<TAB>b" /srv /srv`: the five seconds come back as megabytes. -/
example :
    let spec : ContainerSpec := ⟨some (lit "a\tb"), some (lit "/srv"), some (lit "/srv"), none, ⟨5, 0, 0⟩⟩
    (reloaded [createdRecord spec 1 (copyString 512 (lit "/srv"))]).map (·.resourceLimits) = [⟨0, 5, 0⟩] := by
  decide +kernel

/-! ## The promise of the flags -/

/-- What the flags of an argument vector promise, for registries whose texts hold no separators besides `held`: each value
is a numeral that fits, and the last positive one of each flag bounds the soft limit of every child that reaches `execvp`. -/
def LimitsHonoured (args : List Text) (held : List Char) : Prop :=
  ∀ rest limits, parseLimitFlags args .unlimited = some (rest, limits) →
    (∀ pair ∈ limitValues args, FittingNumeral pair.2) ∧
    ∀ flag text, lastValue flag args = some text → 0 < numeralValue text →
      ∀ registry : List Record, (∀ other ∈ registry, other.Made ∧ other.HoldsOnly held) →
        ∀ id record, registry.find? (·.id = id) = some record → record.resourceLimits = limits →
          ∀ config, Delivered registry id config →
            ∀ calls inherited after, resourceApplyLimits config calls inherited = .ok after →
              (after flag.resource).cur ≤ numeralValue text * flag.unit

theorem splitRecord_made (limits : ResourceConfig) (separator : Char) : (splitRecord limits separator).Made :=
  .created _ 1 (by decide)

/-- No text of the record holds another separator. -/
theorem splitRecord_holdsOnly (limits : ResourceConfig) {separator : Char} {held : List Char} (allowed : separator ∈ held) :
    (splitRecord limits separator).HoldsOnly held := by
  intro text member c inside one
  rw [splitRecord_texts] at member
  have plain : ∀ d ∈ lit "container-0001" ++ lit "/a" ++ lit "bcd", d ∉ separators := clean_of_all (by decide)
  have apart : c ∉ lit "container-0001" ++ lit "/a" ++ lit "bcd" := fun there => plain c there one
  have same : c = separator := by
    by_contra other
    simp only [List.mem_cons, List.not_mem_nil, or_false] at member
    rcases member with rfl | rfl | rfl | rfl | rfl <;> simp_all [lit]
  exact same ▸ allowed

/-- With a separator in a text, no positive limit is safe. -/
theorem limitsHonoured_separators {args rest : List Text} {held : List Char} {limits : ResourceConfig}
    (parsed : parseLimitFlags args .unlimited = some (rest, limits)) (honoured : LimitsHonoured args held)
    {separator : Char} (one : separator ∈ separators) (allowed : separator ∈ held) {flag : LimitFlag} {text : Text}
    (last : lastValue flag args = some text) : numeralValue text = 0 := by
  by_contra positive
  obtain ⟨fitting, bounded⟩ := honoured rest limits parsed
  have small := (fitting (flag, text) (lastValue_mem last)).2
  obtain ⟨others, loaded⟩ := splitRecord_reloaded limits one
  have delivered : Delivered [splitRecord limits separator] (containerId 1) .unlimited := by
    refine ⟨1, splitFound, ?_, rfl⟩
    rw [Function.iterate_one, loaded]
    exact List.find?_cons_of_pos (by decide +kernel)
  have bound := bounded flag text last (Nat.pos_of_ne_zero positive) [splitRecord limits separator]
    (List.forall_mem_singleton.mpr ⟨splitRecord_made limits separator, splitRecord_holdsOnly limits allowed⟩)
    (containerId 1) (splitRecord limits separator) (by simp [splitRecord, createdRecord]) rfl .unlimited delivered
    ⟨fun _ => none, fun _ => none⟩ (fun _ => ⟨rlimInfinity, rlimInfinity⟩) _ rfl
  have units : flag.unit ≤ 2 ^ 20 := by cases flag <;> decide
  have product : numeralValue text * flag.unit ≤ uintSize * 2 ^ 20 := Nat.mul_le_mul (Nat.le_of_lt small) units
  have infinite : rlimInfinity ≤ uintSize * 2 ^ 20 := Nat.le_trans bound product
  exact absurd infinite (by decide)

/-- The promise is kept exactly by the vectors whose flag values are all fitting numerals, where no text of the registry can
hold a separator or the last value of every flag is 0; besides those the parser refuses. -/
theorem limitsHonoured_iff (args : List Text) (held : List Char) :
    LimitsHonoured args held ↔
      parseLimitFlags args .unlimited = none ∨
        (∀ pair ∈ limitValues args, FittingNumeral pair.2) ∧
          ((∀ c ∈ separators, c ∉ held) ∨ ∀ flag text, lastValue flag args = some text → numeralValue text = 0) := by
  constructor
  · intro honoured
    cases parsed : parseLimitFlags args .unlimited with
    | none => exact .inl rfl
    | some result =>
      obtain ⟨rest, limits⟩ := result
      refine .inr ⟨(honoured rest limits parsed).1, ?_⟩
      by_cases plain : ∀ c ∈ separators, c ∉ held
      · exact .inl plain
      · simp only [not_forall, not_not] at plain
        obtain ⟨separator, one, allowed⟩ := plain
        exact .inr fun flag text last => limitsHonoured_separators parsed honoured one allowed last
  · intro condition rest limits parsed
    rw [parsed] at condition
    rcases condition with refused | ⟨fitting, texts⟩
    · cases refused
    refine ⟨fitting, ?_⟩
    intro flag text last positive registry made id record here same config delivered calls inherited after applied
    rcases texts with plain | zero
    · have good : ∀ other ∈ registry, other.Filled ∧ other.Clean := fun other member =>
        ⟨(made other member).1.filled, (made other member).2.clean plain⟩
      obtain ⟨numeral, fits⟩ := fitting (flag, text) (lastValue_mem last)
      have value : (flag.stored config).toNat = numeralValue text := by
        rw [delivered.eq good here, same, stored_lastValue parsed last]
        exact readLimit_numeral numeral fits
      have requested : config.requested flag.resource = numeralValue text * flag.unit := by
        rw [flag.requested_resource, value]
      rw [← requested]
      apply resourceApplyLimits_cur_le applied
      rw [requested]
      exact Nat.mul_pos positive (by cases flag <;> decide)
    · exact absurd (zero flag text last) (Nat.ne_of_gt positive)

/-- A wrapped value: `--cpu 4294967296` is accepted and stored as 0, so an unlimited process stays so. -/
theorem wrapped_limit_accepted :
    parseLimitFlags [lit "--cpu", lit "4294967296", lit "web"] .unlimited = some ([lit "web"], .unlimited) ∧
    (resourceApplyLimits .unlimited ⟨fun _ => none, fun _ => none⟩ fun _ => ⟨rlimInfinity, rlimInfinity⟩) =
      .ok (fun _ => ⟨rlimInfinity, rlimInfinity⟩) ∧
    ∀ held, ¬ LimitsHonoured [lit "--cpu", lit "4294967296", lit "web"] held := by
  have parsed : parseLimitFlags [lit "--cpu", lit "4294967296", lit "web"] .unlimited =
      some ([lit "web"], .unlimited) := by decide +kernel
  refine ⟨parsed, rfl, fun held honoured => ?_⟩
  have fitting := (honoured _ _ parsed).1 (.cpu, lit "4294967296") (by decide +kernel)
  exact absurd fitting (by decide +kernel)

end ContainerRuntime
