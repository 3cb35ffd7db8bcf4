import ContainerRuntime.Cli.Requests

/-! Container records, and the record `container_create` makes from a specification.

The fields that reach `containers.meta` form a `Record`; the stack of a started
process exists in memory only.
-/

set_option autoImplicit false

namespace ContainerRuntime

open CString Cli

inductive ContainerState where
  | CREATED | RUNNING | STOPPED
  deriving DecidableEq, Repr

structure Record where
  id : Buffer 64
  name : Buffer 64
  pid : Pid
  hostname : Buffer 64
  rootfs : Buffer 512
  commandLine : Buffer 256
  resourceLimits : ResourceConfig
  state : ContainerState
  deriving DecidableEq

structure Container extends Record where
  /-- `container->stack != NULL`. -/
  stack : Bool
  deriving DecidableEq

def Record.running (record : Record) : Bool := record.state = .RUNNING ∧ 0 < record.pid

/-- `snprintf(id, sizeof(id), "container-%04d", sequence)`. -/
def containerId (sequence : Nat) : Buffer 64 := copyString 64 (lit "container-" ++ showPadded sequence)

def defaultContainerCommand : Text := lit "/bin/sh"

/-- A text of the specification, or a default for a null or empty one. -/
def orDefault (given : Option Text) (default : Text) : Text :=
  match given with
  | some (c :: rest) => c :: rest
  | _ => default

def createdName (spec : ContainerSpec) (sequence : Nat) : Buffer 64 :=
  copyString 64 (orDefault spec.name (containerId sequence).text)

/-- The path handed to `filesystem_prepare_rootfs`. -/
def requestedRootfs (spec : ContainerSpec) (sequence : Nat) : Buffer 512 :=
  copyString 512 (orDefault spec.rootfs (lit "./rootfs/" ++ (containerId sequence).text))

/-- The record `container_create` appends, `resolved` being what `filesystem_prepare_rootfs` stored. -/
def createdRecord (spec : ContainerSpec) (sequence : Nat) (resolved : Buffer 512) : Record where
  id := containerId sequence
  name := createdName spec sequence
  pid := -1
  hostname := copyString 64 (orDefault spec.hostname (createdName spec sequence).text)
  rootfs := resolved
  commandLine := copyString 256 (orDefault spec.commandLine defaultContainerCommand)
  resourceLimits := spec.resourceLimits
  state := .CREATED

theorem orDefault_of_ne_nil {given default : Text} (nonempty : given ≠ []) :
    orDefault (some given) default = given := by
  cases given with
  | nil => exact absurd rfl nonempty
  | cons c rest => rfl

theorem orDefault_ne_nil {given : Option Text} {default : Text} (nonempty : default ≠ []) :
    orDefault given default ≠ [] := by
  unfold orDefault
  split
  · simp
  · exact nonempty

theorem copyString_ne_nil {size : Nat} [NeZero size] {src : Text} (room : 1 < size) (given : src ≠ []) :
    (copyString size src).text ≠ [] := snprintf_ne_nil room given

theorem containerId_ne_nil (sequence : Nat) : (containerId sequence).text ≠ [] :=
  copyString_ne_nil (by decide) (by simp [lit])

theorem containerId_text {sequence : Nat} (bounded : sequence ≤ intMax) :
    (containerId sequence).text = lit "container-" ++ showPadded sequence := by
  have digits := length_showPadded_le (n := sequence) (by unfold intMax at bounded; unfold uintSize; omega)
  apply copyString_of_fits
  have literal : (lit "container-").length = 10 := by decide
  simp only [List.length_append, literal]
  omega

theorem containerId_injective {n m : Nat} (first : n ≤ intMax) (second : m ≤ intMax)
    (same : containerId n = containerId m) : n = m := by
  have texts := congrArg Buffer.text same
  rw [containerId_text first, containerId_text second] at texts
  exact showPadded_injective (List.append_cancel_left texts)

/-- `update_next_sequence` reads back the number an id was made from. -/
theorem scanInt_containerId {sequence : Nat} (bounded : sequence ≤ intMax) :
    scanInt (lit "container-") (containerId sequence).text = some (sequence : Int) := by
  rw [containerId_text bounded]
  exact scanInt_showPadded _ bounded

/-- The texts of a record, in the order `save_metadata` prints them. -/
def Record.texts (record : Record) : List Text :=
  [record.id.text, record.name.text, record.hostname.text, record.rootfs.text, record.commandLine.text]

/-- No text is empty. -/
def Record.Filled (record : Record) : Prop := ∀ text ∈ record.texts, text ≠ []

theorem createdRecord_filled (spec : ContainerSpec) (sequence : Nat) {resolved : Buffer 512}
    (given : resolved.text ≠ []) : (createdRecord spec sequence resolved).Filled := by
  have name : (createdName spec sequence).text ≠ [] :=
    copyString_ne_nil (by decide) (orDefault_ne_nil (containerId_ne_nil sequence))
  intro text member
  simp only [Record.texts, createdRecord, List.mem_cons, List.not_mem_nil, or_false] at member
  rcases member with rfl | rfl | rfl | rfl | rfl
  · exact containerId_ne_nil sequence
  · exact name
  · exact copyString_ne_nil (by decide) (orDefault_ne_nil name)
  · exact given
  · exact copyString_ne_nil (by decide) (orDefault_ne_nil (by decide))

end ContainerRuntime
