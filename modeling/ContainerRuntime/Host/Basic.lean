import ContainerRuntime.CString.Numerals

/-! Host types shared by every component: error numbers, process ids, signals,
wait statuses and fixed-size character buffers. -/

set_option autoImplicit false

namespace ContainerRuntime

open CString

abbrev Errno := Nat

namespace Errno

def EPERM : Errno := 1
def ENOENT : Errno := 2
def ESRCH : Errno := 3
def EINTR : Errno := 4
def E2BIG : Errno := 7
def EBADF : Errno := 9
def ECHILD : Errno := 10
def EAGAIN : Errno := 11
def ENOMEM : Errno := 12
def EBUSY : Errno := 16
def EEXIST : Errno := 17
def ENOTDIR : Errno := 20
def EISDIR : Errno := 21
def EINVAL : Errno := 22
def ENOTTY : Errno := 25
def ENOSPC : Errno := 28
def EPIPE : Errno := 32
def ENAMETOOLONG : Errno := 36
def ELOOP : Errno := 40
def EPROTO : Errno := 71

end Errno

/-- `pid_t`. -/
abbrev Pid := Int32

-- Pids are a finite type: a quantifier over a list of them is decided over the list, not over all of them.
instance (priority := high) (pids : List Pid) (p : Pid → Prop) [DecidablePred p] : Decidable (∀ pid ∈ pids, p pid) :=
  List.decidableBAll p pids

instance (priority := high) (pids : List Pid) (p : Pid → Prop) [DecidablePred p] : Decidable (∃ pid ∈ pids, p pid) :=
  List.decidableBEx p pids

inductive Signal where
  | SIGKILL | SIGSTOP | SIGCONT
  deriving DecidableEq, Repr

/-- The status word of `waitpid` for a process that has ended. -/
inductive WaitStatus where
  | exited (code : Nat)
  | signaled (signal : Nat)
  deriving DecidableEq, Repr

/-- The contents of a `char[size]` that holds a terminated string. -/
@[ext] structure Buffer (size : Nat) where
  text : Text
  fits : text.length < size
  deriving DecidableEq

-- The sizes of the text fields of `Container`.
instance neZero_64 : NeZero 64 := ⟨by decide⟩
instance neZero_256 : NeZero 256 := ⟨by decide⟩
instance neZero_512 : NeZero 512 := ⟨by decide⟩

/-- `copy_string(dst, sizeof(dst), src)`. -/
def copyString (size : Nat) [NeZero size] (src : Text) : Buffer size :=
  ⟨snprintf size src, length_snprintf_lt src (Nat.pos_of_ne_zero (NeZero.ne size))⟩

theorem copyString_of_fits {size : Nat} [NeZero size] {src : Text} (fits : src.length < size) :
    (copyString size src).text = src := snprintf_of_fits fits

@[simp] theorem copyString_text {size : Nat} [NeZero size] (buffer : Buffer size) :
    copyString size buffer.text = buffer := Buffer.ext (snprintf_of_fits buffer.fits)

/-! ## Process ids as text -/

/-- `(pid_t)atoi(text)`. -/
def readPid (text : Text) : Pid := Int32.ofInt (strtol text)

def showPid (pid : Pid) : Text := showInt pid.toInt

theorem readPid_showPid (pid : Pid) : readPid (showPid pid) = pid := by
  have low := pid.le_toInt
  have high := pid.toInt_lt
  have read : strtol (showInt pid.toInt) = pid.toInt := strtol_showInt (by omega) (by omega)
  rw [readPid, showPid, read, Int32.ofInt_toInt]

theorem readPid_showPid_append (pid : Pid) {rest : Text} {c : Char} (other : c.isDigit = false) :
    readPid (showPid pid ++ c :: rest) = pid := by
  rw [readPid, showPid, strtol_showInt_append _ other, ← showPid, ← readPid, readPid_showPid]

theorem length_showPid_le (pid : Pid) : (showPid pid).length ≤ 11 := by
  have low := pid.le_toInt
  have high := pid.toInt_lt
  have digits := length_showUnsigned_le (n := pid.toInt.natAbs) (by unfold uintSize; omega)
  unfold showPid showInt
  split
  · simp only [List.length_cons]
    omega
  · omega

end ContainerRuntime
