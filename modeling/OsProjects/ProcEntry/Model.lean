import Mathlib.Data.UInt
import Mathlib.Data.Int.Notation
import OsProjects.C.Execution
import OsProjects.C.Numeral

/-!
Owns the translation of `proc_read` of the modules `jiffies_module.c`, `seconds_module.c` and
`pid_module.c`.

`completed` is one variable for all readers of the entry. The buffer has room for 128
characters; a text that does not fit is the fault `outOfBounds`. The kernel copies the text to
the buffer of the reader, whatever `count` is.

Does not own how a module is loaded, or `proc_write`.
-/

namespace OsProjects.ProcEntry

open OsProjects.C

/-- `BUFFER_SIZE` -/
def bufferSize : ℕ := 128

/-- What is read of a `task_struct`: `comm`, which has less than `TASK_COMM_LEN` characters, and
`state`. -/
structure Task where
  comm : List Char
  state : Int64
  short : comm.length < 16

/-- What a call of `proc_read` finds: the clock, the global variables of the module, the task of
a pid, and whether `raw_copy_to_user` copies everything. -/
structure Kernel where
  jiffies : UInt64
  hz : UInt64
  startJiffies : UInt64
  currentPid : Int32
  pidTask : Int32 → Option Task
  copies : Bool

/-- What a reader gets: the value that the call returns, and the characters in its buffer. -/
structure Reply where
  value : Int
  copied : List Char
deriving DecidableEq

/-- The reply that tells the reader to stop. -/
def Reply.endOfFile : Reply where
  value := 0
  copied := []

/-- `sprintf(buffer, ...)` -/
def sprintf (text : List Char) : Outcome (List Char) :=
  if text.length < bufferSize then .ok text else .error .outOfBounds

/-- `snprintf(buffer, BUFFER_SIZE, ...)`: the characters in the buffer and the value that is
returned. -/
def snprintf (text : List Char) : List Char × ℕ := (text.take (bufferSize - 1), text.length)

/-- `raw_copy_to_user(usr_buf, buffer, rv)`: the characters that the reader gets. -/
def rawCopyToUser (kernel : Kernel) (buffer : List Char) (rv : ℕ) : Outcome (List Char) :=
  if rv ≤ buffer.length then .ok (if kernel.copies then buffer.take rv else [])
  else .error .outOfBounds

/-! ## The records -/

def jiffiesLabel : List Char := "Current value of jiffies: ".toList

/-- The text of `jiffies_module.c`. -/
def jiffiesText (kernel : Kernel) : List Char :=
  jiffiesLabel ++ decimal kernel.jiffies.toNat ++ ['\n']

def secondsLabel : List Char := "Elapsed seconds: ".toList

/-- The text of `seconds_module.c`. -/
def secondsText (kernel : Kernel) : List Char :=
  secondsLabel ++ decimal ((kernel.jiffies - kernel.startJiffies) / kernel.hz).toNat ++
    ['s', '\n']

def commandLabel : List Char := "command = [".toList

def pidLabel : List Char := "], pid = [".toList

def stateLabel : List Char := "], state = [".toList

/-- The text of `pid_module.c`. -/
def pidText (currentPid : Int32) (task : Task) : List Char :=
  commandLabel ++ task.comm ++ pidLabel ++ signedDecimal currentPid.toInt ++
    stateLabel ++ signedDecimal task.state.toInt ++ [']', '\n']

/-! ## `proc_read` -/

/-- `proc_read` of the modules for the clock: what the reader gets, and the new value of
`completed`. The result of the copy is not looked at. -/
def readText (text : Kernel → List Char) (kernel : Kernel) (completed : Bool) :
    Outcome (Reply × Bool) := do
  if completed then
    pure (.endOfFile, false)
  else
    let buffer ← sprintf (text kernel)
    let copied ← rawCopyToUser kernel buffer buffer.length
    pure (⟨buffer.length, copied⟩, true)

/-- `proc_read` of `jiffies_module.c` -/
def jiffiesProcRead : Kernel → Bool → Outcome (Reply × Bool) := readText jiffiesText

/-- `proc_read` of `seconds_module.c` -/
def secondsProcRead : Kernel → Bool → Outcome (Reply × Bool) := readText secondsText

/-- `proc_read` of `pid_module.c`. Without a task it returns before `completed` is set. -/
def pidProcRead (kernel : Kernel) (completed : Bool) : Outcome (Reply × Bool) := do
  if completed then
    pure (.endOfFile, false)
  else
    match kernel.pidTask kernel.currentPid with
    | none => pure (.endOfFile, completed)
    | some task =>
        let (buffer, rv) := snprintf (pidText kernel.currentPid task)
        let copied ← rawCopyToUser kernel buffer rv
        pure (⟨if kernel.copies then rv else -1, copied⟩, true)

/-- The modules that create an entry. -/
inductive ProcModule where
  | jiffies
  | seconds
  | pid
deriving DecidableEq

def ProcModule.procRead : ProcModule → Kernel → Bool → Outcome (Reply × Bool)
  | .jiffies => jiffiesProcRead
  | .seconds => secondsProcRead
  | .pid => pidProcRead

/-- The record that the entry shows: there is none for a pid without a task. -/
def ProcModule.record (kernel : Kernel) : ProcModule → Option (List Char)
  | .jiffies => some (jiffiesText kernel)
  | .seconds => some (secondsText kernel)
  | .pid => (kernel.pidTask kernel.currentPid).map (pidText kernel.currentPid)

end OsProjects.ProcEntry
