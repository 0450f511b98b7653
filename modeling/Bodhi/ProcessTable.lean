/-
The process table as `ps aux`, `pgrep`, `pkill` and the filters behind them
see it.
-/
import Mathlib.Data.List.Nodup
import Bodhi.ShellText

namespace Bodhi

/-- A process with the eight columns that `ps aux` prints between its PID and
its command line. -/
structure Process where
  user : Word
  pid : Nat
  ppid : Nat
  name : Text
  stats : List Word
  args : Text
  stats_length : stats.length = 8
  one_line : '\n' ∉ args
deriving DecidableEq

structure ProcessTable where
  processes : List Process
  pids_nodup : (processes.map Process.pid).Nodup

/-- The line of `ps aux` for one process. -/
def psLine (process : Process) : Text :=
  [' '].intercalate
    (process.user.text :: numeral process.pid ::
      (process.stats.map Word.text ++ [process.args]))

def psHeader : Text :=
  "USER PID %CPU %MEM VSZ RSS TTY STAT START TIME COMMAND".toList

/-- The lines that `ps aux` prints. -/
def psAux (table : ProcessTable) : List Text :=
  psHeader :: table.processes.map psLine

/-- The lines that hold a pattern without operators. -/
def grep (pattern : Text) (lines : List Text) : List Text :=
  lines.filter fun line => decide (pattern <:+: line)

/-- Whether a pattern matches at the start of a text, where a dot stands for
any character. -/
def matchesHere : Text → Text → Bool
  | [], _ => true
  | _ :: _, [] => false
  | p :: pattern, c :: text =>
      (p == '.' || p == c) && matchesHere pattern text

/-- Whether a pattern matches somewhere in a text. -/
def matchesIn (pattern : Text) : Text → Bool
  | [] => matchesHere pattern []
  | c :: text => matchesHere pattern (c :: text) || matchesIn pattern text

/-- `pgrep -f pattern`: the PIDs of the matching command lines. -/
def pgrepFull (pattern : Text) (table : ProcessTable) : List Nat :=
  (table.processes.filter fun process =>
    matchesIn pattern process.args).map Process.pid

/-- A comma-separated list of numbers, the argument of `-P`. -/
def readPidList (text : Text) : Option (List Nat) :=
  let items := text.splitOn ','
  if items.all fun item => !item.isEmpty && item.all Char.isDigit then
    some (items.map numeralValue)
  else none

/-- `pkill -P list [pattern]`: the processes it signals.  A list that is not
made of numbers and a second pattern are usage errors. -/
def pkillParent (table : ProcessTable) : List Text → List Process
  | [list] =>
      match readPidList list with
      | some parents => table.processes.filter fun p => p.ppid ∈ parents
      | none => []
  | [list, pattern] =>
      match readPidList list with
      | some parents => table.processes.filter fun p =>
          p.ppid ∈ parents ∧ pattern <:+: p.name
      | none => []
  | _ => []

/-- One number is a list of numbers. -/
theorem readPidList_digits {text : Text} (hne : text ≠ [])
    (hdigits : ∀ c ∈ text, c.isDigit = true) :
    readPidList text = some [numeralValue text] := by
  have hcomma : ',' ∉ text := by
    intro h
    exact absurd (hdigits ',' h) (by decide)
  have hitems : ([text].all fun item =>
      !item.isEmpty && item.all Char.isDigit) = true := by
    simpa [hne] using hdigits
  rw [readPidList, List.splitOn_eq_singleton hcomma, if_pos hitems]
  rfl

/-- A process of root with the given PIDs, name and command line. -/
def rootProcess (pid ppid : Nat) (name args : Text) (h : '\n' ∉ args) :
    Process where
  user := .ofText "root".toList (by decide)
  pid := pid
  ppid := ppid
  name := name
  stats := List.replicate 8 (.ofText ['0'] (by decide))
  args := args
  stats_length := rfl
  one_line := h

end Bodhi
