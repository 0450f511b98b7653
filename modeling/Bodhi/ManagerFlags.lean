/-
The command line of qemu-vm-manager.sh: the sub-parsers of single flags and
the loop of `parse_options` that hands them their values.
-/
import Bodhi.ShellText

namespace Bodhi

/-- The options that the case statement of `parse_options` knows. -/
inductive Flag where
  | img | vid | interface | iso | port | pre | qcowPath
deriving DecidableEq, Repr

namespace Flag

def token : Flag → Text
  | img => "--img".toList
  | vid => "--vid".toList
  | interface => "--if".toList
  | iso => "--iso".toList
  | port => "--port".toList
  | pre => "--pre".toList
  | qcowPath => "--qcow-path".toList

def all : List Flag :=
  [img, vid, interface, iso, port, pre, qcowPath]

/-- The branch of the case statement that a token selects. -/
def ofToken (text : Text) : Option Flag :=
  all.find? fun flag => flag.token == text

@[simp] theorem ofToken_token (flag : Flag) :
    ofToken flag.token = some flag := by
  cases flag <;> decide

@[simp] theorem ofToken_nil : ofToken [] = none := by decide

end Flag

/-- The shell variables that the flags write. -/
structure Settings where
  cmd : Text
  img : Text
  vid : Text
  ifMode : Text
  guestSshPort : Text
  iso : Text
  pre : Text
  qcowPath : Text
  hostFwd : Text
  bridgeName : Text
deriving DecidableEq, Repr

/-- The assignments made before the options are read; the other variables
keep what the environment holds. -/
def setDefaulFlags (environment : Settings) : Settings :=
  { environment with
    guestSshPort := "9001".toList
    vid := "1".toList
    ifMode := "ssh".toList
    bridgeName := "virbr0".toList }

/-- The ways in which the options are rejected; the script then exits with
status 1. -/
inductive FlagError where
  | noCommand
  | unknownOption (token : Text)
  | portPairs
  | vidRange
deriving DecidableEq, Repr

/-- What is printed before the exit, apart from the help text.  A token with
`%` or a backslash comes out as `printf` interprets it. -/
def FlagError.message : FlagError → Text
  | noCommand => []
  | unknownOption token => "Error: Unknown option ".toList ++ token ++ ['\n']
  | portPairs =>
      unlines
        ["Error:\tBoth host and guest ports must be set".toList,
          "\tUse the format '--port <host:guest>,<host:guest>'".toList,
          "\tUse a comma delimeter for multiple port forwarding".toList]
  | vidRange =>
      "Error: The value of --vid can only be a number ".toList ++
        unlines ["from 1 to 9 (inclusive)".toList]

variable (G : Globbing)

def hostfwdFront : Text := ",hostfwd=tcp::".toList
def guestFront : Text := "-:".toList

/-- The forward that one pair of ports adds to HOST_FWD. -/
def hostFwdRule (host guest : Text) : Text :=
  hostfwdFront ++ host ++ guestFront ++ guest

/-- The loop of `parse_port_flag` over the elements of the array. -/
def parsePortElements : List Text → Text → Except FlagError Text
  | [], fwd => .ok fwd
  | element :: rest, fwd =>
      let split := splitArray G ':' element
      let host := split.getD 0 []
      let guest := split.getD 1 []
      if host = [] ∨ guest = [] then .error .portPairs
      else parsePortElements rest (fwd ++ hostFwdRule host guest)

/-- `parse_port_flag`: the value of HOST_FWD. -/
def parsePortFlag (arg : Text) : Except FlagError Text :=
  parsePortElements G (splitArray G ',' arg) []

/-- The port that an argument of `--if` names, if it does. -/
def sshPortOf (arg : Text) : Option Text :=
  let array := splitArray G ',' arg
  let port := array.getD 1 []
  if array.getD 0 [] = "ssh".toList ∧ port ≠ [] then some port else none

def parseIfFlag (arg : Text) (s : Settings) : Settings :=
  { s with
    ifMode := (splitArray G ',' arg).getD 0 []
    guestSshPort := (sshPortOf G arg).getD s.guestSshPort }

/-- The test that guards the assignment of VID. -/
def vidInRange (arg : Text) : Bool :=
  (testInteger arg).any (1 ≤ ·) && (testInteger arg).any (· ≤ 9)

def parseVidFlag (arg : Text) (s : Settings) : Except FlagError Settings :=
  if vidInRange arg then .ok { s with vid := arg } else .error .vidRange

/-- The body of one branch of the case statement. -/
def setFlag : Flag → Text → Settings → Except FlagError Settings
  | .img, value, s => .ok { s with img := value }
  | .vid, value, s => parseVidFlag value s
  | .interface, value, s => .ok (parseIfFlag G value s)
  | .iso, value, s => .ok { s with iso := value }
  | .port, value, s =>
      (parsePortFlag G value).map fun fwd => { s with hostFwd := fwd }
  | .pre, value, s => .ok { s with pre := value }
  | .qcowPath, value, s => .ok { s with qcowPath := value }

/-- The `while` loop of `parse_options`.  After the flag is shifted away the
value is shifted too, unless it is empty. -/
def parseLoop : List Text → Settings → Except FlagError Settings
  | [], s => .ok s
  | [token], s =>
      match Flag.ofToken token with
      | none => .error (.unknownOption token)
      | some flag => setFlag G flag [] s
  | token :: value :: rest, s =>
      match Flag.ofToken token with
      | none => .error (.unknownOption token)
      | some flag =>
          match setFlag G flag value s with
          | .error e => .error e
          | .ok s' =>
              if value = [] then parseLoop (value :: rest) s'
              else parseLoop rest s'

def parseOptions : List Text → Settings → Except FlagError Settings
  | [], _ => .error .noCommand
  | cmd :: rest, s => parseLoop G rest { s with cmd := cmd }

/-- The commands of `parse_command`. -/
inductive Command where
  | install | start | stop | status | createBridge | removeBridge
  | mountQcow | umountQcow
deriving DecidableEq, Repr

def Command.token : Command → Text
  | install => "install".toList
  | start => "start".toList
  | stop => "stop".toList
  | status => "status".toList
  | createBridge => "create-bridge".toList
  | removeBridge => "remove-bridge".toList
  | mountQcow => "mount-qcow".toList
  | umountQcow => "umount-qcow".toList

def Command.ofToken (text : Text) : Option Command :=
  [install, start, stop, status, createBridge, removeBridge, mountQcow,
    umountQcow].find? fun command => command.token == text

/-- How a call of the script goes on once its dependencies are there: it
rejects the options, rejects the command, or runs a command. -/
inductive Dispatch where
  | badOptions (error : FlagError)
  | badCommand (token : Text)
  | runs (command : Command) (settings : Settings)
deriving DecidableEq, Repr

/-- `set_defaul_flags`, `parse_options` and `parse_command` in turn. -/
def manager (args : List Text) (environment : Settings) : Dispatch :=
  match parseOptions G args (setDefaulFlags environment) with
  | .error e => .badOptions e
  | .ok s =>
      match Command.ofToken s.cmd with
      | none => .badCommand s.cmd
      | some command => .runs command s

end Bodhi
