/-
The command line that `start_vm` gives to QEMU, and the user network option
on it read back by the option syntax of QEMU.
-/
import Bodhi.FlagsLastWins
import Bodhi.OptionSyntax

namespace Bodhi

/-- The arguments of one `qemu-system-x86_64` call, in the order in which
`start_vm` writes them. -/
structure QemuCommand where
  name : Text
  drive : Text
  memory : Text
  bridgeNetdev : Text
  bridgeDevice : Text
  userNetdev : Text
  userDevice : Text
  virtfs : Text
  display : List Text
deriving DecidableEq, Repr

def QemuCommand.argv (command : QemuCommand) : List Text :=
  ["qemu-system-x86_64".toList,
    "-name".toList, command.name,
    "-drive".toList, command.drive,
    "-m".toList, command.memory,
    "-netdev".toList, command.bridgeNetdev,
    "-device".toList, command.bridgeDevice,
    "-netdev".toList, command.userNetdev,
    "-device".toList, command.userDevice,
    "-virtfs".toList, command.virtfs] ++ command.display

def vmHostname : Text := "qvm".toList
def memSize : Text := "2G".toList

/-- VOLUME_DIR under the home directory. -/
def volumeDir (home : Text) : Text :=
  home ++ "/VMs/volume".toList

/-- The mark between the image name and the port in a `-name` argument. -/
def portMark : Text := "----".toList

def userNetdevFront : Text := "type=user,id=unet".toList

/-- The port of the guest that the SSH port is forwarded to. -/
def sshGuestPort : Text := "22".toList

section Templates

variable (home selectedVm : Text) (s : Settings)

/-- The arguments that both branches of `start_vm` share. -/
def startCommand (name userNetdev : Text) (display : List Text) :
    QemuCommand where
  name := name
  drive := "file=".toList ++ selectedVm ++ ",format=qcow2,if=virtio".toList
  memory := memSize
  bridgeNetdev := "type=bridge,id=bnet".toList ++ s.vid ++
    ",br=".toList ++ s.bridgeName
  bridgeDevice := "virtio-net-pci,netdev=bnet".toList ++ s.vid ++
    ",mac=".toList ++ s.vid ++ "0:11:22:33:44:55".toList
  userNetdev := userNetdev
  userDevice := "virtio-net-pci,netdev=unet".toList ++ s.vid
  virtfs := "local,path=".toList ++ volumeDir home ++
    ",mount_tag=volume,security_model=none,id=vol".toList ++ s.vid
  display := display

/-- The `-name` argument without a port. -/
def vmName : Text :=
  vmHostname ++ '-' :: stripExtension selectedVm

def graphicalCommand : QemuCommand :=
  startCommand home selectedVm s (vmName selectedVm)
    (userNetdevFront ++ s.vid ++ ',' :: s.hostFwd)
    ["-vga".toList, "virtio".toList, "-daemonize".toList,
      "-enable-kvm".toList]

def sshCommand : QemuCommand :=
  startCommand home selectedVm s
    (vmName selectedVm ++ portMark ++ s.guestSshPort)
    (userNetdevFront ++ s.vid ++ hostFwdRule s.guestSshPort sshGuestPort ++
      s.hostFwd)
    ["-vga".toList, "none".toList, "-monitor".toList, "none".toList,
      "-display".toList, "none".toList, "-daemonize".toList,
      "-enable-kvm".toList]

end Templates

/-- The interface modes that the case statement of `start_vm` knows. -/
inductive IfMode where
  | graphical | ssh
deriving DecidableEq, Repr

def IfMode.token : IfMode → Text
  | graphical => "graphical".toList
  | ssh => "ssh".toList

/-- The call of QEMU for the selected image; in any other mode an error
message is printed and no machine is started. -/
def startVm (home selectedVm : Text) (s : Settings) : Option QemuCommand :=
  if s.ifMode = IfMode.graphical.token then
    some (graphicalCommand home selectedVm s)
  else if s.ifMode = IfMode.ssh.token then
    some (sshCommand home selectedVm s)
  else none

/-- A machine is started in one of the two modes, with the command of that
mode. -/
theorem startVm_eq_some_iff {home selectedVm : Text} {s : Settings}
    {command : QemuCommand} :
    startVm home selectedVm s = some command ↔
      s.ifMode = IfMode.graphical.token ∧
          graphicalCommand home selectedVm s = command ∨
        s.ifMode = IfMode.ssh.token ∧
          sshCommand home selectedVm s = command := by
  have hmodes : IfMode.graphical.token ≠ IfMode.ssh.token := by decide
  rw [startVm]
  by_cases hgraphical : s.ifMode = IfMode.graphical.token
  · rw [if_pos hgraphical]
    simp [hgraphical, hmodes]
  · rw [if_neg hgraphical]
    by_cases hssh : s.ifMode = IfMode.ssh.token
    · rw [if_pos hssh]
      simp [hssh, hmodes.symm]
    · rw [if_neg hssh]
      simp [hgraphical, hssh]

/-- A forwarding rule `protocol:hostaddr:hostport-guestaddr:guestport`. -/
structure HostForward where
  protocol : Text
  hostAddress : Text
  hostPort : Text
  guestAddress : Text
  guestPort : Text
deriving DecidableEq, Repr

/-- The text before the first separator and the text after it. -/
def cutAt (sep : Char) : Text → Option (Text × Text)
  | [] => none
  | c :: rest =>
      if c = sep then some ([], rest)
      else (cutAt sep rest).map fun cut => (c :: cut.1, cut.2)

theorem cutAt_append {sep : Char} {first : Text} (h : sep ∉ first)
    (last : Text) : cutAt sep (first ++ sep :: last) = some (first, last) := by
  induction first with
  | nil => simp [cutAt]
  | cons c first ih =>
      simp only [List.mem_cons, not_or] at h
      have hc : c ≠ sep := fun heq => h.1 heq.symm
      simp [cutAt, hc, ih h.2]

/-- Read the value of a `hostfwd` option. -/
def readHostForward (rule : Text) : Option HostForward := do
  let (protocol, rest) ← cutAt ':' rule
  let (hostAddress, rest) ← cutAt ':' rest
  let (hostPort, rest) ← cutAt '-' rest
  let (guestAddress, guestPort) ← cutAt ':' rest
  return ⟨protocol, hostAddress, hostPort, guestAddress, guestPort⟩

def tcpProtocol : Text := "tcp".toList

/-- The rule that forwards a TCP port of the host to one of the guest. -/
def tcpForward (host guest : Text) : HostForward :=
  ⟨tcpProtocol, [], host, [], guest⟩

/-- A user network: its id and its forwards in order. -/
structure UserNetdev where
  id : Text
  forwards : List HostForward
deriving DecidableEq, Repr

def typeKey : Text := "type".toList
def idKey : Text := "id".toList
def hostfwdKey : Text := "hostfwd".toList
def netdevKey : Text := "netdev".toList
def userType : Text := "user".toList

/-- Read a `-netdev` argument of type `user` that has one id and no options
but forwards. -/
def readUserNetdev (text : Text) : Option UserNetdev :=
  let items := readOptions text
  if optionValues typeKey items = [userType] ∧
      ∀ item ∈ items, item.key ∈ [typeKey, idKey, hostfwdKey] ∧
        item.value.isSome then
    match optionValues idKey items with
    | [id] =>
        ((optionValues hostfwdKey items).mapM readHostForward).map
          fun forwards => ⟨id, forwards⟩
    | _ => none
  else none

/-- The network that a `-device` argument is attached to. -/
def deviceNetdev (device : Text) : Option Text :=
  optionValue netdevKey (readOptions device)

end Bodhi
