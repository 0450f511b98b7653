/-
`mount_qcow` and `umount_qcow`: the connection of /dev/nbd0, the mounts on
/mnt, and the trap that tears the connection down.
-/
import Bodhi.RunInvariant
import Bodhi.ShellFlow
import Bodhi.ShellText

namespace Bodhi

/-- The image connected to /dev/nbd0, and the mounts on /mnt, the top one
first: for a mount of a partition of /dev/nbd0 the image it was made from. -/
structure Host where
  nbd0 : Option Text
  mnt : List (Option Text)
deriving DecidableEq

/-- What the tools make of their words: the image that `qemu-nbd` opens, and
whether the device of a `mount` lies on /dev/nbd0. -/
structure MountTools where
  glob : Globbing
  openImage : List Text → Option Text
  onNbd0 : Text → Bool

/-- A command before the trap is set: whether it does its work, and whether
SIGTERM ends the script before the next one. -/
structure Call where
  works : Bool
  killed : Bool

/-- One run of `mount-qcow`: the flag, what `realpath` prints, the calls, the
answer at the prompt and, for every SIGTERM after the trap is set, whether the
disconnect of its handler works. -/
structure MountCalls where
  qcowPath : Text
  absPath : Text
  modprobe : Call
  connect : Call
  fdisk : Call
  selection : Option Text
  readSignals : List Bool
  mount : Bool
  mountSignals : List Bool
  ls : Bool
  lsSignals : List Bool
  exitDisconnect : Bool
  exitSignals : List Bool

structure UmountCalls where
  umount : Call
  disconnect : Bool

def disconnected (works : Bool) (host : Host) : Host :=
  if works then { host with nbd0 := none } else host

/-- `sudo qemu-nbd --disconnect /dev/nbd0`. -/
def disconnect (works : Bool) : Script Host :=
  fun host => ⟨disconnected works host, works⟩

/-- The handlers of SIGTERM in turn; one that fails ends the script. -/
def handleTerms : List Bool → Script Host
  | [] => Script.pass
  | works :: rest => (disconnect works).andThen (handleTerms rest)

/-- A command before the trap is set. -/
def runCall (call : Call) (change : Host → Option Host) : Script Host :=
  fun host =>
    match call.works, change host with
    | true, some host' => ⟨host', !call.killed⟩
    | _, _ => ⟨host, false⟩

section Tools

variable (tools : MountTools)

/-- The words that the unquoted `${abs_path}` is split into. -/
def connectWords (absPath : Text) : List Text :=
  (splitWords absPath).flatMap tools.glob.expand

/-- `qemu-nbd --connect` fails on a device that is already connected. -/
def connect (absPath : Text) (host : Host) : Option Host :=
  match host.nbd0, tools.openImage (connectWords tools absPath) with
  | none, some image => some { host with nbd0 := some image }
  | _, _ => none

/-- `mount /dev/${selection} /mnt`: there is no partition to mount on a device
that is not connected. -/
def mountDevice (selection : Text) (host : Host) : Option Host :=
  if tools.onNbd0 selection then
    host.nbd0.map fun image => { host with mnt := some image :: host.mnt }
  else some { host with mnt := none :: host.mnt }

/-- The part of `mount_qcow` that the trap covers. -/
def mountSelected (calls : MountCalls) : Script Host :=
  match calls.selection with
  | none => Script.exit.during (handleTerms calls.readSignals)
  | some selection =>
      (handleTerms calls.readSignals).andThen <|
      (Script.during
        (runCall ⟨calls.mount, false⟩ (mountDevice tools selection))
        (handleTerms calls.mountSignals)).andThen
      ((Script.require fun _ => calls.ls).during
        (handleTerms calls.lsSignals))

/-- The command of the EXIT trap, and the handlers of SIGTERMs during it. -/
def exitTrap (calls : MountCalls) (host : Host) : Host :=
  (calls.exitDisconnect :: calls.exitSignals).foldl
    (fun host works => disconnected works host) host

def mountQcow (calls : MountCalls) : Script Host :=
  (Script.require fun _ => calls.qcowPath ≠ []).andThen <|
  (runCall calls.modprobe some).andThen <|
  (runCall calls.connect (connect tools calls.absPath)).andThen <|
  (runCall calls.fdisk some).andThen <|
  (mountSelected tools calls).onExit (exitTrap calls)

end Tools

/-- `sudo umount /mnt` takes the top mount away. -/
def umountTop (host : Host) : Option Host :=
  match host.mnt with
  | [] => none
  | _ :: rest => some { host with mnt := rest }

def umountQcow (calls : UmountCalls) : Script Host :=
  (runCall calls.umount umountTop).andThen (disconnect calls.disconnect)

/-- The runs of the two commands. -/
inductive MountRun where
  | mount (calls : MountCalls)
  | umount (calls : UmountCalls)

def mountMachine (tools : MountTools) : Machine Host MountRun where
  next
    | host, .mount calls => (mountQcow tools calls host).state
    | host, .umount calls => (umountQcow calls host).state

/-- Every mount of a partition of /dev/nbd0 still has its image behind it. -/
def Backed (host : Host) : Prop :=
  ∀ image, some image ∈ host.mnt → host.nbd0 = some image

/-- Every command before the trap does its work, and no SIGTERM comes. -/
def ReachesTrap (tools : MountTools) (host : Host) (calls : MountCalls) :
    Prop :=
  calls.qcowPath ≠ [] ∧
  (calls.modprobe.works = true ∧ calls.modprobe.killed = false) ∧
  (calls.connect.works = true ∧ calls.connect.killed = false) ∧
  (host.nbd0 = none ∧
    tools.openImage (connectWords tools calls.absPath) ≠ none) ∧
  calls.fdisk.works = true ∧ calls.fdisk.killed = false

/-- A partition of /dev/nbd0 is chosen at the prompt and its mount works. -/
def ChoosesPartition (tools : MountTools) (calls : MountCalls) : Prop :=
  (∃ selection, calls.selection = some selection ∧
    tools.onNbd0 selection = true) ∧
  calls.readSignals = [] ∧ calls.mount = true

/-- After the mount no trap of the run disconnects the device: the handler of
the first SIGTERM fails, if there is one, and so does the EXIT trap. -/
def StaysConnected (calls : MountCalls) : Prop :=
  (calls.mountSignals ++ calls.lsSignals).head? ≠ some true ∧
    ∀ works ∈ calls.exitDisconnect :: calls.exitSignals, works = false

/-- No partition of /dev/nbd0 is mounted, unless the traps then fail to
disconnect it. -/
def KeepsDevice (tools : MountTools) (host : Host) : MountRun → Prop
  | .mount calls => ReachesTrap tools host calls →
      ChoosesPartition tools calls → StaysConnected calls
  | .umount _ => True

/-- No partition of /dev/nbd0 is mounted. -/
def Unmounted (host : Host) : Prop :=
  ∀ mount ∈ host.mnt, mount = none

/-- Only the top mount can be one of a partition of /dev/nbd0. -/
def OnTop (host : Host) : Prop :=
  ∀ mount ∈ host.mnt.tail, mount = none

theorem Unmounted.backed {host : Host} (h : Unmounted host) : Backed host := by
  intro image hmem
  cases h _ hmem

theorem Unmounted.onTop {host : Host} (h : Unmounted host) : OnTop host :=
  fun mount hmem => h mount (List.mem_of_mem_tail hmem)

/-- Nothing is mounted from a device that is not connected. -/
theorem Backed.unmounted {host : Host} (h : Backed host)
    (hnone : host.nbd0 = none) : Unmounted host := by
  intro mount hmem
  cases mount with
  | none => rfl
  | some image =>
      rw [h image hmem] at hnone
      cases hnone

section Disconnects

@[simp] theorem disconnected_mnt (works : Bool) (host : Host) :
    (disconnected works host).mnt = host.mnt := by
  cases works <;> rfl

@[simp] theorem disconnected_disconnected (works works' : Bool) (host : Host) :
    disconnected works (disconnected works' host) =
      disconnected (works || works') host := by
  cases works <;> cases works' <;> rfl

/-- A handler that fails ends the script, and a second disconnect changes
nothing, so the first handler decides. -/
theorem handleTerms_state (signals : List Bool) (host : Host) :
    (handleTerms signals host).state =
      disconnected (signals.head? == some true) host := by
  induction signals generalizing host with
  | nil => rfl
  | cons works rest ih =>
      cases works with
      | false => rfl
      | true =>
          rw [handleTerms, Script.andThen_goesOn rfl, ih]
          simp [disconnect]

theorem exitTrap_eq (calls : MountCalls) (host : Host) :
    exitTrap calls host =
      disconnected ((calls.exitDisconnect :: calls.exitSignals).any id)
        host := by
  rw [exitTrap]
  generalize calls.exitDisconnect :: calls.exitSignals = outcomes
  induction outcomes generalizing host with
  | nil => rfl
  | cons works rest ih =>
      rw [List.foldl_cons, ih, disconnected_disconnected, List.any_cons,
        Bool.or_comm, id]

theorem keeps_handleTerms {I : Host → Prop}
    (hI : ∀ works host, I host → I (disconnected works host))
    (signals : List Bool) : Script.Keeps I (handleTerms signals) := by
  intro host h
  rw [handleTerms_state]
  exact hI _ host h

theorem Unmounted.disconnected {host : Host} (works : Bool)
    (h : Unmounted host) : Unmounted (disconnected works host) := by
  simpa [Unmounted] using h

end Disconnects

section Calls

theorem runCall_goesOn {call : Call} {change : Host → Option Host}
    {host host' : Host} (hworks : call.works = true ∧ call.killed = false)
    (hchange : change host = some host') :
    runCall call change host = ⟨host', true⟩ := by
  simp [runCall, hworks.1, hworks.2, hchange]

/-- A command that works and changes nothing. -/
theorem runCall_passes {call : Call}
    (hworks : call.works = true ∧ call.killed = false) (host : Host) :
    runCall call some host = ⟨host, true⟩ :=
  runCall_goesOn hworks rfl

theorem runCall_stops {call : Call} {change : Host → Option Host} {host : Host}
    (h : ¬ (call.works = true ∧ call.killed = false) ∨ change host = none) :
    (runCall call change host).goesOn = false := by
  rcases call with ⟨works, killed⟩
  cases works <;> cases killed <;> cases hchange : change host <;>
    simp_all [runCall]

/-- A command leaves the host alone or makes its change. -/
theorem runCall_state (call : Call) (change : Host → Option Host)
    (host : Host) :
    (runCall call change host).state = host ∨
      change host = some (runCall call change host).state := by
  rcases call with ⟨works, killed⟩
  cases works <;> cases hchange : change host <;> simp [runCall, hchange]

theorem runCall_of_goesOn {call : Call} {change : Host → Option Host}
    {host : Host} (h : (runCall call change host).goesOn = true) :
    change host = some (runCall call change host).state := by
  rcases call with ⟨works, killed⟩
  cases works <;> cases hchange : change host <;>
    simp_all [runCall]

end Calls

section Runs

variable {tools : MountTools} {host : Host} {calls : MountCalls}

theorem connect_eq_some_iff {absPath : Text} {host' : Host} :
    connect tools absPath host = some host' ↔
      host.nbd0 = none ∧ ∃ image,
        tools.openImage (connectWords tools absPath) = some image ∧
          host' = { host with nbd0 := some image } := by
  rw [connect]
  cases host.nbd0 <;> cases tools.openImage (connectWords tools absPath) <;>
    simp [eq_comm]

/-- A run that reaches its trap has connected the device. -/
theorem mountQcow_reaches (h : ReachesTrap tools host calls) :
    ∃ image, (mountQcow tools calls host).state =
      exitTrap calls
        (mountSelected tools calls { host with nbd0 := some image }).state := by
  obtain ⟨hpath, hmodprobe, hconnect, ⟨hnone, hopen⟩, hfdisk⟩ := h
  obtain ⟨image, himage⟩ := Option.ne_none_iff_exists'.1 hopen
  have hchange : connect tools calls.absPath host =
      some { host with nbd0 := some image } :=
    connect_eq_some_iff.2 ⟨hnone, image, himage, rfl⟩
  have hgo := runCall_passes hmodprobe host
  have hgo' := runCall_goesOn hconnect hchange
  have hgo'' := runCall_passes hfdisk { host with nbd0 := some image }
  refine ⟨image, ?_⟩
  rw [mountQcow, Script.require_andThen (by simpa using hpath),
    Script.andThen_goesOn (by rw [hgo]), hgo,
    Script.andThen_goesOn (by rw [hgo']), hgo',
    Script.andThen_goesOn (by rw [hgo'']), hgo'', Script.onExit_state]

/-- A run that ends before its trap leaves the host alone, or has connected a
device that was free. -/
theorem mountQcow_stops (h : ¬ ReachesTrap tools host calls) :
    (mountQcow tools calls host).state = host ∨
      host.nbd0 = none ∧ (mountQcow tools calls host).state.mnt = host.mnt := by
  by_cases hpath : calls.qcowPath ≠ []
  swap
  · exact Or.inl (Script.require_andThen_exits (by simpa using hpath))
  rw [mountQcow, Script.require_andThen (by simpa using hpath)]
  by_cases hmodprobe : calls.modprobe.works = true ∧
    calls.modprobe.killed = false
  swap
  · rw [Script.andThen_exits (runCall_stops (Or.inl hmodprobe))]
    rcases runCall_state calls.modprobe some host with heq | heq
    · exact Or.inl heq
    · exact Or.inl (Option.some.inj heq).symm
  have hgo := runCall_passes hmodprobe host
  rw [Script.andThen_goesOn (by rw [hgo]), hgo]
  by_cases hconnect : calls.connect.works = true ∧
    calls.connect.killed = false ∧
      connect tools calls.absPath host ≠ none
  swap
  · have hstops : (runCall calls.connect (connect tools calls.absPath)
        host).goesOn = false := by
      apply runCall_stops
      by_contra hno
      rw [not_or, not_not] at hno
      exact hconnect ⟨hno.1.1, hno.1.2, hno.2⟩
    rw [Script.andThen_exits hstops]
    rcases runCall_state calls.connect (connect tools calls.absPath) host with
      heq | heq
    · exact Or.inl heq
    · obtain ⟨hnone, image, _, heq⟩ := connect_eq_some_iff.1 heq
      exact Or.inr ⟨hnone, by rw [heq]⟩
  obtain ⟨hworks, hkilled, hsome⟩ := hconnect
  obtain ⟨host', hchange⟩ := Option.ne_none_iff_exists'.1 hsome
  obtain ⟨hnone, image, hopen, rfl⟩ := connect_eq_some_iff.1 hchange
  have hgo' := runCall_goesOn ⟨hworks, hkilled⟩ hchange
  rw [Script.andThen_goesOn (by rw [hgo']), hgo']
  have hfdisk : ¬ (calls.fdisk.works = true ∧ calls.fdisk.killed = false) :=
    fun hfdisk => h ⟨hpath, hmodprobe, ⟨hworks, hkilled⟩,
      ⟨hnone, by simp [hopen]⟩, hfdisk⟩
  rw [Script.andThen_exits (runCall_stops (Or.inl hfdisk))]
  rcases runCall_state calls.fdisk some { host with nbd0 := some image } with
    heq | heq
  · exact Or.inr ⟨hnone, by rw [heq]⟩
  · exact Or.inr ⟨hnone, by rw [← Option.some.inj heq]⟩

/-- No partition is mounted, and this run can mount none any more. -/
def Blocked (tools : MountTools) (calls : MountCalls) (selection : Text)
    (host : Host) : Prop :=
  Unmounted host ∧
    (¬ (tools.onNbd0 selection = true ∧ calls.mount = true) ∨
      host.nbd0 = none)

theorem Blocked.disconnected {selection : Text} (works : Bool)
    (h : Blocked tools calls selection host) :
    Blocked tools calls selection (disconnected works host) := by
  refine ⟨h.1.disconnected works, h.2.imp_right fun hnone => ?_⟩
  cases works
  · exact hnone
  · rfl

theorem keeps_mountDevice_blocked (selection : Text) :
    Script.Keeps (Blocked tools calls selection)
      (runCall ⟨calls.mount, false⟩ (mountDevice tools selection)) := by
  rintro host ⟨hmounts, hfree⟩
  cases hworks : calls.mount with
  | false => exact ⟨hmounts, Or.inl (by simp [hworks])⟩
  | true =>
      by_cases hon : tools.onNbd0 selection = true
      · have hnone := hfree.resolve_left (by simp [hon, hworks])
        have hfails : mountDevice tools selection host = none := by
          simp [mountDevice, hon, hnone]
        simpa [runCall, hfails] using ⟨hmounts, Or.inr hnone⟩
      · refine ⟨?_, Or.inl fun h => hon h.1⟩
        simpa [runCall, mountDevice, hon, Unmounted] using hmounts

/-- Without a partition chosen and mounted the part under the trap mounts
nothing from the device. -/
theorem mountSelected_unmounted (hchooses : ¬ ChoosesPartition tools calls)
    (hmounts : Unmounted host) :
    Unmounted (mountSelected tools calls host).state := by
  have hread := keeps_handleTerms
    (fun works _ h => Unmounted.disconnected works h)
    calls.readSignals host hmounts
  rw [mountSelected]
  cases hselection : calls.selection with
  | none => exact hread
  | some selection =>
      have hterms := keeps_handleTerms
        (I := Blocked tools calls selection) fun works _ h =>
          h.disconnected works
      have hrest := Script.keeps_andThen
        (Script.keeps_during (keeps_mountDevice_blocked selection)
          (hterms calls.mountSignals))
        (Script.keeps_during (Script.keeps_require fun _ => calls.ls)
          (hterms calls.lsSignals))
      dsimp only
      by_cases hgo : (handleTerms calls.readSignals host).goesOn = true
      · rw [Script.andThen_goesOn hgo]
        refine (hrest _ ⟨hread, ?_⟩).1
        cases hsignals : calls.readSignals with
        | nil =>
            exact Or.inl fun h =>
              hchooses ⟨⟨selection, hselection, h.1⟩, hsignals, h.2⟩
        | cons works rest =>
            rw [hsignals] at hgo
            cases works with
            | false => cases hgo
            | true =>
                rw [handleTerms_state]
                exact Or.inr rfl
      · rw [Script.andThen_exits (Bool.not_eq_true _ ▸ hgo)]
        exact hread

/-- With one, the mount is there and the traps decide about the device. -/
theorem mountSelected_mounts (hchooses : ChoosesPartition tools calls)
    {image : Text} (himage : host.nbd0 = some image) :
    (mountSelected tools calls host).state =
      disconnected
        ((calls.mountSignals ++ calls.lsSignals).head? == some true)
        { host with mnt := some image :: host.mnt } := by
  obtain ⟨⟨selection, hselection, hon⟩, hread, hmount⟩ := hchooses
  have hchange : mountDevice tools selection host =
      some { host with mnt := some image :: host.mnt } := by
    simp [mountDevice, hon, himage]
  have hgo : runCall ⟨calls.mount, false⟩ (mountDevice tools selection) host =
      ⟨{ host with mnt := some image :: host.mnt }, true⟩ :=
    runCall_goesOn ⟨hmount, rfl⟩ hchange
  simp only [mountSelected, hselection, hread]
  rw [handleTerms, Script.andThen_goesOn rfl]
  simp only [Script.pass, Script.effect, id_eq]
  cases hsignals : calls.mountSignals with
  | nil =>
      rw [Script.andThen_goesOn (by simp [hgo, handleTerms, Script.pass,
        Script.effect])]
      simp [hgo, handleTerms_state]
  | cons works rest =>
      have hfirst : ((runCall ⟨calls.mount, false⟩
          (mountDevice tools selection)).during
            (handleTerms (works :: rest)) host).state =
          disconnected works { host with mnt := some image :: host.mnt } := by
        cases works <;> simp [hgo, handleTerms_state]
      by_cases hend : ((runCall ⟨calls.mount, false⟩
          (mountDevice tools selection)).during
            (handleTerms (works :: rest)) host).goesOn = true
      · have hworks : works = true := by
          cases works
          · simp [hgo, handleTerms, Script.andThen, disconnect] at hend
          · rfl
        rw [Script.andThen_goesOn hend, hfirst, Script.during_state,
          handleTerms_state]
        simp [hworks]
      · rw [Script.andThen_exits (Bool.not_eq_true _ ▸ hend), hfirst]
        cases works <;> rfl

/-- A device that backs a mount backs it until it is disconnected. -/
theorem backed_disconnected_iff {image : Text} {works : Bool}
    (hmounts : Unmounted host) :
    Backed (disconnected works ⟨some image, some image :: host.mnt⟩) ↔
      works = false := by
  cases works with
  | true =>
      refine iff_of_false (fun h => ?_) Bool.noConfusion
      have hgone := h image List.mem_cons_self
      cases hgone
  | false =>
      refine iff_of_true (fun image' hmem => ?_) rfl
      rcases List.mem_cons.1 hmem with heq | hmem
      · rw [heq]
        rfl
      · cases hmounts _ hmem

/-- The state a run leaves behind: what it found, or no partition mounted, or
one on top of mounts of other devices whose device the traps decide about. -/
theorem mountQcow_cases (tools : MountTools) (calls : MountCalls)
    (honTop : OnTop host) (hbacked : Backed host) :
    (ReachesTrap tools host calls ∧ ChoosesPartition tools calls ∧
      Unmounted host ∧ ∃ image, (mountQcow tools calls host).state =
        disconnected
          ((calls.exitDisconnect :: calls.exitSignals).any id ||
            ((calls.mountSignals ++ calls.lsSignals).head? == some true))
          ⟨some image, some image :: host.mnt⟩) ∨
    (¬ (ReachesTrap tools host calls ∧ ChoosesPartition tools calls) ∧
      OnTop (mountQcow tools calls host).state ∧
      Backed (mountQcow tools calls host).state) := by
  by_cases hreaches : ReachesTrap tools host calls
  · have hmounts := hbacked.unmounted hreaches.2.2.2.1.1
    obtain ⟨image, hstate⟩ := mountQcow_reaches hreaches
    by_cases hchooses : ChoosesPartition tools calls
    · refine Or.inl ⟨hreaches, hchooses, hmounts, image, ?_⟩
      rw [hstate, mountSelected_mounts hchooses rfl, exitTrap_eq,
        disconnected_disconnected]
    · have hconnected : Unmounted { host with nbd0 := some image } := hmounts
      have hafter : Unmounted (mountQcow tools calls host).state := by
        rw [hstate, exitTrap_eq]
        exact (mountSelected_unmounted hchooses hconnected).disconnected _
      exact Or.inr ⟨fun h => hchooses h.2, hafter.onTop, hafter.backed⟩
  · refine Or.inr ⟨fun h => hreaches h.1, ?_⟩
    rcases mountQcow_stops hreaches with hstate | ⟨hnone, hmnt⟩
    · rw [hstate]
      exact ⟨honTop, hbacked⟩
    · have hafter : Unmounted (mountQcow tools calls host).state := by
        intro mount hmem
        exact hbacked.unmounted hnone mount (hmnt ▸ hmem)
      exact ⟨hafter.onTop, hafter.backed⟩

theorem staysConnected_iff :
    StaysConnected calls ↔
      ((calls.exitDisconnect :: calls.exitSignals).any id ||
        ((calls.mountSignals ++ calls.lsSignals).head? == some true)) =
          false := by
  rw [Bool.or_eq_false_iff, StaysConnected, and_comm]
  simp

theorem mountQcow_onTop (honTop : OnTop host) (hbacked : Backed host) :
    OnTop (mountQcow tools calls host).state := by
  rcases mountQcow_cases tools calls honTop hbacked with
    ⟨_, _, hmounts, image, hstate⟩ | ⟨_, hafter, _⟩
  · rw [hstate, OnTop, disconnected_mnt]
    exact hmounts
  · exact hafter

/-- One run of `mount-qcow` leaves every mount backed exactly if it mounts no
partition of the device or does not disconnect it afterwards. -/
theorem mountQcow_backed_iff (honTop : OnTop host) (hbacked : Backed host) :
    Backed (mountQcow tools calls host).state ↔
      KeepsDevice tools host (.mount calls) := by
  rcases mountQcow_cases tools calls honTop hbacked with
    ⟨hreaches, hchooses, hmounts, image, hstate⟩ | ⟨hnot, _, hafter⟩
  · rw [hstate, backed_disconnected_iff hmounts, ← staysConnected_iff]
    exact ⟨fun h _ _ => h, fun h => h hreaches hchooses⟩
  · exact iff_of_true hafter fun hreaches hchooses =>
      absurd ⟨hreaches, hchooses⟩ hnot

end Runs

/-- `umount_qcow` disconnects the device only after the one mount that can be
on it is gone. -/
theorem umountQcow_keeps {host : Host} {calls : UmountCalls}
    (honTop : OnTop host) (hbacked : Backed host) :
    OnTop (umountQcow calls host).state ∧
      Backed (umountQcow calls host).state := by
  have htop : ∀ host', umountTop host = some host' → Unmounted host' := by
    intro host' hchange
    obtain ⟨nbd0, mnt⟩ := host
    cases mnt with
    | nil => cases hchange
    | cons mount rest =>
        rw [← Option.some.inj hchange]
        exact honTop
  by_cases hgo : (runCall calls.umount umountTop host).goesOn = true
  · have hgone := htop _ (runCall_of_goesOn hgo)
    rw [umountQcow, Script.andThen_goesOn hgo]
    have hafter := hgone.disconnected calls.disconnect
    exact ⟨hafter.onTop, hafter.backed⟩
  · rw [umountQcow, Script.andThen_exits (Bool.not_eq_true _ ▸ hgo)]
    rcases runCall_state calls.umount umountTop host with hstate | hchange
    · rw [hstate]
      exact ⟨honTop, hbacked⟩
    · exact ⟨(htop _ hchange).onTop, (htop _ hchange).backed⟩

/-- In a run of the two commands that starts with nothing mounted, every mount
is backed in every state exactly if no run of `mount-qcow` mounts a partition
of the device and disconnects it afterwards. -/
theorem mountRuns_backed_iff (tools : MountTools) (nbd0 : Option Text)
    (runs : List MountRun) :
    (mountMachine tools).Always Backed ⟨nbd0, []⟩ runs ↔
      (mountMachine tools).Throughout (KeepsDevice tools) ⟨nbd0, []⟩ runs := by
  apply Machine.always_iff_throughout (I := OnTop)
  · intro host run honTop hbacked
    cases run with
    | mount calls => exact mountQcow_onTop honTop hbacked
    | umount calls => exact (umountQcow_keeps honTop hbacked).1
  · intro host run honTop hbacked
    cases run with
    | mount calls => exact mountQcow_backed_iff honTop hbacked
    | umount calls =>
        exact iff_of_true (umountQcow_keeps honTop hbacked).2 trivial
  · intro mount hmem
    cases hmem
  · intro image hmem
    cases hmem

/-- Tools that open the one file they are given and take every name that
starts with `nbd0` for a partition of the device. -/
def plainTools : MountTools where
  glob := Globbing.unmatched
  openImage
    | [image] => some image
    | _ => none
  onNbd0 selection := decide ("nbd0".toList <+: selection)

/-- A run in which every command works and no signal comes. -/
def smoothMount (path selection : Text) : MountCalls where
  qcowPath := path
  absPath := path
  modprobe := ⟨true, false⟩
  connect := ⟨true, false⟩
  fdisk := ⟨true, false⟩
  selection := some selection
  readSignals := []
  mount := true
  mountSignals := []
  ls := true
  lsSignals := []
  exitDisconnect := true
  exitSignals := []

/-- The EXIT trap of a run that went well disconnects the device under the
mount it has just made. -/
theorem mountRuns_not_backed :
    ¬ (mountMachine plainTools).Always Backed ⟨none, []⟩
      [.mount (smoothMount "/arch.qcow2".toList "nbd0p1".toList)] := by
  intro h
  have hmem : some "/arch.qcow2".toList ∈ ((mountMachine plainTools).after
      ⟨none, []⟩
      [.mount (smoothMount "/arch.qcow2".toList "nbd0p1".toList)]).mnt := by
    decide
  exact absurd (h.last _ hmem) (by decide)

end Bodhi
