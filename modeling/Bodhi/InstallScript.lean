/-
The `install` and `start` commands on the files they keep: the images in
VMS_DIR, and the base image and seed ISO in RESOURCES_DIR.
-/
import Mathlib.Logic.Function.Basic
import Bodhi.RunInvariant
import Bodhi.ShellFlow
import Bodhi.StartCommand

namespace Bodhi

/-- A disk image: the file it is a layer on, and what was written to it. -/
structure Image where
  backing : Option Text
  data : Text
deriving DecidableEq

/-- A file in RESOURCES_DIR: written by a command that exited 0, or left behind
by one that was cut off. -/
inductive ResourceFile where
  | whole
  | cutOff
deriving DecidableEq

/-- What the installer of a cloud image found when it was started, and whether
it exited 0. -/
structure Boot where
  base : Option ResourceFile
  seed : Option ResourceFile
  worked : Bool
deriving DecidableEq

/-- The files by name, the boot of a cloud image in this run, and whether the
success message was printed. -/
structure Vms where
  images : Text → Option Image
  resources : Text → Option ResourceFile
  boot : Option Boot
  announced : Bool

/-- How a command that writes a file ends. -/
inductive WriteOutcome where
  | done
  | failed
  | cutOff
deriving DecidableEq

/-- What the file of that command is afterwards, if it is written at all. -/
def WriteOutcome.left : WriteOutcome → Option ResourceFile
  | done => some .whole
  | failed => none
  | cutOff => some .cutOff

/-- What the tools make of their words: the name that `basename` prints, the
file that `qemu-img create` makes, and the files that `qemu-system` writes to
for its `-drive` arguments. -/
structure InstallTools where
  home : Text
  basename : Text → Text
  basename_path : ∀ path, path.head? ≠ some '-' →
    basename path = Bodhi.basename path
  createTarget : Text → Option Text
  driveFiles : List Text → List Text

/-- The flags, the answer at the prompt, and the subscript that the number
typed at the menu comes to. -/
structure InstallRequest where
  settings : Settings
  answer : Option Text
  subscript : Option Int

/-- How the commands of an installation end, and what its `qemu-system` writes
to each file it has open. -/
structure InstallOutcomes where
  mkdirVms : Bool
  mkdirResources : Bool
  cdResources : Bool
  curl : WriteOutcome
  cdOld : Bool
  tempFiles : Bool
  mkisofs : WriteOutcome
  rmTemp : Bool
  cdVms : Bool
  qemuImg : WriteOutcome
  written : Text → Option Text
  qemuSystem : Bool
  cdBack : Bool
  rmSeed : Bool

def ubuntuCloud : Text := "ubuntu-cloud".toList

def cloudDistros : List Text := [ubuntuCloud]

def ubuntuCloudDistroUrl : Text :=
  "https://cloud-images.ubuntu.com/jammy/current/jammy-server-cloudimg-amd64.img".toList

def cloudInitSeedIso (pre : Text) : Text :=
  pre ++ "-cloud-init-seed.iso".toList

def qcow2Extension : Text := ".qcow2".toList

/-- `-drive "file=${name},format=qcow2,if=virtio"`. -/
def imageDrive (name : Text) : Text :=
  "file=".toList ++ name ++ ",format=qcow2,if=virtio".toList

section Steps

variable (tools : InstallTools) (outcomes : InstallOutcomes)

/-- A command that changes none of the files. -/
def plainStep (works : Bool) : Script Vms :=
  Script.require fun _ => works

def checkFlag (value : Text) : Script Vms :=
  plainStep (value ≠ [])

/-- `read -p "... [y/n]: "`; at the end of the input `read` fails. -/
def confirm (answer : Option Text) (body : Script Vms) : Script Vms :=
  if answer = some ['y'] then body else Script.exit

/-- A command that writes a file in RESOURCES_DIR. -/
def writeResource (name : Text) (outcome : WriteOutcome) : Script Vms :=
  fun vms =>
    ⟨match outcome.left with
      | none => vms
      | some file =>
          { vms with resources := Function.update vms.resources name (some file) },
      outcome = .done⟩

/-- `qemu-img create`, which silently replaces an existing file. -/
def qemuImgCreate (name : Text) (blank : Image) : Script Vms :=
  fun vms =>
    match tools.createTarget name, outcomes.qemuImg.left with
    | some target, some _ =>
        ⟨{ vms with images := Function.update vms.images target (some blank) },
          outcomes.qemuImg = .done⟩
    | _, _ => ⟨vms, false⟩

/-- The images after `qemu-system` has run with some files open. -/
def writeImages (files : List Text) (images : Text → Option Image)
    (written : Text → Option Text) (name : Text) : Option Image :=
  match images name, written name with
  | some image, some data =>
      if name ∈ files then some { image with data := data } else some image
  | image, _ => image

/-- A run of `qemu-system` that installs something. -/
def qemuSystem (drives : List Text) : Script Vms :=
  fun vms =>
    ⟨{ vms with images :=
        writeImages (tools.driveFiles drives) vms.images outcomes.written },
      outcomes.qemuSystem⟩

/-- The image name of `install_vm_from_iso`. -/
def isoImageName (iso : Text) : Text :=
  stripExtension (commandSubst (tools.basename iso ++ ['\n'])) ++
    qcow2Extension

def distroImageName : Text :=
  commandSubst (tools.basename ubuntuCloudDistroUrl ++ ['\n'])

/-- The image name of `install_seeded_ubuntu_cloud_img`. -/
def seededImageName (pre : Text) : Text :=
  stripExtension (distroImageName tools) ++
    '-' :: stripExtension (cloudInitSeedIso pre) ++ qcow2Extension

/-- A file in RESOURCES_DIR by its full path. -/
def resourcePath (name : Text) : Text :=
  tools.home ++ "/VMs/resources/".toList ++ name

def installVmFromIso (request : InstallRequest) : Script Vms :=
  let name := isoImageName tools request.settings.iso
  (checkFlag request.settings.iso).andThen <|
  confirm request.answer <|
  (plainStep outcomes.cdVms).andThen <|
  (qemuImgCreate tools outcomes name ⟨none, []⟩).andThen <|
  (qemuSystem tools outcomes [imageDrive name]).andThen <|
  plainStep outcomes.cdBack

/-- The base image is downloaded unless a file of its name exists. -/
def downloadBase : Script Vms := fun vms =>
  if (vms.resources (distroImageName tools)).isSome then ⟨vms, true⟩
  else
    ((plainStep outcomes.mkdirResources).andThen <|
    (plainStep outcomes.cdResources).andThen <|
    (writeResource (distroImageName tools) outcomes.curl).andThen <|
    plainStep outcomes.cdOld) vms

/-- The seed ISO is made unless a file of its name exists. -/
def createCloudInitIso (pre : Text) : Script Vms := fun vms =>
  if (vms.resources (cloudInitSeedIso pre)).isSome then ⟨vms, true⟩
  else
    ((plainStep outcomes.tempFiles).andThen <|
    (writeResource (cloudInitSeedIso pre) outcomes.mkisofs).andThen <|
    plainStep outcomes.rmTemp) vms

/-- What the installer of a cloud image finds. -/
def bootOf (pre : Text) (vms : Vms) : Boot where
  base := vms.resources (distroImageName tools)
  seed := vms.resources (cloudInitSeedIso pre)
  worked := outcomes.qemuSystem

def noteBoot (pre : Text) : Script Vms :=
  Script.effect fun vms =>
    { vms with boot := some (bootOf tools outcomes pre vms) }

/-- The EXIT trap: the success message follows the `rm` of the seed ISO. -/
def installTrap (pre : Text) (vms : Vms) : Vms :=
  if outcomes.rmSeed && (vms.resources (cloudInitSeedIso pre)).isSome then
    { vms with
      resources := Function.update vms.resources (cloudInitSeedIso pre) none
      announced := true }
  else vms

def installSeededUbuntuCloudImg (pre : Text) : Script Vms :=
  let name := seededImageName tools pre
  let seed := resourcePath tools (cloudInitSeedIso pre)
  (downloadBase tools outcomes).andThen <|
  (createCloudInitIso outcomes pre).andThen <|
  (plainStep outcomes.cdVms).andThen <|
  (qemuImgCreate tools outcomes name
    ⟨some (resourcePath tools (distroImageName tools)), []⟩).andThen <|
  ((noteBoot tools outcomes pre).andThen <|
    (qemuSystem tools outcomes
      [imageDrive name, "file=".toList ++ seed ++
        ",format=raw,if=virtio".toList]).andThen <|
    plainStep outcomes.cdBack).onExit (installTrap outcomes pre)

def installVmFromPredefined (pre : Text) (answer : Option Text) :
    Script Vms :=
  (checkFlag pre).andThen <|
  (plainStep (pre ∈ cloudDistros)).andThen <|
  confirm answer <|
  if pre = ubuntuCloud then installSeededUbuntuCloudImg tools outcomes pre
  else Script.pass

def installVm (request : InstallRequest) : Script Vms :=
  (plainStep outcomes.mkdirVms).andThen <|
  if request.settings.iso ≠ [] then installVmFromIso tools outcomes request
  else if request.settings.pre ≠ [] then
    installVmFromPredefined tools outcomes request.settings.pre request.answer
  else
    match request.subscript with
    | none => Script.exit
    | some subscript =>
        if arrayItem cloudDistros subscript ≠ [] then
          installVmFromPredefined tools outcomes
            (arrayItem cloudDistros subscript) request.answer
        else Script.exit

end Steps

section Requested

variable {tools : InstallTools} {outcomes : InstallOutcomes}

/-- The distro that the flag or the menu names. -/
def requestedDistro (request : InstallRequest) : Text :=
  if request.settings.pre ≠ [] then request.settings.pre
  else (request.subscript.map (arrayItem cloudDistros)).getD []

/-- An ISO comes first, then the one distro that is supported. -/
def installRequested (tools : InstallTools) (outcomes : InstallOutcomes)
    (request : InstallRequest) : Script Vms :=
  if request.settings.iso ≠ [] then installVmFromIso tools outcomes request
  else if requestedDistro request = ubuntuCloud then
    confirm request.answer
      (installSeededUbuntuCloudImg tools outcomes ubuntuCloud)
  else Script.exit

theorem plainStep_andThen {works : Bool} (h : works = true)
    (last : Script Vms) (state : Vms) :
    (plainStep works).andThen last state = last state :=
  Script.require_andThen h

theorem plainStep_exits {works : Bool} (h : ¬ works = true)
    (last : Script Vms) (state : Vms) :
    ((plainStep works).andThen last state).state = state :=
  Script.require_andThen_exits (Bool.not_eq_true _ ▸ h)

theorem checkFlag_andThen {value : Text} (h : value ≠ [])
    (last : Script Vms) (state : Vms) :
    (checkFlag value).andThen last state = last state :=
  Script.require_andThen (by simpa using h)

theorem installVmFromPredefined_eq {pre : Text} (hpre : pre ≠ [])
    (answer : Option Text) :
    installVmFromPredefined tools outcomes pre answer =
      if pre = ubuntuCloud then
        confirm answer (installSeededUbuntuCloudImg tools outcomes ubuntuCloud)
      else Script.exit := by
  funext vms
  rw [installVmFromPredefined, checkFlag_andThen hpre]
  by_cases hdistro : pre = ubuntuCloud
  · subst hdistro
    rw [if_pos rfl, if_pos rfl]
    exact Script.require_andThen (by decide)
  · have hunknown : decide (pre ∈ cloudDistros) = false := by
      simpa [cloudDistros] using hdistro
    rw [if_neg hdistro, if_neg hdistro, plainStep,
      Script.andThen_exits (by simpa using hunknown)]
    simp [Script.require, Script.exit, hunknown]

/-- The branches of `install_vm` come down to the ISO and the distro asked
for. -/
theorem installVm_eq (request : InstallRequest) :
    installVm tools outcomes request =
      (plainStep outcomes.mkdirVms).andThen
        (installRequested tools outcomes request) := by
  have hnone : ([] : Text) ≠ ubuntuCloud := by decide
  rw [installVm, installRequested, requestedDistro]
  congr 1
  by_cases hiso : request.settings.iso ≠ []
  · rw [if_pos hiso, if_pos hiso]
  rw [if_neg hiso, if_neg hiso]
  by_cases hpre : request.settings.pre ≠ []
  · rw [if_pos hpre, if_pos hpre, installVmFromPredefined_eq hpre]
  rw [if_neg hpre, if_neg hpre]
  cases request.subscript with
  | none => exact (if_neg hnone).symm
  | some subscript =>
      by_cases hitem : arrayItem cloudDistros subscript ≠ []
      · dsimp only
        rw [if_pos hitem, installVmFromPredefined_eq hitem]
        rfl
      · rw [not_not] at hitem
        simp [hitem, hnone]

end Requested

/-- A call of `start`: its flags, the image chosen, and what the machine writes
to it. -/
structure StartRequest where
  settings : Settings
  selectedVm : Text
  written : Text → Option Text

inductive VmCommand where
  | install (request : InstallRequest) (outcomes : InstallOutcomes)
  | start (request : StartRequest)

/-- The images after a machine has run. -/
def startImages (tools : InstallTools) (request : StartRequest)
    (images : Text → Option Image) : Text → Option Image :=
  match startVm tools.home request.selectedVm request.settings with
  | none => images
  | some command =>
      writeImages (tools.driveFiles [command.drive]) images request.written

/-- One command; nothing has been booted or announced when it begins. -/
def vmMachine (tools : InstallTools) : Machine Vms VmCommand where
  next vms
    | .install request outcomes =>
        (installVm tools outcomes request
          { vms with boot := none, announced := false }).state
    | .start request =>
        { vms with images := startImages tools request vms.images }

end Bodhi
