/-
The steps of an installation: the files it obtains, the image it makes, and
the part under its trap.
-/
import Bodhi.InstallScript

namespace Bodhi

/-- A file that is made unless one of its name exists: a step before, the
command that writes it, and a step after. -/
def obtainResource (name : Text) (before : Bool) (outcome : WriteOutcome)
    (after : Bool) : Script Vms := fun vms =>
  if (vms.resources name).isSome then ⟨vms, true⟩
  else
    ((plainStep before).andThen <|
    (writeResource name outcome).andThen <|
    plainStep after) vms

/-- The file exists, or is made by commands that all exit 0. -/
def Obtains (file : Option ResourceFile) (before : Bool)
    (outcome : WriteOutcome) (after : Bool) : Prop :=
  file ≠ none ∨ before = true ∧ outcome = .done ∧ after = true

/-- The image that a request makes: its name, what it is when `qemu-img` has
made it, and the drives that the installer has open. -/
structure ImagePlan where
  name : Text
  blank : Image
  drives : List Text

section Plan

variable (tools : InstallTools)

def isoPlan (iso : Text) : ImagePlan where
  name := isoImageName tools iso
  blank := ⟨none, []⟩
  drives := [imageDrive (isoImageName tools iso)]

def seededPlan (pre : Text) : ImagePlan where
  name := seededImageName tools pre
  blank := ⟨some (resourcePath tools (distroImageName tools)), []⟩
  drives :=
    [imageDrive (seededImageName tools pre),
      "file=".toList ++ resourcePath tools (cloudInitSeedIso pre) ++
        ",format=raw,if=virtio".toList]

/-- The image of a request that is not declined and names an ISO or a
supported distro. -/
def plannedImage (request : InstallRequest) : Option ImagePlan :=
  if request.answer ≠ some ['y'] then none
  else if request.settings.iso ≠ [] then
    some (isoPlan tools request.settings.iso)
  else if requestedDistro request = ubuntuCloud then
    some (seededPlan tools ubuntuCloud)
  else none

variable (outcomes : InstallOutcomes)

/-- The part under the trap, up to the trap itself. -/
def bootScript (pre : Text) (drives : List Text) : Script Vms :=
  (noteBoot tools outcomes pre).andThen <|
  (qemuSystem tools outcomes drives).andThen <|
  plainStep outcomes.cdBack

/-- The part of the script behind the two files. -/
def imageScript (pre : Text) : Script Vms :=
  (plainStep outcomes.cdVms).andThen <|
  (qemuImgCreate tools outcomes (seededPlan tools pre).name
    (seededPlan tools pre).blank).andThen <|
  (bootScript tools outcomes pre (seededPlan tools pre).drives).onExit
    (installTrap outcomes pre)

/-- The resources once the base image and the seed ISO are there. -/
def obtained (vms : Vms) : Vms :=
  { vms with
    resources := Function.update
      (Function.update vms.resources (distroImageName tools)
        (some ((vms.resources (distroImageName tools)).getD .whole)))
      (cloudInitSeedIso ubuntuCloud)
      (some ((vms.resources (cloudInitSeedIso ubuntuCloud)).getD .whole)) }

end Plan

section Keeps

variable {I : Vms → Prop}

theorem keeps_plainStep (works : Bool) : Script.Keeps I (plainStep works) :=
  Script.keeps_require _

theorem keeps_confirm {answer : Option Text} {body : Script Vms}
    (h : answer = some ['y'] → Script.Keeps I body) :
    Script.Keeps I (confirm answer body) := by
  rw [confirm]
  split
  · next hyes => exact h hyes
  · exact Script.keeps_exit

/-- Obtaining a file keeps what does not depend on the resources. -/
theorem keeps_obtainResource
    (hI : ∀ vms resources, I vms → I { vms with resources := resources })
    (name : Text) (before : Bool) (outcome : WriteOutcome) (after : Bool) :
    Script.Keeps I (obtainResource name before outcome after) := by
  have hwrite : Script.Keeps I (writeResource name outcome) := by
    intro vms h
    rw [writeResource]
    cases outcome
    · exact hI _ _ h
    · exact h
    · exact hI _ _ h
  intro vms h
  rw [obtainResource]
  split
  · exact h
  · apply Script.keeps_andThen (keeps_plainStep before) _ vms h
    exact Script.keeps_andThen hwrite (keeps_plainStep after)

end Keeps

section Obtain

variable {tools : InstallTools} {outcomes : InstallOutcomes}

theorem downloadBase_eq :
    downloadBase tools outcomes =
      obtainResource (distroImageName tools)
        (outcomes.mkdirResources && outcomes.cdResources) outcomes.curl
        outcomes.cdOld := by
  funext vms
  rw [downloadBase, obtainResource]
  cases outcomes.mkdirResources <;> rfl

/-- The installation of a cloud image obtains two files and makes an image. -/
theorem installSeeded_eq (pre : Text) :
    installSeededUbuntuCloudImg tools outcomes pre =
      (obtainResource (distroImageName tools)
        (outcomes.mkdirResources && outcomes.cdResources) outcomes.curl
        outcomes.cdOld).andThen
      ((obtainResource (cloudInitSeedIso pre) outcomes.tempFiles
        outcomes.mkisofs outcomes.rmTemp).andThen
          (imageScript tools outcomes pre)) := by
  rw [← downloadBase_eq]
  rfl

/-- A file that is obtained is the one that was there, or a whole one. -/
theorem obtainResource_obtains {name : Text} {before after : Bool}
    {outcome : WriteOutcome} (vms : Vms)
    (h : Obtains (vms.resources name) before outcome after) :
    obtainResource name before outcome after vms =
      ⟨{ vms with
          resources := Function.update vms.resources name
            (some ((vms.resources name).getD .whole)) }, true⟩ := by
  rw [obtainResource]
  cases hfile : vms.resources name with
  | some file =>
      have hsame : Function.update vms.resources name (some file) =
          vms.resources := by
        rw [← hfile, Function.update_eq_self]
      simp [hsame]
  | none =>
      obtain ⟨rfl, rfl, rfl⟩ := h.resolve_left (by simp [hfile])
      rfl

/-- Otherwise the script ends. -/
theorem obtainResource_fails {name : Text} {before after : Bool}
    {outcome : WriteOutcome} {vms : Vms}
    (h : ¬ Obtains (vms.resources name) before outcome after) :
    (obtainResource name before outcome after vms).goesOn = false := by
  rw [Obtains, not_or, not_not] at h
  obtain ⟨hnone, hmade⟩ := h
  rw [obtainResource]
  cases before <;> cases outcome <;> cases after <;>
    simp_all [plainStep, writeResource, Script.andThen]

theorem distroImageName_eq : distroImageName tools =
    "jammy-server-cloudimg-amd64.img".toList := by
  rw [distroImageName, tools.basename_path _ (by decide)]
  decide

theorem distroImageName_ne_seed :
    distroImageName tools ≠ cloudInitSeedIso ubuntuCloud := by
  rw [distroImageName_eq]
  decide

/-- With both files the script goes on to the image. -/
theorem installSeeded_obtains {vms : Vms}
    (hbase : Obtains (vms.resources (distroImageName tools))
      (outcomes.mkdirResources && outcomes.cdResources) outcomes.curl
      outcomes.cdOld)
    (hseed : Obtains (vms.resources (cloudInitSeedIso ubuntuCloud))
      outcomes.tempFiles outcomes.mkisofs outcomes.rmTemp) :
    installSeededUbuntuCloudImg tools outcomes ubuntuCloud vms =
      imageScript tools outcomes ubuntuCloud (obtained tools vms) := by
  have hfirst := obtainResource_obtains vms hbase
  have hother : Function.update vms.resources (distroImageName tools)
      (some ((vms.resources (distroImageName tools)).getD .whole))
        (cloudInitSeedIso ubuntuCloud) =
      vms.resources (cloudInitSeedIso ubuntuCloud) :=
    Function.update_of_ne distroImageName_ne_seed.symm _ _
  rw [← hother] at hseed
  have hlast := obtainResource_obtains
    { vms with
      resources := Function.update vms.resources (distroImageName tools)
        (some ((vms.resources (distroImageName tools)).getD .whole)) } hseed
  rw [installSeeded_eq, Script.andThen_goesOn (by rw [hfirst]), hfirst,
    Script.andThen_goesOn (by rw [hlast]), hlast]
  simp only [hother, obtained]

end Obtain

section Image

variable {tools : InstallTools} {outcomes : InstallOutcomes}

theorem qemuImgCreate_done {plan : ImagePlan} {target : Text}
    (htarget : tools.createTarget plan.name = some target)
    (himg : outcomes.qemuImg = .done) (vms : Vms) :
    qemuImgCreate tools outcomes plan.name plan.blank vms =
      ⟨{ vms with
          images := Function.update vms.images target (some plan.blank) },
        true⟩ := by
  simp [qemuImgCreate, htarget, himg, WriteOutcome.left]

/-- The script notes the boot, and its end changes nothing else but images. -/
theorem bootScript_state (pre : Text) (drives : List Text) (vms : Vms) :
    (bootScript tools outcomes pre drives vms).state =
      { vms with
        images := writeImages (tools.driveFiles drives) vms.images
          outcomes.written
        boot := some (bootOf tools outcomes pre vms) } := by
  rw [bootScript, noteBoot, Script.andThen_goesOn rfl]
  by_cases hworks : outcomes.qemuSystem = true
  · rw [Script.andThen_goesOn hworks]
    rfl
  · rw [Script.andThen_exits (Bool.not_eq_true _ ▸ hworks)]
    rfl

/-- What the trap leaves of a run that sets it. -/
theorem imageScript_setsTrap {pre target : Text} (vms : Vms)
    (hcd : outcomes.cdVms = true)
    (htarget : tools.createTarget (seededPlan tools pre).name = some target)
    (himg : outcomes.qemuImg = .done) :
    (imageScript tools outcomes pre vms).state =
      installTrap outcomes pre
        { vms with
          images := writeImages (tools.driveFiles (seededPlan tools pre).drives)
            (Function.update vms.images target
              (some (seededPlan tools pre).blank)) outcomes.written
          boot := some (bootOf tools outcomes pre vms) } := by
  have hcreate := qemuImgCreate_done htarget himg vms
  rw [imageScript, plainStep_andThen hcd,
    Script.andThen_goesOn (by rw [hcreate]), hcreate, Script.onExit_state,
    bootScript_state]
  rfl

end Image

end Bodhi
