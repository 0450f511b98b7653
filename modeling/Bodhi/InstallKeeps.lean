/-
What `install` does to the images that are already there.
-/
import Bodhi.InstallSteps

namespace Bodhi

/-- Every image there was before is there with the same contents. -/
def KeepsImages (before after : Vms) : Prop :=
  ∀ name image, before.images name = some image →
    after.images name = some image

/-- However its commands end, the request keeps the images. -/
def InstallKeeps (tools : InstallTools) (vms : Vms) : VmCommand → Prop
  | .install request _ => ∀ outcomes,
      KeepsImages vms ((vmMachine tools).next vms (.install request outcomes))
  | .start _ => True

section Plan

variable (tools : InstallTools)

/-- The planned image replaces no image, other than one that is still as
`qemu-img` made it, and the installer writes to none that is there. -/
def SparesImages (vms : Vms) (plan : ImagePlan) : Prop :=
  ∀ target, tools.createTarget plan.name = some target →
    (∀ image, vms.images target = some image → image = plan.blank) ∧
    ∀ file ∈ tools.driveFiles plan.drives, vms.images file = none

/-- The request makes no image, or one that spares those that are there. -/
def InstallSpares (vms : Vms) : VmCommand → Prop
  | .install request _ => ∀ plan, plannedImage tools request = some plan →
      SparesImages tools vms plan
  | .start _ => True

end Plan

section Keeps

variable {tools : InstallTools} {outcomes : InstallOutcomes} {vms : Vms}

theorem keeps_qemuImgCreate {name : Text} {blank : Image}
    (h : ∀ target, tools.createTarget name = some target →
      ∀ image, vms.images target = some image → image = blank) :
    Script.Keeps (KeepsImages vms) (qemuImgCreate tools outcomes name blank) := by
  intro state hkeeps
  rw [qemuImgCreate]
  split
  · next target _ htarget _ =>
      intro other image himage
      by_cases hother : other = target
      · subst hother
        simp [h other htarget image himage]
      · simpa [hother] using hkeeps other image himage
  · exact hkeeps

theorem writeImages_of_not_mem {files : List Text}
    {images : Text → Option Image} {written : Text → Option Text} {name : Text}
    (h : name ∉ files) : writeImages files images written name = images name := by
  rw [writeImages]
  split
  · next image data himage _ => rw [if_neg h, himage]
  · rfl

theorem keeps_qemuSystem {drives : List Text}
    (h : ∀ file ∈ tools.driveFiles drives, vms.images file = none) :
    Script.Keeps (KeepsImages vms) (qemuSystem tools outcomes drives) := by
  intro state hkeeps name image himage
  have hname : name ∉ tools.driveFiles drives := by
    intro hmem
    rw [h name hmem] at himage
    cases himage
  exact (writeImages_of_not_mem hname).trans (hkeeps name image himage)

/-- An image that spares the others is made and run without a loss. -/
theorem keeps_image {plan : ImagePlan} (h : SparesImages tools vms plan)
    {rest : Script Vms}
    (hrest : (∀ file ∈ tools.driveFiles plan.drives,
      vms.images file = none) → Script.Keeps (KeepsImages vms) rest) :
    Script.Keeps (KeepsImages vms)
      ((qemuImgCreate tools outcomes plan.name plan.blank).andThen rest) := by
  cases htarget : tools.createTarget plan.name with
  | none =>
      intro state hkeeps
      rw [Script.andThen_exits (by simp [qemuImgCreate, htarget])]
      simpa [qemuImgCreate, htarget] using hkeeps
  | some target =>
      refine Script.keeps_andThen (keeps_qemuImgCreate fun target' htarget' =>
        ?_) (hrest (h target htarget).2)
      exact (h target' htarget').1

theorem keeps_installTrap (pre : Text) (state : Vms)
    (h : KeepsImages vms state) :
    KeepsImages vms (installTrap outcomes pre state) := by
  rw [installTrap]
  split <;> exact h

theorem keeps_installVmFromIso {request : InstallRequest}
    (h : request.answer = some ['y'] →
      SparesImages tools vms (isoPlan tools request.settings.iso)) :
    Script.Keeps (KeepsImages vms)
      (installVmFromIso tools outcomes request) := by
  refine Script.keeps_andThen (keeps_plainStep _) ?_
  apply keeps_confirm
  intro hyes
  refine Script.keeps_andThen (keeps_plainStep _) ?_
  apply keeps_image (h hyes)
  intro hfiles
  exact Script.keeps_andThen (keeps_qemuSystem hfiles) (keeps_plainStep _)

theorem keeps_installSeeded {pre : Text}
    (h : SparesImages tools vms (seededPlan tools pre)) :
    Script.Keeps (KeepsImages vms)
      (installSeededUbuntuCloudImg tools outcomes pre) := by
  have hresources : ∀ state resources, KeepsImages vms state →
      KeepsImages vms { state with resources := resources } :=
    fun _ _ hkeeps => hkeeps
  rw [installSeeded_eq]
  apply Script.keeps_andThen (keeps_obtainResource hresources _ _ _ _)
  apply Script.keeps_andThen (keeps_obtainResource hresources _ _ _ _)
  refine Script.keeps_andThen (keeps_plainStep _) ?_
  apply keeps_image h
  intro hfiles
  apply Script.keeps_onExit _ (keeps_installTrap pre)
  apply Script.keeps_andThen
  · exact Script.keeps_effect fun _ hkeeps => hkeeps
  · exact Script.keeps_andThen (keeps_qemuSystem hfiles) (keeps_plainStep _)

/-- A request whose image spares those that are there keeps them. -/
theorem keeps_installVm {request : InstallRequest}
    (h : ∀ plan, plannedImage tools request = some plan →
      SparesImages tools vms plan) :
    Script.Keeps (KeepsImages vms) (installVm tools outcomes request) := by
  rw [installVm_eq]
  refine Script.keeps_andThen (keeps_plainStep _) ?_
  rw [installRequested]
  split
  · next hiso =>
      apply keeps_installVmFromIso
      intro hyes
      apply h
      simp [plannedImage, hyes, hiso]
  · next hiso =>
      split
      · next hdistro =>
          apply keeps_confirm
          intro hyes
          apply keeps_installSeeded
          apply h
          simp [plannedImage, hyes, hiso, hdistro]
      · exact Script.keeps_exit

end Keeps

section Loses

variable {tools : InstallTools} {vms : Vms}

/-- Every command works, and the installer writes some data. -/
def smoothOutcomes (written : Text → Option Text) : InstallOutcomes where
  mkdirVms := true
  mkdirResources := true
  cdResources := true
  curl := .done
  cdOld := true
  tempFiles := true
  mkisofs := .done
  rmTemp := true
  cdVms := true
  qemuImg := .done
  written := written
  qemuSystem := true
  cdBack := true
  rmSeed := true

theorem confirm_yes (body : Script Vms) : confirm (some ['y']) body = body :=
  if_pos rfl

theorem installTrap_images (outcomes : InstallOutcomes) (pre : Text)
    (state : Vms) : (installTrap outcomes pre state).images = state.images := by
  rw [installTrap]
  split <;> rfl

theorem installVmFromIso_smooth {request : InstallRequest} {target : Text}
    (hyes : request.answer = some ['y']) (hiso : request.settings.iso ≠ [])
    (htarget : tools.createTarget (isoPlan tools request.settings.iso).name =
      some target) (written : Text → Option Text) :
    (installVmFromIso tools (smoothOutcomes written) request
      vms).state.images =
      writeImages (tools.driveFiles (isoPlan tools request.settings.iso).drives)
        (Function.update vms.images target
          (some (isoPlan tools request.settings.iso).blank)) written := by
  have hcreate : qemuImgCreate tools (smoothOutcomes written)
      (isoImageName tools request.settings.iso) ⟨none, []⟩ vms = _ :=
    qemuImgCreate_done htarget rfl vms
  have hcd : (smoothOutcomes written).cdVms = true := rfl
  rw [installVmFromIso, checkFlag_andThen hiso, hyes, confirm_yes,
    plainStep_andThen hcd, Script.andThen_goesOn (by rw [hcreate]), hcreate]
  rfl

theorem installSeeded_smooth {target : Text}
    (htarget : tools.createTarget (seededPlan tools ubuntuCloud).name =
      some target) (written : Text → Option Text) :
    (installSeededUbuntuCloudImg tools (smoothOutcomes written) ubuntuCloud
      vms).state.images =
      writeImages (tools.driveFiles (seededPlan tools ubuntuCloud).drives)
        (Function.update vms.images target
          (some (seededPlan tools ubuntuCloud).blank)) written := by
  rw [installSeeded_obtains (Or.inr ⟨rfl, rfl, rfl⟩) (Or.inr ⟨rfl, rfl, rfl⟩),
    imageScript_setsTrap _ rfl htarget rfl, installTrap_images]
  rfl

/-- The images after a request whose commands all work. -/
theorem installVm_smooth {request : InstallRequest} {plan : ImagePlan}
    {target : Text} (hplan : plannedImage tools request = some plan)
    (htarget : tools.createTarget plan.name = some target)
    (written : Text → Option Text) :
    (installVm tools (smoothOutcomes written) request vms).state.images =
      writeImages (tools.driveFiles plan.drives)
        (Function.update vms.images target (some plan.blank)) written := by
  have hmkdir : (smoothOutcomes written).mkdirVms = true := rfl
  rw [installVm_eq, plainStep_andThen hmkdir, installRequested]
  rw [plannedImage] at hplan
  split at hplan
  · cases hplan
  · next hyes =>
      rw [not_not] at hyes
      split at hplan
      · next hiso =>
          obtain rfl := Option.some.inj hplan
          rw [if_pos hiso]
          exact installVmFromIso_smooth hyes hiso htarget written
      · next hiso =>
          rw [if_neg hiso]
          split at hplan
          · next hdistro =>
              obtain rfl := Option.some.inj hplan
              rw [if_pos hdistro, hyes, confirm_yes]
              exact installSeeded_smooth htarget written
          · cases hplan

theorem writeImages_of_mem {files : List Text} {images : Text → Option Image}
    {name : Text} {image : Image} (hname : name ∈ files)
    (himage : images name = some image) (data : Text) :
    writeImages files images (fun _ => some data) name =
      some { image with data := data } := by
  simp [writeImages, himage, hname]

theorem writeImages_none {files : List Text} {images : Text → Option Image}
    (name : Text) : writeImages files images (fun _ => none) name =
      images name := by
  rw [writeImages]
  split
  · next hdata => cases hdata
  · rfl

/-- A request that keeps the images whatever happens spares them: one that
would be replaced is lost when `qemu-img` works, and one that the installer has
open is lost when it writes to it. -/
theorem sparesImages_of_keeps {request : InstallRequest} {plan : ImagePlan}
    (hplan : plannedImage tools request = some plan)
    (h : ∀ outcomes, KeepsImages vms
      (installVm tools outcomes request vms).state) :
    SparesImages tools vms plan := by
  intro target htarget
  have hafter : ∀ written name image, vms.images name = some image →
      writeImages (tools.driveFiles plan.drives)
        (Function.update vms.images target (some plan.blank)) written name =
          some image := by
    intro written name image himage
    rw [← installVm_smooth hplan htarget written]
    exact h (smoothOutcomes written) name image himage
  constructor
  · intro image himage
    have hkept := hafter (fun _ => none) target image himage
    rw [writeImages_none, Function.update_self] at hkept
    exact (Option.some.inj hkept).symm
  · intro file hfile
    by_contra hne
    obtain ⟨image, himage⟩ := Option.ne_none_iff_exists'.1 hne
    obtain ⟨made, hmade⟩ : ∃ made, Function.update vms.images target
        (some plan.blank) file = some made := by
      by_cases hfile : file = target
      · exact ⟨plan.blank, by rw [hfile, Function.update_self]⟩
      · exact ⟨image, by rw [Function.update_of_ne hfile, himage]⟩
    have hkept := hafter (fun _ => some ('x' :: image.data)) file image himage
    rw [writeImages_of_mem hfile hmade, Option.some.injEq] at hkept
    have hdata := congrArg (fun image => image.data.length) hkept
    simp at hdata

end Loses

theorem installVm_keeps_iff (tools : InstallTools) (request : InstallRequest)
    (vms : Vms) :
    (∀ outcomes, KeepsImages vms (installVm tools outcomes request vms).state) ↔
      ∀ plan, plannedImage tools request = some plan →
        SparesImages tools vms plan :=
  ⟨fun h _ hplan => sparesImages_of_keeps hplan h,
    fun h _ => keeps_installVm h vms fun _ _ himage => himage⟩

/-- One `install` keeps the images, whatever happens, exactly if its image
spares those that are there. -/
theorem installKeeps_iff (tools : InstallTools) (vms : Vms)
    (command : VmCommand) :
    InstallKeeps tools vms command ↔ InstallSpares tools vms command := by
  cases command with
  | start request => exact Iff.rfl
  | install request outcomes =>
      exact installVm_keeps_iff tools request
        { vms with boot := none, announced := false }

/-- In a run of `install` and `start` commands no `install` can lose an image
exactly if each spares the images that are there when it is called. -/
theorem installs_keepImages_iff (tools : InstallTools) (vms : Vms)
    (commands : List VmCommand) :
    (vmMachine tools).Throughout (InstallKeeps tools) vms commands ↔
      (vmMachine tools).Throughout (InstallSpares tools) vms commands :=
  Machine.throughout_congr (installKeeps_iff tools) vms commands

def fileKey : Text := "file".toList

/-- Tools that take every name as it is; `qemu-system` opens the file that the
option `file` of a drive names. -/
def plainInstallTools : InstallTools where
  home := "/root".toList
  basename := Bodhi.basename
  basename_path _ _ := rfl
  createTarget := some
  driveFiles drives := drives.filterMap fun drive =>
    optionValue fileKey (readOptions drive)

/-- A machine that has nothing installed. -/
def noVms : Vms where
  images _ := none
  resources _ := none
  boot := none
  announced := false

/-- An installation from an ISO that goes well. -/
def isoInstall (iso data : Text) : VmCommand :=
  .install
    { settings := { bareEnvironment with iso := iso }
      answer := some ['y']
      subscript := none }
    (smoothOutcomes fun _ => some data)

/-- Two ISOs of one name in two directories: the second installation replaces
the image of the first. -/
theorem installs_not_keepImages :
    ¬ (vmMachine plainInstallTools).Throughout
      (InstallKeeps plainInstallTools) noVms
      [isoInstall "/a/arch.iso".toList "a".toList,
        isoInstall "/b/arch.iso".toList "b".toList] := by
  intro h
  have hkept := h.2.1 (smoothOutcomes fun _ => some "b".toList)
    "arch.qcow2".toList ⟨none, "a".toList⟩ (by decide +kernel)
  exact absurd hkept (by decide +kernel)

end Bodhi
