/-
What the success message of a cloud-image installation says.
-/
import Bodhi.InstallKeeps

namespace Bodhi

/-- If the message is printed, the installer of this run exited 0, on a base
image and a seed ISO that were written to their end. -/
def AnnouncesTruly (tools : InstallTools) (vms : Vms) (command : VmCommand) :
    Prop :=
  match command with
  | .install _ _ =>
      ((vmMachine tools).next vms command).announced = true →
        ∃ boot, ((vmMachine tools).next vms command).boot = some boot ∧
          boot.worked = true ∧ boot.base = some .whole ∧
            boot.seed = some .whole
  | .start _ => True

section Condition

variable (tools : InstallTools)

/-- The prompt is confirmed, and it is about the supported distro. -/
def RequestsCloudImage (request : InstallRequest) : Prop :=
  request.answer = some ['y'] ∧ request.settings.iso = [] ∧
    requestedDistro request = ubuntuCloud

/-- The run gets as far as setting its trap. -/
def SetsTrap (vms : Vms) (outcomes : InstallOutcomes) : Prop :=
  Obtains (vms.resources (distroImageName tools))
    (outcomes.mkdirResources && outcomes.cdResources) outcomes.curl
    outcomes.cdOld ∧
  Obtains (vms.resources (cloudInitSeedIso ubuntuCloud)) outcomes.tempFiles
    outcomes.mkisofs outcomes.rmTemp ∧
  outcomes.cdVms = true ∧
  tools.createTarget (seededImageName tools ubuntuCloud) ≠ none ∧
  outcomes.qemuImg = .done

/-- If the run sets its trap and can remove the seed ISO in it, the installer
exits 0 and neither file was left behind by an earlier run that was cut off. -/
def InstallsCleanly (vms : Vms) : VmCommand → Prop
  | .install request outcomes =>
      outcomes.mkdirVms = true → RequestsCloudImage request →
        SetsTrap tools vms outcomes → outcomes.rmSeed = true →
          outcomes.qemuSystem = true ∧
            vms.resources (distroImageName tools) ≠ some .cutOff ∧
            vms.resources (cloudInitSeedIso ubuntuCloud) ≠ some .cutOff
  | .start _ => True

end Condition

section Announce

variable {tools : InstallTools} {outcomes : InstallOutcomes} {vms : Vms}

/-- Nothing has been announced in this run. -/
def Unannounced (vms : Vms) : Prop :=
  vms.announced = false

theorem unannounced_qemuImgCreate (name : Text) (blank : Image) :
    Script.Keeps Unannounced (qemuImgCreate tools outcomes name blank) := by
  intro state h
  rw [qemuImgCreate]
  split <;> exact h

theorem unannounced_installVmFromIso (request : InstallRequest) :
    Script.Keeps Unannounced (installVmFromIso tools outcomes request) := by
  refine Script.keeps_andThen (keeps_plainStep _) ?_
  apply keeps_confirm
  intro _
  refine Script.keeps_andThen (keeps_plainStep _) ?_
  apply Script.keeps_andThen (unannounced_qemuImgCreate _ _)
  apply Script.keeps_andThen
  · exact fun _ h => h
  · exact keeps_plainStep _

/-- Without one of the files the script ends before it makes an image. -/
theorem installSeeded_misses
    (h : ¬ (Obtains (vms.resources (distroImageName tools))
        (outcomes.mkdirResources && outcomes.cdResources) outcomes.curl
        outcomes.cdOld ∧
      Obtains (vms.resources (cloudInitSeedIso ubuntuCloud))
        outcomes.tempFiles outcomes.mkisofs outcomes.rmTemp))
    (hsilent : Unannounced vms) :
    Unannounced (installSeededUbuntuCloudImg tools outcomes ubuntuCloud
      vms).state := by
  have hkeeps := keeps_obtainResource (I := Unannounced) (fun _ _ h => h)
  have hfirst := hkeeps (distroImageName tools)
    (outcomes.mkdirResources && outcomes.cdResources) outcomes.curl
    outcomes.cdOld vms hsilent
  rw [installSeeded_eq]
  by_cases hbase : Obtains (vms.resources (distroImageName tools))
      (outcomes.mkdirResources && outcomes.cdResources) outcomes.curl
      outcomes.cdOld
  · have hother : (obtainResource (distroImageName tools)
        (outcomes.mkdirResources && outcomes.cdResources) outcomes.curl
        outcomes.cdOld vms).state.resources (cloudInitSeedIso ubuntuCloud) =
          vms.resources (cloudInitSeedIso ubuntuCloud) := by
      rw [obtainResource_obtains vms hbase]
      exact Function.update_of_ne distroImageName_ne_seed.symm _ _
    have hseed : ¬ Obtains ((obtainResource (distroImageName tools)
        (outcomes.mkdirResources && outcomes.cdResources) outcomes.curl
        outcomes.cdOld vms).state.resources (cloudInitSeedIso ubuntuCloud))
          outcomes.tempFiles outcomes.mkisofs outcomes.rmTemp := by
      rw [hother]
      exact fun hseed => h ⟨hbase, hseed⟩
    rw [Script.andThen_goesOn (by rw [obtainResource_obtains vms hbase]),
      Script.andThen_exits (obtainResource_fails hseed)]
    exact hkeeps _ _ _ _ _ hfirst
  · rw [Script.andThen_exits (obtainResource_fails hbase)]
    exact hfirst

theorem imageScript_unannounced
    (h : ¬ (outcomes.cdVms = true ∧
      tools.createTarget (seededImageName tools ubuntuCloud) ≠ none ∧
        outcomes.qemuImg = .done))
    (hsilent : Unannounced vms) :
    Unannounced (imageScript tools outcomes ubuntuCloud vms).state := by
  by_cases hcd : outcomes.cdVms = true
  · rw [imageScript, plainStep_andThen hcd]
    have hstops : (qemuImgCreate tools outcomes
        (seededPlan tools ubuntuCloud).name
          (seededPlan tools ubuntuCloud).blank vms).goesOn = false := by
      rw [qemuImgCreate]
      split
      · next target _ htarget _ =>
          rw [decide_eq_false_iff_not]
          intro himg
          refine h ⟨hcd, ?_, himg⟩
          rw [show tools.createTarget (seededImageName tools ubuntuCloud) =
            some target from htarget]
          exact Option.some_ne_none target
      · rfl
    rw [Script.andThen_exits hstops]
    exact unannounced_qemuImgCreate _ _ vms hsilent
  · rw [imageScript, plainStep_exits hcd]
    exact hsilent

/-- A run that sets its trap announces if the trap can remove the seed ISO. -/
theorem installSeeded_setsTrap (h : SetsTrap tools vms outcomes)
    (hsilent : Unannounced vms) :
    (installSeededUbuntuCloudImg tools outcomes ubuntuCloud
        vms).state.announced = outcomes.rmSeed ∧
      (installSeededUbuntuCloudImg tools outcomes ubuntuCloud
        vms).state.boot = some
          ⟨some ((vms.resources (distroImageName tools)).getD .whole),
            some ((vms.resources (cloudInitSeedIso ubuntuCloud)).getD .whole),
            outcomes.qemuSystem⟩ := by
  obtain ⟨hbase, hseed, hcd, htarget, himg⟩ := h
  obtain ⟨target, htarget⟩ := Option.ne_none_iff_exists'.1 htarget
  have hstate := imageScript_setsTrap (obtained tools vms) hcd htarget himg
  have hboot : bootOf tools outcomes ubuntuCloud (obtained tools vms) =
      ⟨some ((vms.resources (distroImageName tools)).getD .whole),
        some ((vms.resources (cloudInitSeedIso ubuntuCloud)).getD .whole),
        outcomes.qemuSystem⟩ := by
    simp [bootOf, obtained, Function.update_of_ne distroImageName_ne_seed]
  have hfound : ((obtained tools vms).resources
      (cloudInitSeedIso ubuntuCloud)).isSome = true := by
    simp [obtained]
  have hannounced : (obtained tools vms).announced = false := hsilent
  rw [installSeeded_obtains hbase hseed, hstate, hboot]
  rw [installTrap]
  cases outcomes.rmSeed <;> simp [hfound, hannounced]

/-- A run that does not set it announces nothing. -/
theorem installSeeded_unannounced (h : ¬ SetsTrap tools vms outcomes)
    (hsilent : Unannounced vms) :
    Unannounced (installSeededUbuntuCloudImg tools outcomes ubuntuCloud
      vms).state := by
  by_cases hfiles : Obtains (vms.resources (distroImageName tools))
      (outcomes.mkdirResources && outcomes.cdResources) outcomes.curl
      outcomes.cdOld ∧
    Obtains (vms.resources (cloudInitSeedIso ubuntuCloud))
      outcomes.tempFiles outcomes.mkisofs outcomes.rmTemp
  · rw [installSeeded_obtains hfiles.1 hfiles.2]
    exact imageScript_unannounced
      (fun hrest => h ⟨hfiles.1, hfiles.2, hrest⟩) hsilent
  · exact installSeeded_misses hfiles hsilent

theorem installVm_requested {request : InstallRequest}
    (hmkdir : outcomes.mkdirVms = true) (h : RequestsCloudImage request) :
    installVm tools outcomes request vms =
      installSeededUbuntuCloudImg tools outcomes ubuntuCloud vms := by
  obtain ⟨hyes, hiso, hdistro⟩ := h
  rw [installVm_eq, plainStep_andThen hmkdir, installRequested,
    if_neg (not_not.2 hiso), if_pos hdistro, hyes, confirm_yes]

theorem installVm_unannounced (tools : InstallTools)
    {request : InstallRequest}
    (h : ¬ (outcomes.mkdirVms = true ∧ RequestsCloudImage request))
    (hsilent : Unannounced vms) :
    Unannounced (installVm tools outcomes request vms).state := by
  rw [installVm_eq]
  by_cases hmkdir : outcomes.mkdirVms = true
  · rw [plainStep_andThen hmkdir]
    rw [installRequested]
    split
    · exact unannounced_installVmFromIso request vms hsilent
    · next hiso =>
        split
        · next hdistro =>
            rw [confirm]
            split
            · next hyes =>
                exact absurd ⟨hmkdir, hyes, not_not.1 hiso, hdistro⟩ h
            · exact hsilent
        · exact hsilent
  · rw [plainStep_exits hmkdir]
    exact hsilent

end Announce

/-- A file that is there or made anew is whole unless it was cut off. -/
theorem getD_whole_iff (file : Option ResourceFile) :
    file.getD .whole = .whole ↔ file ≠ some .cutOff := by
  cases file with
  | none => decide
  | some file => cases file <;> decide

/-- One installation announces truly exactly if it is clean or does not come
to its announcement. -/
theorem installVm_announces_iff (tools : InstallTools)
    (request : InstallRequest) (outcomes : InstallOutcomes) {vms : Vms}
    (hsilent : Unannounced vms) :
    ((installVm tools outcomes request vms).state.announced = true →
        ∃ boot, (installVm tools outcomes request vms).state.boot = some boot ∧
          boot.worked = true ∧ boot.base = some .whole ∧
            boot.seed = some .whole) ↔
      InstallsCleanly tools vms (.install request outcomes) := by
  by_cases hrequest : outcomes.mkdirVms = true ∧ RequestsCloudImage request
  · obtain ⟨hmkdir, hcloud⟩ := hrequest
    rw [installVm_requested hmkdir hcloud]
    by_cases htrap : SetsTrap tools vms outcomes
    · obtain ⟨hannounced, hboot⟩ := installSeeded_setsTrap htrap hsilent
      simp only [hannounced, hboot, InstallsCleanly, hmkdir, hcloud, htrap,
        forall_const, Option.some.injEq, exists_eq_left', getD_whole_iff]
    · have hnone := installSeeded_unannounced htrap hsilent
      refine iff_of_true (fun hannounced => ?_)
        fun _ _ hsets => absurd hsets htrap
      exact absurd (hnone.symm.trans hannounced) Bool.false_ne_true
  · have hnone := installVm_unannounced tools hrequest hsilent
    refine iff_of_true (fun hannounced => ?_)
      fun hmkdir hcloud => absurd ⟨hmkdir, hcloud⟩ hrequest
    exact absurd (hnone.symm.trans hannounced) Bool.false_ne_true

theorem announcesTruly_iff (tools : InstallTools) (vms : Vms)
    (command : VmCommand) :
    AnnouncesTruly tools vms command ↔ InstallsCleanly tools vms command := by
  cases command with
  | start request => exact Iff.rfl
  | install request outcomes =>
      have hsilent :
          Unannounced { vms with boot := none, announced := false } := rfl
      exact installVm_announces_iff tools request outcomes hsilent

/-- In a run of `install` and `start` commands every announced installation
has succeeded exactly if each one that comes to its announcement is clean. -/
theorem installs_announceTruly_iff (tools : InstallTools) (vms : Vms)
    (commands : List VmCommand) :
    (vmMachine tools).Throughout (AnnouncesTruly tools) vms commands ↔
      (vmMachine tools).Throughout (InstallsCleanly tools) vms commands :=
  Machine.throughout_congr (announcesTruly_iff tools) vms commands

/-- An installation of the cloud image that is confirmed at its prompt. -/
def cloudInstall (outcomes : InstallOutcomes) : VmCommand :=
  .install
    { settings := { bareEnvironment with pre := ubuntuCloud }
      answer := some ['y']
      subscript := none }
    outcomes

/-- Every command works but the installer. -/
def brokenInstaller : InstallOutcomes :=
  { smoothOutcomes (fun _ => none) with qemuSystem := false }

/-- The installer exits 1 and the trap removes the seed ISO: what it tests is
the status of the `rm`, and it announces the machine. -/
theorem installs_not_announceTruly :
    ¬ (vmMachine plainInstallTools).Throughout
      (AnnouncesTruly plainInstallTools) noVms
      [cloudInstall brokenInstaller] := by
  intro h
  obtain ⟨boot, hboot, hworked, -⟩ := h.1 (by decide +kernel)
  have hbroken : ((vmMachine plainInstallTools).next noVms
      (cloudInstall brokenInstaller)).boot =
        some ⟨some .whole, some .whole, false⟩ := by
    decide +kernel
  rw [hbroken, Option.some.injEq] at hboot
  rw [← hboot] at hworked
  cases hworked

end Bodhi
