/-
The handlers of dwm and its runs: no step loses a client, and the lists stay
consistent in every state that dwm reaches.
-/
import Bodhi.WindowScreens

namespace Bodhi

namespace Dwm

/-- The windows that ask to be mapped during a drag. -/
def DragStep.mapped : DragStep → List Window
  | .mapRequest w _ => [w]
  | .motion _ => []

def Command.mapped : Command → List Window
  | .movemouse d => d.steps.flatMap DragStep.mapped
  | .resizemouse d => d.steps.flatMap DragStep.mapped
  | _ => []

/-- The windows that ask to be mapped in an event. -/
def Event.mapped : Event → List Window
  | .keyPress bound => bound.flatMap Command.mapped
  | .buttonPress _ bound => bound.flatMap Command.mapped
  | .mapRequest w _ => [w]
  | _ => []

/-- The window that an event reports as gone. -/
def Event.gone : Event → Option Window
  | .destroyNotify w => some w
  | .unmapNotify w sendEvent => if sendEvent then none else some w
  | _ => none

namespace Wm

section Handlers

theorem dragSteps_follows (c : Window) (steps : List DragStep) {s : Wm}
    (h : s.Tidy) :
    s.Follows (steps.foldl (dragStep c) s) (steps.flatMap DragStep.mapped) := by
  induction steps generalizing s with
  | nil => exact h.refl []
  | cons step rest ih =>
      have hone : s.Follows (dragStep c s step) step.mapped := by
        cases step with
        | mapRequest w x => exact mapRequest_follows h w x
        | motion beyondSnap =>
            simp only [dragStep]
            split
            · exact h.quiet (toggleFloating_quiet s) _
            · exact h.refl _
      exact hone.trans (ih hone.tidy) (List.subset_append_left _ _)
        (List.subset_append_right _ _)

theorem drag_follows {s : Wm} (h : s.Tidy) (d : Drag) :
    s.Follows (s.drag d) (d.steps.flatMap DragStep.mapped) := by
  unfold drag
  split
  · exact h.refl _
  · next c hc =>
      split
      · exact h.refl _
      · have hsteps := dragSteps_follows c d.steps h
        generalize d.steps.foldl (dragStep c) s = t at hsteps
        extract_lets t' i
        split
        · exact hsteps
        · have ht := hsteps.tidy
          have hmanages := hsteps.kept c
            (h.consistent.manages_of_sel h.consistent.selmon hc).1
          have hi := rectToMon_lt ht.consistent.selmon d.rect
          have hsent := sendMon_follows ht hmanages hi []
          have hcount : (t.sendMon c i).monCount = t.monCount :=
            sendMon_monCount t c i
          have hfocus := focusOnNone_ordinary hsent.tidy.consistent
            (hcount.symm ▸ hi)
          exact (hsteps.trans hsent (List.Subset.refl _) (List.nil_subset _)).trans
            (hsent.tidy.ordinary hfocus []) (List.Subset.refl _)
            (List.nil_subset _)

theorem command_follows {s : Wm} (h : s.Tidy) (cmd : Command) :
    s.Follows (s.command cmd) cmd.mapped := by
  have hc := h.consistent
  cases cmd with
  | focusstack i => exact h.ordinary (focusStack_ordinary hc i) _
  | movestack i => exact h.quiet (moveStack_quiet hc i) _
  | zoom => exact h.ordinary (zoom_ordinary hc) _
  | view ui => exact h.ordinary (view_ordinary hc ui) _
  | toggleview ui => exact h.ordinary (toggleView_ordinary hc ui) _
  | tag ui => exact h.ordinary (tag_ordinary hc ui) _
  | toggletag ui => exact h.ordinary (toggleTag_ordinary hc ui) _
  | focusmon i => exact h.ordinary (focusMon_ordinary hc i) _
  | tagmon i => exact tagMon_follows h i _
  | setlayout v => exact h.quiet (setLayout_quiet s v) _
  | incnmaster i => exact h.quiet (incNmaster_quiet s i) _
  | setmfact accepted => exact h.quiet (setMfact_quiet s accepted) _
  | setcfact accepted => exact h.quiet (setCfact_quiet s accepted) _
  | togglefloating => exact h.quiet (toggleFloating_quiet s) _
  | togglebar => exact h.quiet (toggleBar_quiet s) _
  | incrgaps i => exact h.quiet (setGaps_quiet s _ _ _ _) _
  | incrigaps i => exact h.quiet (setGaps_quiet s _ _ _ _) _
  | incrogaps i => exact h.quiet (setGaps_quiet s _ _ _ _) _
  | incrohgaps i => exact h.quiet (setGaps_quiet s _ _ _ _) _
  | incrovgaps i => exact h.quiet (setGaps_quiet s _ _ _ _) _
  | incrihgaps i => exact h.quiet (setGaps_quiet s _ _ _ _) _
  | incrivgaps i => exact h.quiet (setGaps_quiet s _ _ _ _) _
  | togglegaps => exact h.quiet (toggleGaps_quiet s) _
  | defaultgaps => exact h.quiet (setGaps_quiet s _ _ _ _) _
  | movemouse d => exact drag_follows h d
  | resizemouse d => exact drag_follows h d
  | spawn => exact h.refl _
  | killclient => exact h.refl _
  | quit =>
      have hquit : s.Quiet { s with running := false } :=
        .of_eq rfl rfl rfl rfl rfl
      exact h.quiet hquit _

theorem runBound_follows (bound : List Command) {s : Wm} (h : s.Tidy) :
    s.Follows (s.runBound bound) (bound.flatMap Command.mapped) := by
  induction bound generalizing s with
  | nil => exact h.refl []
  | cons cmd rest ih =>
      simp only [runBound]
      split
      · exact h.refl _
      · have hone := command_follows h cmd
        exact hone.trans (ih hone.tidy) (List.subset_append_left _ _)
          (List.subset_append_right _ _)

theorem buttonPress_follows {s : Wm} (h : s.Tidy) (at_ : Target)
    (bound : List Command) :
    s.Follows (s.buttonPress at_ bound) (bound.flatMap Command.mapped) := by
  have hc := h.consistent
  unfold buttonPress
  extract_lets i t u
  have ht : s.Ordinary t := by
    unfold t
    split
    · exact focusOnNone_ordinary hc (winToMon_lt hc at_)
    · exact .refl s
  have hu : t.Ordinary u := by
    have hconsistent := hc.ordinary ht
    unfold u
    split
    · next c hclient =>
        refine focus_ordinary hconsistent fun d hd => ?_
        exact targetClient_manages hconsistent at_ d (hd ▸ hclient)
    · exact .refl t
  have hfirst := h.ordinary (ht.trans hu) []
  exact hfirst.trans (runBound_follows bound hfirst.tidy) (List.nil_subset _)
    (List.Subset.refl _)

theorem setFullscreen_quiet (s : Wm) (c : Window) (fullscreen : Bool) :
    s.Quiet (s.setFullscreen c fullscreen) := by
  unfold setFullscreen
  dsimp only
  split
  · exact (Quiet.modClient s c (enterFullscreen_mon _)
      (enterFullscreen_tags _)).trans (resizeClient_quiet _ c)
  · split
    · exact ((Quiet.modClient s c rfl rfl).trans
        (resizeClient_quiet _ c)).trans (arrange_quiet _ _)
    · exact .refl s

theorem updateWindowType_quiet (s : Wm) (c : Window)
    (fullscreen dialog : Bool) :
    s.Quiet (s.updateWindowType c fullscreen dialog) := by
  unfold updateWindowType
  extract_lets t
  have ht : s.Quiet t := by
    unfold t
    split
    · exact setFullscreen_quiet s c true
    · exact .refl s
  split
  · exact ht.trans (.modClient t c rfl rfl)
  · exact ht

/-- No event but the report that a window is gone lets its client go. -/
theorem handle_follows {s : Wm} (h : s.Tidy) (event : Event)
    (hgone : event.gone = none) :
    s.Follows (s.handle event) event.mapped := by
  have hc := h.consistent
  cases event with
  | keyPress bound => exact runBound_follows bound h
  | buttonPress at_ bound => exact buttonPress_follows h at_ bound
  | clientMessageFullscreen w action =>
      simp only [handle]
      split
      · exact h.refl _
      · exact h.quiet (setFullscreen_quiet s _ _) _
  | clientMessageActive w =>
      simp only [handle]
      split
      · exact h.refl _
      · split
        · exact h.refl _
        · exact h.quiet (.modClient s _ rfl rfl) _
  | configureNotify g => exact configureNotify_follows h g
  | destroyNotify w => cases hgone
  | enterNotify passed at_ => exact h.ordinary (enterNotify_ordinary hc _ _) _
  | mapRequest w x => exact mapRequest_follows h w x
  | motionNotify x y => exact h.ordinary (motionNotify_ordinary hc x y) _
  | transientFor w parent =>
      simp only [handle]
      split
      · exact h.refl _
      · split
        · exact h.quiet ((Quiet.modClient s _ rfl rfl).trans
            (arrange_quiet _ _)) _
        · exact h.refl _
  | windowType w fullscreen dialog =>
      simp only [handle]
      split
      · exact h.refl _
      · exact h.quiet (updateWindowType_quiet s _ _ _) _
  | wmHints w hints =>
      simp only [handle]
      split
      · exact h.refl _
      · exact h.quiet (.modClient s _ (updateWmHints_mon _ _ _)
          (updateWmHints_tags _ _ _)) _
  | normalHints w hints =>
      simp only [handle]
      split
      · exact h.refl _
      · exact h.quiet (.modClient s _ rfl rfl) _
  | unmapNotify w sendEvent =>
      simp only [Event.gone] at hgone
      split at hgone
      · next hsend =>
          simp only [handle, hsend]
          split <;> exact h.refl _
      · cases hgone

end Handlers

section Runs

/-- The client of a window that is gone is let go, and no other. -/
theorem handle_gone {s : Wm} (h : s.Tidy) {event : Event} {w : Window}
    (hgone : event.gone = some w) :
    (s.handle event).Tidy ∧
      ∀ d, (s.handle event).Manages d ↔ s.Manages d ∧ d ≠ w := by
  have hlookup : ∀ t : Wm, (s.winToClient w = none → t = s) →
      (∀ c, s.winToClient w = some c → t = s.unmanage c) →
      t.Tidy ∧ ∀ d, t.Manages d ↔ s.Manages d ∧ d ≠ w := by
    intro t hmissing hfound
    cases hw : s.winToClient w with
    | none =>
        obtain rfl := hmissing hw
        refine ⟨h, fun d => ⟨fun hd => ⟨hd, ?_⟩, fun hd => hd.1⟩⟩
        rintro rfl
        have hmem := h.consistent.mem_managed.2 hd
        have hnone := List.find?_eq_none.1 hw d hmem
        simp at hnone
    | some c =>
        obtain ⟨rfl, -⟩ := winToClient_eq_some hw
        exact hfound c hw ▸ unmanage_tidy h.consistent c
  cases event with
  | destroyNotify v =>
      obtain rfl : v = w := Option.some.inj hgone
      apply hlookup
      · intro hw
        simp only [handle, hw]
      · intro c hw
        simp only [handle, hw]
  | unmapNotify v sendEvent =>
      simp only [Event.gone] at hgone
      split at hgone
      · cases hgone
      · next hsend =>
          obtain rfl : v = w := Option.some.inj hgone
          apply hlookup
          · intro hw
            simp only [handle, hw]
          · intro c hw
            simp only [handle, hw, hsend, if_false, Bool.false_eq_true]
  | _ => cases hgone

theorem step_tidy {s : Wm} (h : s.Tidy) (event : Event) :
    (s.step event).Tidy := by
  unfold step
  split
  · cases hgone : event.gone with
    | none => exact (handle_follows h event hgone).tidy
    | some w => exact (handle_gone h hgone).1
  · exact h

/-- Monitors as they are made, before there is any client. -/
structure Blank (s : Wm) : Prop where
  mon : ∀ i < s.monCount, s.mon i = createMon
  netClientList : s.netClientList = []
  selmon : s.selmon = 0

theorem Blank.addMons {s : Wm} (h : s.Blank) (k : Nat) :
    (addMon^[k] s).Blank := by
  induction k generalizing s with
  | zero => exact h
  | succ k ih =>
      apply ih
      refine ⟨fun i hi => ?_, h.netClientList, h.selmon⟩
      rcases Nat.lt_succ_iff_lt_or_eq.1 hi with hlt | rfl
      · exact (Function.update_of_ne (Nat.ne_of_lt hlt) _ _).trans
          (h.mon i hlt)
      · exact Function.update_self _ _ _

theorem Blank.not_manages {s : Wm} (h : s.Blank) (c : Window) :
    ¬ s.Manages c := by
  rintro ⟨hi, hc⟩
  rw [h.mon _ hi] at hc
  cases hc

theorem Blank.tidy {s : Wm} (h : s.Blank) (hpos : 0 < s.monCount) :
    s.Tidy := by
  have hconsistent : s.Consistent := by
    refine ⟨h.selmon ▸ hpos, ?_, ?_, ?_, ?_, ?_, ?_⟩ <;>
      intro i hi <;> rw [h.mon i hi]
    · exact List.nodup_nil
    · exact List.Perm.refl _
    · exact fun _ hmem => nomatch hmem
    · exact fun _ hsel => nomatch hsel
    · exact fun _ => validTags_one
    · exact fun _ hmem => nomatch hmem
  refine ⟨hconsistent, ?_⟩
  have hmanaged : s.managed = [] := by
    rw [List.eq_nil_iff_forall_not_mem]
    exact fun c hc => h.not_manages c (hconsistent.mem_managed.1 hc)
  rw [h.netClientList, hmanaged]

theorem Blank.follows {s t : Wm} (h : s.Blank) (hst : s.Follows t []) :
    t.Tidy ∧ ∀ c, ¬ t.Manages c :=
  ⟨hst.tidy, fun c hc => (hst.added c hc).elim (h.not_manages c)
    (fun hmem => nomatch hmem)⟩

theorem updateMons_blank {s : Wm} (h : s.Blank) (hcount : s.monCount = 0)
    (g : Geometry) :
    (s.updateMons g).1.Tidy ∧ ∀ c, ¬ (s.updateMons g).1.Manages c := by
  cases hscreens : g.screens with
  | none =>
      simp only [updateMons, hscreens, if_pos hcount]
      have hblank := h.addMons 1
      have hone := hblank.tidy
        (by rw [addMons_monCount]; exact Nat.succ_pos _)
      split
      · dsimp only
        exact hblank.follows
          (hone.quiet (.modMon _ _ (.refl _) rfl rfl rfl rfl) [])
      · exact hblank.follows (hone.refl [])
  | some screens =>
      obtain ⟨first, others⟩ := screens
      simp only [updateMons, hscreens, hcount, Nat.sub_zero, Nat.zero_sub]
      have hlen := List.length_pos_iff.2 (uniqueScreens_ne_nil first others)
      have hblank := h.addMons (uniqueScreens (first :: others)).length
      have hgrown := hblank.tidy (by rw [addMons_monCount]; omega)
      refine hblank.follows (placeDrop_follows hgrown 0 _ (k := 0) ?_)
      rw [addMons_monCount]
      omega

/-- Before the first event there is no client and the focus is settled. -/
theorem setup_start (bh : Int) (g : Geometry) :
    ∃ t : Wm, t.Tidy ∧ (∀ c, ¬ t.Manages c) ∧ setup bh g = t.focus none := by
  unfold setup
  extract_lets s
  have hblank : s.Blank :=
    ⟨fun _ hi => absurd hi (Nat.not_lt_zero _), rfl, rfl⟩
  obtain ⟨hmons, hnone⟩ := updateMons_blank hblank rfl g
  refine ⟨_, ?_, ?_, rfl⟩ <;> unfold updateGeom <;> dsimp only <;> split
  · exact (updateGeom_selmon hmons g.pointer).tidy
  · exact hmons
  · exact fun c hc => ((updateGeom_selmon hmons g.pointer).added c hc).elim
      (hnone c) (fun hmem => nomatch hmem)
  · exact hnone

theorem setup_tidy (bh : Int) (g : Geometry) : (setup bh g).Tidy := by
  obtain ⟨t, ht, _, heq⟩ := setup_start bh g
  rw [heq]
  exact (ht.ordinary (focusNone_ordinary ht.consistent) []).tidy

theorem always_tidy {s : Wm} (h : s.Tidy) (events : List Event) :
    machine.Always Tidy s events :=
  Machine.invariant_always (M := machine) (I := Tidy)
    (fun _ event ht => step_tidy ht event) h events

/-- In every state that dwm reaches its lists are consistent, and the list
that it publishes names every client once. -/
theorem setup_always_tidy (bh : Int) (g : Geometry) (events : List Event) :
    machine.Always Tidy (setup bh g) events :=
  always_tidy (setup_tidy bh g) events

theorem step_manages {s : Wm} (h : s.Tidy) (event : Event) (w : Window) :
    (event.gone ≠ some w → s.Manages w → (s.step event).Manages w) ∧
      (w ∉ event.mapped → (s.step event).Manages w → s.Manages w) := by
  unfold step
  split
  · cases hgone : event.gone with
    | none =>
        have hfollows := handle_follows h event hgone
        refine ⟨fun _ hw => hfollows.kept w hw, fun hnew hw => ?_⟩
        exact (hfollows.added w hw).resolve_right hnew
    | some v =>
        have hmanages := (handle_gone h hgone).2 w
        refine ⟨fun hne hw => hmanages.2 ⟨hw, ?_⟩,
          fun _ hw => (hmanages.1 hw).1⟩
        rintro rfl
        exact hne rfl
  · exact ⟨fun _ hw => hw, fun _ hw => hw⟩

theorem after_manages {s : Wm} (h : s.Tidy) (events : List Event)
    (w : Window) :
    ((∀ event ∈ events, event.gone ≠ some w) → s.Manages w →
        (machine.after s events).Manages w) ∧
      ((∀ event ∈ events, w ∉ event.mapped) →
        (machine.after s events).Manages w → s.Manages w) := by
  induction events generalizing s with
  | nil => exact ⟨fun _ hw => hw, fun _ hw => hw⟩
  | cons event rest ih =>
      have hstep := step_manages h event w
      have hrest := ih (step_tidy h event)
      constructor
      · intro hgone hw
        have hfirst := hstep.1 (hgone event List.mem_cons_self) hw
        exact hrest.1 (fun e he => hgone e (List.mem_cons_of_mem _ he)) hfirst
      · intro hmapped hw
        have hfirst := hrest.2
          (fun e he => hmapped e (List.mem_cons_of_mem _ he)) hw
        exact hstep.2 (hmapped event List.mem_cons_self) hfirst

/-- A window that dwm manages stays in one list, once, until it is reported
gone; then it leaves; and only a request to be mapped makes dwm manage it. -/
theorem setup_after_managed (bh : Int) (g : Geometry)
    (first rest : List Event) (w : Window) :
    let s := machine.after (setup bh g) first
    let t := machine.after (setup bh g) (first ++ rest)
    (w ∈ s.managed → (∀ event ∈ rest, event.gone ≠ some w) →
        t.managed.count w = 1) ∧
      (w ∉ s.managed → (∀ event ∈ rest, w ∉ event.mapped) →
        w ∉ t.managed) ∧
      ∀ event, t.running → !t.crashed → event.gone = some w →
        w ∉ (t.step event).managed := by
  intro s t
  have hs : s.Tidy := (always_tidy (setup_tidy bh g) first).last
  have ht : t.Tidy := (always_tidy (setup_tidy bh g) (first ++ rest)).last
  have hsplit : t = machine.after s rest := Machine.after_append _ _ _ _
  have hmanages := after_manages hs rest w
  rw [← hsplit] at hmanages
  refine ⟨fun hw hgone => ?_, fun hw hmapped hmem => ?_,
    fun event hrun hcrash hgone hmem => ?_⟩
  · have hkept := hmanages.1 hgone (hs.consistent.mem_managed.1 hw)
    exact List.count_eq_one_of_mem ht.consistent.managed_nodup
      (ht.consistent.mem_managed.2 hkept)
  · have hadded := hmanages.2 hmapped (ht.consistent.mem_managed.1 hmem)
    exact hw (hs.consistent.mem_managed.2 hadded)
  · have hstep : t.step event = t.handle event := by
      simp only [step, hrun, hcrash, Bool.and_self, if_true]
    obtain ⟨htidy, hgoes⟩ := handle_gone ht hgone
    rw [hstep, htidy.consistent.mem_managed, hgoes] at hmem
    exact hmem.2 rfl

end Runs

end Wm

end Dwm

end Bodhi
