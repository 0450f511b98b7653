/-
What the user sees of dwm over whole runs: the selected monitor selects the
client in view that was selected last, and the windows on the screen are the
clients in view.
-/
import Bodhi.WindowRuns

namespace Bodhi

namespace Dwm

namespace Wm

/-- On the monitor the last moves have left the clients in view, and only
them, on the screen. -/
def ShownOn (s : Wm) (i : Nat) : Prop :=
  ∀ c ∈ (s.mon i).clients, s.shown c = s.isVisible c

def Shown (s : Wm) : Prop := ∀ i < s.monCount, s.ShownOn i

/-- A step that spoils neither the focus nor the screen. -/
structure Presents (s t : Wm) : Prop where
  focused : s.Focused → t.Focused
  shown : s.Shown → t.Shown

theorem Presents.refl (s : Wm) : s.Presents s := ⟨id, id⟩

theorem Presents.trans {s t u : Wm} (hst : s.Presents t)
    (htu : t.Presents u) : s.Presents u :=
  ⟨fun h => htu.focused (hst.focused h), fun h => htu.shown (hst.shown h)⟩

section Quiet

variable {s t : Wm} (h : s.Quiet t)

include h

theorem Quiet.focused (hfocused : s.Focused) : t.Focused := by
  rw [Focused, h.selmon, h.sel, h.stack, h.isVisible]
  exact hfocused

theorem Quiet.shownOn (hshown : t.shown = s.shown) {i : Nat}
    (hs : s.ShownOn i) : t.ShownOn i := by
  intro c hc
  rw [hshown, h.isVisible]
  exact hs c ((h.clients i).mem_iff.1 hc)

theorem Quiet.presents (hshown : t.shown = s.shown) : s.Presents t :=
  ⟨h.focused, fun hs i hi => h.shownOn hshown (hs i (h.monCount ▸ hi))⟩

end Quiet

section Arrange

theorem showHide_apply (s : Wm) (stack : List Window)
    (shown : Window → Bool) (c : Window) :
    s.showHide stack shown c =
      if c ∈ stack then s.isVisible c else shown c := by
  induction stack generalizing shown with
  | nil => simp [showHide]
  | cons d rest ih =>
      by_cases hd : s.isVisible d
      · by_cases hc : c = d
        · subst hc
          simp [showHide, hd, ih]
        · simp [showHide, hd, ih, hc]
      · by_cases hc : c = d
        · simp [showHide, hd, hc]
        · simp [showHide, hd, ih, hc]

theorem arrange_shown (s : Wm) (i : Nat) (c : Window) :
    (s.arrange i).shown c =
      if c ∈ (s.mon i).stack then s.isVisible c else s.shown c :=
  showHide_apply s _ _ c

theorem arrange_presents (s : Wm) (i : Nat) : s.Presents (s.arrange i) := by
  refine ⟨(arrange_quiet s i).focused, fun hs j hj c hc => ?_⟩
  rw [arrange_shown]
  split
  · rfl
  · exact hs j hj c hc

theorem arrangeAll_presents (s : Wm) : s.Presents s.arrangeAll := by
  have hfold : ∀ (is : List Nat) (t : Wm), t.Presents (is.foldl arrange t) := by
    intro is
    induction is with
    | nil => exact Presents.refl
    | cons i is ih => exact fun t => (arrange_presents t i).trans (ih _)
  exact hfold _ s

theorem foldl_arrange_shown (is : List Nat) (s : Wm) (c : Window)
    (h : s.shown c = s.isVisible c ∨ ∃ i ∈ is, c ∈ (s.mon i).stack) :
    (is.foldl arrange s).shown c = s.isVisible c := by
  induction is generalizing s with
  | nil =>
      rcases h with heq | ⟨i, hi, _⟩
      · exact heq
      · cases hi
  | cons i is ih =>
      have hvisible := (arrange_quiet s i).isVisible
      rw [List.foldl_cons, ← hvisible]
      apply ih
      rw [hvisible]
      by_cases hc : c ∈ (s.mon i).stack
      · exact Or.inl ((arrange_shown s i c).trans (if_pos hc))
      · refine h.imp (fun heq => ?_) fun hlater => ?_
        · rw [arrange_shown, if_neg hc, heq]
        · obtain ⟨j, hj, hmem⟩ := hlater
          rcases List.mem_cons.1 hj with rfl | hrest
          · exact absurd hmem hc
          · exact ⟨j, hrest, hmem⟩

variable {s : Wm} (h : s.Consistent)

include h

/-- Arranging one monitor makes up for what has changed on it. -/
theorem arrange_shown_of_others {i : Nat} (hi : i < s.monCount)
    (hothers : ∀ j < s.monCount, j ≠ i → s.ShownOn j) :
    (s.arrange i).Shown := by
  intro j hj c hc
  rw [arrange_shown]
  split
  · rfl
  · next hstack =>
      refine hothers j hj (fun hji => hstack ?_) c hc
      exact (h.perm i hi).mem_iff.2 (hji ▸ hc)

theorem arrangeAll_shown : s.arrangeAll.Shown := by
  have hquiet := arrangeAll_quiet s
  intro i hi c hc
  rw [hquiet.monCount] at hi
  rw [hquiet.isVisible]
  have hstack := (h.perm i hi).mem_iff.2 ((hquiet.clients i).mem_iff.1 hc)
  exact foldl_arrange_shown _ s c
    (Or.inr ⟨i, List.mem_range.2 hi, hstack⟩)

end Arrange

section Focus

variable {s : Wm} (h : s.Consistent)

include h

theorem focus_shownOn {target : Option Window}
    (htarget : ∀ c, target = some c → s.Manages c) {i : Nat}
    (hs : s.ShownOn i) : (s.focus target).ShownOn i := by
  intro c hc
  rw [focus_shown h htarget, focus_isVisible h htarget]
  exact hs c (((focus_ordinary h htarget).clients i).mem_iff.1 hc)

theorem focus_presents {target : Option Window}
    (htarget : ∀ c, target = some c → s.Manages c) :
    s.Presents (s.focus target) := by
  refine ⟨fun _ => focus_focused h htarget, fun hs i hi => ?_⟩
  rw [focus_monCount] at hi
  exact focus_shownOn h htarget (hs i hi)

theorem focusNone_shownOn {i : Nat} (hs : s.ShownOn i) :
    (s.focus none).ShownOn i := by
  apply focus_shownOn h _ hs
  exact fun _ hc => nomatch hc

theorem focusNone_presents : s.Presents (s.focus none) :=
  focus_presents h fun _ hc => nomatch hc

theorem focusNone_selmon : (s.focus none).selmon = s.selmon := by
  unfold focus
  dsimp only
  split
  · next c hc =>
      have hmem : c ∈ (s.mon s.selmon).stack := by
        rw [Option.filter_none, Option.none_or] at hc
        exact List.mem_of_find?_eq_some hc
      exact h.owner _ h.selmon c ((h.perm _ h.selmon).mem_iff.1 hmem)
  · rfl

/-- After a change on the selected monitor the focus is settled and the
monitor is arranged. -/
theorem focusArrange_presents {t : Wm} (hst : s.Ordinary t)
    (hselmon : t.selmon = s.selmon) (hshown : t.shown = s.shown)
    (hothers : ∀ c, (s.client c).mon ≠ s.selmon →
      t.isVisible c = s.isVisible c) :
    s.Presents ((t.focus none).arrange (t.focus none).selmon) := by
  have ht := h.ordinary hst
  have hfocus := focusNone_ordinary ht
  have hfocused := ht.ordinary hfocus
  refine ⟨fun _ => (arrange_quiet _ _).focused (focusNone_focused ht),
    fun hs => ?_⟩
  refine arrange_shown_of_others hfocused hfocused.selmon fun j hj hne => ?_
  rw [focusNone_selmon ht, hselmon] at hne
  rw [focus_monCount, hst.monCount] at hj
  refine focusNone_shownOn ht fun c hc => ?_
  have hmem := (hst.clients j).mem_iff.1 hc
  have howner := h.owner j hj c hmem
  rw [hshown, hothers c (howner ▸ hne)]
  exact hs j hj c hmem

end Focus

section Commands

variable {s : Wm} (h : s.Consistent)

theorem isVisible_modMon_of_ne (s : Wm) {i : Nat} (f : Monitor → Monitor)
    {c : Window} (hc : (s.client c).mon ≠ i) :
    (s.modMon i f).isVisible c = s.isVisible c := by
  rw [isVisible, isVisible, modMon_client, modMon_mon_of_ne s f hc]

include h

theorem view_presents (ui : Tags) : s.Presents (s.view ui) := by
  unfold view
  split
  · exact .refl s
  · exact focusArrange_presents h (otherView_ordinary s ui) rfl rfl
      fun c hc => isVisible_modMon_of_ne s _ hc

theorem toggleView_presents (ui : Tags) : s.Presents (s.toggleView ui) := by
  unfold toggleView
  dsimp only
  split
  · exact .refl s
  · next hnew =>
      have hview := h.tagset _ h.selmon (s.mon s.selmon).seltags
      exact focusArrange_presents h
        (setView_ordinary s (validTags_toggle hview hnew)) rfl rfl
        fun c hc => isVisible_modMon_of_ne s _ hc

theorem retag_presents {newtags : Tags} (hnew : ValidTags newtags)
    {c : Window} (hc : (s.client c).mon = s.selmon) :
    s.Presents (s.retag c newtags) := by
  refine focusArrange_presents h (setTags_ordinary s hnew c) rfl rfl
    fun d hd => ?_
  have hne : d ≠ c := fun heq => hd (heq ▸ hc)
  rw [isVisible, isVisible, modClient_client_of_ne s _ hne, modClient_mon]

theorem tag_presents (ui : Tags) : s.Presents (s.tag ui) := by
  unfold tag
  split
  · exact .refl s
  · next c hc =>
      split
      · exact .refl s
      · next hui =>
          have howner := (h.manages_of_sel h.selmon hc).2
          exact retag_presents h (validTags_mask hui) howner

theorem toggleTag_presents (ui : Tags) : s.Presents (s.toggleTag ui) := by
  unfold toggleTag
  split
  · exact .refl s
  · next c hc =>
      dsimp only
      split
      · exact .refl s
      · next hnew =>
          have htags := h.tags _ h.selmon c (h.sel _ h.selmon c hc)
          exact retag_presents h (validTags_toggle htags hnew)
            (h.manages_of_sel h.selmon hc).2

theorem focusStack_presents (dir : Int) : s.Presents (s.focusStack dir) := by
  unfold focusStack
  split
  · exact .refl s
  · split
    · exact .refl s
    · split
      · exact .refl s
      · next c hc =>
          refine focus_presents h fun d hd => ?_
          obtain rfl : c = d := Option.some.inj hd
          exact h.manages h.selmon (neighbour_eq_some hc).1

end Commands

section Layouts

variable (s : Wm)

theorem Quiet.arrange_presents {t : Wm} (h : s.Quiet t)
    (hshown : t.shown = s.shown) (i : Nat) : s.Presents (t.arrange i) :=
  (h.presents hshown).trans (Wm.arrange_presents t i)

theorem setLayout_presents (v : Option Layout) :
    s.Presents (s.setLayout v) := by
  unfold setLayout
  extract_lets m sellt t
  have hwrite : s.Quiet t := .modMon s _ (.refl _) rfl rfl rfl rfl
  split
  · exact hwrite.arrange_presents s rfl _
  · exact hwrite.presents rfl

theorem incNmaster_presents (i : Int) : s.Presents (s.incNmaster i) :=
  (Quiet.modMon s _ (.refl _) rfl rfl rfl rfl).arrange_presents s rfl _

theorem setMfact_presents (accepted : Bool) :
    s.Presents (s.setMfact accepted) := by
  unfold setMfact
  split
  · exact arrange_presents s _
  · exact .refl s

theorem setCfact_presents (accepted : Bool) :
    s.Presents (s.setCfact accepted) := by
  unfold setCfact
  dsimp only
  split
  · exact arrange_presents s _
  · exact .refl s

theorem toggleFloating_presents : s.Presents s.toggleFloating := by
  unfold toggleFloating
  split
  · exact .refl s
  · dsimp only
    split
    · exact .refl s
    · exact (Quiet.modClient s _ rfl rfl).arrange_presents s rfl _

theorem toggleBar_presents : s.Presents s.toggleBar :=
  (Quiet.modMon s _ (.refl _) rfl rfl rfl rfl).arrange_presents s rfl _

theorem setGaps_presents (oh ov ih iv : Int) :
    s.Presents (s.setGaps oh ov ih iv) :=
  (Quiet.modMon s _ (.refl _) rfl rfl rfl rfl).arrange_presents s rfl _

theorem toggleGaps_presents : s.Presents s.toggleGaps := by
  have hwrite : s.Quiet { s with enablegaps := !s.enablegaps } :=
    .of_eq rfl rfl rfl rfl rfl
  exact (hwrite.presents rfl).trans (arrangeAll_presents _)

end Layouts

section Order

variable {s : Wm} (h : s.Consistent)

include h

theorem pop_presents {c : Window} (hc : s.Manages c) :
    s.Presents (s.pop c) := by
  have hperm := (List.perm_cons_erase hc.2).symm
  have hfront : s.Quiet ((s.detach c).attach c) := by
    rw [detach_attach]
    exact .modMon s _ hperm rfl rfl rfl rfl
  have hconsistent := h.ordinary hfront.ordinary
  refine (hfront.presents rfl).trans
    ((focus_presents hconsistent ?_).trans (arrange_presents _ _))
  intro d hd
  obtain rfl : c = d := Option.some.inj hd
  exact (hfront.ordinary.manages c).2 hc

theorem zoom_presents : s.Presents s.zoom := by
  unfold zoom
  dsimp only
  split
  · exact .refl s
  · next c hc =>
      split
      · exact .refl s
      · split
        · split
          · exact .refl s
          · next d hd =>
              have hrest : ((s.mon s.selmon).clients.dropWhile (· != c)).tail
                  ⊆ (s.mon s.selmon).clients := fun x hx =>
                (List.dropWhile_suffix _).subset (List.mem_of_mem_tail hx)
              exact pop_presents h (h.manages h.selmon
                (hrest (List.mem_of_find?_eq_some hd)))
        · exact pop_presents h (h.manages_of_sel h.selmon hc).1

theorem moveStack_presents (dir : Int) : s.Presents (s.moveStack dir) := by
  unfold moveStack
  dsimp only
  split
  · split
    · have hcrash : s.Quiet { s with crashed := true } :=
        .of_eq rfl rfl rfl rfl rfl
      exact hcrash.presents rfl
    · exact .refl s
  · next sel hsel =>
      split
      · exact .refl s
      · next c hc =>
          split
          · exact .refl s
          · have hperm := swapClients_perm (h.nodup _ h.selmon)
              (h.sel _ h.selmon _ hsel) (neighbour_eq_some hc).1
            exact (Quiet.modMon s _ hperm rfl rfl rfl rfl).arrange_presents s
              rfl _

end Order

section Monitors

variable {s : Wm} (h : s.Consistent)

include h

theorem focusOn_presents {i : Nat} (hi : i < s.monCount)
    {target : Option Window} (htarget : ∀ c, target = some c → s.Manages c) :
    s.Presents ({ s with selmon := i }.focus target) := by
  have hmove : Consistent { s with selmon := i } := { h with selmon := hi }
  refine ⟨fun _ => focus_focused hmove htarget, fun hs j hj => ?_⟩
  rw [focus_monCount] at hj
  exact focus_shownOn hmove htarget (hs j hj)

theorem focusOnNone_presents {i : Nat} (hi : i < s.monCount) :
    s.Presents ({ s with selmon := i }.focus none) :=
  focusOn_presents h hi fun _ hc => nomatch hc

theorem focusMon_presents (dir : Int) : s.Presents (s.focusMon dir) := by
  unfold focusMon
  split
  · exact .refl s
  · split
    · exact .refl s
    · exact focusOnNone_presents h (dirToMon_lt h dir)

theorem sendMon_presents (c : Window) {i : Nat} (hi : i < s.monCount) :
    s.Presents (s.sendMon c i) := by
  unfold sendMon
  split
  · exact .refl s
  · have hmoved := sendMon_moved h c hi
    have hconsistent := (h.leaves (detachStack_detach_leaves h)).enters hmoved
    have hfocused := focusNone_ordinary hconsistent
    refine ⟨fun _ => ?_, fun _ => ?_⟩
    · exact (arrangeAll_quiet _).focused (focusNone_focused hconsistent)
    · exact arrangeAll_shown (hconsistent.ordinary hfocused)

theorem tagMon_presents (dir : Int) : s.Presents (s.tagMon dir) := by
  unfold tagMon
  split
  · exact .refl s
  · split
    · exact .refl s
    · exact sendMon_presents h _ (dirToMon_lt h dir)

end Monitors

section Moves

variable {s t : Wm} {c : Window}

/-- The other monitors look as before when a client has left. -/
theorem Leaves.shownOn (hst : s.Leaves t c) {i : Nat} (hi : i < s.monCount)
    (hs : s.ShownOn i) : t.ShownOn i := by
  intro d hd
  rw [hst.clients i hi] at hd
  have hvisible : t.isVisible d = s.isVisible d := by
    rw [isVisible, isVisible, Monitor.view, Monitor.view, hst.client,
      hst.tagset, hst.seltags]
  rw [hst.shown, hvisible]
  exact hs d (List.mem_of_mem_erase hd)

/-- The other monitors look as before when a client has been entered. -/
theorem Enters.shownOn {i j : Nat} (hst : s.Enters t c i)
    (hj : j < s.monCount) (hne : j ≠ i) (hs : s.ShownOn j) :
    t.ShownOn j := by
  intro d hd
  rw [hst.clients j hne] at hd
  have hdc : d ≠ c := fun heq => hst.fresh j hj (heq ▸ hd)
  have hvisible : t.isVisible d = s.isVisible d := by
    rw [isVisible, isVisible, Monitor.view, Monitor.view, hst.client d hdc,
      hst.tagset, hst.seltags]
  rw [hst.shown, hvisible]
  exact hs d hd

variable (h : s.Consistent)

include h

theorem manage_presents {w : Window} (hw : w ∉ s.managed) (x : WindowInfo) :
    s.Presents (s.manage w x) := by
  obtain ⟨t, hst, heq⟩ := manage_entered h hw x
  have hstart : Consistent { s with
      shown := Function.update s.shown w false
      netClientList := s.netClientList ++ [w] } := { h with }
  have ht := hstart.enters hst
  have hquiet := arrange_quiet t (s.newClient x).mon
  have harranged := ht.ordinary hquiet.ordinary
  rw [heq]
  refine ⟨fun _ => focusNone_focused harranged,
    fun hs => (focusNone_presents harranged).shown ?_⟩
  refine arrange_shown_of_others ht (hst.monCount ▸ hst.target)
    fun j hj hne => ?_
  rw [hst.monCount] at hj
  refine hst.shownOn hj hne fun d hd => ?_
  have hdw : d ≠ w := fun heq => hst.fresh j hj (heq ▸ hd)
  change Function.update s.shown w false d = s.isVisible d
  rw [Function.update_of_ne hdw]
  exact hs j hj d hd

theorem mapRequest_presents (w : Window) (x : WindowInfo) :
    s.Presents (s.mapRequest w x) := by
  unfold mapRequest
  split
  · exact .refl s
  · split
    · exact .refl s
    · next hnone =>
        refine manage_presents h (fun hmem => hnone ?_) x
        exact List.find?_isSome.2 ⟨w, hmem, beq_self_eq_true w⟩

theorem unmanage_presents (hc : s.Manages c) : s.Presents (s.unmanage c) := by
  have hleaves := detachStack_detach_leaves h (c := c)
  have hremoved := h.leaves hleaves
  have hfocused := hremoved.ordinary (focusNone_ordinary hremoved)
  have hlisted : Consistent { ((s.detach c).detachStack c).focus none with
      netClientList := (((s.detach c).detachStack c).focus none).managed } :=
    { hfocused with }
  have hfocus := focusNone_focused hremoved
  refine ⟨fun _ => (arrange_quiet _ _).focused hfocus, fun hs => ?_⟩
  have hcount := focus_monCount ((s.detach c).detachStack c) none
  refine arrange_shown_of_others hlisted (hcount.symm ▸ hc.1)
    fun j hj _ => ?_
  have hlt : j < s.monCount := hcount ▸ hj
  exact focusNone_shownOn hremoved (hleaves.shownOn hlt (hs j hlt))

end Moves

section Pointer

variable {s : Wm}

theorem enterNotify_presents (h : s.Consistent) (passed : Bool)
    (at_ : Target) : s.Presents (s.enterNotify passed at_) := by
  have htarget := targetClient_manages h at_
  unfold enterNotify
  extract_lets onRoot c i
  split
  · exact .refl s
  · split
    · exact focusOn_presents h (winToMon_lt h at_) htarget
    · split
      · exact .refl s
      · exact focus_presents h htarget

theorem motionNotify_presents (h : s.Consistent) (x y : Int) :
    s.Presents (s.motionNotify x y) := by
  unfold motionNotify
  extract_lets i moved t
  have hfocused : s.Presents t := by
    unfold t
    split
    · exact focusOnNone_presents h (rectToMon_lt h.selmon _)
    · exact .refl s
  have hpointed : t.Quiet { t with pointed := some i } :=
    .of_eq rfl rfl rfl rfl rfl
  exact hfocused.trans (hpointed.presents rfl)

theorem dragSteps_presents (c : Window) (steps : List DragStep) {s : Wm}
    (h : s.Tidy) : s.Presents (steps.foldl (dragStep c) s) := by
  induction steps generalizing s with
  | nil => exact .refl s
  | cons step rest ih =>
      have hnext := (dragSteps_follows c [step] h).tidy
      have hone : s.Presents (dragStep c s step) := by
        cases step with
        | mapRequest w x => exact mapRequest_presents h.consistent w x
        | motion beyondSnap =>
            simp only [dragStep]
            split
            · exact toggleFloating_presents s
            · exact .refl s
      exact hone.trans (ih hnext)

theorem drag_presents (h : s.Tidy) (d : Drag) : s.Presents (s.drag d) := by
  unfold drag
  split
  · exact .refl s
  · next c hc =>
      split
      · exact .refl s
      · have hsteps := dragSteps_presents c d.steps h
        have hfollows := dragSteps_follows c d.steps h
        generalize d.steps.foldl (dragStep c) s = t at hsteps hfollows
        extract_lets t' i
        split
        · exact hsteps
        · have ht := hfollows.tidy
          have hi := rectToMon_lt ht.consistent.selmon d.rect
          have hmanages := hfollows.kept c
            (h.consistent.manages_of_sel h.consistent.selmon hc).1
          have hsent := (sendMon_follows ht hmanages hi []).tidy.consistent
          have hcount : (t.sendMon c i).monCount = t.monCount :=
            sendMon_monCount t c i
          exact hsteps.trans ((sendMon_presents ht.consistent c hi).trans
            (focusOnNone_presents hsent (hcount.symm ▸ hi)))

theorem command_presents (h : s.Tidy) (cmd : Command) :
    s.Presents (s.command cmd) := by
  have hc := h.consistent
  cases cmd with
  | focusstack i => exact focusStack_presents hc i
  | movestack i => exact moveStack_presents hc i
  | zoom => exact zoom_presents hc
  | view ui => exact view_presents hc ui
  | toggleview ui => exact toggleView_presents hc ui
  | tag ui => exact tag_presents hc ui
  | toggletag ui => exact toggleTag_presents hc ui
  | focusmon i => exact focusMon_presents hc i
  | tagmon i => exact tagMon_presents hc i
  | setlayout v => exact setLayout_presents s v
  | incnmaster i => exact incNmaster_presents s i
  | setmfact accepted => exact setMfact_presents s accepted
  | setcfact accepted => exact setCfact_presents s accepted
  | togglefloating => exact toggleFloating_presents s
  | togglebar => exact toggleBar_presents s
  | incrgaps i => exact setGaps_presents s _ _ _ _
  | incrigaps i => exact setGaps_presents s _ _ _ _
  | incrogaps i => exact setGaps_presents s _ _ _ _
  | incrohgaps i => exact setGaps_presents s _ _ _ _
  | incrovgaps i => exact setGaps_presents s _ _ _ _
  | incrihgaps i => exact setGaps_presents s _ _ _ _
  | incrivgaps i => exact setGaps_presents s _ _ _ _
  | togglegaps => exact toggleGaps_presents s
  | defaultgaps => exact setGaps_presents s _ _ _ _
  | movemouse d => exact drag_presents h d
  | resizemouse d => exact drag_presents h d
  | spawn => exact .refl s
  | killclient => exact .refl s
  | quit =>
      have hquit : s.Quiet { s with running := false } :=
        .of_eq rfl rfl rfl rfl rfl
      exact hquit.presents rfl

theorem runBound_presents (bound : List Command) {s : Wm} (h : s.Tidy) :
    s.Presents (s.runBound bound) := by
  induction bound generalizing s with
  | nil => exact .refl s
  | cons cmd rest ih =>
      simp only [runBound]
      split
      · exact .refl s
      · exact (command_presents h cmd).trans (ih (command_follows h cmd).tidy)

theorem buttonPress_presents (h : s.Tidy) (at_ : Target)
    (bound : List Command) : s.Presents (s.buttonPress at_ bound) := by
  have hc := h.consistent
  unfold buttonPress
  extract_lets i t u
  have ht : s.Presents t ∧ s.Ordinary t := by
    unfold t
    split
    · have hi := winToMon_lt hc at_
      exact ⟨focusOnNone_presents hc hi, focusOnNone_ordinary hc hi⟩
    · exact ⟨.refl s, .refl s⟩
  have hu : t.Presents u ∧ t.Ordinary u := by
    have hconsistent := hc.ordinary ht.2
    unfold u
    split
    · next c hclient =>
        have htarget : ∀ d, some c = some d → t.Manages d := fun d hd =>
          targetClient_manages hconsistent at_ d (hd ▸ hclient)
        exact ⟨focus_presents hconsistent htarget,
          focus_ordinary hconsistent htarget⟩
    · exact ⟨.refl t, .refl t⟩
  have hfirst := (h.ordinary (ht.2.trans hu.2) []).tidy
  exact ht.1.trans (hu.1.trans (runBound_presents bound hfirst))

end Pointer

section Screens

/-- The selected monitor has no screen any more, though the display has kept
its size. -/
def SilentDrop (s : Wm) : Event → Prop
  | .configureNotify g => s.sw = g.width ∧ s.sh = g.height ∧
      ∃ first others, g.screens = some (first, others) ∧
        (uniqueScreens (first :: others)).length ≤ s.selmon
  | _ => False

/-- Either the screens are arranged anew, or at most monitors without clients
have gone. -/
theorem configureNotify_cases {s : Wm} (h : s.Tidy) (g : Geometry) :
    (∃ t : Wm, t.Consistent ∧ s.configureNotify g =
        (t.focus none).arrangeAll) ∨
      s.sw = g.width ∧ s.sh = g.height ∧ ∃ k selmon,
        s.configureNotify g =
          { s with monCount := s.monCount - k, selmon := selmon } ∧
        (s.selmon < s.monCount - k → selmon = s.selmon) ∧
        (g.screens = none → k = 0) ∧
        ∀ first others, g.screens = some (first, others) →
          s.monCount - k = (uniqueScreens (first :: others)).length := by
  have hsize : s.Quiet { s with sw := g.width, sh := g.height } :=
    .of_eq rfl rfl rfl rfl rfl
  have hfirst := h.quiet hsize []
  have hgeom := (updateGeom_follows hfirst.tidy g).tidy
  unfold configureNotify
  extract_lets dirty t u v
  split
  · have hresized : u.Quiet v := .of_eq rfl rfl rfl rfl rfl
    exact Or.inl ⟨v, hgeom.consistent.ordinary hresized.ordinary, rfl⟩
  · next hclean =>
      have hw : s.sw = g.width := by
        by_contra hne
        exact hclean (Or.inr (Or.inl hne))
      have hh : s.sh = g.height := by
        by_contra hne
        exact hclean (Or.inr (Or.inr hne))
      have hsame : { s with sw := g.width, sh := g.height } = s := by
        rw [← hw, ← hh]
      have hflag : (s.updateGeom g).2 = false := by
        rw [← hsame]
        exact Bool.eq_false_iff.2 fun heq => hclean (Or.inl heq)
      have hmons : s.updateGeom g = s.updateMons g ∧
          (s.updateMons g).2 = false := by
        unfold updateGeom at hflag ⊢
        dsimp only at hflag ⊢
        split at hflag
        · cases hflag
        · next hdown =>
            exact ⟨if_neg hdown, hflag⟩
      refine Or.inr ⟨hw, hh, ?_⟩
      have ht : t = s.updateGeom g := congrArg (updateGeom · g) hsame
      rw [ht, hmons.1]
      exact updateMons_clean h.consistent hmons.2

theorem configureNotify_shown {s : Wm} (h : s.Tidy) (g : Geometry)
    (hs : s.Shown) : (s.configureNotify g).Shown := by
  rcases configureNotify_cases h g with
    ⟨t, ht, heq⟩ | ⟨_, _, k, selmon, heq, _⟩
  · rw [heq]
    exact arrangeAll_shown (ht.ordinary (focusNone_ordinary ht))
  · rw [heq]
    exact fun i hi => hs i (Nat.lt_of_lt_of_le hi (Nat.sub_le _ _))

theorem configureNotify_focused {s : Wm} (h : s.Tidy) (g : Geometry)
    (hkept : ¬ s.SilentDrop (.configureNotify g)) (hs : s.Focused) :
    (s.configureNotify g).Focused := by
  rcases configureNotify_cases h g with
    ⟨t, ht, heq⟩ | ⟨hw, hh, k, selmon, heq, hsel, hnone, hlen⟩
  · rw [heq]
    exact (arrangeAll_quiet _).focused (focusNone_focused ht)
  · have hselmon : selmon = s.selmon := by
      apply hsel
      cases hscreens : g.screens with
      | none =>
          rw [hnone hscreens]
          exact h.consistent.selmon
      | some screens =>
          rw [hlen screens.1 screens.2 hscreens]
          exact Nat.lt_of_not_le fun hle =>
            hkept ⟨hw, hh, screens.1, screens.2, hscreens, hle⟩
    rw [heq, hselmon]
    exact hs

end Screens

section Fullscreen

/-- The event puts a client to fullscreen that is not in view. -/
def Surfaces (s : Wm) : Event → Prop
  | .clientMessageFullscreen w action => (action = 1 ∨ action = 2) ∧
      w ∈ s.managed ∧ !s.isVisible w ∧ !(s.client w).isfullscreen
  | .windowType w fullscreen _ => fullscreen ∧
      w ∈ s.managed ∧ !s.isVisible w ∧ !(s.client w).isfullscreen
  | _ => False

theorem Quiet.symm {s t : Wm} (h : s.Quiet t) : t.Quiet s where
  monCount := h.monCount.symm
  netClientList := h.netClientList.symm
  selmon := h.selmon.symm
  clients i := (h.clients i).symm
  stack i := (h.stack i).symm
  sel i := (h.sel i).symm
  tagset i := (h.tagset i).symm
  seltags i := (h.seltags i).symm
  owner c := (h.owner c).symm
  tags c := (h.tags c).symm

theorem Quiet.shown_iff {s t : Wm} (h : s.Quiet t)
    (hshown : t.shown = s.shown) : t.Shown ↔ s.Shown :=
  ⟨(h.symm.presents hshown.symm).shown, (h.presents hshown).shown⟩

theorem resizeClient_shown_iff {s : Wm} {c : Window} (hc : s.Manages c)
    (hs : s.Shown) : (s.resizeClient c).Shown ↔ s.isVisible c := by
  constructor
  · intro hresized
    have hat := hresized _ hc.1 c hc.2
    rw [(resizeClient_quiet s c).isVisible] at hat
    rw [← hat]
    exact Function.update_self c true s.shown
  · intro hvisible i hi d hd
    rw [(resizeClient_quiet s c).isVisible]
    change Function.update s.shown c true d = s.isVisible d
    by_cases hdc : d = c
    · rw [hdc, Function.update_self, hvisible]
    · rw [Function.update_of_ne hdc]
      exact hs i hi d hd

variable {s : Wm} (h : s.Consistent)

include h

theorem setFullscreen_shown_iff {c : Window} (hc : s.Manages c)
    (hs : s.Shown) (fullscreen : Bool) :
    (s.setFullscreen c fullscreen).Shown ↔
      ¬ (fullscreen ∧ !s.isVisible c ∧ !(s.client c).isfullscreen) := by
  unfold setFullscreen
  dsimp only
  split
  · next hon =>
      obtain ⟨hfull, hnot⟩ := Bool.and_eq_true_iff.1 hon
      have hquiet : s.Quiet (s.modClient c enterFullscreen) :=
        .modClient s c (enterFullscreen_mon _) (enterFullscreen_tags _)
      rw [resizeClient_shown_iff
        ((hquiet.ordinary.manages c).2 hc) ((hquiet.shown_iff rfl).2 hs),
        hquiet.isVisible]
      simp only [hfull, hnot, and_true, true_and]
      cases s.isVisible c <;> simp
  · next hoff =>
      have hkept : ¬ (fullscreen ∧ !s.isVisible c ∧
          !(s.client c).isfullscreen) := fun hall =>
        hoff (Bool.and_eq_true_iff.2 ⟨hall.1, hall.2.2⟩)
      refine iff_of_true ?_ hkept
      split
      · have hquiet : s.Quiet (s.modClient c fun client => { client with
            isfullscreen := false, isfloating := client.oldstate }) :=
          .modClient s c rfl rfl
        have hresized := hquiet.trans (resizeClient_quiet _ c)
        refine arrange_shown_of_others (h.ordinary hresized.ordinary) hc.1
          fun j hj hne => ?_
        intro d hd
        have hmem := (hresized.clients j).mem_iff.1 hd
        have hdc : d ≠ c := fun heq => hne
          ((h.owner j hj d hmem).symm.trans (heq ▸ rfl))
        rw [hresized.isVisible]
        change Function.update s.shown c true d = s.isVisible d
        rw [Function.update_of_ne hdc]
        exact hs j hj d hmem
      · exact hs

theorem updateWindowType_shown_iff {c : Window} (hc : s.Manages c)
    (hs : s.Shown) (fullscreen dialog : Bool) :
    (s.updateWindowType c fullscreen dialog).Shown ↔
      ¬ (fullscreen ∧ !s.isVisible c ∧ !(s.client c).isfullscreen) := by
  unfold updateWindowType
  extract_lets t
  have ht : t.Shown ↔
      ¬ (fullscreen ∧ !s.isVisible c ∧ !(s.client c).isfullscreen) := by
    unfold t
    split
    · next hfull =>
        rw [setFullscreen_shown_iff h hc hs, hfull]
    · next hfull => exact iff_of_true hs fun hall => hfull hall.1
  split
  · exact ((Quiet.modClient t c rfl rfl).shown_iff rfl).trans ht
  · exact ht

end Fullscreen

section Runs

variable {s : Wm} (h : s.Tidy)

include h

theorem winToClient_isSome {w : Window} :
    s.winToClient w = none ∧ w ∉ s.managed ∨
      s.winToClient w = some w ∧ s.Manages w := by
  cases hw : s.winToClient w with
  | none =>
      refine Or.inl ⟨rfl, fun hmem => ?_⟩
      exact absurd (beq_self_eq_true w) (List.find?_eq_none.1 hw w hmem)
  | some c =>
      obtain ⟨rfl, hmem⟩ := winToClient_eq_some hw
      exact Or.inr ⟨rfl, h.consistent.mem_managed.1 hmem⟩

/-- The events that neither bring a screen nor make a client fullscreen. -/
theorem handle_presents (event : Event)
    (hscreens : ∀ g, event ≠ .configureNotify g)
    (hmessage : ∀ w action, event ≠ .clientMessageFullscreen w action)
    (htype : ∀ w fullscreen dialog, event ≠ .windowType w fullscreen dialog) :
    s.Presents (s.handle event) := by
  have hc := h.consistent
  have hlookup := fun w => winToClient_isSome h (w := w)
  cases event with
  | keyPress bound => exact runBound_presents bound h
  | buttonPress at_ bound => exact buttonPress_presents h at_ bound
  | clientMessageFullscreen w action => exact absurd rfl (hmessage w action)
  | clientMessageActive w =>
      simp only [handle]
      rcases hlookup w with ⟨hw, _⟩ | ⟨hw, _⟩
      · simp only [hw]
        exact .refl s
      · simp only [hw]
        split
        · exact .refl s
        · exact (Quiet.modClient s w rfl rfl).presents rfl
  | configureNotify g => exact absurd rfl (hscreens g)
  | destroyNotify w =>
      simp only [handle]
      rcases hlookup w with ⟨hw, _⟩ | ⟨hw, hmanages⟩
      · simp only [hw]
        exact .refl s
      · simp only [hw]
        exact unmanage_presents hc hmanages
  | enterNotify passed at_ => exact enterNotify_presents hc passed at_
  | mapRequest w x => exact mapRequest_presents hc w x
  | motionNotify x y => exact motionNotify_presents hc x y
  | transientFor w parent =>
      simp only [handle]
      rcases hlookup w with ⟨hw, _⟩ | ⟨hw, _⟩
      · simp only [hw]
        exact .refl s
      · simp only [hw]
        split
        · exact (Quiet.modClient s w rfl rfl).arrange_presents s rfl _
        · exact .refl s
  | windowType w fullscreen dialog =>
      exact absurd rfl (htype w fullscreen dialog)
  | wmHints w hints =>
      simp only [handle]
      rcases hlookup w with ⟨hw, _⟩ | ⟨hw, _⟩
      · simp only [hw]
        exact .refl s
      · simp only [hw]
        exact (Quiet.modClient s w (updateWmHints_mon _ _ _)
          (updateWmHints_tags _ _ _)).presents rfl
  | normalHints w hints =>
      simp only [handle]
      rcases hlookup w with ⟨hw, _⟩ | ⟨hw, _⟩
      · simp only [hw]
        exact .refl s
      · simp only [hw]
        exact (Quiet.modClient s w rfl rfl).presents rfl
  | unmapNotify w sendEvent =>
      simp only [handle]
      rcases hlookup w with ⟨hw, _⟩ | ⟨hw, hmanages⟩
      · simp only [hw]
        exact .refl s
      · simp only [hw]
        split
        · exact .refl s
        · exact unmanage_presents hc hmanages

theorem handle_focused (event : Event) (hkept : ¬ s.SilentDrop event)
    (hs : s.Focused) : (s.handle event).Focused := by
  have hlookup := fun w => winToClient_isSome h (w := w)
  cases event with
  | configureNotify g => exact configureNotify_focused h g hkept hs
  | clientMessageFullscreen w action =>
      simp only [handle]
      rcases hlookup w with ⟨hw, _⟩ | ⟨hw, _⟩
      · simp only [hw]
        exact hs
      · simp only [hw]
        exact (setFullscreen_quiet s w _).focused hs
  | windowType w fullscreen dialog =>
      simp only [handle]
      rcases hlookup w with ⟨hw, _⟩ | ⟨hw, _⟩
      · simp only [hw]
        exact hs
      · simp only [hw]
        exact (updateWindowType_quiet s w _ _).focused hs
  | _ =>
      exact (handle_presents h _ (by simp) (by simp) (by simp)).focused hs

/-- An event spoils the screen exactly if it makes a hidden client
fullscreen. -/
theorem handle_shown_iff (hs : s.Shown) (event : Event) :
    (s.handle event).Shown ↔ ¬ s.Surfaces event := by
  have hc := h.consistent
  have hlookup := fun w => winToClient_isSome h (w := w)
  cases event with
  | configureNotify g => exact iff_of_true (configureNotify_shown h g hs) id
  | clientMessageFullscreen w action =>
      simp only [handle]
      rcases hlookup w with ⟨hw, hnot⟩ | ⟨hw, hmanages⟩
      · simp only [hw]
        exact iff_of_true hs fun hsurfaces => hnot hsurfaces.2.1
      · simp only [hw]
        rw [setFullscreen_shown_iff hc hmanages hs, not_iff_not, Surfaces,
          hc.mem_managed]
        simp only [hmanages, true_and, decide_eq_true_eq]
        constructor
        · rintro ⟨hon, hrest⟩
          exact ⟨hon.imp_right fun htoggle => htoggle.1, hrest⟩
        · rintro ⟨hon, hrest⟩
          exact ⟨hon.imp_right fun htoggle => ⟨htoggle, hrest.2⟩, hrest⟩
  | windowType w fullscreen dialog =>
      simp only [handle]
      rcases hlookup w with ⟨hw, hnot⟩ | ⟨hw, hmanages⟩
      · simp only [hw]
        exact iff_of_true hs fun hsurfaces => hnot hsurfaces.2.1
      · simp only [hw]
        rw [updateWindowType_shown_iff hc hmanages hs, not_iff_not, Surfaces,
          hc.mem_managed]
        simp only [hmanages, true_and]
  | _ =>
      refine iff_of_true (Presents.shown ?_ hs) id
      exact handle_presents h _ (by simp) (by simp) (by simp)

end Runs

section Start

theorem setup_focused (bh : Int) (g : Geometry) :
    (setup bh g).Focused := by
  obtain ⟨t, ht, _, heq⟩ := setup_start bh g
  rw [heq]
  exact focusNone_focused ht.consistent

theorem setup_shown (bh : Int) (g : Geometry) : (setup bh g).Shown := by
  obtain ⟨t, ht, hnone, heq⟩ := setup_start bh g
  have hfocus := focusNone_ordinary ht.consistent
  rw [heq]
  intro i hi c hc
  have hmanages := (ht.consistent.ordinary hfocus).manages hi hc
  exact absurd ((hfocus.manages c).1 hmanages) (hnone c)

end Start

end Wm

end Dwm

end Bodhi
