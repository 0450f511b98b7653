/-
The views of a monitor: what the selected monitor shows after a change of its
tags, and what comes back when the change is undone.
-/
import Bodhi.WindowFocus

namespace Bodhi

namespace Dwm

namespace Wm

/-- The common part of `view` and `toggleview`. -/
def turn (s : Wm) (f : Monitor → Monitor) : Wm :=
  let s := s.modMon s.selmon f
  let s := s.focus none
  s.arrange s.selmon

/-- A change of a monitor that touches its tag sets only. -/
structure Retags (f : Monitor → Monitor) : Prop where
  clients : ∀ m, (f m).clients = m.clients
  stack : ∀ m, (f m).stack = m.stack
  view : ∀ m stack sel,
    (f { m with stack := stack, sel := sel }).view = (f m).view
  ordinary : ∀ s : Wm, s.Consistent →
    s.Ordinary (s.modMon s.selmon f)

section Turn

variable {s : Wm} (h : s.Consistent)

include h

theorem focusNone_mon :
    (s.focus none).selmon = s.selmon ∧
      (∀ j ≠ s.selmon, (s.focus none).mon j = s.mon j) ∧
      (s.focus none).mon s.selmon = { s.mon s.selmon with
        stack := bringFront s.isVisible (s.mon s.selmon).stack
        sel := (s.mon s.selmon).stack.find? s.isVisible } := by
  unfold focus
  dsimp only
  rw [Option.filter_none, Option.none_or]
  cases htop : (s.mon s.selmon).stack.find? s.isVisible with
  | none =>
      refine ⟨rfl, fun j hj => modMon_mon_of_ne s _ hj, ?_⟩
      simp only [modMon_mon_self, bringFront, htop]
  | some c =>
      have hc := h.manages_of_stack h.selmon (List.mem_of_find?_eq_some htop)
      have howner : (s.client c).mon = s.selmon :=
        h.owner _ h.selmon c ((h.perm _ h.selmon).mem_iff.1
          (List.mem_of_find?_eq_some htop))
      refine ⟨howner, fun j hj => ?_, ?_⟩
      · exact select_mon_of_ne s c (howner ▸ hj)
      · have hmon := select_mon s c
        rw [howner] at hmon
        rw [hmon]
        simp only [bringFront, htop]

theorem focusNone_client (d : Window) :
    ((s.focus none).client d).tags = (s.client d).tags ∧
      ((s.focus none).client d).mon = (s.client d).mon := by
  have htarget : ∀ c, none = some c → s.Manages c := fun _ hc => nomatch hc
  rcases focus_cases h htarget with ⟨c, _, _, heq⟩ | ⟨_, heq⟩
  · rw [heq]
    exact ⟨select_tags s c d, select_owner s c d⟩
  · rw [heq]
    exact ⟨rfl, rfl⟩

variable {f : Monitor → Monitor} (hf : Retags f)

include hf

theorem turn_isVisible :
    (s.turn f).isVisible = (s.modMon s.selmon f).isVisible := by
  have hquiet := arrange_quiet ((s.modMon s.selmon f).focus none)
    ((s.modMon s.selmon f).focus none).selmon
  exact hquiet.isVisible.trans (focus_isVisible
    (h.ordinary (hf.ordinary s h)) fun _ hc => nomatch hc)

theorem turn_ordinary : s.Ordinary (s.turn f) :=
  Ordinary.focusArrange h (hf.ordinary s h)

/-- The selected monitor shows its new tags, and of the clients in view it
selects the one that was selected last. -/
theorem turn_mon :
    (s.turn f).selmon = s.selmon ∧
      (∀ j ≠ s.selmon, (s.turn f).mon j = s.mon j) ∧
      (s.turn f).mon s.selmon = { f (s.mon s.selmon) with
        stack := bringFront (s.turn f).isVisible (s.mon s.selmon).stack
        sel := (s.mon s.selmon).stack.find? (s.turn f).isVisible } := by
  have hfocus := focusNone_mon (h.ordinary (hf.ordinary s h))
  rw [modMon_selmon, modMon_mon_self, hf.stack, ← turn_isVisible h hf]
    at hfocus
  obtain ⟨hselmon, hothers, hmon⟩ := hfocus
  refine ⟨hselmon, fun j hj => ?_, hmon⟩
  exact (hothers j hj).trans (modMon_mon_of_ne s f hj)

theorem turn_client (d : Window) :
    ((s.turn f).client d).tags = (s.client d).tags ∧
      ((s.turn f).client d).mon = (s.client d).mon :=
  focusNone_client (h.ordinary (hf.ordinary s h)) d

end Turn

/-- What a change of the tags and another one that undoes it leave behind. -/
structure Returns (s t back : Wm) : Prop where
  isVisible : back.isVisible = s.isVisible
  selmon : back.selmon = s.selmon
  others : ∀ j ≠ s.selmon, back.mon j = s.mon j
  view : (back.mon s.selmon).view = (s.mon s.selmon).view
  clients : (back.mon s.selmon).clients = (s.mon s.selmon).clients
  sel : (back.mon s.selmon).sel =
    ((t.mon s.selmon).sel.filter s.isVisible).or (s.mon s.selmon).sel

theorem turn_turn {s : Wm} (h : s.Consistent) (hfocused : s.Focused)
    {f g : Monitor → Monitor} (hf : Retags f) (hg : Retags g)
    (hback : (g (f (s.mon s.selmon))).view = (s.mon s.selmon).view) :
    s.Returns (s.turn f) ((s.turn f).turn g) := by
  have hc := h.ordinary (turn_ordinary h hf)
  obtain ⟨hselmon, hothers, hmon⟩ := turn_mon h hf
  obtain ⟨hselmon', hothers', hmon'⟩ := turn_mon hc hg
  have hclient := turn_client h hf
  have hclient' := turn_client hc hg
  generalize (s.turn f).turn g = back at *
  generalize s.turn f = t at *
  rw [hselmon] at hselmon' hothers' hmon'
  have hview : ∀ j, (back.mon j).view = (s.mon j).view := by
    intro j
    by_cases hj : j = s.selmon
    · rw [hj, hmon', hmon]
      exact (hg.view _ _ _).trans hback
    · rw [hothers' j hj, hothers j hj]
  have hvisible : back.isVisible = s.isVisible := by
    funext d
    rw [isVisible, isVisible, (hclient' d).1, (hclient d).1, (hclient' d).2,
      (hclient d).2, hview]
  refine ⟨hvisible, hselmon', fun j hj => (hothers' j hj).trans (hothers j hj),
    hview _, ?_, ?_⟩
  · rw [hmon', hmon]
    exact (hg.clients _).trans (hf.clients _)
  · rw [hmon', hvisible, hmon, hfocused]
    exact find?_bringFront _ _ _

section Undo

theorem otherView_retags (ui : Tags) : Retags (.otherView ui) where
  clients _ := rfl
  stack _ := rfl
  view _ _ _ := rfl
  ordinary s _ := otherView_ordinary s ui

theorem setView_retags {newtagset : Tags} (hnew : ValidTags newtagset) :
    Retags (.setView newtagset) where
  clients _ := rfl
  stack _ := rfl
  view _ _ _ := rfl
  ordinary s _ := setView_ordinary s hnew

theorem otherView_otherView (ui : Tags) (m : Monitor) :
    (Monitor.otherView 0 (m.otherView ui)).view = m.view := by
  have hnone : ¬ (0 : Tags) &&& tagMask ≠ 0 := by decide
  simp only [Monitor.otherView, Monitor.view, if_neg hnone, Bool.not_not]
  split
  · exact Function.update_of_ne (by simp) _ _
  · rfl

theorem toggleView_eq_turn {s : Wm} {ui newtagset : Tags}
    (heq : (s.mon s.selmon).view ^^^ (ui &&& tagMask) = newtagset)
    (hnew : newtagset ≠ 0) : s.toggleView ui = s.turn (.setView newtagset) := by
  subst heq
  exact if_neg hnew

theorem Returns.shown {s t back : Wm} (h : s.Returns t back)
    (hst : s.Ordinary t) (hback : t.Ordinary back) (hc : s.Consistent)
    (hs : s.Shown) (hshown : back.Shown) {c : Window} (hmem : c ∈ s.managed) :
    back.shown c = s.shown c := by
  have hmanages := hc.mem_managed.1 hmem
  have hthere := ((hst.trans hback).manages c).2 hmanages
  rw [hshown _ hthere.1 c hthere.2, hs _ hmanages.1 c hmanages.2, h.isVisible]

/-- After `view` the key for the view before brings that view back, as it was
on the screen, and with it the selected client, unless the client selected
meanwhile is in both views. -/
theorem view_view {s : Wm} (h : s.Tidy) (hfocused : s.Focused)
    (hshown : s.Shown) {ui : Tags}
    (hui : ui &&& tagMask ≠ (s.mon s.selmon).view) :
    s.Returns (s.view ui) ((s.view ui).view 0) ∧
      ∀ c ∈ s.managed, ((s.view ui).view 0).shown c = s.shown c := by
  have hc := h.consistent
  have hordinary := view_ordinary hc ui
  have hpresents := view_presents hc ui
  have hview : s.view ui = s.turn (.otherView ui) := if_neg hui
  have ht := hc.ordinary hordinary
  have hvalid := ht.tagset _ ht.selmon ((s.view ui).mon (s.view ui).selmon).seltags
  have hagain : (s.view ui).view 0 = (s.view ui).turn (.otherView 0) :=
    if_neg fun heq => hvalid.1 (heq.symm.trans (by decide))
  have hreturns : s.Returns (s.view ui) ((s.view ui).view 0) := by
    rw [hagain, hview]
    exact turn_turn hc hfocused (otherView_retags ui) (otherView_retags 0)
      (otherView_otherView ui _)
  refine ⟨hreturns, fun c hmem => ?_⟩
  exact hreturns.shown hordinary (view_ordinary ht 0) hc hshown
    ((view_presents ht 0).shown (hpresents.shown hshown)) hmem

/-- Two windows, one of them with a second tag, and back from that tag. -/
theorem view_view_two :
    let s := machine.after
      (setup 20 ⟨100, 90, some (⟨0, 0, 100, 90⟩, []), none⟩)
      [.mapRequest 1 {}, .keyPress [.toggletag 2], .mapRequest 2 {}]
    s.Returns (s.view 2) ((s.view 2).view 0) ∧
      ∀ c ∈ s.managed, ((s.view 2).view 0).shown c = s.shown c := by
  intro s
  have htidy : s.Tidy := (always_tidy (setup_tidy _ _) _).last
  have hfocused : (s.mon s.selmon).sel =
      (s.mon s.selmon).stack.find? s.isVisible := by
    decide +kernel
  have hshown : ∀ i < s.monCount, ∀ c ∈ (s.mon i).clients,
      s.shown c = s.isVisible c := by
    decide +kernel
  have hui : 2 &&& tagMask ≠ (s.mon s.selmon).view := by decide +kernel
  clear_value s
  exact view_view htidy hfocused hshown hui

/-- So does the key for `toggleview`, pressed once more. -/
theorem toggleView_toggleView {s : Wm} (h : s.Tidy) (hfocused : s.Focused)
    (hshown : s.Shown) {ui : Tags}
    (hui : (s.mon s.selmon).view ^^^ (ui &&& tagMask) ≠ 0) :
    s.Returns (s.toggleView ui) ((s.toggleView ui).toggleView ui) ∧
      ∀ c ∈ s.managed,
        ((s.toggleView ui).toggleView ui).shown c = s.shown c := by
  have hc := h.consistent
  have hordinary := toggleView_ordinary hc ui
  have hpresents := toggleView_presents hc ui
  have hold : ValidTags (s.mon s.selmon).view := hc.tagset _ hc.selmon _
  have hnew := validTags_toggle hold hui
  have hview := toggleView_eq_turn rfl hui
  have hset : ((s.toggleView ui).mon (s.toggleView ui).selmon).view =
      (s.mon s.selmon).view ^^^ (ui &&& tagMask) := by
    obtain ⟨hselmon, _, hmon⟩ := turn_mon hc (setView_retags hnew)
    rw [hview, hselmon, hmon]
    exact Function.update_self _ _ _
  have hundo : ((s.toggleView ui).mon (s.toggleView ui).selmon).view ^^^
      (ui &&& tagMask) = (s.mon s.selmon).view := by
    rw [hset, BitVec.xor_assoc, BitVec.xor_self, BitVec.xor_zero]
  have hagain : (s.toggleView ui).toggleView ui =
      (s.toggleView ui).turn (.setView (s.mon s.selmon).view) :=
    toggleView_eq_turn hundo hold.1
  have ht := hc.ordinary hordinary
  have hreturns : s.Returns (s.toggleView ui)
      ((s.toggleView ui).toggleView ui) := by
    rw [hagain, hview]
    exact turn_turn hc hfocused (setView_retags hnew) (setView_retags hold)
      (Function.update_self _ _ _)
  refine ⟨hreturns, fun c hmem => ?_⟩
  exact hreturns.shown hordinary (toggleView_ordinary ht ui) hc hshown
    ((toggleView_presents ht ui).shown (hpresents.shown hshown)) hmem

theorem toggleView_toggleView_two :
    let s := machine.after
      (setup 20 ⟨100, 90, some (⟨0, 0, 100, 90⟩, []), none⟩)
      [.mapRequest 1 {}, .keyPress [.tag 2], .mapRequest 2 {}]
    s.Returns (s.toggleView 2) ((s.toggleView 2).toggleView 2) ∧
      ∀ c ∈ s.managed,
        ((s.toggleView 2).toggleView 2).shown c = s.shown c := by
  intro s
  have htidy : s.Tidy := (always_tidy (setup_tidy _ _) _).last
  have hfocused : (s.mon s.selmon).sel =
      (s.mon s.selmon).stack.find? s.isVisible := by
    decide +kernel
  have hshown : ∀ i < s.monCount, ∀ c ∈ (s.mon i).clients,
      s.shown c = s.isVisible c := by
    decide +kernel
  have hui : (s.mon s.selmon).view ^^^ (2 &&& tagMask) ≠ 0 := by
    decide +kernel
  clear_value s
  exact toggleView_toggleView htidy hfocused hshown hui

end Undo

end Wm

end Dwm

end Bodhi
