/-
The lists of dwm over whole runs: every client stands once in the two lists of
its own monitor, no monitor selects a client that is not in its lists, and
every client has a tag that some view shows.
-/
import Mathlib.Data.List.Perm.Basic
import Mathlib.Data.List.Nodup
import Bodhi.WindowEvents

namespace Bodhi

namespace Dwm

/-- Some tag, and none that config.h does not name. -/
def ValidTags (t : Tags) : Prop := t ≠ 0 ∧ t &&& tagMask = t

namespace Wm

/-- The client stands in the list of its monitor. -/
def Manages (s : Wm) (c : Window) : Prop :=
  (s.client c).mon < s.monCount ∧ c ∈ (s.mon (s.client c).mon).clients

/-- What the lists of dwm promise between two events. -/
structure Consistent (s : Wm) : Prop where
  selmon : s.selmon < s.monCount
  nodup : ∀ i < s.monCount, (s.mon i).clients.Nodup
  perm : ∀ i < s.monCount, (s.mon i).stack.Perm (s.mon i).clients
  owner : ∀ i < s.monCount, ∀ c ∈ (s.mon i).clients, (s.client c).mon = i
  sel : ∀ i < s.monCount, ∀ c, (s.mon i).sel = some c →
    c ∈ (s.mon i).clients
  tagset : ∀ i < s.monCount, ∀ b, ValidTags ((s.mon i).tagset b)
  tags : ∀ i < s.monCount, ∀ c ∈ (s.mon i).clients,
    ValidTags (s.client c).tags

namespace Consistent

variable {s : Wm} (h : s.Consistent)

include h

theorem manages {i : Nat} (hi : i < s.monCount) {c : Window}
    (hc : c ∈ (s.mon i).clients) : s.Manages c := by
  have howner := h.owner i hi c hc
  exact ⟨howner ▸ hi, howner.symm ▸ hc⟩

theorem manages_of_stack {i : Nat} (hi : i < s.monCount) {c : Window}
    (hc : c ∈ (s.mon i).stack) : s.Manages c :=
  h.manages hi ((h.perm i hi).mem_iff.1 hc)

theorem manages_of_sel {i : Nat} (hi : i < s.monCount) {c : Window}
    (hc : (s.mon i).sel = some c) : s.Manages c ∧ (s.client c).mon = i :=
  ⟨h.manages hi (h.sel i hi c hc), h.owner i hi c (h.sel i hi c hc)⟩

theorem mem_managed {c : Window} : c ∈ s.managed ↔ s.Manages c := by
  simp only [managed, List.mem_flatMap, List.mem_range]
  constructor
  · rintro ⟨i, hi, hc⟩
    exact h.manages hi hc
  · intro hc
    exact ⟨_, hc.1, hc.2⟩

theorem stack_nodup {i : Nat} (hi : i < s.monCount) :
    (s.mon i).stack.Nodup :=
  (h.perm i hi).nodup_iff.2 (h.nodup i hi)

theorem managed_nodup : s.managed.Nodup := by
  rw [managed, List.nodup_flatMap]
  constructor
  · intro i hi
    exact h.nodup i (List.mem_range.1 hi)
  · refine List.nodup_range.pairwise_of_forall_ne ?_
    intro i hi j hj hne c hci hcj
    have hown := h.owner i (List.mem_range.1 hi) c hci
    exact hne (hown ▸ h.owner j (List.mem_range.1 hj) c hcj)

end Consistent

theorem winToClient_eq_some {s : Wm} {w c : Window}
    (h : s.winToClient w = some c) : c = w ∧ w ∈ s.managed := by
  have heq : c = w := by simpa using List.find?_some h
  exact ⟨heq, heq ▸ List.mem_of_find?_eq_some h⟩

/-- What a step that moves no client to another monitor may change. -/
structure Ordinary (s t : Wm) : Prop where
  monCount : t.monCount = s.monCount
  netClientList : t.netClientList = s.netClientList
  selmon : t.selmon = s.selmon ∨ t.selmon < s.monCount
  clients : ∀ i, (t.mon i).clients.Perm (s.mon i).clients
  stack : ∀ i, (t.mon i).stack.Perm (s.mon i).stack
  sel : ∀ i c, (t.mon i).sel = some c →
    (s.mon i).sel = some c ∨ c ∈ (s.mon i).clients
  tagset : ∀ i b, (t.mon i).tagset b = (s.mon i).tagset b ∨
    ValidTags ((t.mon i).tagset b)
  owner : ∀ c, (t.client c).mon = (s.client c).mon
  tags : ∀ c, (t.client c).tags = (s.client c).tags ∨
    ValidTags (t.client c).tags

namespace Ordinary

theorem refl (s : Wm) : s.Ordinary s where
  monCount := rfl
  netClientList := rfl
  selmon := Or.inl rfl
  clients _ := List.Perm.refl _
  stack _ := List.Perm.refl _
  sel _ _ hc := Or.inl hc
  tagset _ _ := Or.inl rfl
  owner _ := rfl
  tags _ := Or.inl rfl

theorem trans {s t u : Wm} (hst : s.Ordinary t) (htu : t.Ordinary u) :
    s.Ordinary u where
  monCount := htu.monCount.trans hst.monCount
  netClientList := htu.netClientList.trans hst.netClientList
  selmon := by
    rcases htu.selmon with heq | hlt
    · exact heq ▸ hst.selmon
    · exact Or.inr (hst.monCount ▸ hlt)
  clients i := (htu.clients i).trans (hst.clients i)
  stack i := (htu.stack i).trans (hst.stack i)
  sel i c hc := by
    rcases htu.sel i c hc with hsel | hmem
    · exact hst.sel i c hsel
    · exact Or.inr ((hst.clients i).mem_iff.1 hmem)
  tagset i b := by
    rcases htu.tagset i b with heq | hvalid
    · exact heq ▸ hst.tagset i b
    · exact Or.inr hvalid
  owner c := (htu.owner c).trans (hst.owner c)
  tags c := by
    rcases htu.tags c with heq | hvalid
    · exact heq ▸ hst.tags c
    · exact Or.inr hvalid

theorem manages {s t : Wm} (h : s.Ordinary t) (c : Window) :
    t.Manages c ↔ s.Manages c := by
  rw [Manages, Manages, h.owner, h.monCount, (h.clients _).mem_iff]

end Ordinary

theorem Consistent.ordinary {s t : Wm} (h : s.Consistent)
    (hst : s.Ordinary t) : t.Consistent where
  selmon := by
    rw [hst.monCount]
    rcases hst.selmon with heq | hlt
    · exact heq ▸ h.selmon
    · exact hlt
  nodup i hi := (hst.clients i).nodup_iff.2 (h.nodup i (hst.monCount ▸ hi))
  perm i hi :=
    ((hst.stack i).trans (h.perm i (hst.monCount ▸ hi))).trans
      (hst.clients i).symm
  owner i hi c hc := by
    rw [hst.owner]
    exact h.owner i (hst.monCount ▸ hi) c ((hst.clients i).mem_iff.1 hc)
  sel i hi c hc := by
    apply (hst.clients i).mem_iff.2
    rcases hst.sel i c hc with hsel | hmem
    · exact h.sel i (hst.monCount ▸ hi) c hsel
    · exact hmem
  tagset i hi b := by
    rcases hst.tagset i b with heq | hvalid
    · exact heq ▸ h.tagset i (hst.monCount ▸ hi) b
    · exact hvalid
  tags i hi c hc := by
    rcases hst.tags c with heq | hvalid
    · have hmem := (hst.clients i).mem_iff.1 hc
      exact heq ▸ h.tags i (hst.monCount ▸ hi) c hmem
    · exact hvalid

/-- What a step that neither selects nor shows other clients may change: the
order of the clients, and what the lists do not depend on. -/
structure Quiet (s t : Wm) : Prop where
  monCount : t.monCount = s.monCount
  netClientList : t.netClientList = s.netClientList
  selmon : t.selmon = s.selmon
  clients : ∀ i, (t.mon i).clients.Perm (s.mon i).clients
  stack : ∀ i, (t.mon i).stack = (s.mon i).stack
  sel : ∀ i, (t.mon i).sel = (s.mon i).sel
  tagset : ∀ i, (t.mon i).tagset = (s.mon i).tagset
  seltags : ∀ i, (t.mon i).seltags = (s.mon i).seltags
  owner : ∀ c, (t.client c).mon = (s.client c).mon
  tags : ∀ c, (t.client c).tags = (s.client c).tags

namespace Quiet

theorem refl (s : Wm) : s.Quiet s :=
  ⟨rfl, rfl, rfl, fun _ => List.Perm.refl _, fun _ => rfl, fun _ => rfl,
    fun _ => rfl, fun _ => rfl, fun _ => rfl, fun _ => rfl⟩

theorem trans {s t u : Wm} (hst : s.Quiet t) (htu : t.Quiet u) :
    s.Quiet u where
  monCount := htu.monCount.trans hst.monCount
  netClientList := htu.netClientList.trans hst.netClientList
  selmon := htu.selmon.trans hst.selmon
  clients i := (htu.clients i).trans (hst.clients i)
  stack i := (htu.stack i).trans (hst.stack i)
  sel i := (htu.sel i).trans (hst.sel i)
  tagset i := (htu.tagset i).trans (hst.tagset i)
  seltags i := (htu.seltags i).trans (hst.seltags i)
  owner c := (htu.owner c).trans (hst.owner c)
  tags c := (htu.tags c).trans (hst.tags c)

theorem ordinary {s t : Wm} (h : s.Quiet t) : s.Ordinary t where
  monCount := h.monCount
  netClientList := h.netClientList
  selmon := Or.inl h.selmon
  clients := h.clients
  stack i := h.stack i ▸ List.Perm.refl _
  sel i _ hc := Or.inl (h.sel i ▸ hc)
  tagset i b := Or.inl (congrFun (h.tagset i) b)
  owner := h.owner
  tags c := Or.inl (h.tags c)

theorem view {s t : Wm} (h : s.Quiet t) (i : Nat) :
    (t.mon i).view = (s.mon i).view := by
  rw [Monitor.view, Monitor.view, h.tagset, h.seltags]

theorem isVisible {s t : Wm} (h : s.Quiet t) : t.isVisible = s.isVisible := by
  funext c
  rw [Wm.isVisible, Wm.isVisible, h.tags, h.owner, h.view]

/-- A state with the same monitors and clients. -/
theorem of_eq {s t : Wm} (hcount : t.monCount = s.monCount)
    (hnet : t.netClientList = s.netClientList)
    (hselmon : t.selmon = s.selmon) (hmon : t.mon = s.mon)
    (hclient : t.client = s.client) : s.Quiet t where
  monCount := hcount
  netClientList := hnet
  selmon := hselmon
  clients _ := hmon ▸ List.Perm.refl _
  stack _ := by rw [hmon]
  sel _ := by rw [hmon]
  tagset _ := by rw [hmon]
  seltags _ := by rw [hmon]
  owner _ := by rw [hclient]
  tags _ := by rw [hclient]

/-- A write to fields of a monitor other than its lists and its tags. -/
theorem modMon (s : Wm) (i : Nat) {f : Monitor → Monitor}
    (hclients : (f (s.mon i)).clients.Perm (s.mon i).clients)
    (hstack : (f (s.mon i)).stack = (s.mon i).stack)
    (hsel : (f (s.mon i)).sel = (s.mon i).sel)
    (htagset : (f (s.mon i)).tagset = (s.mon i).tagset)
    (hseltags : (f (s.mon i)).seltags = (s.mon i).seltags) :
    s.Quiet (s.modMon i f) where
  monCount := rfl
  netClientList := rfl
  selmon := rfl
  clients j := by
    by_cases hj : j = i
    · rw [hj, modMon_mon_self]
      exact hclients
    · rw [modMon_mon_of_ne s f hj]
  stack := modMon_field Monitor.stack s hstack
  sel := modMon_field Monitor.sel s hsel
  tagset := modMon_field Monitor.tagset s htagset
  seltags := modMon_field Monitor.seltags s hseltags
  owner _ := rfl
  tags _ := rfl

/-- A write to fields of a client other than its monitor and its tags. -/
theorem modClient (s : Wm) (c : Window) {f : Client → Client}
    (hmon : (f (s.client c)).mon = (s.client c).mon)
    (htags : (f (s.client c)).tags = (s.client c).tags) :
    s.Quiet (s.modClient c f) where
  monCount := rfl
  netClientList := rfl
  selmon := rfl
  clients _ := List.Perm.refl _
  stack _ := rfl
  sel _ := rfl
  tagset _ := rfl
  seltags _ := rfl
  owner := modClient_field Client.mon s hmon
  tags := modClient_field Client.tags s htags

end Quiet

theorem arrange_quiet (s : Wm) (i : Nat) : s.Quiet (s.arrange i) :=
  .of_eq rfl rfl rfl rfl rfl

theorem foldl_quiet {α : Type} {f : Wm → α → Wm}
    (h : ∀ (s : Wm) x, s.Quiet (f s x))
    (xs : List α) (s : Wm) : s.Quiet (xs.foldl f s) := by
  induction xs generalizing s with
  | nil => exact .refl s
  | cons x rest ih => exact (h s x).trans (ih (f s x))

theorem arrangeAll_quiet (s : Wm) : s.Quiet s.arrangeAll :=
  foldl_quiet arrange_quiet _ s

theorem resizeClient_quiet (s : Wm) (c : Window) :
    s.Quiet (s.resizeClient c) :=
  .of_eq rfl rfl rfl rfl rfl

/-- The selected monitor selects, among its clients in view, the one that was
selected last. -/
def Focused (s : Wm) : Prop :=
  (s.mon s.selmon).sel = (s.mon s.selmon).stack.find? s.isVisible

section Focus

variable (s : Wm) (c : Window)

@[simp] theorem select_selmon : (s.select c).selmon = (s.client c).mon := rfl

@[simp] theorem select_monCount : (s.select c).monCount = s.monCount := rfl

@[simp] theorem select_shown : (s.select c).shown = s.shown := rfl

theorem select_client (d : Window) :
    (s.select c).client d =
      if d = c then { s.client c with isurgent := false } else s.client d := by
  by_cases hd : d = c
  · simp [select, modClient, hd, attachStack, detachStack]
  · simp [select, modClient, hd, attachStack, detachStack]

theorem select_mon_of_ne {i : Nat} (hi : i ≠ (s.client c).mon) :
    (s.select c).mon i = s.mon i := by
  simp [select, attachStack, detachStack, modMon_mon_of_ne, hi]

theorem select_mon :
    (s.select c).mon (s.client c).mon =
      { s.mon (s.client c).mon with
        stack := c :: (s.mon (s.client c).mon).stack.erase c
        sel := some c } := by
  simp [select, attachStack, detachStack]

theorem select_owner (d : Window) :
    ((s.select c).client d).mon = (s.client d).mon := by
  rw [select_client]
  split
  · next h => rw [h]
  · rfl

theorem select_tags (d : Window) :
    ((s.select c).client d).tags = (s.client d).tags := by
  rw [select_client]
  split
  · next h => rw [h]
  · rfl

theorem select_field {β : Type} (g : Monitor → β)
    (hg : ∀ (m : Monitor) stack sel,
      g { m with stack := stack, sel := sel } = g m) (i : Nat) :
    g ((s.select c).mon i) = g (s.mon i) := by
  by_cases hi : i = (s.client c).mon
  · rw [hi, select_mon, hg]
  · rw [select_mon_of_ne s c hi]

theorem select_isVisible : (s.select c).isVisible = s.isVisible := by
  funext d
  have hview := select_field s c Monitor.view (fun _ _ _ => rfl)
    (s.client d).mon
  rw [isVisible, isVisible, select_tags, select_owner, hview]

end Focus

section Consistent

variable {s : Wm} (h : s.Consistent)

include h

theorem select_ordinary {c : Window} (hc : s.Manages c) :
    s.Ordinary (s.select c) where
  monCount := rfl
  netClientList := rfl
  selmon := Or.inr hc.1
  clients i := by rw [select_field s c Monitor.clients fun _ _ _ => rfl]
  stack i := by
    by_cases hi : i = (s.client c).mon
    · have hmem := (h.perm _ hc.1).mem_iff.2 hc.2
      rw [hi, select_mon]
      exact (List.perm_cons_erase hmem).symm
    · rw [select_mon_of_ne s c hi]
  sel i d hd := by
    by_cases hi : i = (s.client c).mon
    · rw [hi, select_mon] at hd
      obtain rfl : c = d := Option.some.inj hd
      exact Or.inr (hi ▸ hc.2)
    · rw [select_mon_of_ne s c hi] at hd
      exact Or.inl hd
  tagset i b := Or.inl (congrFun
    (select_field s c Monitor.tagset (fun _ _ _ => rfl) i) b)
  owner := select_owner s c
  tags d := Or.inl (select_tags s c d)

omit h in
theorem focus_monCount (s : Wm) (target : Option Window) :
    (s.focus target).monCount = s.monCount := by
  unfold focus
  dsimp only
  split <;> rfl

/-- `focus` selects a client in view, or none where none is in view. -/
theorem focus_cases {target : Option Window}
    (htarget : ∀ c, target = some c → s.Manages c) :
    (∃ c, s.Manages c ∧ s.isVisible c ∧ s.focus target = s.select c) ∨
      (s.mon s.selmon).stack.find? s.isVisible = none ∧
        s.focus target = s.modMon s.selmon fun m => { m with sel := none } := by
  cases hpick : (target.filter s.isVisible).or
      ((s.mon s.selmon).stack.find? s.isVisible) with
  | none =>
      have htop := (Option.or_eq_none_iff.1 hpick).2
      exact Or.inr ⟨htop, by simp only [focus, hpick]⟩
  | some c =>
      refine Or.inl ⟨c, ?_, ?_, by simp only [focus, hpick]⟩
      · rcases Option.or_eq_some_iff.1 hpick with hc | ⟨_, hc⟩
        · exact htarget c (Option.filter_eq_some_iff.1 hc).1
        · exact h.manages_of_stack h.selmon (List.mem_of_find?_eq_some hc)
      · rcases Option.or_eq_some_iff.1 hpick with hc | ⟨_, hc⟩
        · exact (Option.filter_eq_some_iff.1 hc).2
        · exact List.find?_some hc

theorem focus_ordinary {target : Option Window}
    (htarget : ∀ c, target = some c → s.Manages c) :
    s.Ordinary (s.focus target) := by
  rcases focus_cases h htarget with ⟨c, hc, _, heq⟩ | ⟨_, heq⟩
  · exact heq ▸ select_ordinary h hc
  · rw [heq]
    refine ⟨rfl, rfl, Or.inl rfl, fun i => ?_, fun i => ?_, fun i c hc => ?_,
      fun i b => Or.inl ?_, fun _ => rfl, fun _ => Or.inl rfl⟩
    · rw [modMon_field Monitor.clients s rfl]
    · rw [modMon_field Monitor.stack s rfl]
    · by_cases hi : i = s.selmon
      · rw [hi, modMon_mon_self] at hc
        cases hc
      · rw [modMon_mon_of_ne s _ hi] at hc
        exact Or.inl hc
    · rw [modMon_field Monitor.tagset s rfl]

theorem focus_isVisible {target : Option Window}
    (htarget : ∀ c, target = some c → s.Manages c) :
    (s.focus target).isVisible = s.isVisible := by
  rcases focus_cases h htarget with ⟨c, _, _, heq⟩ | ⟨_, heq⟩
  · rw [heq, select_isVisible]
  · funext d
    rw [heq, isVisible, isVisible, modMon_field Monitor.view s rfl]
    rfl

theorem focus_focused {target : Option Window}
    (htarget : ∀ c, target = some c → s.Manages c) :
    (s.focus target).Focused := by
  have hvisible := focus_isVisible h htarget
  rw [Focused, hvisible]
  rcases focus_cases h htarget with ⟨c, _, hc, heq⟩ | ⟨hnone, heq⟩
  · rw [heq, select_selmon, select_mon, List.find?_cons_of_pos hc]
  · rw [heq, modMon_selmon, modMon_mon_self, hnone]

theorem focusNone_focused : (s.focus none).Focused :=
  focus_focused h fun _ hc => nomatch hc

/-- The windows stay where they are on the screen. -/
theorem focus_shown {target : Option Window}
    (htarget : ∀ c, target = some c → s.Manages c) :
    (s.focus target).shown = s.shown := by
  rcases focus_cases h htarget with ⟨c, _, _, heq⟩ | ⟨_, heq⟩
  · rw [heq, select_shown]
  · rw [heq]
    rfl

end Consistent

section Layouts

variable (s : Wm)

theorem setLayout_quiet (v : Option Layout) : s.Quiet (s.setLayout v) := by
  unfold setLayout
  extract_lets m sellt t
  have hwrite : s.Quiet t := Quiet.modMon s _ (.refl _) rfl rfl rfl rfl
  split
  · exact hwrite.trans (arrange_quiet _ _)
  · exact hwrite

theorem incNmaster_quiet (i : Int) : s.Quiet (s.incNmaster i) :=
  (Quiet.modMon s _ (.refl _) rfl rfl rfl rfl).trans (arrange_quiet _ _)

theorem setMfact_quiet (accepted : Bool) : s.Quiet (s.setMfact accepted) := by
  unfold setMfact
  split
  · exact arrange_quiet s _
  · exact .refl s

theorem setCfact_quiet (accepted : Bool) : s.Quiet (s.setCfact accepted) := by
  unfold setCfact
  dsimp only
  split
  · exact arrange_quiet s _
  · exact .refl s

theorem toggleFloating_quiet : s.Quiet s.toggleFloating := by
  unfold toggleFloating
  split
  · exact .refl s
  · dsimp only
    split
    · exact .refl s
    · exact (Quiet.modClient s _ rfl rfl).trans (arrange_quiet _ _)

theorem toggleBar_quiet : s.Quiet s.toggleBar :=
  (Quiet.modMon s _ (.refl _) rfl rfl rfl rfl).trans (arrange_quiet _ _)

theorem setGaps_quiet (oh ov ih iv : Int) : s.Quiet (s.setGaps oh ov ih iv) :=
  (Quiet.modMon s _ (.refl _) rfl rfl rfl rfl).trans (arrange_quiet _ _)

theorem toggleGaps_quiet : s.Quiet s.toggleGaps := by
  have hwrite : s.Quiet { s with enablegaps := !s.enablegaps } :=
    .of_eq rfl rfl rfl rfl rfl
  exact hwrite.trans (arrangeAll_quiet _)

end Layouts

section Order

theorem swapClients_perm {a b : Window} {xs : List Window} (hxs : xs.Nodup)
    (ha : a ∈ xs) (hb : b ∈ xs) : (swapClients a b xs).Perm xs := by
  have hmap : swapClients a b xs = xs.map (Equiv.swap a b) := rfl
  rw [hmap, List.perm_ext_iff_of_nodup
    (hxs.map (Equiv.swap a b).injective) hxs]
  intro c
  rw [List.mem_map]
  constructor
  · rintro ⟨d, hd, rfl⟩
    rw [Equiv.swap_apply_def]
    split
    · exact hb
    · split
      · exact ha
      · exact hd
  · intro hc
    refine ⟨Equiv.swap a b c, ?_, Equiv.swap_apply_self a b c⟩
    rw [Equiv.swap_apply_def]
    split
    · exact hb
    · split
      · exact ha
      · exact hc

theorem detach_attach (s : Wm) (c : Window) :
    (s.detach c).attach c = s.modMon (s.client c).mon fun m =>
      { m with clients := c :: m.clients.erase c } := by
  simp [attach, detach, modMon]

variable {s : Wm} (h : s.Consistent)

include h

theorem moveStack_quiet (dir : Int) : s.Quiet (s.moveStack dir) := by
  unfold moveStack
  dsimp only
  split
  · split
    · exact .of_eq rfl rfl rfl rfl rfl
    · exact .refl s
  · next sel hsel =>
      split
      · exact .refl s
      · next c hc =>
          split
          · exact .refl s
          · have hperm := swapClients_perm (h.nodup _ h.selmon)
              (h.sel _ h.selmon _ hsel) (neighbour_eq_some hc).1
            exact (Quiet.modMon s _ hperm rfl rfl rfl rfl).trans
              (arrange_quiet _ _)

theorem focusStack_ordinary (dir : Int) : s.Ordinary (s.focusStack dir) := by
  unfold focusStack
  split
  · exact .refl s
  · split
    · exact .refl s
    · split
      · exact .refl s
      · next c hc =>
          refine focus_ordinary h fun d hd => ?_
          obtain rfl : c = d := Option.some.inj hd
          exact h.manages h.selmon (neighbour_eq_some hc).1

theorem pop_ordinary {c : Window} (hc : s.Manages c) :
    s.Ordinary (s.pop c) := by
  have hfront : s.Ordinary ((s.detach c).attach c) := by
    rw [detach_attach]
    have hperm := (List.perm_cons_erase hc.2).symm
    exact (Quiet.modMon s _ hperm rfl rfl rfl rfl).ordinary
  have hconsistent := h.ordinary hfront
  refine hfront.trans ((focus_ordinary hconsistent ?_).trans
    (arrange_quiet _ _).ordinary)
  intro d hd
  obtain rfl : c = d := Option.some.inj hd
  exact (hfront.manages c).2 hc

end Order

section Views

theorem validTags_mask {ui : Tags} (h : ui &&& tagMask ≠ 0) :
    ValidTags (ui &&& tagMask) :=
  ⟨h, by rw [BitVec.and_assoc, BitVec.and_self]⟩

theorem validTags_toggle {t ui : Tags} (ht : ValidTags t)
    (h : t ^^^ (ui &&& tagMask) ≠ 0) : ValidTags (t ^^^ (ui &&& tagMask)) := by
  have hdistrib : (t ^^^ (ui &&& tagMask)) &&& tagMask =
      (t &&& tagMask) ^^^ (ui &&& tagMask &&& tagMask) := by
    apply BitVec.eq_of_toNat_eq
    simp only [BitVec.toNat_and, BitVec.toNat_xor]
    exact Nat.and_xor_distrib_right
  refine ⟨h, ?_⟩
  rw [hdistrib, ht.2, BitVec.and_assoc, BitVec.and_self]

/-- A write of valid tags to the tag sets of a monitor. -/
theorem modMon_tagset_ordinary (s : Wm) (i : Nat) {f : Monitor → Monitor}
    (hclients : (f (s.mon i)).clients = (s.mon i).clients)
    (hstack : (f (s.mon i)).stack = (s.mon i).stack)
    (hsel : (f (s.mon i)).sel = (s.mon i).sel)
    (htagset : ∀ b, (f (s.mon i)).tagset b = (s.mon i).tagset b ∨
      ValidTags ((f (s.mon i)).tagset b)) :
    s.Ordinary (s.modMon i f) where
  monCount := rfl
  netClientList := rfl
  selmon := Or.inl rfl
  clients j := by rw [modMon_field Monitor.clients s hclients]
  stack j := by rw [modMon_field Monitor.stack s hstack]
  sel j c hc := Or.inl (modMon_field Monitor.sel s hsel j ▸ hc)
  tagset j b := by
    by_cases hj : j = i
    · rw [hj, modMon_mon_self]
      exact htagset b
    · rw [modMon_mon_of_ne s f hj]
      exact Or.inl rfl
  owner _ := rfl
  tags _ := Or.inl rfl

theorem update_tagset {tagset : Bool → Tags} {new : Tags}
    (hnew : ValidTags new) (seltags b : Bool) :
    Function.update tagset seltags new b = tagset b ∨
      ValidTags (Function.update tagset seltags new b) := by
  by_cases hb : b = seltags
  · rw [hb, Function.update_self]
    exact Or.inr hnew
  · rw [Function.update_of_ne hb]
    exact Or.inl rfl

theorem otherView_ordinary (s : Wm) (ui : Tags) :
    s.Ordinary (s.modMon s.selmon (.otherView ui)) := by
  refine modMon_tagset_ordinary s _ rfl rfl rfl fun b => ?_
  unfold Monitor.otherView
  dsimp only
  split
  · next hui => exact update_tagset (validTags_mask hui) _ b
  · exact Or.inl rfl

theorem setView_ordinary (s : Wm) {newtagset : Tags}
    (hnew : ValidTags newtagset) :
    s.Ordinary (s.modMon s.selmon (.setView newtagset)) :=
  modMon_tagset_ordinary s _ rfl rfl rfl fun b => update_tagset hnew _ b

theorem setTags_ordinary (s : Wm) {newtags : Tags} (hnew : ValidTags newtags)
    (c : Window) : s.Ordinary (s.modClient c fun client =>
      { client with tags := newtags }) := by
  refine ⟨rfl, rfl, Or.inl rfl, fun _ => .refl _, fun _ => .refl _,
    fun _ _ hd => Or.inl hd, fun _ _ => Or.inl rfl,
    modClient_field Client.mon s rfl, fun d => ?_⟩
  by_cases hd : d = c
  · rw [hd, modClient_client_self]
    exact Or.inr hnew
  · rw [modClient_client_of_ne s _ hd]
    exact Or.inl rfl

variable {s : Wm} (h : s.Consistent)

include h

/-- Every command ends a change of tags or of the selected monitor so. -/
theorem focusNone_ordinary : s.Ordinary (s.focus none) :=
  focus_ordinary h fun _ hc => nomatch hc

theorem Ordinary.focusArrange {t : Wm} (hst : s.Ordinary t) :
    s.Ordinary ((t.focus none).arrange (t.focus none).selmon) := by
  have hfocus := focusNone_ordinary (h.ordinary hst)
  exact hst.trans (hfocus.trans (arrange_quiet _ _).ordinary)

theorem view_ordinary (ui : Tags) : s.Ordinary (s.view ui) := by
  unfold view
  split
  · exact .refl s
  · exact Ordinary.focusArrange h (otherView_ordinary s ui)

theorem toggleView_ordinary (ui : Tags) : s.Ordinary (s.toggleView ui) := by
  unfold toggleView
  dsimp only
  split
  · exact .refl s
  · next hnew =>
      have hview := h.tagset _ h.selmon (s.mon s.selmon).seltags
      exact Ordinary.focusArrange h
        (setView_ordinary s (validTags_toggle hview hnew))

theorem retag_ordinary {newtags : Tags} (hnew : ValidTags newtags)
    (c : Window) : s.Ordinary (s.retag c newtags) :=
  Ordinary.focusArrange h (setTags_ordinary s hnew c)

theorem tag_ordinary (ui : Tags) : s.Ordinary (s.tag ui) := by
  unfold tag
  split
  · exact .refl s
  · split
    · exact .refl s
    · next hui => exact retag_ordinary h (validTags_mask hui) _

theorem toggleTag_ordinary (ui : Tags) : s.Ordinary (s.toggleTag ui) := by
  unfold toggleTag
  split
  · exact .refl s
  · next c hc =>
      dsimp only
      split
      · exact .refl s
      · next hnew =>
          have htags := h.tags _ h.selmon c (h.sel _ h.selmon c hc)
          exact retag_ordinary h (validTags_toggle htags hnew) c

theorem zoom_ordinary : s.Ordinary s.zoom := by
  unfold zoom
  dsimp only
  split
  · exact .refl s
  · next c hc =>
      split
      · exact .refl s
      · split
        · split
          · exact .refl s
          · next d hd =>
              have hrest : ((s.mon s.selmon).clients.dropWhile (· != c)).tail
                  ⊆ (s.mon s.selmon).clients := fun x hx =>
                (List.dropWhile_suffix _).subset (List.mem_of_mem_tail hx)
              exact pop_ordinary h (h.manages h.selmon
                (hrest (List.mem_of_find?_eq_some hd)))
        · exact pop_ordinary h (h.manages_of_sel h.selmon hc).1

theorem dirToMon_lt (dir : Int) : s.dirToMon dir < s.monCount := by
  have hlt := h.selmon
  unfold dirToMon
  split
  · split <;> omega
  · split <;> omega

/-- The selected monitor changes, and with it the focus. -/
theorem focusOn_ordinary {i : Nat} (hi : i < s.monCount)
    {target : Option Window} (htarget : ∀ c, target = some c → s.Manages c) :
    s.Ordinary ({ s with selmon := i }.focus target) := by
  have hmove : s.Ordinary { s with selmon := i } :=
    ⟨rfl, rfl, Or.inr hi, fun _ => .refl _, fun _ => .refl _,
      fun _ _ hc => Or.inl hc, fun _ _ => Or.inl rfl, fun _ => rfl,
      fun _ => Or.inl rfl⟩
  exact hmove.trans (focus_ordinary (h.ordinary hmove) htarget)

theorem focusOnNone_ordinary {i : Nat} (hi : i < s.monCount) :
    s.Ordinary ({ s with selmon := i }.focus none) :=
  focusOn_ordinary h hi fun _ hc => nomatch hc

theorem focusMon_ordinary (dir : Int) : s.Ordinary (s.focusMon dir) := by
  unfold focusMon
  split
  · exact .refl s
  · split
    · exact .refl s
    · exact focusOnNone_ordinary h (dirToMon_lt h dir)

end Views

end Wm

end Dwm

end Bodhi
