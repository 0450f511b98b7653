/-
Clients that come, go and change monitors: what each of these steps of dwm does
to its lists, and where the pointer is.
-/
import Bodhi.WindowLists

namespace Bodhi

namespace Dwm

namespace Wm

/-- A client is taken out of the lists. -/
structure Leaves (s t : Wm) (c : Window) : Prop where
  monCount : t.monCount = s.monCount
  netClientList : t.netClientList = s.netClientList
  selmon : t.selmon = s.selmon
  clients : ∀ i < s.monCount,
    (t.mon i).clients = (s.mon i).clients.erase c
  stack : ∀ i < s.monCount, (t.mon i).stack = (s.mon i).stack.erase c
  sel : ∀ i < s.monCount, ∀ d, (t.mon i).sel = some d →
    d ∈ (t.mon i).clients
  tagset : ∀ i, (t.mon i).tagset = (s.mon i).tagset
  seltags : ∀ i, (t.mon i).seltags = (s.mon i).seltags
  client : t.client = s.client
  shown : t.shown = s.shown

/-- A client that is in no list is entered in those of monitor `i`. -/
structure Enters (s t : Wm) (c : Window) (i : Nat) : Prop where
  fresh : ∀ j < s.monCount, c ∉ (s.mon j).clients
  target : i < s.monCount
  monCount : t.monCount = s.monCount
  netClientList : t.netClientList = s.netClientList
  selmon : t.selmon = s.selmon
  clients_at : (t.mon i).clients.Perm (c :: (s.mon i).clients)
  clients : ∀ j, j ≠ i → (t.mon j).clients = (s.mon j).clients
  stack_at : (t.mon i).stack = c :: (s.mon i).stack
  stack : ∀ j, j ≠ i → (t.mon j).stack = (s.mon j).stack
  sel : ∀ j d, (t.mon j).sel = some d →
    (s.mon j).sel = some d ∨ j = i ∧ d = c
  tagset : ∀ j, (t.mon j).tagset = (s.mon j).tagset
  seltags : ∀ j, (t.mon j).seltags = (s.mon j).seltags
  shown : t.shown = s.shown
  client : ∀ d, d ≠ c → t.client d = s.client d
  owner : (t.client c).mon = i
  tags : ValidTags (t.client c).tags

section Leaves

variable {s t : Wm} {c : Window} (h : s.Consistent)

include h

theorem Consistent.leaves (hst : s.Leaves t c) : t.Consistent where
  selmon := hst.monCount ▸ hst.selmon ▸ h.selmon
  nodup i hi := by
    rw [hst.monCount] at hi
    rw [hst.clients i hi]
    exact (h.nodup i hi).erase c
  perm i hi := by
    rw [hst.monCount] at hi
    rw [hst.clients i hi, hst.stack i hi]
    exact (h.perm i hi).erase c
  owner i hi d hd := by
    rw [hst.monCount] at hi
    rw [hst.clients i hi] at hd
    rw [hst.client]
    exact h.owner i hi d (List.mem_of_mem_erase hd)
  sel i hi := hst.sel i (hst.monCount ▸ hi)
  tagset i hi b := hst.tagset i ▸ h.tagset i (hst.monCount ▸ hi) b
  tags i hi d hd := by
    rw [hst.monCount] at hi
    rw [hst.clients i hi] at hd
    rw [hst.client]
    exact h.tags i hi d (List.mem_of_mem_erase hd)

theorem Leaves.manages (hst : s.Leaves t c) (d : Window) :
    t.Manages d ↔ s.Manages d ∧ d ≠ c := by
  rw [Manages, Manages, hst.monCount, hst.client]
  constructor
  · rintro ⟨hi, hd⟩
    rw [hst.clients _ hi, (h.nodup _ hi).mem_erase_iff] at hd
    exact ⟨⟨hi, hd.2⟩, hd.1⟩
  · rintro ⟨⟨hi, hd⟩, hne⟩
    rw [hst.clients _ hi, (h.nodup _ hi).mem_erase_iff]
    exact ⟨hi, hne, hd⟩

theorem not_mem_of_ne_mon {i : Nat} (hi : i < s.monCount)
    (hne : i ≠ (s.client c).mon) : c ∉ (s.mon i).clients :=
  fun hc => hne (h.owner i hi c hc).symm

theorem detachStack_detach_leaves :
    s.Leaves ((s.detach c).detachStack c) c where
  monCount := rfl
  netClientList := rfl
  selmon := rfl
  clients i hi := by
    by_cases hmon : i = (s.client c).mon
    · rw [hmon]
      simp [detach, detachStack]
    · rw [List.erase_of_not_mem (not_mem_of_ne_mon h hi hmon)]
      simp [detach, detachStack, modMon_mon_of_ne, hmon]
  stack i hi := by
    by_cases hmon : i = (s.client c).mon
    · rw [hmon]
      simp [detach, detachStack]
    · have hstack : c ∉ (s.mon i).stack := fun hmem =>
        not_mem_of_ne_mon h hi hmon ((h.perm i hi).mem_iff.1 hmem)
      rw [List.erase_of_not_mem hstack]
      simp [detach, detachStack, modMon_mon_of_ne, hmon]
  sel i hi d hd := by
    by_cases hmon : i = (s.client c).mon
    · subst hmon
      simp only [detach, detachStack, modMon_client, modMon_mon_self] at hd ⊢
      split at hd
      · exact ((h.perm _ hi).erase c).mem_iff.1
          (List.mem_of_find?_eq_some hd)
      · next hsel =>
          have hne : d ≠ c := fun heq => hsel (heq ▸ hd)
          exact (List.mem_erase_of_ne hne).2 (h.sel _ hi d hd)
    · simp only [detach, detachStack, modMon_client, modMon_mon_of_ne _ _ hmon]
        at hd ⊢
      exact h.sel i hi d hd
  tagset i := by
    rw [detachStack, modMon_field Monitor.tagset _ rfl, detach,
      modMon_field Monitor.tagset _ rfl]
  seltags i := by
    rw [detachStack, modMon_field Monitor.seltags _ rfl, detach,
      modMon_field Monitor.seltags _ rfl]
  client := rfl
  shown := rfl

end Leaves

section Enters

variable {s t : Wm} {c : Window} {i : Nat} (h : s.Consistent)

theorem Enters.mem_iff (hst : s.Enters t c i) (j : Nat) (d : Window) :
    d ∈ (t.mon j).clients ↔ d ∈ (s.mon j).clients ∨ j = i ∧ d = c := by
  by_cases hj : j = i
  · rw [hj, hst.clients_at.mem_iff, List.mem_cons]
    simp [or_comm]
  · rw [hst.clients j hj]
    simp [hj]

include h

theorem Consistent.enters (hst : s.Enters t c i) : t.Consistent where
  selmon := hst.monCount ▸ hst.selmon ▸ h.selmon
  nodup j hj := by
    rw [hst.monCount] at hj
    by_cases hji : j = i
    · rw [hji, hst.clients_at.nodup_iff, List.nodup_cons]
      exact ⟨hst.fresh i hst.target, h.nodup i hst.target⟩
    · rw [hst.clients j hji]
      exact h.nodup j hj
  perm j hj := by
    rw [hst.monCount] at hj
    by_cases hji : j = i
    · rw [hji, hst.stack_at]
      exact ((h.perm i hst.target).cons c).trans hst.clients_at.symm
    · rw [hst.clients j hji, hst.stack j hji]
      exact h.perm j hj
  owner j hj d hd := by
    rw [hst.monCount] at hj
    rcases (hst.mem_iff j d).1 hd with hmem | ⟨rfl, rfl⟩
    · have hne : d ≠ c := fun heq => hst.fresh j hj (heq ▸ hmem)
      rw [hst.client d hne]
      exact h.owner j hj d hmem
    · exact hst.owner
  sel j hj d hd := by
    rw [hst.monCount] at hj
    apply (hst.mem_iff j d).2
    rcases hst.sel j d hd with hsel | hnew
    · exact Or.inl (h.sel j hj d hsel)
    · exact Or.inr hnew
  tagset j hj b := hst.tagset j ▸ h.tagset j (hst.monCount ▸ hj) b
  tags j hj d hd := by
    rw [hst.monCount] at hj
    rcases (hst.mem_iff j d).1 hd with hmem | ⟨_, rfl⟩
    · have hne : d ≠ c := fun heq => hst.fresh j hj (heq ▸ hmem)
      rw [hst.client d hne]
      exact h.tags j hj d hmem
    · exact hst.tags

theorem Enters.manages (hst : s.Enters t c i) (d : Window) :
    t.Manages d ↔ s.Manages d ∨ d = c := by
  rw [← (h.enters hst).mem_managed, ← h.mem_managed]
  simp only [managed, List.mem_flatMap, List.mem_range, hst.monCount,
    hst.mem_iff]
  constructor
  · rintro ⟨j, hj, hd | ⟨_, hd⟩⟩
    · exact Or.inl ⟨j, hj, hd⟩
    · exact Or.inr hd
  · rintro (⟨j, hj, hd⟩ | hd)
    · exact ⟨j, hj, Or.inl hd⟩
    · exact ⟨i, hst.target, Or.inr ⟨rfl, hd⟩⟩

end Enters

section Attach

variable {s : Wm} {c : Window} {f : Client → Client}
  (hfresh : ∀ j < s.monCount, c ∉ (s.mon j).clients)
  (hmon : (f (s.client c)).mon < s.monCount)
  (htags : ValidTags (f (s.client c)).tags)

include hfresh hmon htags

/-- A client record is written and entered, in whatever place of the list. -/
theorem attachStack_enters {g : Monitor → Monitor}
    (hclients : ∀ m : Monitor, (g m).clients.Perm (c :: m.clients))
    (hstack : ∀ m : Monitor, (g m).stack = m.stack)
    (hsel : ∀ m : Monitor, (g m).sel = m.sel)
    (htagset : ∀ m : Monitor, (g m).tagset = m.tagset)
    (hseltags : ∀ m : Monitor, (g m).seltags = m.seltags) :
    s.Enters (((s.modClient c f).modMon (f (s.client c)).mon g).attachStack c)
      c (f (s.client c)).mon where
  fresh := hfresh
  target := hmon
  monCount := rfl
  netClientList := rfl
  selmon := rfl
  clients_at := by
    simp only [attachStack, modMon_client, modClient_client_self,
      modMon_mon_self]
    exact hclients _
  clients j hj := by
    simp [attachStack, modMon_mon_of_ne, hj]
  stack_at := by
    simp [attachStack, hstack]
  stack j hj := by
    simp [attachStack, modMon_mon_of_ne, hj]
  sel j d hd := by
    rw [attachStack, modMon_field Monitor.sel _ rfl,
      modMon_field Monitor.sel _ (hsel _)] at hd
    exact Or.inl hd
  tagset j := by
    rw [attachStack, modMon_field Monitor.tagset _ rfl,
      modMon_field Monitor.tagset _ (htagset _)]
    rfl
  seltags j := by
    rw [attachStack, modMon_field Monitor.seltags _ rfl,
      modMon_field Monitor.seltags _ (hseltags _)]
    rfl
  shown := rfl
  client d hd := modClient_client_of_ne s f hd
  owner := by simp [attachStack]
  tags := by simpa [attachStack] using htags

theorem attachBottom_enters :
    s.Enters (((s.modClient c f).attachBottom c).attachStack c) c
      (f (s.client c)).mon := by
  rw [attachBottom, modClient_client_self]
  exact attachStack_enters hfresh hmon htags
    (fun _ => List.perm_append_singleton _ _) (fun _ => rfl) (fun _ => rfl)
    (fun _ => rfl) fun _ => rfl

theorem attach_enters :
    s.Enters (((s.modClient c f).attach c).attachStack c) c
      (f (s.client c)).mon := by
  rw [attach, modClient_client_self]
  exact attachStack_enters hfresh hmon htags (fun _ => .refl _)
    (fun _ => rfl) (fun _ => rfl) (fun _ => rfl) fun _ => rfl

end Attach

/-- The monitor selects the client that it has got. -/
theorem Enters.select {s t : Wm} {c : Window} {i : Nat}
    (hst : s.Enters t c i) :
    s.Enters (t.modMon i fun m => { m with sel := some c }) c i where
  fresh := hst.fresh
  target := hst.target
  monCount := hst.monCount
  netClientList := hst.netClientList
  selmon := hst.selmon
  clients_at := by
    rw [modMon_field Monitor.clients t rfl]
    exact hst.clients_at
  clients j hj := by
    rw [modMon_field Monitor.clients t rfl]
    exact hst.clients j hj
  stack_at := by
    rw [modMon_field Monitor.stack t rfl]
    exact hst.stack_at
  stack j hj := by
    rw [modMon_field Monitor.stack t rfl]
    exact hst.stack j hj
  sel j d hd := by
    by_cases hj : j = i
    · rw [hj, modMon_mon_self] at hd
      exact Or.inr ⟨hj, (Option.some.inj hd).symm⟩
    · rw [modMon_mon_of_ne t _ hj] at hd
      exact hst.sel j d hd
  tagset j := by
    rw [modMon_field Monitor.tagset t rfl]
    exact hst.tagset j
  seltags j := by
    rw [modMon_field Monitor.seltags t rfl]
    exact hst.seltags j
  shown := hst.shown
  client := hst.client
  owner := hst.owner
  tags := hst.tags

section Moves

variable {s : Wm} (h : s.Consistent)

include h

theorem view_valid {i : Nat} (hi : i < s.monCount) :
    ValidTags (s.mon i).view :=
  h.tagset i hi _

/-- The state in which `sendmon` has moved the client. -/
theorem sendMon_moved (c : Window) {i : Nat} (hi : i < s.monCount) :
    let removed := (s.detach c).detachStack c
    removed.Enters (((removed.modClient c fun client => { client with
      mon := i, tags := (removed.mon i).view }).attachBottom c).attachStack c)
      c i := by
  intro removed
  have hleaves : s.Leaves removed c := detachStack_detach_leaves h
  have hconsistent := h.leaves hleaves
  have hfresh : ∀ j < removed.monCount, c ∉ (removed.mon j).clients := by
    intro j hj
    rw [hleaves.clients j hj, (h.nodup j hj).mem_erase_iff]
    exact fun hc => hc.1 rfl
  have hvalid := view_valid hconsistent (hleaves.monCount ▸ hi)
  exact attachBottom_enters hfresh hi hvalid

theorem sendMon_consistent (c : Window) {i : Nat} (hi : i < s.monCount) :
    (s.sendMon c i).Consistent := by
  unfold sendMon
  split
  · exact h
  · have hmoved := sendMon_moved h c hi
    have hleaves := h.leaves (detachStack_detach_leaves h (c := c))
    have hconsistent := hleaves.enters hmoved
    exact (hconsistent.ordinary (focusNone_ordinary hconsistent)).ordinary
      (arrangeAll_quiet _).ordinary

end Moves

/-- Besides, the list that dwm publishes names every client once. -/
structure Tidy (s : Wm) : Prop where
  consistent : s.Consistent
  published : s.netClientList.Perm s.managed

/-- A step that lets no client go, and takes on only windows of a list. -/
structure Follows (s t : Wm) (mapped : List Window) : Prop where
  tidy : t.Tidy
  kept : ∀ d, s.Manages d → t.Manages d
  added : ∀ d, t.Manages d → s.Manages d ∨ d ∈ mapped

theorem Follows.trans {s t u : Wm} {first last mapped : List Window}
    (hst : s.Follows t first) (htu : t.Follows u last)
    (hfirst : first ⊆ mapped) (hlast : last ⊆ mapped) :
    s.Follows u mapped where
  tidy := htu.tidy
  kept d hd := htu.kept d (hst.kept d hd)
  added d hd := by
    rcases htu.added d hd with hmanaged | hnew
    · exact (hst.added d hmanaged).imp_right fun hnew => hfirst hnew
    · exact Or.inr (hlast hnew)

namespace Tidy

variable {s t : Wm} (h : s.Tidy)

include h

/-- A step that keeps the clients and the published list. -/
theorem follows (ht : t.Consistent) (hnet : t.netClientList = s.netClientList)
    (hmanages : ∀ d, t.Manages d ↔ s.Manages d) (mapped : List Window) :
    s.Follows t mapped where
  tidy := by
    refine ⟨ht, hnet ▸ h.published.trans ?_⟩
    rw [List.perm_ext_iff_of_nodup h.consistent.managed_nodup
      ht.managed_nodup]
    intro d
    rw [h.consistent.mem_managed, ht.mem_managed, hmanages]
  kept d hd := (hmanages d).2 hd
  added d hd := Or.inl ((hmanages d).1 hd)

theorem refl (mapped : List Window) : s.Follows s mapped :=
  h.follows h.consistent rfl (fun _ => Iff.rfl) mapped

theorem ordinary (hst : s.Ordinary t) (mapped : List Window) :
    s.Follows t mapped :=
  h.follows (h.consistent.ordinary hst) hst.netClientList hst.manages mapped

theorem quiet (hst : s.Quiet t) (mapped : List Window) :
    s.Follows t mapped :=
  h.ordinary hst.ordinary mapped

end Tidy

section Moves

variable {s : Wm}

theorem sendMon_follows (h : s.Tidy) {c : Window} (hc : s.Manages c)
    {i : Nat} (hi : i < s.monCount) (mapped : List Window) :
    s.Follows (s.sendMon c i) mapped := by
  unfold sendMon
  split
  · exact h.refl mapped
  · have hleaves := detachStack_detach_leaves h.consistent (c := c)
    have hmoved := sendMon_moved h.consistent c hi
    have hremoved := h.consistent.leaves hleaves
    have hconsistent := hremoved.enters hmoved
    have hlast := (focusNone_ordinary hconsistent).trans
      (arrangeAll_quiet _).ordinary
    refine h.follows (hconsistent.ordinary hlast) ?_ (fun d => ?_) mapped
    · exact hlast.netClientList.trans
        (hmoved.netClientList.trans hleaves.netClientList)
    · rw [hlast.manages, hmoved.manages hremoved, hleaves.manages h.consistent]
      by_cases hd : d = c
      · simp [hd, hc]
      · simp [hd]

theorem sendMon_monCount (s : Wm) (c : Window) (i : Nat) :
    (s.sendMon c i).monCount = s.monCount := by
  unfold sendMon
  split
  · rfl
  · exact (arrangeAll_quiet _).monCount.trans (focus_monCount _ _)

theorem tagMon_follows (h : s.Tidy) (dir : Int) (mapped : List Window) :
    s.Follows (s.tagMon dir) mapped := by
  unfold tagMon
  split
  · exact h.refl mapped
  · next c hc =>
      split
      · exact h.refl mapped
      · have hmanages :=
          (h.consistent.manages_of_sel h.consistent.selmon hc).1
        exact sendMon_follows h hmanages (dirToMon_lt h.consistent dir) mapped

end Moves

section Records

@[simp] theorem enterFullscreen_mon (c : Client) :
    (enterFullscreen c).mon = c.mon := by
  unfold enterFullscreen
  split <;> rfl

@[simp] theorem enterFullscreen_tags (c : Client) :
    (enterFullscreen c).tags = c.tags := by
  unfold enterFullscreen
  split <;> rfl

@[simp] theorem updateWmHints_mon (selected : Bool) (hints : Option WmHints)
    (c : Client) : (updateWmHints selected hints c).mon = c.mon := by
  cases hints <;> rfl

@[simp] theorem updateWmHints_tags (selected : Bool) (hints : Option WmHints)
    (c : Client) : (updateWmHints selected hints c).tags = c.tags := by
  cases hints <;> rfl

theorem newClient_mon (s : Wm) (x : WindowInfo) :
    (s.newClient x).mon = (s.placeClient x).mon := by
  unfold newClient
  extract_lets placed typed typed' hinted
  have htyped : typed.mon = placed.mon := by
    unfold typed
    split <;> simp
  have htyped' : typed'.mon = placed.mon := by
    unfold typed'
    split <;> exact htyped
  have hhinted : hinted.mon = placed.mon := by
    simp [hinted, updateSizeHints, htyped']
  split <;> exact hhinted

theorem newClient_tags (s : Wm) (x : WindowInfo) :
    (s.newClient x).tags = (s.placeClient x).tags := by
  unfold newClient
  extract_lets placed typed typed' hinted
  have htyped : typed.tags = placed.tags := by
    unfold typed
    split <;> simp
  have htyped' : typed'.tags = placed.tags := by
    unfold typed'
    split <;> exact htyped
  have hhinted : hinted.tags = placed.tags := by
    simp [hinted, updateSizeHints, htyped']
  split <;> exact hhinted

end Records

section Manage

variable {s : Wm}

theorem applyRule_mon_lt (x : WindowInfo) (r : Rule) {c : Client}
    (hc : c.mon < s.monCount) : (s.applyRule x c r).mon < s.monCount := by
  unfold applyRule
  split
  · cases hfind : (List.range s.monCount).find? fun i =>
        (s.mon i).num = r.monitor with
    | none => simpa [hfind] using hc
    | some i =>
        have hi := List.mem_range.1 (List.mem_of_find?_eq_some hfind)
        simpa [hfind] using hi
  · exact hc

theorem applyRules_mon_lt (x : WindowInfo) {c : Client}
    (hc : c.mon < s.monCount) : (s.applyRules x c).mon < s.monCount := by
  have hfold : ∀ (rs : List Rule) (c : Client), c.mon < s.monCount →
      (rs.foldl (s.applyRule x) c).mon < s.monCount := by
    intro rs
    induction rs with
    | nil => exact fun _ hc => hc
    | cons r rs ih => exact fun c hc => ih _ (applyRule_mon_lt x r hc)
  exact hfold rules _ hc

variable (h : s.Consistent)

include h

theorem applyRules_tags (x : WindowInfo) {c : Client}
    (hc : c.mon < s.monCount) : ValidTags (s.applyRules x c).tags := by
  have hmon := applyRules_mon_lt x hc
  unfold applyRules at hmon ⊢
  dsimp only at hmon ⊢
  split
  · next htags => exact validTags_mask htags
  · exact view_valid h hmon

/-- A new client belongs to a monitor and has a tag. -/
theorem newClient_placed (x : WindowInfo) :
    (s.newClient x).mon < s.monCount ∧ ValidTags (s.newClient x).tags := by
  rw [newClient_mon, newClient_tags]
  unfold placeClient
  split
  · next t ht =>
      obtain ⟨w, _, hw⟩ := Option.bind_eq_some_iff.1 ht
      obtain ⟨rfl, hmem⟩ := winToClient_eq_some hw
      have hmanages := h.mem_managed.1 hmem
      exact ⟨hmanages.1, h.tags _ hmanages.1 t hmanages.2⟩
  · exact ⟨applyRules_mon_lt x h.selmon, applyRules_tags h x h.selmon⟩

/-- The state in which `manage` has entered a window that is not managed. -/
theorem manage_entered {w : Window} (hw : w ∉ s.managed) (x : WindowInfo) :
    ∃ t : Wm, { s with
        shown := Function.update s.shown w false
        netClientList := s.netClientList ++ [w] }.Enters t w (s.newClient x).mon
      ∧ s.manage w x = (t.arrange (s.newClient x).mon).focus none := by
  have hfresh : ∀ j < s.monCount, w ∉ (s.mon j).clients := fun j hj hmem =>
    hw (h.mem_managed.2 (h.manages hj hmem))
  have hplaced := newClient_placed h x
  have henters := attachBottom_enters (s := { s with
    shown := Function.update s.shown w false
    netClientList := s.netClientList ++ [w] })
    (f := fun _ => s.newClient x) hfresh hplaced.1 hplaced.2
  exact ⟨_, henters.select, rfl⟩

end Manage

theorem manage_follows {s : Wm} (h : s.Tidy) {w : Window}
    (hw : w ∉ s.managed) (x : WindowInfo) : s.Follows (s.manage w x) [w] := by
  obtain ⟨t, hst, heq⟩ := manage_entered h.consistent hw x
  have hstart : Consistent { s with
      shown := Function.update s.shown w false
      netClientList := s.netClientList ++ [w] } := { h.consistent with }
  have ht := hstart.enters hst
  have hquiet := arrange_quiet t (s.newClient x).mon
  have hlast := hquiet.ordinary.trans
    (focusNone_ordinary (ht.ordinary hquiet.ordinary))
  have hmanages : ∀ d, (s.manage w x).Manages d ↔ s.Manages d ∨ d = w := by
    intro d
    rw [heq, hlast.manages, hst.manages hstart]
    rfl
  have hconsistent : (s.manage w x).Consistent := heq ▸ ht.ordinary hlast
  refine ⟨⟨hconsistent, ?_⟩, fun d hd => (hmanages d).2 (Or.inl hd),
    fun d hd => ((hmanages d).1 hd).imp_right fun hdw => by simp [hdw]⟩
  have hnet : (s.manage w x).netClientList = s.netClientList ++ [w] := by
    rw [heq, hlast.netClientList, hst.netClientList]
  have hfresh : w ∉ s.netClientList :=
    fun hmem => hw (h.published.mem_iff.1 hmem)
  have hnodup : (s.netClientList ++ [w]).Nodup := by
    rw [List.nodup_append_comm]
    exact List.nodup_cons.2 ⟨hfresh,
      h.published.nodup_iff.2 h.consistent.managed_nodup⟩
  rw [hnet, List.perm_ext_iff_of_nodup hnodup hconsistent.managed_nodup]
  intro d
  rw [hconsistent.mem_managed, hmanages, List.mem_append,
    h.published.mem_iff, h.consistent.mem_managed, List.mem_singleton]

theorem mapRequest_follows {s : Wm} (h : s.Tidy) (w : Window)
    (x : WindowInfo) : s.Follows (s.mapRequest w x) [w] := by
  unfold mapRequest
  split
  · exact h.refl _
  · split
    · exact h.refl _
    · next hnone =>
        refine manage_follows h (fun hmem => hnone ?_) x
        exact List.find?_isSome.2 ⟨w, hmem, beq_self_eq_true w⟩

theorem unmanage_tidy {s : Wm} (h : s.Consistent) (c : Window) :
    (s.unmanage c).Tidy ∧
      ∀ d, (s.unmanage c).Manages d ↔ s.Manages d ∧ d ≠ c := by
  have hleaves := detachStack_detach_leaves h (c := c)
  have hremoved := h.leaves hleaves
  have hfocus := focusNone_ordinary hremoved
  have hconsistent := hremoved.ordinary hfocus
  refine ⟨⟨{ hconsistent with }, List.Perm.refl _⟩, fun d => ?_⟩
  exact (hfocus.manages d).trans (hleaves.manages h d)

section Pointer

theorem rectToMon_lt {s : Wm} (h : s.selmon < s.monCount) (r : Rect) :
    s.rectToMon r < s.monCount := by
  have hfold : ∀ (is : List Nat) (best : Nat × Int),
      (∀ i ∈ is, i < s.monCount) → best.1 < s.monCount →
      (is.foldl (fun best i =>
        let a := intersect r (s.mon i).window
        if a > best.2 then (i, a) else best) best).1 < s.monCount := by
    intro is
    induction is with
    | nil => exact fun _ _ hbest => hbest
    | cons i is ih =>
        intro best his hbest
        apply ih _ fun j hj => his j (List.mem_cons_of_mem i hj)
        dsimp only
        split
        · exact his i List.mem_cons_self
        · exact hbest
  exact hfold _ _ (fun i hi => List.mem_range.1 hi) h

theorem pointerMon_lt {s : Wm} (h : s.selmon < s.monCount)
    (pointer : Option (Int × Int)) : s.pointerMon pointer < s.monCount := by
  cases pointer with
  | none => exact h
  | some at_ => exact rectToMon_lt h _

variable {s : Wm} (h : s.Consistent)

include h

theorem manages_of_winToClient {w c : Window}
    (hw : s.winToClient w = some c) : s.Manages c := by
  obtain ⟨rfl, hmem⟩ := winToClient_eq_some hw
  exact h.mem_managed.1 hmem

theorem winToMon_lt (at_ : Target) : s.winToMon at_ < s.monCount := by
  cases at_ with
  | root pointer => exact pointerMon_lt h.selmon pointer
  | bar i =>
      simp only [winToMon]
      split
      · next hi => exact hi
      · exact h.selmon
  | window w =>
      simp only [winToMon]
      split
      · next c hc => exact (manages_of_winToClient h hc).1
      · exact h.selmon

theorem targetClient_manages (at_ : Target) :
    ∀ c, s.targetClient at_ = some c → s.Manages c := by
  intro c hc
  cases at_ with
  | root pointer => cases hc
  | bar i => cases hc
  | window w => exact manages_of_winToClient h hc

theorem enterNotify_ordinary (passed : Bool) (at_ : Target) :
    s.Ordinary (s.enterNotify passed at_) := by
  have htarget := targetClient_manages h at_
  unfold enterNotify
  extract_lets onRoot c i
  split
  · exact .refl s
  · split
    · exact focusOn_ordinary h (winToMon_lt h at_) htarget
    · split
      · exact .refl s
      · exact focus_ordinary h htarget

theorem motionNotify_ordinary (x y : Int) :
    s.Ordinary (s.motionNotify x y) := by
  unfold motionNotify
  extract_lets i moved t
  have hfocused : s.Ordinary t := by
    unfold t
    split
    · exact focusOnNone_ordinary h (rectToMon_lt h.selmon _)
    · exact .refl s
  have hpointed : t.Quiet { t with pointed := some i } :=
    .of_eq rfl rfl rfl rfl rfl
  exact hfocused.trans hpointed.ordinary

end Pointer

end Wm

end Dwm

end Bodhi
