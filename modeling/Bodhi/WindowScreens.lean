/-
Screens that come and go: `updategeom` makes one monitor for each of them and
moves the clients of a monitor that goes to the first one.
-/
import Bodhi.WindowMoves

namespace Bodhi

namespace Dwm

namespace Wm

section Screens

theorem modMon_congr (s : Wm) (i : Nat) {f g : Monitor → Monitor}
    (h : f (s.mon i) = g (s.mon i)) : s.modMon i f = s.modMon i g := by
  rw [modMon, modMon, h]

/-- One round of the loop that moves the clients of a removed monitor. -/
theorem rehome_step {s : Wm} (h : s.Tidy) {i : Nat} (hi : i < s.monCount)
    (hne : i ≠ 0) {c : Window} {rest : List Window}
    (hclients : (s.mon i).clients = c :: rest) :
    let t := ((((s.modMon i fun m => { m with clients := rest }).detachStack
      c).modClient c fun client => { client with mon := 0 }).attach c).attachStack
      c
    s.Follows t [] ∧ (t.mon i).clients = rest ∧ t.monCount = s.monCount := by
  intro t
  have hmem : c ∈ (s.mon i).clients := hclients ▸ List.mem_cons_self
  have howner := h.consistent.owner i hi c hmem
  have hdetach : s.modMon i (fun m => { m with clients := rest }) =
      s.detach c := by
    rw [detach, howner]
    apply modMon_congr
    simp [hclients]
  have hleaves := detachStack_detach_leaves h.consistent (c := c)
  have hremoved := h.consistent.leaves hleaves
  have hfresh : ∀ j < ((s.detach c).detachStack c).monCount,
      c ∉ (((s.detach c).detachStack c).mon j).clients := by
    intro j hj
    rw [hleaves.clients j hj, (h.consistent.nodup j hj).mem_erase_iff]
    exact fun hc => hc.1 rfl
  have henters := attach_enters (f := fun client => { client with mon := 0 })
    hfresh (Nat.zero_lt_of_lt hi) (h.consistent.tags i hi c hmem)
  have ht : t = ((((s.detach c).detachStack c).modClient c fun client =>
      { client with mon := 0 }).attach c).attachStack c := by
    rw [← hdetach]
  rw [ht]
  refine ⟨h.follows (hremoved.enters henters)
    (henters.netClientList.trans hleaves.netClientList) (fun d => ?_) [],
    ?_, rfl⟩
  · rw [henters.manages hremoved, hleaves.manages h.consistent]
    by_cases hd : d = c
    · simp [hd, h.consistent.manages hi hmem]
    · simp [hd]
  · rw [henters.clients i hne, hleaves.clients i hi, hclients,
      List.erase_cons_head]

theorem rehome_follows {s : Wm} (h : s.Tidy) {i : Nat} (hi : i < s.monCount)
    (hne : i ≠ 0) {clients : List Window}
    (hclients : (s.mon i).clients = clients) :
    s.Follows (s.rehome i clients) [] ∧
      ((s.rehome i clients).mon i).clients = [] ∧
      (s.rehome i clients).monCount = s.monCount := by
  induction clients generalizing s with
  | nil => exact ⟨h.refl [], hclients, rfl⟩
  | cons c rest ih =>
      obtain ⟨hfollows, hrest, hcount⟩ := rehome_step h hi hne hclients
      obtain ⟨hlast, hempty, hcount'⟩ :=
        ih hfollows.tidy (hcount ▸ hi) hrest
      exact ⟨hfollows.trans hlast (List.Subset.refl _) (List.Subset.refl _),
        hempty, hcount'.trans hcount⟩

/-- A monitor goes when its clients have gone to the first one. -/
theorem dropMon_follows {s : Wm × Bool} (h : s.1.Tidy)
    (hcount : 1 < s.1.monCount) :
    s.1.Follows (dropMon s).1 [] ∧
      (dropMon s).1.monCount = s.1.monCount - 1 := by
  obtain ⟨hfollows, hempty, hsame⟩ := rehome_follows h
    (i := s.1.monCount - 1) (by omega) (by omega) rfl
  refine ⟨hfollows.trans ?_ (List.Subset.refl _) (List.Subset.refl _), rfl⟩
  have ht := hfollows.tidy
  generalize hlast : s.1.monCount - 1 = last at *
  generalize hrehomed : s.1.rehome last (s.1.mon last).clients = t at *
  have hdrop : (dropMon s).1 = { t with
      selmon := if last = t.selmon then 0 else t.selmon
      monCount := last } := by
    simp only [dropMon, hlast, hrehomed]
  rw [hdrop]
  have hlt : ∀ {i}, i < last → i < t.monCount := by omega
  have hselmon := ht.consistent.selmon
  have hconsistent : Consistent { t with
      selmon := if last = t.selmon then 0 else t.selmon
      monCount := last } := by
    refine ⟨?_, fun i hi => ht.consistent.nodup i (hlt hi),
      fun i hi => ht.consistent.perm i (hlt hi),
      fun i hi => ht.consistent.owner i (hlt hi),
      fun i hi => ht.consistent.sel i (hlt hi),
      fun i hi => ht.consistent.tagset i (hlt hi),
      fun i hi => ht.consistent.tags i (hlt hi)⟩
    dsimp only
    split <;> omega
  refine ht.follows hconsistent rfl (fun d => ?_) []
  constructor
  · rintro ⟨hi, hd⟩
    exact ⟨hlt hi, hd⟩
  · rintro ⟨hi, hd⟩
    refine ⟨?_, hd⟩
    have hne : (t.client d).mon ≠ last := by
      intro heq
      rw [heq, hempty] at hd
      cases hd
    change (t.client d).mon < last
    omega

theorem dropMons_follows (k : Nat) {s : Wm × Bool} (h : s.1.Tidy)
    (hcount : k < s.1.monCount) :
    s.1.Follows (dropMon^[k] s).1 [] := by
  induction k generalizing s with
  | zero => exact h.refl []
  | succ k ih =>
      obtain ⟨hfollows, hone⟩ := dropMon_follows h (by omega)
      exact hfollows.trans (ih hfollows.tidy (by omega))
        (List.Subset.refl _) (List.Subset.refl _)

theorem validTags_one : ValidTags 1 := ⟨by decide, by decide⟩

theorem addMon_follows {s : Wm} (h : s.Tidy) :
    s.Follows s.addMon [] := by
  have hmon : ∀ {i}, i < s.monCount → s.addMon.mon i = s.mon i :=
    fun hi => Function.update_of_ne (Nat.ne_of_lt hi) _ _
  have hnew : s.addMon.mon s.monCount = createMon :=
    Function.update_self _ _ _
  have hcases : ∀ {i}, i < s.addMon.monCount → i < s.monCount ∨
      i = s.monCount := fun hi => Nat.lt_succ_iff_lt_or_eq.1 hi
  have hc := h.consistent
  have hconsistent : s.addMon.Consistent := by
    refine ⟨Nat.lt_succ_of_lt hc.selmon, ?_, ?_, ?_, ?_, ?_, ?_⟩ <;>
      intro i hi <;> rcases hcases hi with hlt | rfl
    · exact hmon hlt ▸ hc.nodup i hlt
    · exact hnew ▸ List.nodup_nil
    · exact hmon hlt ▸ hc.perm i hlt
    · exact hnew ▸ List.Perm.refl _
    · exact hmon hlt ▸ hc.owner i hlt
    · exact hnew ▸ fun _ hmem => nomatch hmem
    · exact hmon hlt ▸ hc.sel i hlt
    · exact hnew ▸ fun _ hsel => nomatch hsel
    · exact hmon hlt ▸ hc.tagset i hlt
    · exact hnew ▸ fun _ => validTags_one
    · exact hmon hlt ▸ hc.tags i hlt
    · exact hnew ▸ fun _ hmem => nomatch hmem
  refine h.follows hconsistent rfl (fun d => ?_) []
  constructor
  · rintro ⟨hi, hd⟩
    rcases hcases hi with hlt | heq
    · exact ⟨hlt, (hmon hlt) ▸ hd⟩
    · have howner : (s.addMon.client d).mon = s.monCount := heq
      rw [howner, hnew] at hd
      cases hd
  · rintro ⟨hi, hd⟩
    exact ⟨Nat.lt_succ_of_lt hi, (hmon hi).symm ▸ hd⟩

end Screens

section Geometry

theorem placeMon_quiet (n : Nat) (s : Wm × Bool) (screen : Rect × Nat) :
    s.1.Quiet (placeMon n s screen).1 := by
  unfold placeMon
  split
  · dsimp only
    exact .modMon s.1 _ (.refl _) rfl rfl rfl rfl
  · exact .refl s.1

theorem placeMons_quiet (n : Nat) (screens : List (Rect × Nat))
    (s : Wm × Bool) : s.1.Quiet (screens.foldl (placeMon n) s).1 := by
  induction screens generalizing s with
  | nil => exact .refl s.1
  | cons screen rest ih => exact (placeMon_quiet n s screen).trans (ih _)

theorem addMons_follows (k : Nat) {s : Wm} (h : s.Tidy) :
    s.Follows (addMon^[k] s) [] := by
  induction k generalizing s with
  | zero => exact h.refl []
  | succ k ih =>
      have hone := addMon_follows h
      exact hone.trans (ih hone.tidy) (List.Subset.refl _)
        (List.Subset.refl _)

theorem addMons_monCount (k : Nat) (s : Wm) :
    (addMon^[k] s).monCount = s.monCount + k := by
  induction k generalizing s with
  | zero => rfl
  | succ k ih =>
      have hone : s.addMon.monCount = s.monCount + 1 := rfl
      rw [Function.iterate_succ_apply, ih, hone]
      omega

/-- The first screen is always one of those that count. -/
theorem uniqueScreens_ne_nil (first : Rect) (others : List Rect) :
    uniqueScreens (first :: others) ≠ [] := by
  have hfold : ∀ (screens unique : List Rect), unique ≠ [] →
      screens.foldl (fun unique r =>
        if r ∈ unique then unique else unique ++ [r]) unique ≠ [] := by
    intro screens
    induction screens with
    | nil => exact fun _ h => h
    | cons r screens ih =>
        intro unique h
        apply ih
        dsimp only
        split
        · exact h
        · simp
  exact hfold others [first] (List.cons_ne_nil _ _)

/-- The part of `updategeom` after the new monitors are there. -/
theorem placeDrop_follows {s : Wm} (h : s.Tidy) (n : Nat)
    (screens : List (Rect × Nat)) {k : Nat} (hk : k < s.monCount) :
    s.Follows (dropMon^[k] (screens.foldl (placeMon n) (s, false))).1 [] := by
  have hplaced := placeMons_quiet n screens (s, false)
  have hfollows := h.quiet hplaced []
  exact hfollows.trans
    (dropMons_follows k hfollows.tidy (hplaced.monCount.symm ▸ hk))
    (List.Subset.refl _) (List.Subset.refl _)

theorem updateMons_follows {s : Wm} (h : s.Tidy) (g : Geometry) :
    s.Follows (s.updateMons g).1 [] := by
  have hpos := h.consistent.selmon
  cases hscreens : g.screens with
  | none =>
      simp only [updateMons, hscreens, if_neg (show s.monCount ≠ 0 by omega)]
      split
      · dsimp only
        exact h.quiet (.modMon s _ (.refl _) rfl rfl rfl rfl) []
      · exact h.refl []
  | some screens =>
      obtain ⟨first, others⟩ := screens
      simp only [updateMons, hscreens]
      have hne := uniqueScreens_ne_nil first others
      have hlen := List.length_pos_iff.2 hne
      generalize hunique : uniqueScreens (first :: others) = unique at *
      have hgrown := addMons_follows (unique.length - s.monCount) h
      refine hgrown.trans (placeDrop_follows hgrown.tidy _ _ ?_)
        (List.Subset.refl _) (List.Subset.refl _)
      rw [addMons_monCount]
      omega

theorem updateGeom_selmon {s : Wm × Bool} (h : s.1.Tidy)
    (pointer : Option (Int × Int)) :
    s.1.Follows { { s.1 with selmon := 0 } with
      selmon := { s.1 with selmon := 0 }.pointerMon pointer } [] := by
  have hpos : 0 < s.1.monCount := Nat.zero_lt_of_lt h.consistent.selmon
  have hlt := pointerMon_lt (s := { s.1 with selmon := 0 }) hpos pointer
  have hselmon : s.1.Ordinary { { s.1 with selmon := 0 } with
      selmon := { s.1 with selmon := 0 }.pointerMon pointer } :=
    ⟨rfl, rfl, Or.inr hlt, fun _ => .refl _, fun _ => .refl _,
      fun _ _ hc => Or.inl hc, fun _ _ => Or.inl rfl, fun _ => rfl,
      fun _ => Or.inl rfl⟩
  exact h.ordinary hselmon []

theorem updateGeom_follows {s : Wm} (h : s.Tidy) (g : Geometry) :
    s.Follows (s.updateGeom g).1 [] := by
  have hmons := updateMons_follows h g
  unfold updateGeom
  dsimp only
  split
  · exact hmons.trans (updateGeom_selmon hmons.tidy g.pointer)
      (List.Subset.refl _) (List.Subset.refl _)
  · exact hmons

theorem configureNotify_follows {s : Wm} (h : s.Tidy) (g : Geometry) :
    s.Follows (s.configureNotify g) [] := by
  have hsize : s.Quiet { s with sw := g.width, sh := g.height } :=
    .of_eq rfl rfl rfl rfl rfl
  have hfirst := h.quiet hsize []
  have hgeom := updateGeom_follows hfirst.tidy g
  have hupdated := hfirst.trans hgeom (List.Subset.refl _)
    (List.Subset.refl _)
  unfold configureNotify
  extract_lets dirty t u v
  split
  · have hresized : u.Quiet v := .of_eq rfl rfl rfl rfl rfl
    have hv := hupdated.tidy.quiet hresized []
    have hlast := hv.tidy.ordinary
      ((focusNone_ordinary hv.tidy.consistent).trans
        (arrangeAll_quiet _).ordinary) []
    exact (hupdated.trans hv (List.Subset.refl _) (List.Subset.refl _)).trans
      hlast (List.Subset.refl _) (List.Subset.refl _)
  · exact hupdated

end Geometry

section Clean

theorem placeMon_clean (n : Nat) (s : Wm × Bool) (screen : Rect × Nat) :
    (placeMon n s screen).2 = true ∨
      placeMon n s screen = s ∧ screen.2 < n := by
  unfold placeMon
  split
  · exact Or.inl rfl
  · next hsame =>
      exact Or.inr ⟨rfl, Nat.lt_of_not_le fun hle => hsame (Or.inl hle)⟩

theorem placeMons_dirty (n : Nat) (screens : List (Rect × Nat))
    {s : Wm × Bool} (h : s.2 = true) :
    (screens.foldl (placeMon n) s).2 = true := by
  induction screens generalizing s with
  | nil => exact h
  | cons screen rest ih =>
      apply ih
      rcases placeMon_clean n s screen with hdirty | ⟨heq, _⟩
      · exact hdirty
      · rw [heq, h]

/-- Where the flag stays down no monitor has been placed anew. -/
theorem placeMons_clean {n : Nat} {screens : List (Rect × Nat)}
    {s : Wm × Bool} (h : (screens.foldl (placeMon n) s).2 = false) :
    screens.foldl (placeMon n) s = s ∧ ∀ screen ∈ screens, screen.2 < n := by
  induction screens with
  | nil => exact ⟨rfl, fun _ hmem => nomatch hmem⟩
  | cons screen rest ih =>
      rw [List.foldl_cons] at h ⊢
      rcases placeMon_clean n s screen with hdirty | ⟨heq, hlt⟩
      · rw [placeMons_dirty n rest hdirty] at h
        cases h
      · rw [heq] at h ⊢
        obtain ⟨hrest, hothers⟩ := ih h
        exact ⟨hrest, List.forall_mem_cons.2 ⟨hlt, hothers⟩⟩

/-- Where the flag stays down only monitors without clients have gone. -/
theorem dropMons_clean (k : Nat) {s : Wm × Bool}
    (h : (dropMon^[k] s).2 = false) :
    s.2 = false ∧ ∃ selmon, (dropMon^[k] s).1 = { s.1 with
        monCount := s.1.monCount - k, selmon := selmon } ∧
      (s.1.selmon < s.1.monCount - k → selmon = s.1.selmon) := by
  induction k generalizing s with
  | zero => exact ⟨h, s.1.selmon, rfl, fun _ => rfl⟩
  | succ k ih =>
      rw [Function.iterate_succ_apply] at h ⊢
      obtain ⟨hfirst, selmon, heq, hsel⟩ := ih h
      have hflags := Bool.or_eq_false_iff.1 hfirst
      have hempty : (s.1.mon (s.1.monCount - 1)).clients = [] := by
        simpa using hflags.2
      have hdrop : (dropMon s).1 = { s.1 with
          monCount := s.1.monCount - 1
          selmon := if s.1.monCount - 1 = s.1.selmon then 0
            else s.1.selmon } := by
        simp only [dropMon, hempty, rehome]
      refine ⟨hflags.1, selmon, ?_, fun hlt => ?_⟩
      · rw [heq, hdrop]
        simp only [Nat.sub_sub, Nat.add_comm]
      · have hne : s.1.monCount - 1 ≠ s.1.selmon := by omega
        rw [hdrop, if_neg hne] at hsel
        exact hsel (by dsimp only; omega)

/-- An update that finds nothing to do keeps every client where it is. -/
theorem updateMons_clean {s : Wm} (h : s.Consistent) {g : Geometry}
    (hclean : (s.updateMons g).2 = false) :
    ∃ k selmon, (s.updateMons g).1 = { s with
        monCount := s.monCount - k, selmon := selmon } ∧
      (s.selmon < s.monCount - k → selmon = s.selmon) ∧
      (g.screens = none → k = 0) ∧
      ∀ first others, g.screens = some (first, others) →
        s.monCount - k = (uniqueScreens (first :: others)).length := by
  have hpos := h.selmon
  cases hscreens : g.screens with
  | none =>
      simp only [updateMons, hscreens, if_neg (show s.monCount ≠ 0 by omega)]
        at hclean ⊢
      refine ⟨0, s.selmon, ?_, fun _ => rfl, fun _ => rfl,
        fun _ _ hsome => nomatch hsome⟩
      split at hclean
      · cases hclean
      · next hsame =>
          rw [if_neg hsame]
          rfl
  | some screens =>
      obtain ⟨first, others⟩ := screens
      simp only [updateMons, hscreens] at hclean ⊢
      obtain ⟨hplaced, selmon, heq, hsel⟩ := dropMons_clean _ hclean
      obtain ⟨hsame, hlt⟩ := placeMons_clean hplaced
      have hne := List.length_pos_iff.2 (uniqueScreens_ne_nil first others)
      have hlen : (uniqueScreens (first :: others)).length ≤ s.monCount := by
        have hlast : (uniqueScreens (first :: others)).length - 1 ∈
            (uniqueScreens (first :: others)).zipIdx.map Prod.snd := by
          rw [List.zipIdx_map_snd, List.mem_range'_1]
          omega
        obtain ⟨screen, hmem, hscreen⟩ := List.mem_map.1 hlast
        have hbelow := hlt screen hmem
        omega
      have hgrown : addMon^[(uniqueScreens (first :: others)).length -
          s.monCount] s = s := by
        rw [Nat.sub_eq_zero_of_le hlen]
        rfl
      rw [hgrown] at hsame heq hsel ⊢
      rw [hsame] at heq hsel ⊢
      refine ⟨_, selmon, heq, hsel, (fun hnone => nomatch hnone),
        fun _ _ hsome => ?_⟩
      cases hsome
      omega

end Clean

end Wm

end Dwm

end Bodhi
