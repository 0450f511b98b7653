/-
Where the clients are after a change of the screens: the monitors stand for
the screens in their order, and the clients of a monitor whose screen is gone
come before those of the first monitor.
-/
import Bodhi.WindowRuns

namespace Bodhi

namespace Dwm

namespace Wm

/-- The two states have the same clients on the same screens. -/
structure SamePlaces (s t : Wm) : Prop where
  monCount : t.monCount = s.monCount
  clients : ∀ i, (t.mon i).clients = (s.mon i).clients
  screen : ∀ i, (t.mon i).screen = (s.mon i).screen
  owner : ∀ c, (t.client c).mon = (s.client c).mon

namespace SamePlaces

theorem refl (s : Wm) : s.SamePlaces s :=
  ⟨rfl, fun _ => rfl, fun _ => rfl, fun _ => rfl⟩

theorem trans {s t u : Wm} (hst : s.SamePlaces t) (htu : t.SamePlaces u) :
    s.SamePlaces u where
  monCount := htu.monCount.trans hst.monCount
  clients i := (htu.clients i).trans (hst.clients i)
  screen i := (htu.screen i).trans (hst.screen i)
  owner c := (htu.owner c).trans (hst.owner c)

theorem focus (s : Wm) (target : Option Window) :
    s.SamePlaces (s.focus target) := by
  unfold Wm.focus
  dsimp only
  split
  · next c _ =>
      refine ⟨rfl, fun i => ?_, fun i => ?_, select_owner s c⟩
      · exact select_field s c Monitor.clients (fun _ _ _ => rfl) i
      · exact select_field s c Monitor.screen (fun _ _ _ => rfl) i
  · refine ⟨rfl, fun i => ?_, fun i => ?_, fun _ => rfl⟩
    · exact modMon_field Monitor.clients s rfl i
    · exact modMon_field Monitor.screen s rfl i

theorem arrangeAll (s : Wm) : s.SamePlaces s.arrangeAll := by
  have hfold : ∀ (is : List Nat) (t : Wm),
      t.SamePlaces (is.foldl arrange t) := by
    intro is
    induction is with
    | nil => exact refl
    | cons i is ih =>
        intro t
        have hone : t.SamePlaces (t.arrange i) :=
          ⟨rfl, fun _ => rfl, fun _ => rfl, fun _ => rfl⟩
        exact hone.trans (ih _)
  exact hfold _ s

end SamePlaces

section Rehome

/-- One round of the loop that moves the clients of a monitor that goes. -/
def rehomeOne (s : Wm) (i : Nat) (c : Window) (rest : List Window) : Wm :=
  ((((s.modMon i fun m => { m with clients := rest }).detachStack c).modClient c
    fun client => { client with mon := 0 }).attach c).attachStack c

theorem detachStack_places (s : Wm) (c : Window) (j : Nat) :
    ((s.detachStack c).mon j).clients = (s.mon j).clients ∧
      ((s.detachStack c).mon j).screen = (s.mon j).screen :=
  ⟨modMon_field Monitor.clients s rfl j, modMon_field Monitor.screen s rfl j⟩

theorem attachStack_places (s : Wm) (c : Window) (j : Nat) :
    ((s.attachStack c).mon j).clients = (s.mon j).clients ∧
      ((s.attachStack c).mon j).screen = (s.mon j).screen :=
  ⟨modMon_field Monitor.clients s rfl j, modMon_field Monitor.screen s rfl j⟩

theorem rehomeOne_screen (s : Wm) (i : Nat) (c : Window)
    (rest : List Window) (j : Nat) :
    ((s.rehomeOne i c rest).mon j).screen = (s.mon j).screen := by
  have hattach : ∀ t : Wm, ((t.attach c).mon j).screen = (t.mon j).screen :=
    fun t => modMon_field Monitor.screen t rfl j
  rw [rehomeOne, (attachStack_places _ c j).2, hattach, modClient_mon,
    (detachStack_places _ c j).2]
  exact modMon_field Monitor.screen s rfl j

theorem rehomeOne_clients (s : Wm) {i : Nat} (hi : i ≠ 0) (c : Window)
    (rest : List Window) (j : Nat) :
    ((s.rehomeOne i c rest).mon j).clients =
      if j = 0 then c :: (s.mon 0).clients
      else if j = i then rest
      else (s.mon j).clients := by
  rw [rehomeOne, (attachStack_places _ c j).1, attach, modClient_client_self]
  dsimp only
  by_cases hj : j = 0
  · rw [if_pos hj, hj, modMon_mon_self, modClient_mon]
    dsimp only
    rw [(detachStack_places _ c 0).1, modMon_mon_of_ne s _ hi.symm]
  · rw [if_neg hj, modMon_mon_of_ne _ _ hj, modClient_mon,
      (detachStack_places _ c j).1]
    split
    · next heq => rw [heq, modMon_mon_self]
    · next hne => rw [modMon_mon_of_ne s _ hne]

theorem rehomeOne_owner (s : Wm) (i : Nat) (c : Window) (rest : List Window)
    (d : Window) :
    ((s.rehomeOne i c rest).client d).mon =
      if d = c then 0 else (s.client d).mon := by
  change (Function.update s.client c { s.client c with mon := 0 } d).mon = _
  by_cases hd : d = c
  · rw [if_pos hd, hd, Function.update_self]
  · rw [if_neg hd, Function.update_of_ne hd]

/-- The clients of a monitor that goes end up, in reverse, before those of the
first one. -/
theorem rehome_places {i : Nat} (hi : i ≠ 0) (clients : List Window)
    (s : Wm) :
    let t := s.rehome i clients
    t.monCount = s.monCount ∧
      (∀ j, (t.mon j).screen = (s.mon j).screen) ∧
      (t.mon 0).clients = clients.reverse ++ (s.mon 0).clients ∧
      (∀ j ≠ 0, j ≠ i → (t.mon j).clients = (s.mon j).clients) ∧
      ∀ c, (t.client c).mon =
        if c ∈ clients then 0 else (s.client c).mon := by
  induction clients generalizing s with
  | nil => exact ⟨rfl, fun _ => rfl, rfl, fun _ _ _ => rfl, fun _ => rfl⟩
  | cons c rest ih =>
      intro t
      obtain ⟨hcount, hscreen, hfirst, hothers, howner⟩ :=
        ih (s.rehomeOne i c rest)
      refine ⟨hcount, fun j => ?_, ?_, fun j hj hne => ?_, fun d => ?_⟩
      · exact (hscreen j).trans (rehomeOne_screen s i c rest j)
      · refine hfirst.trans ?_
        rw [rehomeOne_clients s hi, if_pos rfl, List.reverse_cons,
          List.append_assoc]
        rfl
      · refine (hothers j hj hne).trans ?_
        rw [rehomeOne_clients s hi, if_neg hj, if_neg hne]
      · refine (howner d).trans ?_
        rw [rehomeOne_owner]
        by_cases hd : d = c
        · simp [hd]
        · simp [hd]

end Rehome

section Drop

/-- The clients of the monitors from the `n`th to the `m`th, as they end up
when these monitors go. -/
def gathered (s : Wm) (n m : Nat) : List Window :=
  (List.range' n (m - n)).flatMap fun i => (s.mon i).clients.reverse

theorem gathered_concat (s : Wm) {n m : Nat} (h : n ≤ m) :
    s.gathered n (m + 1) =
      s.gathered n m ++ (s.mon m).clients.reverse := by
  have hlen : m + 1 - n = m - n + 1 := by omega
  have hlast : n + (m - n) = m := by omega
  rw [gathered, hlen, List.range'_1_concat, List.flatMap_append, hlast,
    List.flatMap_singleton]
  rfl

theorem gathered_congr {s t : Wm} {n m m' : Nat} (hm : m - n = m' - n)
    (h : ∀ i, n ≤ i → i < m' → (t.mon i).clients = (s.mon i).clients) :
    t.gathered n m = s.gathered n m' := by
  rw [gathered, gathered, hm]
  apply List.flatMap_congr
  intro i hi
  rw [List.mem_range'_1] at hi
  rw [h i hi.1 (by omega)]

theorem dropMon_places {s : Wm × Bool} (h : s.1.Consistent)
    (hcount : 1 < s.1.monCount) :
    let last := s.1.monCount - 1
    let t := (dropMon s).1
    t.monCount = last ∧
      (∀ j, (t.mon j).screen = (s.1.mon j).screen) ∧
      (t.mon 0).clients =
        (s.1.mon last).clients.reverse ++ (s.1.mon 0).clients ∧
      (∀ j ≠ 0, j ≠ last → (t.mon j).clients = (s.1.mon j).clients) ∧
      ∀ c, s.1.Manages c → (t.client c).mon =
        if (s.1.client c).mon = last then 0 else (s.1.client c).mon := by
  intro last t
  obtain ⟨_, hscreen, hfirst, hothers, howner⟩ :=
    rehome_places (i := last) (by omega) (s.1.mon last).clients s.1
  refine ⟨rfl, hscreen, hfirst, hothers, fun c hc => (howner c).trans ?_⟩
  have hlast : last < s.1.monCount := by omega
  by_cases hmem : c ∈ (s.1.mon last).clients
  · rw [if_pos hmem, if_pos (h.owner last hlast c hmem)]
  · rw [if_neg hmem, if_neg]
    intro heq
    exact hmem (heq ▸ hc.2)

theorem dropMons_places (k : Nat) {s : Wm × Bool} (h : s.1.Tidy)
    (hk : k < s.1.monCount) :
    let n := s.1.monCount - k
    let t := (dropMon^[k] s).1
    t.monCount = n ∧
      (∀ j < n, (t.mon j).screen = (s.1.mon j).screen) ∧
      (t.mon 0).clients =
        s.1.gathered n s.1.monCount ++ (s.1.mon 0).clients ∧
      (∀ j < n, j ≠ 0 → (t.mon j).clients = (s.1.mon j).clients) ∧
      ∀ c, s.1.Manages c → (t.client c).mon =
        if (s.1.client c).mon < n then (s.1.client c).mon else 0 := by
  induction k generalizing s with
  | zero =>
      refine ⟨rfl, fun _ _ => rfl, ?_, fun _ _ _ => rfl, fun c hc => ?_⟩
      · rw [Nat.sub_zero, gathered, Nat.sub_self]
        rfl
      · rw [Nat.sub_zero, if_pos hc.1]
        rfl
  | succ k ih =>
      intro n t
      obtain ⟨hfollows, _⟩ := dropMon_follows h (by omega)
      obtain ⟨hlast, hscreen, hfirst, hothers, howner⟩ :=
        dropMon_places h.consistent (by omega)
      have hrest := ih hfollows.tidy (by omega)
      rw [hlast] at hrest
      have hn : s.1.monCount - 1 - k = n := by omega
      have ht : (dropMon^[k] (dropMon s)).1 = t := rfl
      rw [hn, ht] at hrest
      obtain ⟨hcount', hscreen', hfirst', hothers', howner'⟩ := hrest
      refine ⟨hcount', fun j hj => (hscreen' j hj).trans (hscreen j), ?_,
        fun j hj hne => ?_, fun c hc => ?_⟩
      · have hcount : s.1.monCount = s.1.monCount - 1 + 1 := by omega
        have hsame : (dropMon s).1.gathered n (s.1.monCount - 1) =
            s.1.gathered n (s.1.monCount - 1) :=
          gathered_congr rfl fun i hi hlt =>
            hothers i (by omega) (by omega)
        rw [hfirst', hfirst, hsame, hcount, gathered_concat s.1 (by omega),
          List.append_assoc]
        rfl
      · exact (hothers' j hj hne).trans (hothers j hne (by omega))
      · rw [howner' c (hfollows.kept c hc), howner c hc]
        have hlt := hc.1
        by_cases hgone : (s.1.client c).mon = s.1.monCount - 1
        · rw [if_pos hgone, hgone]
          split <;> split <;> omega
        · rw [if_neg hgone]

end Drop

section Place

theorem addMons_places (k : Nat) (s : Wm) :
    let t := addMon^[k] s
    t.client = s.client ∧
      (∀ j < s.monCount, (t.mon j).clients = (s.mon j).clients) ∧
      ∀ j, s.monCount ≤ j → j < s.monCount + k → (t.mon j).clients = [] := by
  induction k generalizing s with
  | zero => exact ⟨rfl, fun _ _ => rfl, fun _ _ _ => by omega⟩
  | succ k ih =>
      obtain ⟨hclient, hold, hnew⟩ := ih s.addMon
      have hcount : s.addMon.monCount = s.monCount + 1 := rfl
      rw [hcount] at hold hnew
      refine ⟨hclient, fun j hj => ?_, fun j hj hlt => ?_⟩
      · refine (hold j (by omega)).trans ?_
        exact congrArg Monitor.clients
          (Function.update_of_ne (Nat.ne_of_lt hj) _ _)
      · by_cases hfirst : j = s.monCount
        · have hself : s.addMon.mon s.monCount = createMon :=
            Function.update_self _ _ _
          refine (hold j (by omega)).trans ?_
          rw [hfirst, hself]
          rfl
        · exact hnew j (by omega) (by omega)

theorem placeMon_places (n : Nat) (s : Wm × Bool) (screen : Rect × Nat) :
    let t := (placeMon n s screen).1
    t.client = s.1.client ∧ t.monCount = s.1.monCount ∧
      (∀ j, (t.mon j).clients = (s.1.mon j).clients) ∧
      ∀ j, (t.mon j).screen =
        if j = screen.2 then screen.1 else (s.1.mon j).screen := by
  unfold placeMon
  split
  · refine ⟨rfl, rfl, fun j => ?_, fun j => ?_⟩
    · dsimp only
      exact modMon_field Monitor.clients s.1 rfl j
    · dsimp only
      split
      · next hj => rw [hj, modMon_mon_self, updateBarPos]
      · next hj => rw [modMon_mon_of_ne s.1 _ hj]
  · next hsame =>
      refine ⟨rfl, rfl, fun _ => rfl, fun j => ?_⟩
      split
      · next hj =>
          rw [hj]
          by_contra hne
          exact hsame (Or.inr (Ne.symm hne))
      · rfl

theorem placeMons_places (n : Nat) (screens : List Rect) (first : Nat)
    (s : Wm × Bool) :
    let t := ((screens.zipIdx first).foldl (placeMon n) s).1
    t.client = s.1.client ∧ t.monCount = s.1.monCount ∧
      (∀ j, (t.mon j).clients = (s.1.mon j).clients) ∧
      ∀ j, (t.mon j).screen = if first ≤ j then
          screens[j - first]?.getD (s.1.mon j).screen
        else (s.1.mon j).screen := by
  induction screens generalizing first s with
  | nil => exact ⟨rfl, rfl, fun _ => rfl, fun j => by simp⟩
  | cons screen rest ih =>
      obtain ⟨hclient, hcount, hclients, hscreen⟩ :=
        placeMon_places n s (screen, first)
      obtain ⟨hclient', hcount', hclients', hscreen'⟩ :=
        ih (first + 1) (placeMon n s (screen, first))
      refine ⟨hclient'.trans hclient, hcount'.trans hcount,
        fun j => (hclients' j).trans (hclients j), fun j => ?_⟩
      refine (hscreen' j).trans ?_
      rw [hscreen]
      dsimp only
      rcases Nat.lt_trichotomy j first with hlt | rfl | hlt
      · rw [if_neg (by omega), if_neg (by omega), if_neg (by omega)]
      · simp
      · have hnext : j - first = j - (first + 1) + 1 := by omega
        have hafter : first + 1 ≤ j := by omega
        have hpast : first ≤ j := by omega
        have hne : ¬ j = first := by omega
        rw [if_pos hafter, if_pos hpast, if_neg hne, hnext,
          List.getElem?_cons_succ]

end Place

section Unique

theorem uniqueScreens_foldl (screens unique : List Rect) (h : unique.Nodup) :
    let all := screens.foldl
      (fun unique r => if r ∈ unique then unique else unique ++ [r]) unique
    all.Nodup ∧ ∀ r, r ∈ all ↔ r ∈ unique ∨ r ∈ screens := by
  induction screens generalizing unique with
  | nil => exact ⟨h, fun r => by simp⟩
  | cons screen rest ih =>
      by_cases hmem : screen ∈ unique
      · have hrest := ih unique h
        simp only [List.foldl_cons, if_pos hmem]
        refine ⟨hrest.1, fun r => (hrest.2 r).trans ?_⟩
        rw [List.mem_cons]
        constructor
        · exact fun hr => hr.imp_right Or.inr
        · rintro (hr | rfl | hr)
          · exact Or.inl hr
          · exact Or.inl hmem
          · exact Or.inr hr
      · have hnodup : (unique ++ [screen]).Nodup := by
          rw [List.nodup_append_comm]
          exact List.nodup_cons.2 ⟨hmem, h⟩
        have hrest := ih (unique ++ [screen]) hnodup
        simp only [List.foldl_cons, if_neg hmem]
        refine ⟨hrest.1, fun r => (hrest.2 r).trans ?_⟩
        rw [List.mem_append, List.mem_singleton, List.mem_cons, or_assoc]

end Unique

/-- The screens that the monitors stand for, in the order of the monitors. -/
def screens (s : Wm) : List Rect :=
  (List.range s.monCount).map fun i => (s.mon i).screen

/-- What the monitors and the clients are after the screens are known. -/
structure Places (s t : Wm) (unique : List Rect) : Prop where
  screens : t.screens = unique
  first : (t.mon 0).clients =
    s.gathered unique.length s.monCount ++ (s.mon 0).clients
  others : ∀ i < unique.length, i ≠ 0 → (t.mon i).clients =
    if i < s.monCount then (s.mon i).clients else []
  owner : ∀ c ∈ s.managed, (t.client c).mon =
    if (s.client c).mon < unique.length then (s.client c).mon else 0

theorem screens_eq {s : Wm} {unique : List Rect}
    (hcount : s.monCount = unique.length)
    (hscreen : ∀ j < unique.length, unique[j]? = some (s.mon j).screen) :
    s.screens = unique := by
  apply List.ext_getElem?
  intro j
  rw [screens, List.getElem?_map, hcount]
  by_cases hj : j < unique.length
  · rw [List.getElem?_range hj, hscreen j hj]
    rfl
  · rw [List.getElem?_eq_none (by simpa using hj),
      List.getElem?_eq_none (Nat.le_of_not_lt hj)]
    rfl

theorem updateMons_places {s : Wm} (h : s.Tidy) {g : Geometry} {first : Rect}
    {others : List Rect} (hscreens : g.screens = some (first, others)) :
    s.Places (s.updateMons g).1 (uniqueScreens (first :: others)) := by
  simp only [updateMons, hscreens]
  have hlen := List.length_pos_iff.2 (uniqueScreens_ne_nil first others)
  generalize uniqueScreens (first :: others) = unique at *
  have hpos := h.consistent.selmon
  obtain ⟨hclient, hold, hnew⟩ :=
    addMons_places (unique.length - s.monCount) s
  have hcount := addMons_monCount (unique.length - s.monCount) s
  have hgrown := addMons_follows (unique.length - s.monCount) h
  generalize addMon^[unique.length - s.monCount] s = grown at *
  obtain ⟨hclient', hcount', hclients', hscreen'⟩ :=
    placeMons_places s.monCount unique 0 (grown, false)
  have hquiet := placeMons_quiet s.monCount unique.zipIdx (grown, false)
  have hfollows := hgrown.tidy.quiet hquiet []
  generalize unique.zipIdx.foldl (placeMon s.monCount) (grown, false) =
    placed at *
  dsimp only at hclient' hcount' hclients' hscreen' hfollows
  have hdrop := dropMons_places (s.monCount - unique.length) hfollows.tidy
    (by omega)
  have hn : placed.1.monCount - (s.monCount - unique.length) =
      unique.length := by omega
  rw [hn] at hdrop
  obtain ⟨hcountD, hscreenD, hfirstD, hothersD, hownerD⟩ := hdrop
  refine ⟨screens_eq hcountD fun j hj => ?_, ?_, fun i hi hne => ?_,
    fun c hc => ?_⟩
  · rw [hscreenD j hj, hscreen' j, if_pos (Nat.zero_le j), Nat.sub_zero]
    rw [List.getElem?_eq_getElem hj]
    rfl
  · have hsame : placed.1.gathered unique.length placed.1.monCount =
        s.gathered unique.length s.monCount :=
      gathered_congr (by omega) fun i _ hi =>
        (hclients' i).trans (hold i hi)
    rw [hfirstD, hclients', hold 0 (by omega), hsame]
  · rw [hothersD i hi hne, hclients']
    split
    · next hlt => exact hold i hlt
    · next hle => exact hnew i (Nat.le_of_not_lt hle) (by omega)
  · have hmanages := h.consistent.mem_managed.1 hc
    have hkept := hfollows.kept c (hgrown.kept c hmanages)
    rw [hownerD c hkept, hclient', hclient]

theorem Places.congr {s t u : Wm} {unique : List Rect}
    (h : s.Places t unique) (htu : t.SamePlaces u) : s.Places u unique where
  screens := by
    rw [← h.screens, Wm.screens, Wm.screens, htu.monCount]
    exact List.map_congr_left fun i _ => htu.screen i
  first := (htu.clients 0).trans h.first
  others i hi hne := (htu.clients i).trans (h.others i hi hne)
  owner c hc := (htu.owner c).trans (h.owner c hc)

/-- After a change of the screens there is one monitor for each of them,
however often it is reported; the monitors that stay keep their clients and
the first one takes in, before its own, those of the monitors that go. -/
theorem configureNotify_places {s : Wm} (h : s.Tidy) {g : Geometry}
    {first : Rect} {others : List Rect}
    (hscreens : g.screens = some (first, others)) :
    let t := s.configureNotify g
    s.Places t (uniqueScreens (first :: others)) ∧ t.screens.Nodup ∧
      ∀ r, r ∈ t.screens ↔ r ∈ first :: others := by
  have hsize : s.Quiet { s with sw := g.width, sh := g.height } :=
    .of_eq rfl rfl rfl rfl rfl
  have hplaces := updateMons_places (h.quiet hsize []).tidy hscreens
  have hgeom : SamePlaces
      ({ s with sw := g.width, sh := g.height }.updateMons g).1
      ({ s with sw := g.width, sh := g.height }.updateGeom g).1 := by
    unfold updateGeom
    dsimp only
    split
    · exact ⟨rfl, fun _ => rfl, fun _ => rfl, fun _ => rfl⟩
    · exact .refl _
  have hlast : SamePlaces
      ({ s with sw := g.width, sh := g.height }.updateGeom g).1
      (s.configureNotify g) := by
    unfold configureNotify
    extract_lets dirty t u v
    split
    · have hresized : u.SamePlaces v :=
        ⟨rfl, fun _ => rfl, fun _ => rfl, fun _ => rfl⟩
      exact hresized.trans ((SamePlaces.focus v none).trans
        (SamePlaces.arrangeAll _))
    · exact .refl _
  intro t
  have ht := (hplaces.congr hgeom).congr hlast
  have hunique := uniqueScreens_foldl (first :: others) [] List.nodup_nil
  refine ⟨⟨ht.screens, ht.first, ht.others, ht.owner⟩,
    ht.screens ▸ hunique.1, fun r => ?_⟩
  rw [ht.screens]
  exact (hunique.2 r).trans (by simp)

/-- The second of two screens goes, and each of them had a window. -/
theorem configureNotify_places_unplugged :
    let s := machine.after
      (setup 20 ⟨200, 90, some (⟨0, 0, 100, 90⟩, [⟨100, 0, 100, 90⟩]), none⟩)
      [.mapRequest 1 {}, .keyPress [.tagmon 1], .mapRequest 2 {}]
    let t := s.configureNotify
      ⟨100, 90, some (⟨0, 0, 100, 90⟩, []), none⟩
    s.Places t (uniqueScreens [⟨0, 0, 100, 90⟩]) ∧ t.screens.Nodup ∧
      ∀ r, r ∈ t.screens ↔ r ∈ [⟨0, 0, 100, 90⟩] := by
  intro s
  have htidy : s.Tidy := (always_tidy (setup_tidy _ _) _).last
  clear_value s
  exact configureNotify_places htidy rfl

end Wm

end Dwm

end Bodhi
