/-
The order of the clients: the keys that lead the focus around the clients in
view, the keys that move a client among the tiled ones, and the one place
where dwm follows a null pointer.
-/
import Mathlib.Algebra.BigOperators.Group.List.Basic
import Mathlib.Algebra.Ring.Int.Defs
import Bodhi.WindowFocus

namespace Bodhi

namespace Dwm

namespace Wm

/-- The clients in view of the selected monitor, in the order of its list. -/
def inView (s : Wm) : List Window :=
  (s.mon s.selmon).clients.filter s.isVisible

section FocusStack

theorem select_isfullscreen (s : Wm) (c d : Window) :
    ((s.select c).client d).isfullscreen = (s.client d).isfullscreen := by
  rw [select_client]
  split
  · next h => rw [h]
  · rfl

variable {s : Wm} (h : s.Consistent)

include h

theorem select_inView {d : Window} (hd : d ∈ (s.mon s.selmon).clients) :
    (s.select d).selmon = s.selmon ∧ (s.select d).inView = s.inView := by
  have hselmon : (s.select d).selmon = s.selmon :=
    h.owner _ h.selmon d hd
  refine ⟨hselmon, ?_⟩
  rw [inView, hselmon, select_isVisible,
    select_field s d Monitor.clients fun _ _ _ => rfl]
  rfl

variable {c : Window} (hsel : (s.mon s.selmon).sel = some c)
  (hvisible : s.isVisible c)

include hsel hvisible

/-- One press leads to the neighbour in the ring of the clients in view. -/
theorem focusStack_eq_select (hfull : !(s.client c).isfullscreen)
    (dir : Int) :
    s.focusStack dir = s.select ((s.inView.formPerm ^ heading dir) c) ∧
      (s.inView.formPerm ^ heading dir) c ∈ s.inView := by
  have hnext := neighbour_eq_formPerm (p := s.isVisible) dir
    (h.nodup _ h.selmon) (h.sel _ h.selmon c hsel) hvisible
  have hmem := neighbour_eq_some hnext
  have hfocus : ∀ d, s.isVisible d → s.focus (some d) = s.select d := by
    intro d hd
    simp [focus, Option.filter, hd]
  refine ⟨?_, List.mem_filter.2 hmem⟩
  have hnot : (s.client c).isfullscreen = false := by simpa using hfull
  simp only [focusStack, hsel, hnot, hnext, if_false, Bool.false_eq_true]
  exact hfocus _ hmem.2

end FocusStack

/-- Presses of the two keys, in any order, lead around the ring of the clients
in view by the difference of their numbers. -/
theorem focusStack_presses (dirs : List Int) {s : Wm} (h : s.Tidy)
    {c : Window} (hsel : (s.mon s.selmon).sel = some c)
    (hvisible : s.isVisible c)
    (hfull : ∀ d ∈ s.inView, !(s.client d).isfullscreen) :
    let t := dirs.foldl focusStack s
    (t.mon t.selmon).sel =
        some ((s.inView.formPerm ^ (dirs.map heading).sum) c) ∧
      t.inView = s.inView := by
  induction dirs generalizing s c with
  | nil => exact ⟨by simpa using hsel, rfl⟩
  | cons dir rest ih =>
      have hc := h.consistent
      have hin : c ∈ s.inView :=
        List.mem_filter.2 ⟨hc.sel _ hc.selmon c hsel, hvisible⟩
      obtain ⟨heq, hmem⟩ :=
        focusStack_eq_select hc hsel hvisible (hfull c hin) dir
      generalize hd : (s.inView.formPerm ^ heading dir) c = d at heq hmem
      obtain ⟨hdmem, hdvisible⟩ := List.mem_filter.1 hmem
      obtain ⟨hselmon, hview⟩ := select_inView hc hdmem
      have hnext : (s.focusStack dir).Tidy :=
        (h.ordinary (focusStack_ordinary hc dir) []).tidy
      have hdsel : ((s.focusStack dir).mon (s.focusStack dir).selmon).sel =
          some d := by
        rw [heq, hselmon, ← hc.owner _ hc.selmon d hdmem, select_mon]
      have hdview : (s.focusStack dir).isVisible d := by
        rw [heq, select_isVisible]
        exact hdvisible
      have hsame : (s.focusStack dir).inView = s.inView := heq ▸ hview
      have hrest := ih hnext hdsel hdview (by
        rw [hsame]
        intro e he
        rw [heq, select_isfullscreen]
        exact hfull e he)
      rw [hsame] at hrest
      rw [List.foldl_cons, List.map_cons, List.sum_cons, Int.add_comm,
        zpow_add, Equiv.Perm.mul_apply, hd]
      exact hrest

section Presses

theorem focus_status (s : Wm) (target : Option Window) :
    (s.focus target).running = s.running ∧
      (s.focus target).crashed = s.crashed := by
  unfold focus
  dsimp only
  split <;> exact ⟨rfl, rfl⟩

theorem focusStack_status (s : Wm) (dir : Int) :
    (s.focusStack dir).running = s.running ∧
      (s.focusStack dir).crashed = s.crashed := by
  unfold focusStack
  split
  · exact ⟨rfl, rfl⟩
  · split
    · exact ⟨rfl, rfl⟩
    · split
      · exact ⟨rfl, rfl⟩
      · exact focus_status s _

theorem after_focusstack (dirs : List Int) {s : Wm} (hrun : s.running)
    (hcrash : !s.crashed) :
    machine.after s (dirs.map fun dir => .keyPress [.focusstack dir]) =
      dirs.foldl focusStack s := by
  induction dirs generalizing s with
  | nil => rfl
  | cons dir rest ih =>
      obtain ⟨hrunning, hcrashed⟩ := focusStack_status s dir
      have hup : s.crashed = false := by simpa using hcrash
      have hstep : machine.next s (.keyPress [.focusstack dir]) =
          s.focusStack dir := by
        simp [machine, step, handle, runBound, command, hrun, hup]
      rw [List.map_cons, Machine.after_cons, hstep, List.foldl_cons]
      exact ih (hrunning ▸ hrun) (hcrashed ▸ hcrash)

/-- The keys for `focusstack`, pressed in any order, lead around the ring of
the clients in view by the difference of their numbers, and fewer presses than
there are clients in view lead to any of them. -/
theorem after_focusstack_presses {s : Wm} (h : s.Tidy) (hrun : s.running)
    (hcrash : !s.crashed) {c : Window}
    (hsel : (s.mon s.selmon).sel = some c) (hvisible : s.isVisible c)
    (hfull : ∀ d ∈ s.inView, !(s.client d).isfullscreen) :
    (∀ dirs : List Int,
      let t := machine.after s
        (dirs.map fun dir => .keyPress [.focusstack dir])
      (t.mon t.selmon).sel =
          some ((s.inView.formPerm ^ (dirs.map heading).sum) c) ∧
        t.inView = s.inView) ∧
      ∀ d ∈ s.inView, ∃ n < s.inView.length,
        (s.inView.formPerm ^ n) c = d := by
  have hc := h.consistent
  refine ⟨fun dirs => ?_, fun d hd => ?_⟩
  · rw [after_focusstack dirs hrun hcrash]
    exact focusStack_presses dirs h hsel hvisible hfull
  · have hmem : c ∈ s.inView :=
      List.mem_filter.2 ⟨hc.sel _ hc.selmon c hsel, hvisible⟩
    exact exists_formPerm_pow_eq ((hc.nodup _ hc.selmon).filter _) hmem hd

/-- Three windows in view; a press back leads from the last to the second. -/
theorem after_focusstack_presses_three :
    let s := machine.after
      (setup 20 ⟨100, 90, some (⟨0, 0, 100, 90⟩, []), none⟩)
      [.mapRequest 1 {}, .mapRequest 2 {}, .mapRequest 3 {}]
    let t := machine.after s [.keyPress [.focusstack (-1)]]
    (t.mon t.selmon).sel =
        some ((s.inView.formPerm ^ ([-1].map heading).sum) 3) ∧
      t.inView = s.inView := by
  intro s
  have htidy : s.Tidy := (always_tidy (setup_tidy _ _) _).last
  have hsel : (s.mon s.selmon).sel = some 3 := by decide +kernel
  have hvisible : s.isVisible 3 := by decide +kernel
  have hup : s.running = true ∧ (!s.crashed) = true := by decide +kernel
  have hfull : ∀ d ∈ s.inView, !(s.client d).isfullscreen := by
    decide +kernel
  clear_value s
  exact (after_focusstack_presses htidy hup.1 hup.2 hsel hvisible hfull).1 [-1]

end Presses

section MoveStack

theorem heading_neg {dir : Int} (h : dir ≠ 0) :
    heading (-dir) = -heading dir := by
  unfold heading
  split <;> split <;> omega

theorem swapClients_swapClients (a b : Window) (xs : List Window) :
    swapClients a b (swapClients a b xs) = xs := by
  have hundo : Equiv.swap a b ∘ Equiv.swap a b = id :=
    funext (Equiv.swap_apply_self a b)
  change (xs.map (Equiv.swap a b)).map (Equiv.swap a b) = xs
  rw [List.map_map, hundo, List.map_id]

theorem modMon_swapClients_self (s : Wm) (c : Window) :
    (s.modMon s.selmon fun m =>
      { m with clients := swapClients c c m.clients }).mon = s.mon := by
  have hstay : ∀ xs, swapClients c c xs = xs := by
    intro xs
    change xs.map (Equiv.swap c c) = xs
    rw [Equiv.swap_self]
    exact List.map_id xs
  simp only [modMon, hstay]
  exact Function.update_eq_self _ _

theorem moveStack_eq {s : Wm} {c d : Window} {dir : Int}
    (hsel : (s.mon s.selmon).sel = some c)
    (hnext : neighbour s.isTiled dir (s.mon s.selmon).clients c = some d) :
    (s.moveStack dir).client = s.client ∧
      (s.moveStack dir).selmon = s.selmon ∧
      (s.moveStack dir).mon = (s.modMon s.selmon fun m =>
        { m with clients := swapClients c d m.clients }).mon := by
  by_cases hdc : d = c
  · rw [hdc] at hnext ⊢
    simp only [moveStack, hsel, hnext, if_true]
    exact ⟨trivial, trivial, (modMon_swapClients_self s c).symm⟩
  · simp only [moveStack, hsel, hnext, if_neg hdc]
    exact ⟨rfl, rfl, rfl⟩

/-- Exchanging two tiled clients leaves the same places tiled. -/
theorem isTiled_swap {s : Wm} {c d : Window} (hc : s.isTiled c)
    (hd : s.isTiled d) : s.isTiled ∘ Equiv.swap c d = s.isTiled := by
  funext x
  rw [Function.comp, Equiv.swap_apply_def]
  split
  · next h => rw [h, hc, hd]
  · split
    · next h => rw [h, hc, hd]
    · rfl

/-- The key that moves a tiled client the other way takes the move back. -/
theorem moveStack_moveStack {s : Wm} (h : s.Consistent) {c : Window}
    (hsel : (s.mon s.selmon).sel = some c) (htiled : s.isTiled c)
    {dir : Int} (hdir : dir ≠ 0) :
    ((s.moveStack dir).moveStack (-dir)).mon = s.mon := by
  have hnodup := h.nodup _ h.selmon
  have hmem := h.sel _ h.selmon c hsel
  have hnext := neighbour_eq_formPerm (p := s.isTiled) dir hnodup hmem htiled
  generalize hd : (((s.mon s.selmon).clients.filter s.isTiled).formPerm ^
    heading dir) c = d at hnext
  obtain ⟨hdmem, hdtiled⟩ := neighbour_eq_some hnext
  have hback : neighbour s.isTiled (-dir) (s.mon s.selmon).clients d =
      some c := by
    rw [neighbour_eq_formPerm (-dir) hnodup hdmem hdtiled, heading_neg hdir,
      ← hd, ← Equiv.Perm.mul_apply, ← zpow_add]
    simp
  obtain ⟨hclient, hselmon, hmon⟩ := moveStack_eq hsel hnext
  have hquiet := moveStack_quiet h dir
  generalize s.moveStack dir = t at hclient hselmon hmon hquiet
  have htsel : (t.mon t.selmon).sel = some c := by
    rw [hselmon, hmon, modMon_mon_self, ← hsel]
  have htiledEq : t.isTiled = s.isTiled := by
    funext x
    rw [isTiled, isTiled, hquiet.isVisible, hclient]
  have hclients : (t.mon t.selmon).clients =
      swapClients c d (s.mon s.selmon).clients := by
    rw [hselmon, hmon, modMon_mon_self]
  have hagain : neighbour t.isTiled (-dir) (t.mon t.selmon).clients c =
      some d := by
    have hmap := neighbour_map s.isTiled (-dir) (Equiv.swap c d)
      (s.mon s.selmon).clients d
    rw [isTiled_swap htiled hdtiled, hback, Equiv.swap_apply_right] at hmap
    rw [htiledEq, hclients]
    exact hmap.trans (congrArg some (Equiv.swap_apply_left c d))
  obtain ⟨_, _, hresult⟩ := moveStack_eq htsel hagain
  rw [hresult, hselmon]
  simp only [modMon, hmon, Function.update_self, swapClients_swapClients,
    Function.update_idem]
  exact Function.update_eq_self _ _

theorem moveStack_moveStack_three :
    let s := machine.after
      (setup 20 ⟨100, 90, some (⟨0, 0, 100, 90⟩, []), none⟩)
      [.mapRequest 1 {}, .mapRequest 2 {}, .mapRequest 3 {}]
    ((s.moveStack 1).moveStack (-1)).mon = s.mon := by
  intro s
  have htidy : s.Tidy := (always_tidy (setup_tidy _ _) _).last
  have hsel : (s.mon s.selmon).sel = some 3 := by decide +kernel
  exact moveStack_moveStack htidy.consistent hsel (by decide +kernel)
    (by decide)

end MoveStack

section Crash

@[simp] theorem modMon_crashed (s : Wm) (i : Nat) (f : Monitor → Monitor) :
    (s.modMon i f).crashed = s.crashed := rfl

@[simp] theorem modClient_crashed (s : Wm) (c : Window)
    (f : Client → Client) : (s.modClient c f).crashed = s.crashed := rfl

@[simp] theorem arrange_crashed (s : Wm) (i : Nat) :
    (s.arrange i).crashed = s.crashed := rfl

@[simp] theorem focus_crashed (s : Wm) (target : Option Window) :
    (s.focus target).crashed = s.crashed :=
  (focus_status s target).2

@[simp] theorem arrangeAll_crashed (s : Wm) :
    s.arrangeAll.crashed = s.crashed := by
  have hfold : ∀ (is : List Nat) (t : Wm),
      (is.foldl arrange t).crashed = t.crashed := by
    intro is
    induction is with
    | nil => exact fun _ => rfl
    | cons i is ih => exact fun t => ih (t.arrange i)
  exact hfold _ s

@[simp] theorem sendMon_crashed (s : Wm) (c : Window) (i : Nat) :
    (s.sendMon c i).crashed = s.crashed := by
  unfold sendMon
  split
  · rfl
  · simp [attachStack, attachBottom, detach, detachStack]

@[simp] theorem manage_crashed (s : Wm) (w : Window) (x : WindowInfo) :
    (s.manage w x).crashed = s.crashed := by
  simp [manage, attachStack, attachBottom]

@[simp] theorem unmanage_crashed (s : Wm) (c : Window) :
    (s.unmanage c).crashed = s.crashed := by
  simp [unmanage, detach, detachStack]

@[simp] theorem mapRequest_crashed (s : Wm) (w : Window) (x : WindowInfo) :
    (s.mapRequest w x).crashed = s.crashed := by
  unfold mapRequest
  split
  · rfl
  · split
    · rfl
    · exact manage_crashed s w x

@[simp] theorem toggleFloating_crashed (s : Wm) :
    s.toggleFloating.crashed = s.crashed := by
  unfold toggleFloating
  split
  · rfl
  · dsimp only
    split <;> rfl

theorem drag_crashed (s : Wm) (d : Drag) :
    (s.drag d).crashed = s.crashed := by
  have hsteps : ∀ (c : Window) (steps : List DragStep) (t : Wm),
      (steps.foldl (dragStep c) t).crashed = t.crashed := by
    intro c steps
    induction steps with
    | nil => exact fun _ => rfl
    | cons step rest ih =>
        intro t
        refine (ih _).trans ?_
        cases step with
        | mapRequest w x => exact mapRequest_crashed t w x
        | motion beyondSnap =>
            simp only [dragStep]
            split
            · exact toggleFloating_crashed t
            · rfl
  unfold drag
  split
  · rfl
  · split
    · rfl
    · dsimp only
      split
      · exact hsteps _ _ s
      · simp [hsteps]

/-- No command but `movestack` follows a null pointer. -/
theorem command_crashed (s : Wm) (cmd : Command)
    (hcmd : ∀ dir, cmd ≠ .movestack dir) :
    (s.command cmd).crashed = s.crashed := by
  cases cmd with
  | movestack dir => exact absurd rfl (hcmd dir)
  | focusstack dir => exact (focusStack_status s dir).2
  | zoom =>
      simp only [command, zoom]
      split
      · rfl
      · split
        · rfl
        · split
          · split
            · rfl
            · simp [pop, detach, attach]
          · simp [pop, detach, attach]
  | view ui =>
      simp only [command, view]
      split <;> simp
  | toggleview ui =>
      simp only [command, toggleView]
      split <;> simp
  | tag ui =>
      simp only [command, tag]
      split
      · rfl
      · split <;> simp [retag]
  | toggletag ui =>
      simp only [command, toggleTag]
      split
      · rfl
      · split <;> simp [retag]
  | focusmon dir =>
      simp only [command, focusMon]
      split
      · rfl
      · split <;> simp
  | tagmon dir =>
      simp only [command, tagMon]
      split
      · rfl
      · split <;> simp
  | setlayout v =>
      simp only [command, setLayout]
      split <;> rfl
  | setmfact accepted =>
      simp only [command, setMfact]
      split <;> rfl
  | setcfact accepted =>
      simp only [command, setCfact]
      split <;> rfl
  | togglefloating => exact toggleFloating_crashed s
  | togglegaps => simp [command, toggleGaps]
  | movemouse d => exact drag_crashed s d
  | resizemouse d => exact drag_crashed s d
  | _ => rfl

/-- Where the focus is settled some client is selected exactly if one is in
view. -/
theorem sel_eq_none_iff {s : Wm} (h : s.Consistent) (hfocused : s.Focused) :
    (s.mon s.selmon).sel = none ↔ s.inView = [] := by
  have hmem : ∀ c, c ∈ (s.mon s.selmon).stack ↔
      c ∈ (s.mon s.selmon).clients :=
    fun c => (h.perm _ h.selmon).mem_iff
  rw [hfocused, List.find?_eq_none, inView, List.filter_eq_nil_iff]
  exact forall_congr' fun c => imp_congr_left (hmem c)

/-- Where the focus is settled `movestack` crashes exactly if it leads down and
no client is in view. -/
theorem moveStack_crashed {s : Wm} (h : s.Consistent) (hfocused : s.Focused)
    (hup : s.crashed = false) (dir : Int) :
    (s.moveStack dir).crashed = false ↔ (0 < dir → s.inView ≠ []) := by
  have hview := sel_eq_none_iff h hfocused
  unfold moveStack
  dsimp only
  cases hsel : (s.mon s.selmon).sel with
  | none =>
      have hnone : s.inView = [] := hview.1 hsel
      have hany : (s.mon s.selmon).clients.any s.isTiled = false := by
        rw [List.any_eq_false]
        intro c hc
        have hhidden := List.filter_eq_nil_iff.1 hnone c hc
        simp [isTiled, hhidden]
      simp only [hany, hnone, Bool.or_false, decide_eq_true_eq, gt_iff_lt,
        ne_eq, not_true_eq_false]
      split
      · next hdown => exact iff_of_false (by simp) fun hnot => hnot hdown
      · next hdown => exact iff_of_true hup hdown
  | some c =>
      have hnone : s.inView ≠ [] := fun hnil =>
        nomatch hsel.symm.trans (hview.2 hnil)
      refine iff_of_true ?_ fun _ => hnone
      dsimp only
      split
      · exact hup
      · split
        · exact hup
        · exact hup

/-- Commands in whose order no `movestack` leads down while no client is in
view. -/
def Safe (s : Wm) : List Command → Prop
  | [] => True
  | cmd :: rest =>
      (∀ dir, cmd = .movestack dir → 0 < dir → s.inView ≠ []) ∧
        (s.command cmd).Safe rest

theorem command_crashed_iff {s : Wm} (h : s.Consistent)
    (hfocused : s.Focused) (hup : s.crashed = false) (cmd : Command) :
    (s.command cmd).crashed = false ↔
      ∀ dir, cmd = .movestack dir → 0 < dir → s.inView ≠ [] := by
  by_cases hcmd : ∃ dir, cmd = .movestack dir
  · obtain ⟨dir, rfl⟩ := hcmd
    refine (moveStack_crashed h hfocused hup dir).trans ?_
    constructor
    · rintro hsafe _ ⟨⟩
      exact hsafe
    · exact fun hsafe => hsafe dir rfl
  · have hother : ∀ dir, cmd ≠ .movestack dir := fun dir heq =>
      hcmd ⟨dir, heq⟩
    rw [command_crashed s cmd hother]
    exact iff_of_true hup fun dir heq => absurd heq (hother dir)

theorem runBound_crashed_iff (bound : List Command) {s : Wm} (h : s.Tidy)
    (hfocused : s.Focused) (hup : s.crashed = false) :
    (s.runBound bound).crashed = false ↔ s.Safe bound := by
  induction bound generalizing s with
  | nil => exact iff_of_true hup trivial
  | cons cmd rest ih =>
      have hone := command_crashed_iff h.consistent hfocused hup cmd
      simp only [runBound, hup, Bool.false_eq_true, if_false, Safe, ← hone]
      by_cases hnext : (s.command cmd).crashed = false
      · have htidy := (command_follows h cmd).tidy
        have hsettled := (command_presents h cmd).focused hfocused
        rw [ih htidy hsettled hnext]
        exact (and_iff_right hnext).symm
      · refine iff_of_false ?_ fun hsafe => hnext hsafe.1
        have hstays : ∀ commands : List Command,
            ((s.command cmd).runBound commands) = s.command cmd := by
          intro commands
          cases commands with
          | nil => rfl
          | cons next rest =>
              simp only [runBound, Bool.eq_true_of_not_eq_false hnext, if_true]
        rw [hstays rest]
        exact hnext

/-- An event whose commands are safe in the state in which they run. -/
def SafeEvent (s : Wm) : Event → Prop
  | .keyPress bound => s.Safe bound
  | .buttonPress at_ bound => (s.buttonPress at_ []).Safe bound
  | _ => True

theorem buttonPress_crashed (s : Wm) (at_ : Target) :
    (s.buttonPress at_ []).crashed = s.crashed := by
  unfold buttonPress
  extract_lets i t u
  have ht : t.crashed = s.crashed := by
    unfold t
    split
    · exact focus_crashed _ none
    · rfl
  have hu : u.crashed = t.crashed := by
    unfold u
    split
    · exact focus_crashed _ _
    · rfl
  exact hu.trans ht

theorem rehome_crashed (s : Wm) (i : Nat) (clients : List Window) :
    (s.rehome i clients).crashed = s.crashed := by
  induction clients generalizing s with
  | nil => rfl
  | cons c rest ih =>
      simp only [rehome]
      rw [ih]
      rfl

theorem updateMons_crashed (s : Wm) (g : Geometry) :
    (s.updateMons g).1.crashed = s.crashed := by
  have hadd : ∀ (n : Nat) (t : Wm), (addMon^[n] t).crashed = t.crashed := by
    intro n
    induction n with
    | zero => exact fun _ => rfl
    | succ n ih => exact fun t => ih t.addMon
  have hplace : ∀ (n : Nat) (screens : List (Rect × Nat)) (t : Wm × Bool),
      (screens.foldl (placeMon n) t).1.crashed = t.1.crashed := by
    intro n screens
    induction screens with
    | nil => exact fun _ => rfl
    | cons screen rest ih =>
        intro t
        refine (ih _).trans ?_
        unfold placeMon
        split <;> rfl
  have hdrop : ∀ (n : Nat) (t : Wm × Bool),
      (dropMon^[n] t).1.crashed = t.1.crashed := by
    intro n
    induction n with
    | zero => exact fun _ => rfl
    | succ n ih => exact fun t => (ih (dropMon t)).trans (rehome_crashed _ _ _)
  unfold updateMons
  split
  · dsimp only
    rw [hdrop, hplace, hadd]
  · extract_lets t
    have ht : t.crashed = s.crashed := by
      unfold t
      split <;> rfl
    dsimp only
    split <;> exact ht

theorem configureNotify_crashed (s : Wm) (g : Geometry) :
    (s.configureNotify g).crashed = s.crashed := by
  have hgeom : ∀ t : Wm, (t.updateGeom g).1.crashed = t.crashed := by
    intro t
    unfold updateGeom
    dsimp only
    split <;> exact updateMons_crashed t g
  unfold configureNotify
  dsimp only
  split
  · rw [arrangeAll_crashed, focus_crashed]
    exact hgeom _
  · exact hgeom _

/-- Every event but one that runs commands leaves dwm up. -/
theorem handle_crashed (s : Wm) (event : Event)
    (hkey : ∀ bound, event ≠ .keyPress bound)
    (hbutton : ∀ at_ bound, event ≠ .buttonPress at_ bound) :
    (s.handle event).crashed = s.crashed := by
  have hfullscreen : ∀ (c : Window) (on : Bool),
      (s.setFullscreen c on).crashed = s.crashed := by
    intro c on
    unfold setFullscreen
    dsimp only
    split
    · rfl
    · split <;> rfl
  cases event with
  | keyPress bound => exact absurd rfl (hkey bound)
  | buttonPress at_ bound => exact absurd rfl (hbutton at_ bound)
  | clientMessageFullscreen w action =>
      simp only [handle]
      split
      · rfl
      · exact hfullscreen _ _
  | clientMessageActive w =>
      simp only [handle]
      split
      · rfl
      · split <;> rfl
  | configureNotify g => exact configureNotify_crashed s g
  | destroyNotify w =>
      simp only [handle]
      split
      · rfl
      · exact unmanage_crashed s _
  | enterNotify passed at_ =>
      simp only [handle]
      unfold enterNotify
      extract_lets onRoot c i
      split
      · rfl
      · split
        · exact focus_crashed _ _
        · split
          · rfl
          · exact focus_crashed s _
  | mapRequest w x => exact mapRequest_crashed s w x
  | motionNotify x y =>
      simp only [handle, motionNotify]
      split
      · exact focus_crashed _ _
      · rfl
  | transientFor w parent =>
      simp only [handle]
      split
      · rfl
      · split <;> rfl
  | windowType w fullscreen dialog =>
      simp only [handle, updateWindowType]
      split
      · rfl
      · split <;> split <;> simp only [modClient_crashed, hfullscreen]
  | wmHints w hints =>
      simp only [handle]
      split <;> rfl
  | normalHints w hints =>
      simp only [handle]
      split <;> rfl
  | unmapNotify w sendEvent =>
      simp only [handle]
      split
      · rfl
      · split
        · rfl
        · exact unmanage_crashed s _

theorem buttonPress_runBound (s : Wm) (at_ : Target) (bound : List Command) :
    s.buttonPress at_ bound = (s.buttonPress at_ []).runBound bound := rfl

theorem handle_crashed_iff {s : Wm} (h : s.Tidy) (hfocused : s.Focused)
    (hup : s.crashed = false) (event : Event) :
    (s.handle event).crashed = false ↔ s.SafeEvent event := by
  cases event with
  | keyPress bound => exact runBound_crashed_iff bound h hfocused hup
  | buttonPress at_ bound =>
      have hfirst := (buttonPress_follows h at_ []).tidy
      have hsettled := (buttonPress_presents h at_ []).focused hfocused
      have hstill := (buttonPress_crashed s at_).trans hup
      exact runBound_crashed_iff bound hfirst hsettled hstill
  | _ =>
      refine iff_of_true ?_ trivial
      exact (handle_crashed s _ (by simp) (by simp)).trans hup

theorem step_settled {s : Wm} (event : Event) (h : s.Tidy ∧ s.Focused)
    (hkept : ¬ s.SilentDrop event) :
    (s.step event).Tidy ∧ (s.step event).Focused := by
  refine ⟨step_tidy h.1 event, ?_⟩
  unfold step
  split
  · exact handle_focused h.1 event hkept h.2
  · exact h.2

/-- Over every run in which the selected monitor keeps a screen, dwm follows
no null pointer exactly if every `movestack` that leads down is taken while a
client is in view. -/
theorem setup_always_up_iff (bh : Int) (g : Geometry) (events : List Event)
    (hkept : machine.Throughout (fun s event => ¬ s.SilentDrop event)
      (setup bh g) events) :
    machine.Always (fun s => s.crashed = false) (setup bh g) events ↔
      machine.Throughout (fun s event => s.running → s.SafeEvent event)
        (setup bh g) events := by
  have hstart : (setup bh g).crashed = false := by
    unfold setup updateGeom
    dsimp only
    rw [focus_crashed]
    split <;> exact updateMons_crashed _ g
  refine Machine.always_iff_throughout_of_guard
    (I := fun s => s.Tidy ∧ s.Focused)
    (fun s event hs hdrop => step_settled event hs hdrop)
    (fun s event hs _ hup => ?_)
    ⟨setup_tidy bh g, setup_focused bh g⟩ hstart hkept
  change (s.step event).crashed = false ↔ _
  unfold step
  rw [hup, Bool.not_false, Bool.and_true]
  split
  · next hrun =>
      rw [handle_crashed_iff hs.1 hs.2 hup event]
      exact ⟨fun hsafe _ => hsafe, fun hsafe => hsafe hrun⟩
  · next hstopped =>
      exact iff_of_true hup fun hrun => absurd hrun hstopped

/-- The key for `movestack` on an empty screen brings dwm down. -/
theorem setup_always_up_iff_empty :
    ¬ machine.Always (fun s => s.crashed = false)
      (setup 20 ⟨100, 90, some (⟨0, 0, 100, 90⟩, []), none⟩)
      [.keyPress [.movestack 1]] := by
  intro hup
  have hkept : machine.Throughout (fun s event => ¬ s.SilentDrop event)
      (setup 20 ⟨100, 90, some (⟨0, 0, 100, 90⟩, []), none⟩)
      [.keyPress [.movestack 1]] := ⟨id, trivial⟩
  have hsafe := (setup_always_up_iff _ _ _ hkept).1 hup
  exact (hsafe.1 rfl).1 1 rfl (by decide) (by decide)

end Crash

end Wm

end Dwm

end Bodhi
