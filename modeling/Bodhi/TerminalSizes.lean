/-
However the window and the screens of st change, the screen, the history and
the cursor fit each other.
-/
import Bodhi.TerminalFlow

namespace Bodhi

namespace St

namespace Term

variable {care : Care} {t : Term}

section Resize

/-- The loop that takes lines out of the history changes the screen, the history
and its index alone. -/
theorem pullLines_eq (t : Term) (is : List Nat) :
    let s := is.foldl pullLine t
    s = { t with line := s.line, hist := s.hist, histi := s.histi } := by
  induction is generalizing t with
  | nil => rfl
  | cons i is ih => exact ih (t.pullLine i)

/-- Each round gives the screen one of the recent lines. -/
theorem pullLines_history {row col m : Nat} {is : List Nat}
    (hscreen : Screen care row col t.line)
    (hhist : History care col t.histi m t.hist) (his : ∀ i ∈ is, i < row)
    (hm : is.length ≤ m) :
    let s := is.foldl pullLine t
    Screen care row col s.line ∧
      History care col s.histi (m - is.length) s.hist := by
  induction is generalizing t m with
  | nil => exact ⟨hscreen, hhist⟩
  | cons i is ih =>
      rw [List.length_cons] at hm ⊢
      have hi := his i List.mem_cons_self
      have hlast := hhist.last (by omega)
      have hpull := hhist.pull (hscreen.getD hi [])
      have hrest := ih (t := t.pullLine i) (hscreen.set i hlast) hpull
        (fun j hj => his j (List.mem_cons_of_mem i hj)) (by omega)
      have hcount : m - 1 - is.length = m - (is.length + 1) := by omega
      rw [hcount] at hrest
      exact hrest

theorem InBounds.slideDown (h : t.InBounds care)
    (hdef : t.mode.altscreen = false) {n : Nat} (hn : t.c.y + n < t.row)
    (hhistf : n ≤ t.histf) : (t.slideDown n).InBounds care := by
  have hhist := h.frame.hist
  rw [histcol_default hdef] at hhist
  unfold Term.slideDown
  extract_lets s₁ s₂
  have hswap : Screen care t.row t.col s₁.line :=
    h.frame.screen.foldl _ fun ls j _ hls =>
      hls.swapLines (by omega) (by omega)
  have hrows : ∀ i ∈ (List.range n).reverse, i < t.row := fun i hi => by
    have hlt := List.mem_range.1 (List.mem_reverse.1 hi)
    omega
  have hpull := pullLines_history (t := s₁) hswap hhist hrows
    (by rwa [List.length_reverse, List.length_range])
  rw [List.length_reverse, List.length_range] at hpull
  have hkeeps : s₂ = { s₁ with
      line := s₂.line, hist := s₂.hist, histi := s₂.histi } :=
    pullLines_eq s₁ (List.range n).reverse
  change Screen care t.row t.col s₂.line ∧
    History care t.col s₂.histi (t.histf - n) s₂.hist at hpull
  generalize s₂.line = line at hkeeps hpull
  generalize s₂.hist = hist at hkeeps hpull
  generalize s₂.histi = histi at hkeeps hpull
  clear_value s₂
  subst hkeeps
  have hnew : History care t.histcol histi (t.histf - n) hist := by
    rw [histcol_default hdef]
    exact hpull.2
  exact ⟨{ h.frame with
      screen := hpull.1
      hist := hnew
      scr := Nat.sub_le_sub_right h.frame.scr n }, h.x, hn, h.region, h.bot,
    h.tabs, even_default hdef⟩

/-- The screen slides down as far as the history goes. -/
theorem InBounds.rscrolldown (h : t.InBounds care)
    (hdef : t.mode.altscreen = false) {n : Int} {t' : Term}
    (ht : t.rscrolldown n = some t') : t'.InBounds care := by
  unfold Term.rscrolldown at ht
  dsimp only at ht
  split at ht
  · exact Option.some.inj ht ▸ h
  · split at ht
    · cases ht
    · next hroom =>
        rw [h.frame.screen.1] at hroom
        exact Option.some.inj ht ▸
          h.slideDown hdef (not_le.1 hroom) (by omega)

theorem slideDown_sized (t : Term) (n col row : Nat) :
    (t.sized col row).slideDown n = (t.slideDown n).sized col row := by
  have hfold : ∀ (s : Term) (is : List Nat),
      is.foldl pullLine (s.sized col row) =
        (is.foldl pullLine s).sized col row := fun s is =>
    List.foldl_hom (sized · col row) fun _ _ => rfl
  unfold Term.slideDown
  extract_lets s₁ s₂ src s₁' s₂'
  have hs₂ : s₂ = s₂'.sized col row := hfold s₁' _
  clear_value s₂
  subst hs₂
  rfl

/-- The sizes play no part in scrolling down. -/
theorem rscrolldown_sized (t : Term) (n : Int) (col row : Nat) :
    (t.sized col row).rscrolldown n =
      (t.rscrolldown n).map (sized · col row) := by
  unfold Term.rscrolldown
  extract_lets k k'
  change (if k' = 0 then some (t.sized col row)
    else if t.line.length ≤ t.c.y + k' then none
    else some ((t.sized col row).slideDown k')) = _
  split
  · rfl
  · split
    · rfl
    · rw [t.slideDown_sized]
      rfl

/-- Rows are cut off or added below. -/
theorem withRows_framed (h : t.Framed care) {row : Nat} (hrow : 0 < row)
    (hsize : max row t.col < 2 ^ 16) :
    ((t.withRows t.col row).sized t.col row).Framed care := by
  have hkept : Screen care (min row t.row) t.col (t.line.take row) := by
    refine ⟨?_, fun l hl => h.screen.2 l (List.mem_of_mem_take hl)⟩
    rw [List.length_take, h.screen.1]
  have hlines := hkept.append (t.tclearrow_screen (row - t.row) t.col)
  have hcount : min row t.row + (row - t.row) = row := by omega
  rw [hcount] at hlines
  exact { h with row := hrow, size := hsize, screen := hlines }

/-- The screen has slid up, perhaps, and the cursor is within the new
height. -/
structure SlidUp (care : Care) (t : Term) (row : Nat) (s : Term) : Prop where
  keeps : s = { t with line := s.line, hist := s.hist, histi := s.histi
                       histf := s.histf, scr := s.scr
                       c := { t.c with y := s.c.y } }
  frame : s.Framed care
  y : s.c.y < row
  up : s.c.y ≤ t.c.y

theorem slideUp_slidUp (h : t.Framed care) {row : Nat} (hrow : 0 < row) :
    Yields care.tame (SlidUp care t row) (t.slideUp row) := by
  unfold slideUp
  refine yields_ite (fun hout => ?_) fun hin => yields_some ?_
  · have hlast : t.row - 1 < t.row := Nat.sub_lt h.row Nat.one_pos
    refine (tscrollup_scrolls h 0 hlast _ _).map fun s hs => ?_
    have hkeeps := hs.keeps
    have hframe := hs.frame
    refine ⟨?_, { hframe with }, Nat.sub_lt hrow Nat.one_pos, ?_⟩
    · generalize s.line = line at hkeeps
      generalize s.hist = hist at hkeeps
      generalize s.histi = histi at hkeeps
      generalize s.histf = histf at hkeeps
      generalize s.scr = scr at hkeeps
      subst hkeeps
      rfl
    · dsimp only
      omega
  · exact ⟨rfl, h, not_le.1 hin, le_refl _⟩

theorem tresizedef_same {col row : Nat} (hcol : t.col = col)
    (hrow : t.row = row) : t.tresizedef col row = some t :=
  if_pos ⟨hcol, hrow⟩

/-- The default screen fits its new size, whether its lines flow or not. -/
theorem tresizedef_inBounds (h : t.Framed care)
    (hdef : t.mode.altscreen = false) {col row : Nat} (hcol : 0 < col)
    (hrow : 0 < row) (hsize : max row col < 2 ^ 16) (htabs : t.tabs.length = col)
    (hx : t.col = col → t.c.x < t.col)
    (hsame : t.col = col → t.row = row → t.InBounds care) {t' : Term}
    (ht : t.tresizedef col row = some t') : t'.InBounds care := by
  unfold tresizedef at ht
  split at ht
  · next heq => exact Option.some.inj ht ▸ hsame heq.1 heq.2
  · split at ht
    · obtain ⟨s, hs, rfl⟩ := Option.map_eq_some_iff.1 ht
      exact treflow_inBounds h hdef hcol hrow hsize htabs hs
    · next hwidth =>
        obtain rfl : col = t.col := not_not.1 hwidth
        obtain ⟨s, hs, ht⟩ := Option.bind_eq_some_iff.1 ht
        have hup := (slideUp_slidUp h hrow).holds s hs
        have hkeeps := hup.keeps
        have hcol' : s.col = t.col := by rw [hkeeps]
        have hdef' : s.mode.altscreen = false := by rw [hkeeps]; exact hdef
        have hframe := withRows_framed hup.frame hrow (hcol'.symm ▸ hsize)
        rw [hcol'] at hframe
        rw [← rscrolldown_sized] at ht
        have hsized : ((s.withRows t.col row).sized t.col row).InBounds care :=
          ⟨hframe, by rw [hkeeps]; exact hx rfl, hup.y, Nat.zero_le _,
            Nat.sub_lt hrow Nat.one_pos, by rw [hkeeps]; exact htabs,
            even_default hdef'⟩
        exact hsized.rscrolldown hdef' ht

theorem fitted_sound (t : Term) {l : Line} (h : Sound care t.col l)
    (col : Nat) : Sound care col (t.fitted col l) := by
  refine Sound.take_append h.2 rfl ?_
  have hlen := h.1
  rw [List.length_take]
  omega

/-- So does the alternate one, where no line flows. -/
theorem tresizealt_inBounds (h : t.Framed care)
    (halt : t.mode.altscreen = true) {col row : Nat} (hcol : 0 < col)
    (hrow : 0 < row) (hsize : max row col < 2 ^ 16)
    (htabs : t.tabs.length = col) (hy : row ≤ t.c.y → t.c.y < t.row)
    (heven : care.tame → t.altcol = col ∧ t.altrow = row)
    (hsame : t.col = col → t.row = row → t.InBounds care) :
    (t.tresizealt col row).InBounds care := by
  unfold tresizealt
  split
  · next heq => exact hsame heq.1 heq.2
  · extract_lets i kept s src c c'
    have hkept : Screen care (min row t.row) t.col kept := by
      refine ⟨?_, fun l hl =>
        h.screen.2 l (List.mem_of_mem_drop (List.mem_of_mem_take hl))⟩
      rw [List.length_take, List.length_drop, h.screen.1]
      omega
    have hfitted : Screen care (min row t.row) col
        (kept.map (t.fitted col)) := by
      refine ⟨(List.length_map _).trans hkept.1, fun l hl => ?_⟩
      obtain ⟨old, hold, rfl⟩ := List.mem_map.1 hl
      exact t.fitted_sound (hkept.2 old hold) col
    have hscreen := hfitted.append (t.tclearrow_screen (row - t.row) col)
    have hcount : min row t.row + (row - t.row) = row := by omega
    rw [hcount] at hscreen
    have hcy : c.y < row ∧ c.attr = t.c.attr := by
      by_cases hi : i > 0
      · have hc : c = { t.c with y := row - 1 } := if_pos hi
        rw [hc]
        exact ⟨Nat.sub_lt hrow Nat.one_pos, rfl⟩
      · have hc : c = t.c := if_neg hi
        rw [hc]
        exact ⟨by omega, rfl⟩
    have hc' : c'.x < col ∧ c'.y = c.y ∧ c'.attr = c.attr := by
      clear_value c
      by_cases hout : c.x ≥ col
      · have hc' : c' = { c with wrapnext := false, x := col - 1 } := if_pos hout
        rw [hc']
        exact ⟨Nat.sub_lt hcol Nat.one_pos, rfl, rfl⟩
      · have hc' : c' = if c.wrapnext ∧ c.x + s.wrapcwidth true < col then
            { c with wrapnext := false, x := c.x + s.wrapcwidth true }
            else c := if_neg hout
        rw [hc']
        split
        · next hwrap => exact ⟨hwrap.2, rfl, rfl⟩
        · exact ⟨not_le.1 hout, rfl, rfl⟩
    have hattr : care.tame → c'.attr.mode.wdummy = false := by
      rw [hc'.2.2, hcy.2]
      exact h.attr
    have hwidth : ({ s with c := c' }.sized col row).histcol = t.altcol :=
      histcol_alt halt
    have hhist : History care ({ s with c := c' }.sized col row).histcol
        t.histi t.histf t.hist := by
      rw [hwidth, ← histcol_alt halt]
      exact h.hist
    exact ⟨{ h with
        row := hrow, col := hcol, size := hsize, screen := hscreen
        hist := hhist
        attr := hattr }, hc'.1, hc'.2.1 ▸ hcy.1, Nat.zero_le _,
      Nat.sub_lt hrow Nat.one_pos, htabs, fun htame _ => heven htame⟩

theorem tabsFor_length (t : Term) (col : Nat) :
    (t.tabsFor col).length = col := by
  rw [tabsFor, List.length_map, List.length_range]

/-- Whatever the new size is, the terminal fits it. -/
theorem InBounds.tresize (h : t.InBounds care) {col row : Nat}
    (hcol : 0 < col) (hrow : 0 < row) (hsize : max row col < 2 ^ 16)
    (htame : care.tame →
      t.mode.altscreen = false ∨ t.col = col ∧ t.row = row) {t' : Term}
    (ht : t.tresize col row = some t') : t'.InBounds care := by
  have htabs := t.tabsFor_length col
  have hframe : { t with tabs := t.tabsFor col }.Framed care :=
    { h.frame with }
  have hsame : t.col = col → t.row = row →
      { t with tabs := t.tabsFor col }.InBounds care := fun heq _ =>
    { h with frame := hframe, tabs := htabs.trans heq.symm }
  unfold Term.tresize at ht
  dsimp only at ht
  split at ht
  · next halt =>
      obtain rfl := Option.some.inj ht
      refine tresizealt_inBounds hframe halt hcol hrow hsize htabs
        (fun _ => h.y)
        (fun hn => ?_) hsame
      rcases htame hn with hdef | ⟨hcol, hrow⟩
      · exact absurd halt (Bool.eq_false_iff.1 hdef)
      · exact ⟨(h.even hn halt).1.trans hcol, (h.even hn halt).2.trans hrow⟩
  · next hdef =>
      exact tresizedef_inBounds hframe (Bool.not_eq_true _ ▸ hdef) hcol hrow
        hsize htabs (fun _ => h.x) hsame ht

theorem rscrolldown_isSome {n : Int} (hroom : t.c.y < t.line.length)
    (hn : 0 < n → t.c.y + n < t.line.length) : (t.rscrolldown n).isSome := by
  unfold Term.rscrolldown
  dsimp only
  split
  · rfl
  · next hpos =>
      rw [if_neg (by omega)]
      rfl

/-- With room for its lines no resize of the default screen fails. -/
theorem tresizedef_isSome (hn : care.tame) (h : t.Framed care)
    (hdef : t.mode.altscreen = false) (hx : t.c.x < t.col) (hy : t.c.y < t.row)
    {col row : Nat} (hcol : 0 < col) (hrow : 0 < row)
    (hsize : max row col < 2 ^ 16) (hroom : t.Roomy col row) :
    (t.tresizedef col row).isSome := by
  unfold tresizedef
  split
  · rfl
  · split
    · rw [Option.isSome_map]
      exact treflow_isSome h hdef hx hy hcol hsize hroom
    · have hslide := slideUp_slidUp h hrow
      obtain ⟨s, hs⟩ := Option.isSome_iff_exists.1 (hslide.isSome hn)
      have hup := hslide.holds s hs
      have hheight : s.row = t.row := by rw [hup.keeps]
      have hlength := hup.frame.screen.1
      have hcy := hup.y
      have hle := hup.up
      rw [hs, Option.bind_some, Option.isSome_map]
      have hrows : (s.withRows col row).line.length = row := by
        change (s.line.take row ++ List.replicate (row - s.row)
          (List.replicate col (s.tclearglyph false))).length = row
        rw [List.length_append, List.length_take, List.length_replicate]
        omega
      refine rscrolldown_isSome (hrows.symm ▸ hcy) fun hpos => ?_
      rw [hrows]
      change (s.c.y : Int) + _ < _
      omega

theorem tresize_isSome (hn : care.tame) (h : t.InBounds care) {col row : Nat}
    (hcol : 0 < col) (hrow : 0 < row) (hsize : max row col < 2 ^ 16)
    (hroom : t.mode.altscreen = false →
      t.col = col ∧ t.row = row ∨ t.Roomy col row) :
    (t.tresize col row).isSome := by
  have hframe : { t with tabs := t.tabsFor col }.Framed care :=
    { h.frame with }
  unfold Term.tresize
  dsimp only
  split
  · rfl
  · next hdef =>
      have hdef := Bool.not_eq_true _ ▸ hdef
      rcases hroom hdef with hsame | hroom
      · exact (congrArg Option.isSome (if_pos hsame)).trans rfl
      · exact tresizedef_isSome hn hframe hdef h.x h.y hcol hrow hsize hroom

end Resize

section Swap

/-- The history stays with the default screen when the two change places. -/
theorem tswapscreen_framed (h : t.Framed care) :
    t.tswapscreen.Framed care := by
  have hwidth : t.tswapscreen.histcol = t.histcol := by
    cases halt : t.mode.altscreen with
    | false =>
        have hother : t.tswapscreen.mode.altscreen = true :=
          congrArg not halt
        rw [histcol_default halt, histcol_alt hother]
        rfl
    | true =>
        have hother : t.tswapscreen.mode.altscreen = false :=
          congrArg not halt
        rw [histcol_alt halt, histcol_default hother]
        rfl
  have hhist : History care t.tswapscreen.histcol t.histi t.histf t.hist :=
    hwidth.symm ▸ h.hist
  exact { h with
    row := h.altrow
    col := h.altcol
    size := h.altsize
    screen := h.other
    hist := hhist
    altrow := h.row
    altcol := h.col
    altsize := h.size
    other := h.screen }

theorem loadCursor_alike (hsaved : care.tame → ∀ alt,
    (t.saved alt).attr.mode.wdummy = false) : Alike care t t.loadCursor :=
  { Alike.refl t with attr := fun _ hn => hsaved hn _ }

/-- A saved cursor may be from a larger screen; it is moved onto this one. -/
theorem loadCursor_inside (hrow : 0 < t.row) (hcol : 0 < t.col)
    (hregion : t.top ≤ t.bot) (hbot : t.bot < t.row) :
    t.loadCursor.c.x < t.col ∧ t.loadCursor.c.y < t.row :=
  tmoveto_inside (t := { t with c := t.saved t.mode.altscreen }) hrow hcol
    hregion hbot _ _

theorem loadCursor_x (hcol : 0 < t.col) : t.loadCursor.c.x < t.col := by
  have hx := limit_bounds (x := (t.saved t.mode.altscreen).x) (a := 0)
    (b := (t.col : Int) - 1) (by omega)
  change (limit (t.saved t.mode.altscreen).x 0 (t.col - 1)).toNat < t.col
  omega

theorem InBounds.loadCursor (h : t.InBounds care) :
    t.loadCursor.InBounds care := by
  obtain ⟨hx, hy⟩ := loadCursor_inside h.frame.row h.frame.col h.region h.bot
  exact (loadCursor_alike h.frame.saved).inBounds h hx hy

theorem InBounds.swapToAlt (h : t.InBounds care)
    (hdef : t.mode.altscreen = false) :
    ({ t.tswapscreen with scr := 0 }.tresizealt t.col t.row).InBounds
      care := by
  have hframe : { t.tswapscreen with scr := 0 }.Framed care :=
    { tswapscreen_framed h.frame with scr := Nat.zero_le _ }
  have halt : t.tswapscreen.mode.altscreen = true := congrArg not hdef
  refine tresizealt_inBounds hframe halt h.frame.col h.frame.row
    h.frame.size h.tabs
    (fun hy => absurd h.y (not_lt.2 hy)) (fun _ => ⟨rfl, rfl⟩)
    fun hcol hrow => ?_
  exact ⟨hframe, hcol.symm ▸ h.x, hrow.symm ▸ h.y, h.region, hrow.symm ▸ h.bot,
    hcol.symm ▸ h.tabs, fun _ _ => ⟨hcol.symm, hrow.symm⟩⟩

theorem InBounds.tloadaltscreen (h : t.InBounds care)
    (clear savecursor : Bool) :
    (t.tloadaltscreen clear savecursor).InBounds care := by
  unfold Term.tloadaltscreen
  extract_lets saved swapped shown
  have hs : saved.InBounds care := by
    cases savecursor with
    | false => exact h
    | true => exact saveCursor_alike.inBounds h h.x h.y
  have hshown : shown.InBounds care := by
    cases hdef : saved.mode.altscreen with
    | false =>
        have heq : shown =
            { saved.tswapscreen with scr := 0 }.tresizealt saved.col saved.row :=
          if_pos (congrArg not hdef)
        exact heq ▸ hs.swapToAlt hdef
    | true =>
        have heq : shown = saved :=
          if_neg (by rw [hdef]; exact Bool.false_ne_true)
        exact heq ▸ hs
  split
  · exact (shown.tclearregion_alike _ _ _ _ _).inBounds hshown hshown.x hshown.y
  · exact hshown

/-- The default screen comes back and takes the size of the alternate one. -/
theorem swapToDef_inBounds (h : t.InBounds care)
    (halt : t.mode.altscreen = true) (loadcursor : Bool) {t' : Term}
    (ht : (if loadcursor then t.tswapscreen.loadCursor
      else t.tswapscreen).tresizedef t.col t.row = some t') :
    t'.InBounds care := by
  have hframe := tswapscreen_framed h.frame
  have hdef : t.tswapscreen.mode.altscreen = false := congrArg not halt
  cases loadcursor with
  | false =>
      refine tresizedef_inBounds hframe hdef h.frame.col h.frame.row
        h.frame.size h.tabs (fun heq => heq.symm ▸ h.x) (fun hcol hrow => ?_) ht
      exact ⟨hframe, hcol.symm ▸ h.x, hrow.symm ▸ h.y, h.region,
        hrow.symm ▸ h.bot, hcol.symm ▸ h.tabs, even_default hdef⟩
  | true =>
      have hload := loadCursor_alike hframe.saved
      have hx := loadCursor_x hframe.col
      refine tresizedef_inBounds (hload.framed hframe) hdef h.frame.col
        h.frame.row h.frame.size h.tabs (fun _ => hx) (fun hcol hrow => ?_) ht
      have hbot : t.tswapscreen.bot < t.tswapscreen.row :=
        Nat.lt_of_lt_of_eq h.bot hrow.symm
      have hinside := loadCursor_inside hframe.row hframe.col h.region hbot
      exact ⟨hload.framed hframe, hinside.1, hinside.2, h.region, hbot,
        h.tabs.trans hcol.symm, even_default hdef⟩

theorem InBounds.tloaddefscreen (h : t.InBounds care)
    (clear loadcursor : Bool) {t' : Term}
    (ht : t.tloaddefscreen clear loadcursor = some t') :
    t'.InBounds care := by
  unfold Term.tloaddefscreen at ht
  cases halt : t.mode.altscreen with
  | false =>
      simp only [halt, Bool.false_eq_true, if_false] at ht
      obtain rfl := Option.some.inj ht
      split
      · exact h.loadCursor
      · exact h
  | true =>
      simp only [halt, if_true] at ht
      cases clear with
      | false => exact swapToDef_inBounds h halt loadcursor ht
      | true =>
          have hclear := (t.tclearregion_alike 0 0 (t.col - 1) (t.row - 1)
            true).inBounds h h.x h.y
          exact swapToDef_inBounds hclear halt loadcursor ht

end Swap

section Reset

theorem clearScreen_alike (t : Term) : Alike care t t.clearScreen := by
  have hclear : Alike care t.saveCursor t.clearScreen :=
    { Alike.refl t.saveCursor with
      screen := fun h => h.mapIdx fun y l hl => hl.mapIdx fun x g hg => by
        split
        · rfl
        · exact hg }
  exact saveCursor_alike.trans hclear

/-- A reset leaves no line in the history, so that it does not matter how long
its lines are; in a tame run they are as long as before. -/
theorem treset_inBounds (h : t.Framed care)
    (heven : care.tame → t.mode.altscreen = true → t.altcol = t.col) :
    t.treset.InBounds care := by
  have hhist : History care t.col t.histi 0 t.hist :=
    { h.hist with
      count := Nat.zero_le _
      recent := fun k hk => absurd hk (Nat.not_lt_zero k)
      whole := fun hn l hl => by
        have hcol : t.histcol = t.col := by
          rw [histcol]
          split
          · next halt => exact heven hn halt
          · rfl
        exact hcol ▸ h.hist.whole hn l hl }
  have hreset : t.resetModes.Framed care :=
    { h with
      hist := hhist
      scr := Nat.zero_le _
      charset := (by decide : 0 < 4)
      attr := fun _ => rfl }
  have hclear := (clearScreen_alike t.resetModes).framed hreset
  have hother := tswapscreen_framed hclear
  have hclear' := (clearScreen_alike _).framed hother
  refine ⟨tswapscreen_framed hclear', ?_, ?_, Nat.zero_le _, ?_, ?_,
    even_default rfl⟩
  · exact h.col
  · exact h.row
  · exact Nat.sub_lt h.row Nat.one_pos
  · exact (List.length_map _).trans List.length_range

/-- The terminal that st starts with. -/
theorem tnew_inBounds {col row : Nat} (hcol : 0 < col) (hrow : 0 < row)
    (hsize : max row col < 2 ^ 16) : (tnew col row).InBounds care :=
  treset_inBounds
    { row := hrow, col := hcol, size := hsize
      screen := screen_replicate (sound_replicate rfl)
      hist := {
        length := List.length_replicate
        index := (by decide : 0 < histsize)
        count := Nat.zero_le _
        recent := fun k hk => absurd hk (Nat.not_lt_zero k)
        whole := fun _ => (screen_replicate (sound_replicate rfl)).2 }
      scr := Nat.zero_le _
      altrow := hrow, altcol := hcol, altsize := hsize
      other := screen_replicate (sound_replicate rfl)
      charset := (by decide : 0 < 4)
      icharset := (by decide : 0 < 4)
      attr := fun _ => rfl
      saved := fun _ _ => rfl
      lastc := fun _ => care.plain_zero
      reading := reading_idle _ _ } fun _ halt => absurd halt Bool.false_ne_true

end Reset

end Term

end St

end Bodhi
