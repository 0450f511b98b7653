/-
Scrolling and the reflow of st keep its arrays in step: lines that pass between
the screen and the history fit both, and every row that flows has the new
width.
-/
import Bodhi.PartialSteps
import Bodhi.TerminalBounds

namespace Bodhi

namespace St

namespace Term

variable {care : Care} {t : Term}

section Scroll

theorem histcol_default (hdef : t.mode.altscreen = false) :
    t.histcol = t.col := by
  rw [histcol, hdef, if_neg Bool.false_ne_true]

theorem histcol_alt (halt : t.mode.altscreen = true) :
    t.histcol = t.altcol := by
  rw [histcol, halt, if_pos rfl]

theorem even_default (hdef : t.mode.altscreen = false) {p q : Prop} :
    care.tame → t.mode.altscreen = true → p ∧ q := by
  rw [hdef]
  exact fun _ halt => absurd halt Bool.false_ne_true

/-- After `i` rounds of the loop that fills the history: the screen, the history
and its index alone have changed, and `i` lines more are recent. -/
structure Pushed (care : Care) (t : Term) (i : Nat) (s : Term) : Prop where
  keeps : s = { t with line := s.line, hist := s.hist, histi := s.histi }
  screen : Screen care t.row t.col s.line
  hist : History care t.col s.histi (min (t.histf + i) histsize) s.hist

/-- In a tame run the line that comes back is as long as the others. -/
theorem pushLine_pushed {i : Nat} {s : Term} (h : Pushed care t i s)
    (hi : i < t.row) : Yields care.tame (Pushed care t (i + 1)) (s.pushLine i) := by
  have hcol : s.col = t.col := by rw [h.keeps]
  have hnext : (s.histi + 1) % histsize < s.hist.length :=
    h.hist.length.symm ▸ Nat.mod_lt _ (by decide)
  have hold : s.hist.getD ((s.histi + 1) % histsize) [] ∈ s.hist := by
    rw [List.getD_eq_getElem _ _ hnext]
    exact List.getElem_mem hnext
  unfold pushLine
  extract_lets histi temp
  refine yields_ite (fun hshort => ?_) fun hlong => ?_
  · refine yields_none _ fun hn => ?_
    exact absurd ((h.hist.whole hn _ hold).1) (not_le.2 (hcol ▸ hshort))
  · have hlength := h.hist.length
    have hpush := h.hist.push (h.screen.getD hi [])
    have hcount : min (min (t.histf + i) histsize + 1) histsize =
        min (t.histf + (i + 1)) histsize := by omega
    rw [hcount] at hpush
    have htemp : Sound care t.col (temp.mapIdx fun j g =>
        if j < s.col then s.tclearglyph true else g) := by
      refine ⟨?_, fun hn g hg => ?_⟩
      · rw [List.length_mapIdx, ← hcol]
        exact not_lt.1 hlong
      · obtain ⟨j, hj, rfl⟩ := List.mem_mapIdx.1 hg
        split
        · rfl
        · exact (h.hist.whole hn _ hold).2 hn _ (List.getElem_mem hj)
    refine yields_some ⟨?_, h.screen.set i htemp, hpush⟩
    have hkeeps := h.keeps
    generalize s.line = line at hkeeps ⊢
    generalize temp.mapIdx _ = cleared
    generalize List.set _ _ _ = hist
    rw [hkeeps]

theorem pushLines_pushed (h : t.Framed care) (hdef : t.mode.altscreen = false)
    {n : Nat} (hn : n ≤ t.row) :
    Yields care.tame (Pushed care t n) ((List.range n).foldlM pushLine t) := by
  have hhist := h.hist
  rw [histcol_default hdef] at hhist
  have hcount : min (t.histf + 0) histsize = t.histf :=
    Nat.min_eq_left hhist.count
  refine yields_range (fun i hi s hs => pushLine_pushed hs (by omega)) ?_
  exact ⟨rfl, h.screen, by rw [hcount]; exact hhist⟩

/-- A step that only scrolls. -/
structure Scrolls (care : Care) (t s : Term) : Prop where
  keeps : s = { t with line := s.line, hist := s.hist, histi := s.histi
                       histf := s.histf, scr := s.scr }
  frame : s.Framed care

theorem Scrolls.inBounds {s : Term} (h : t.InBounds care)
    (hs : Scrolls care t s) : s.InBounds care := by
  have hkeeps := hs.keeps
  exact ⟨hs.frame, by rw [hkeeps]; exact h.x, by rw [hkeeps]; exact h.y,
    by rw [hkeeps]; exact h.region, by rw [hkeeps]; exact h.bot,
    by rw [hkeeps]; exact h.tabs, by rw [hkeeps]; exact h.even⟩

theorem scrolled_scrolls (h : t.Framed care) (top : Nat) {n : Nat}
    (hn : n ≤ t.row) (mode : ScrollMode) :
    Yields care.tame (Scrolls care t) (t.scrolled top n mode) := by
  unfold scrolled
  refine yields_ite (fun hsave => ?_) fun _ => yields_some ?_
  · have hdef : t.mode.altscreen = false := by
      simp only [Bool.and_eq_true, Bool.not_eq_true'] at hsave
      exact hsave.1.1
    refine (pushLines_pushed h hdef hn).map fun s hs => ?_
    have hkeeps := hs.keeps
    have hscreen := hs.screen
    have hhist := hs.hist
    rw [← histcol_default hdef] at hhist
    have hscr := h.scr
    have hcount := h.hist.count
    generalize s.line = line at hkeeps hscreen
    generalize s.hist = hist at hkeeps hhist
    generalize s.histi = histi at hkeeps hhist
    subst hkeeps
    refine ⟨rfl, { h with screen := hscreen, hist := hhist, scr := ?_ }⟩
    dsimp only
    split <;> omega
  · exact ⟨rfl, (t.tclearregion_alike _ _ _ _ _).framed h⟩

/-- Scrolling up only changes the screen, the history and their counts. -/
theorem tscrollup_scrolls (h : t.Framed care) (top : Nat) {bot : Nat}
    (hbot : bot < t.row) (n : Int) (mode : ScrollMode) :
    Yields care.tame (Scrolls care t) (t.tscrollup top bot n mode) := by
  unfold tscrollup
  refine yields_ite (fun _ => yields_some ⟨rfl, h⟩) fun _ => ?_
  have hn : min n.toNat (bot + 1 - top) ≤ t.row := by omega
  refine (scrolled_scrolls h top hn mode).map fun s hs => ?_
  have hrow : s.row = t.row := by rw [hs.keeps]
  have hkeeps := hs.keeps
  refine ⟨?_, { hs.frame with
    screen := swapUp_screen hs.frame.screen (hrow.symm ▸ hbot) _ }⟩
  generalize swapUp _ _ _ _ = line
  rw [hkeeps]

theorem InBounds.tscrollup (h : t.InBounds care) {top bot : Nat}
    (hbot : bot < t.row) (n : Int) (mode : ScrollMode) :
    Yields care.tame (InBounds care) (t.tscrollup top bot n mode) :=
  (tscrollup_scrolls h.frame top hbot n mode).mono fun _ => Scrolls.inBounds h

end Scroll

section Flow

/-- A line without the half of a wide character, where that matters. -/
def Plain (care : Care) (l : Line) : Prop :=
  care.tame → ∀ g ∈ l, g.mode.wdummy = false

theorem Plain.append {l l' : Line} (h : Plain care l) (h' : Plain care l') :
    Plain care (l ++ l') := fun hn g hg =>
  (List.mem_append.1 hg).elim (h hn g) (h' hn g)

theorem Plain.modLast {l : Line} (h : Plain care l) (wrap : Bool) :
    Plain care (modLast (setWrap wrap) l) := by
  intro hn g hg
  obtain ⟨i, hi⟩ := List.mem_iff_getElem?.1 hg
  rw [Term.modLast, List.getElem?_modify] at hi
  obtain ⟨old, hold, hnew⟩ := Option.map_eq_some_iff.1 hi
  have hmem := h hn old (List.mem_of_getElem? hold)
  split at hnew
  · rw [← hnew]
    exact hmem
  · exact hnew ▸ hmem

theorem sound_part {l : Line} {col : Nat} (h : Sound care col l) (i n : Nat) :
    Plain care ((l.drop i).take n) := fun hn g hg =>
  h.2 hn g (List.mem_of_mem_drop (List.mem_of_mem_take hg))

/-- A row that is filled up has the new width. -/
theorem padded_sound {l : Line} {col : Nat} (hl : Plain care l)
    (hlen : l.length ≤ col) :
    (t.padded col l).length = col ∧ Sound care col (t.padded col l) := by
  have hlength : (t.padded col l).length = col := by
    rw [padded, List.length_append, List.length_replicate]
    omega
  refine ⟨hlength, hlength.ge, ?_⟩
  refine hl.append fun _ g hg => ?_
  rw [List.eq_of_mem_replicate hg]
  rfl

/-- The cursor is on the screen and within its line, which may be longer than
the screen is wide. -/
structure Within (t : Term) : Prop where
  y : t.c.y < t.row
  x : t.c.x < (t.line.getD t.c.y []).length

/-- What the loop of `treflow` keeps: rows of the new width, one row in
progress, a place within the source, and the cursor on one of the rows. -/
structure Flows (care : Care) (t : Term) (col : Nat) (s : Reflow) :
    Prop where
  rows : ∀ l ∈ s.rows, l.length = col ∧ Sound care col l
  cur : s.cur.length < col
  plain : Plain care s.cur
  start : -(t.histf : Int) ≤ s.oy
  line : s.ox ≠ 0 → Sound care t.col s.line ∧ s.len ≤ s.line.length ∧
    s.len ≤ max t.col (t.c.x + 1) ∧ s.ox < s.len
  seek : s.cy = none → s.cx = t.c.x
  place : ∀ k, s.cy = some k → s.cx < col ∧
    (k < s.rows.length ∨ k = s.rows.length ∧ s.cur ≠ []) ∧
    (s.oy = t.c.y ∧ s.ox ≠ 0 ∨ (t.c.y : Int) < s.oy)

/-- A place within the source. -/
structure Reads (care : Care) (t : Term) (s : Reflow) : Prop where
  line : Sound care t.col s.line
  len : s.len ≤ s.line.length
  width : s.len ≤ max t.col (t.c.x + 1)
  ox : s.ox = 0 ∨ s.ox < s.len

theorem tlinelen_le (t : Term) (l : Line) : t.tlinelen l ≤ t.col := by
  have hsuffix := List.dropWhile_suffix
    (fun g : Glyph => !(g.mode.set || g.mode.wrap)) (l := (l.take t.col).reverse)
  have hlen := hsuffix.length_le
  rw [List.length_reverse, List.length_take] at hlen
  exact hlen.trans (Nat.min_le_left _ _)

/-- The lines that flow are as long as the screen is wide. -/
theorem tlineabs_sound (h : t.Framed care) (hdef : t.mode.altscreen = false)
    {y : Int} (hstart : -(t.histf : Int) ≤ y) (hy : y < t.row) :
    Sound care t.col (t.tlineabs y) := by
  have hhist := h.hist
  rw [histcol_default hdef] at hhist
  unfold tlineabs
  split
  · have hback := hhist.recent (-(y + 1)).toNat (by omega)
    have hcount := hhist.count
    have hplace : t.histi + (y + 1 + histsize).toNat =
        t.histi + histsize - (-(y + 1)).toNat := by omega
    rw [hplace]
    exact hback
  · exact h.screen.getD (by omega) []

variable {col : Nat} {s : Reflow}

/-- A line that is continued is not read again. -/
theorem source_continues (t : Term) (hox : s.ox ≠ 0) : t.source s = s := by
  unfold source
  dsimp only
  rw [if_neg hox, if_neg hox, ite_self]

theorem source_begins (t : Term) (hox : s.ox = 0) :
    t.source s =
      { s with
        line := t.tlineabs s.oy
        len :=
          if s.oy = t.c.y then max (t.tlinelen (t.tlineabs s.oy)) (s.cx + 1)
          else t.tlinelen (t.tlineabs s.oy) } := by
  unfold source
  rw [if_pos hox]
  dsimp only
  rw [if_pos hox]
  split <;> rfl

/-- What is read of a line ends within it. -/
theorem source_reads (h : t.Framed care) (hdef : t.mode.altscreen = false)
    (hw : t.Within) (hs : Flows care t col s) (hoy : s.oy < t.row) :
    Reads care t (t.source s) := by
  by_cases hox : s.ox = 0
  · have hline := tlineabs_sound h hdef hs.start hoy
    have hle := t.tlinelen_le (t.tlineabs s.oy)
    have hlen := hline.1
    rw [t.source_begins hox]
    by_cases hcy : s.oy = t.c.y
    · have hnone : s.cy = none := by
        cases hk : s.cy with
        | none => rfl
        | some k =>
            rcases (hs.place k hk).2.2 with ⟨_, hne⟩ | hlt
            · exact absurd hox hne
            · omega
      have hhere : t.tlineabs s.oy = t.line.getD t.c.y [] := by
        rw [hcy, tlineabs, if_neg (by omega), Int.toNat_natCast]
      have hx := hw.x
      rw [← hhere] at hx
      rw [if_pos hcy, hs.seek hnone]
      refine ⟨hline, ?_, ?_, Or.inl hox⟩ <;> dsimp only <;> omega
    · rw [if_neg hcy]
      refine ⟨hline, ?_, ?_, Or.inl hox⟩ <;> dsimp only <;> omega
  · obtain ⟨hline, hle, hwidth, hlt⟩ := hs.line hox
    rw [t.source_continues hox]
    exact ⟨hline, hle, hwidth, Or.inr hlt⟩

/-- The cursor is placed in the row that is being filled. -/
theorem placeCursor_cases (t : Term) (hcur : s.cur.length < col) :
    t.placeCursor col s = s ∨
      s.cy = none ∧ s.oy = t.c.y ∧ ∃ cx wrapnext, cx < col ∧
        t.placeCursor col s =
          { s with cx, cy := some s.rows.length, wrapnext } := by
  unfold placeCursor
  extract_lets nx cx
  split
  · next hhere =>
      obtain ⟨hoy, hcy, hlt⟩ := hhere
      have hcx : cx < col := by omega
      refine Or.inr ⟨hcy, hoy, ?_⟩
      split
      · next hwrap => exact ⟨_, _, hwrap.2, rfl⟩
      · exact ⟨_, _, hcx, rfl⟩
  · exact Or.inl rfl

/-- A round of the loop ends a line and perhaps its row, or a row. -/
theorem flow_cases (hcur : s.cur.length < col) (hplain : Plain care s.cur)
    (hs : Reads care t s) :
    (∃ l, (l.length = col ∧ Sound care col l) ∧ t.flow col s =
      { s with rows := s.rows ++ [l], cur := [], ox := 0, oy := s.oy + 1 }) ∨
    (∃ l, l ≠ [] ∧ l.length < col ∧ Plain care l ∧ t.flow col s =
      { s with cur := l, ox := 0, oy := s.oy + 1 }) ∨
    ∃ l, (l.length = col ∧ Sound care col l) ∧
      s.ox + (col - s.cur.length) < s.len ∧ t.flow col s =
        { s with rows := s.rows ++ [l], cur := []
                 ox := s.ox + (col - s.cur.length) } := by
  have hlen := hs.len
  have hox := hs.ox
  have hpart := fun n => sound_part hs.line s.ox n
  have hsize : ∀ n, n ≤ s.len - s.ox →
      (s.cur ++ (s.line.drop s.ox).take n).length = s.cur.length + n := by
    intro n hn
    rw [List.length_append, List.length_take, List.length_drop]
    omega
  unfold flow
  extract_lets room left cur
  split
  · next hroom =>
      have hcurlen := hsize left (le_refl _)
      split
      · refine Or.inl ⟨_, padded_sound (hplain.append (hpart left)) ?_, rfl⟩
        omega
      · next hwrap =>
          have hleft : 0 < left := by
            have : s.len ≠ 0 := fun hzero => hwrap (Or.inl hzero)
            omega
          refine Or.inr (Or.inl ⟨_, ?_, ?_,
            (hplain.append (hpart left)).modLast false, rfl⟩)
          · rw [← List.length_pos_iff, modLast, List.length_modify]
            omega
          · rw [modLast, List.length_modify]
            omega
  · split
    · next hroom =>
        have hcurlen := hsize room (by omega)
        have hcol : (s.cur ++ (s.line.drop s.ox).take room).length = col := by
          omega
        exact Or.inl ⟨_, ⟨hcol, hcol.ge, hplain.append (hpart room)⟩, rfl⟩
    · have hcurlen := hsize room (by omega)
      have hcol : (modLast (setWrap true)
          (s.cur ++ (s.line.drop s.ox).take room)).length = col := by
        rw [modLast, List.length_modify]
        omega
      exact Or.inr (Or.inr ⟨_, ⟨hcol, hcol.ge,
        (hplain.append (hpart room)).modLast true⟩, by omega, rfl⟩)

theorem source_flows (hs : Flows care t col s) :
    Flows care t col (t.source s) := by
  by_cases hox : s.ox = 0
  · rw [t.source_begins hox]
    exact { hs with line := fun hne => absurd hox hne }
  · rw [t.source_continues hox]
    exact hs

theorem source_oy (t : Term) (s : Reflow) : (t.source s).oy = s.oy := by
  by_cases hox : s.ox = 0
  · rw [t.source_begins hox]
  · rw [t.source_continues hox]

/-- Once the cursor has its place, the loop is at its line or beyond. -/
theorem placeCursor_located (hs : Flows care t col s) {k : Nat}
    (hk : (t.placeCursor col s).cy = some k) :
    (t.placeCursor col s).cx < col ∧ k ≤ s.rows.length ∧
      (t.c.y : Int) ≤ s.oy := by
  rcases t.placeCursor_cases hs.cur with hsame | ⟨_, hoy, cx, w, hcx, hplace⟩
  · rw [hsame] at hk ⊢
    obtain ⟨hcx, hrow, hline⟩ := hs.place k hk
    refine ⟨hcx, ?_, ?_⟩
    · rcases hrow with hlt | ⟨heq, _⟩
      · exact hlt.le
      · exact heq.le
    · rcases hline with ⟨heq, _⟩ | hlt
      · exact heq.ge
      · exact hlt.le
  · rw [hplace] at hk ⊢
    exact ⟨hcx, (Option.some.inj hk).ge, hoy.ge⟩

theorem placeCursor_seek (hs : Flows care t col s)
    (hnone : (t.placeCursor col s).cy = none) :
    (t.placeCursor col s).cx = t.c.x := by
  rcases t.placeCursor_cases hs.cur with hsame | ⟨_, _, cx, w, _, hplace⟩
  · rw [hsame] at hnone ⊢
    exact hs.seek hnone
  · rw [hplace] at hnone
    cases hnone

theorem placeCursor_keeps (t : Term) (hcur : s.cur.length < col) :
    t.placeCursor col s = { s with
      cx := (t.placeCursor col s).cx
      cy := (t.placeCursor col s).cy
      wrapnext := (t.placeCursor col s).wrapnext } := by
  rcases t.placeCursor_cases hcur with hsame | ⟨_, _, cx, w, _, hplace⟩
  · rw [hsame]
  · rw [hplace]

/-- The glyphs that flow keep the rows and the cursor in order. -/
theorem flow_flows (hs : Flows care t col s) (hreads : Reads care t s) :
    Flows care t col (t.flow col (t.placeCursor col s)) := by
  have hcol : 0 < col := Nat.zero_lt_of_lt hs.cur
  have hlocated := fun k => placeCursor_located hs (k := k)
  have hseek := placeCursor_seek hs
  have hkeeps := t.placeCursor_keeps hs.cur
  generalize t.placeCursor col s = p at hlocated hseek hkeeps ⊢
  have hrows : p.rows = s.rows := by rw [hkeeps]
  have hoy : p.oy = s.oy := by rw [hkeeps]
  have hstart : -(t.histf : Int) ≤ p.oy := hoy.symm ▸ hs.start
  have hp : Reads care t p := by
    rw [hkeeps]
    exact ⟨hreads.line, hreads.len, hreads.width, hreads.ox⟩
  have hcur : p.cur.length < col := by rw [hkeeps]; exact hs.cur
  have hplain : Plain care p.cur := by rw [hkeeps]; exact hs.plain
  have hall : ∀ l, l.length = col ∧ Sound care col l →
      ∀ l' ∈ p.rows ++ [l], l'.length = col ∧ Sound care col l' := by
    intro l hl l' hmem
    rw [hrows] at hmem
    rcases List.mem_append.1 hmem with hold | hnew
    · exact hs.rows l' hold
    · exact List.mem_singleton.1 hnew ▸ hl
  have hnil : Plain care [] := fun _ g hg => absurd hg (List.not_mem_nil)
  rcases flow_cases hcur hplain hp with
    ⟨l, hl, heq⟩ | ⟨l, hne, hlen, hl, heq⟩ | ⟨l, hl, hlt, heq⟩
  · rw [heq]
    refine ⟨hall l hl, hcol, hnil, hstart.trans (Int.le_add_one le_rfl),
      fun hne => absurd rfl hne, hseek, ?_⟩
    intro k hk
    obtain ⟨hcx, hrow, hline⟩ := hlocated k hk
    refine ⟨hcx, Or.inl ?_, Or.inr ?_⟩
    · rw [List.length_append, hrows]
      exact Nat.lt_succ_of_le hrow
    · dsimp only
      omega
  · rw [heq]
    refine ⟨hrows ▸ hs.rows, hlen, hl, hstart.trans (Int.le_add_one le_rfl),
      fun hne => absurd rfl hne, hseek, ?_⟩
    intro k hk
    obtain ⟨hcx, hrow, hline⟩ := hlocated k hk
    refine ⟨hcx, ?_, Or.inr ?_⟩
    · rcases Nat.lt_or_eq_of_le hrow with hbelow | hlast
      · exact Or.inl (hrows.symm ▸ hbelow)
      · exact Or.inr ⟨hrows.symm ▸ hlast, hne⟩
    · dsimp only
      omega
  · rw [heq]
    refine ⟨hall l hl, hcol, hnil, hstart,
      fun _ => ⟨hp.line, hp.len, hp.width, hlt⟩, hseek, ?_⟩
    intro k hk
    obtain ⟨hcx, hrow, hline⟩ := hlocated k hk
    refine ⟨hcx, Or.inl ?_, ?_⟩
    · rw [List.length_append, hrows]
      exact Nat.lt_succ_of_le hrow
    · dsimp only
      omega

theorem reflowStep_flows (h : t.Framed care) (hdef : t.mode.altscreen = false)
    (hw : t.Within) (hs : Flows care t col s) (hoy : s.oy < t.row) :
    Flows care t col (t.reflowStep col s) :=
  flow_flows (source_flows hs) (source_reads h hdef hw hs hoy)

theorem reflowLoop_flows (h : t.Framed care) (hdef : t.mode.altscreen = false)
    (hw : t.Within) {oce : Int} (hoce : oce < t.row) (fuel : Nat)
    (hs : Flows care t col s) (hoy : s.oy ≤ oce) :
    Flows care t col (t.reflowLoop col oce fuel s) := by
  induction fuel generalizing s with
  | zero => exact hs
  | succ fuel ih =>
      have hstep := reflowStep_flows h hdef hw hs (hoy.trans_lt hoce)
      rw [reflowLoop]
      split
      · next hle => exact ih hstep hle
      · exact hstep

theorem flow_cursor (t : Term) (col : Nat) (s : Reflow) :
    (t.flow col s).cy = s.cy ∧ s.oy ≤ (t.flow col s).oy := by
  unfold flow
  dsimp only
  split
  · split <;> exact ⟨rfl, by dsimp only; omega⟩
  · split
    · exact ⟨rfl, by dsimp only; omega⟩
    · exact ⟨rfl, le_refl _⟩

/-- Lines below the cursor's do not hold it. -/
theorem reflowLoop_below (t : Term) {oce : Int} (fuel : Nat)
    (hoy : (t.c.y : Int) < s.oy) (hoce : oce < s.oy) (hnone : s.cy = none) :
    (t.reflowLoop col oce fuel s).cy = none := by
  cases fuel with
  | zero => exact hnone
  | succ fuel =>
      have hsource := t.source_oy s
      have hcy : (t.source s).cy = s.cy := by
        by_cases hox : s.ox = 0
        · rw [t.source_begins hox]
        · rw [t.source_continues hox]
      have hplace : t.placeCursor col (t.source s) = t.source s :=
        if_neg fun hhere => by omega
      obtain ⟨hfound, hle⟩ := t.flow_cursor col (t.source s)
      rw [reflowLoop, reflowStep, hplace, if_neg (by omega)]
      exact hfound.trans (hcy.trans hnone)

theorem lineEnd_lt (t : Term) (fuel : Nat) {oce : Nat} (h : oce < t.row) :
    t.lineEnd fuel oce < t.row := by
  induction fuel generalizing oce with
  | zero => exact h
  | succ fuel ih =>
      rw [lineEnd]
      split
      · next hmore => exact ih hmore.1
      · exact h

theorem le_lineEnd (t : Term) (fuel oce : Nat) : oce ≤ t.lineEnd fuel oce := by
  induction fuel generalizing oce with
  | zero => exact le_refl oce
  | succ fuel ih =>
      rw [lineEnd]
      split
      · exact (Nat.le_succ oce).trans (ih (oce + 1))
      · exact le_refl oce

theorem begins_flows (t : Term) (hcol : 0 < col) {oy : Int}
    (hoy : -(t.histf : Int) ≤ oy) :
    Flows care t col ⟨[], [], 0, oy, [], 0, t.c.x, none, t.c.wrapnext⟩ :=
  ⟨fun _ hl => absurd hl List.not_mem_nil, hcol,
    fun _ _ hg => absurd hg List.not_mem_nil, hoy, fun hne => absurd rfl hne,
    fun _ => rfl, fun _ hk => nomatch hk⟩

theorem rowsPerLine_pos (t : Term) (hcol : 0 < col) : 0 < t.rowsPerLine col := by
  unfold rowsPerLine
  split
  · exact Nat.div_pos (by omega) hcol
  · exact Nat.one_pos

/-- The lines that flow are those on the screen and recent ones of the
history. -/
theorem le_firstLine (t : Term) (hcol : 0 < col) (row oce : Nat) :
    -(t.histf : Int) ≤ t.firstLine col row oce := by
  have hj := t.rowsPerLine_pos hcol
  unfold firstLine
  extract_lets j most
  split
  · next hcapped =>
      have hfewer : most / j < t.histf + oce + 1 := by
        rw [Nat.div_lt_iff_lt_mul hj, Nat.mul_comm]
        exact hcapped.2
      omega
  · exact le_refl _

theorem flowed_flows (h : t.Framed care) (hdef : t.mode.altscreen = false)
    (hw : t.Within) (hcol : 0 < col) {row k : Nat}
    (hk : (t.flowed col row).cy = some k) :
    Flows care t col (t.flowed col row) := by
  have hend := t.lineEnd_lt t.row hw.y
  have hle := t.le_lineEnd t.row t.c.y
  have hstart := t.le_firstLine hcol row (t.lineEnd t.row t.c.y)
  unfold flowed at hk ⊢
  dsimp only at hk ⊢
  by_cases hoy : t.firstLine col row (t.lineEnd t.row t.c.y) ≤
      (t.lineEnd t.row t.c.y : Int)
  · exact reflowLoop_flows h hdef hw (Int.ofNat_lt.2 hend) _
      (t.begins_flows hcol hstart) hoy
  · rw [t.reflowLoop_below _ (by dsimp only; omega) (by dsimp only; omega) rfl]
      at hk
    cases hk

/-- The rows that `treflow` distributes, with the cursor on one of them. -/
theorem reflowed_rows (h : t.Framed care) (hdef : t.mode.altscreen = false)
    (hw : t.Within) (hcol : 0 < col) {row k : Nat}
    (hk : (t.reflowed col row).cy = some k) :
    (∀ l ∈ (t.reflowed col row).rows, l.length = col ∧ Sound care col l) ∧
      (t.reflowed col row).cx < col ∧ k < (t.reflowed col row).rows.length := by
  have hflowed : (t.flowed col row).cy = some k →
      Flows care t col (t.flowed col row) :=
    flowed_flows h hdef hw hcol
  unfold reflowed at hk ⊢
  dsimp only at hk ⊢
  generalize t.flowed col row = s at *
  split at hk
  · next hnil =>
      have hs := hflowed hk
      obtain ⟨hcx, hrow, _⟩ := hs.place k hk
      rw [if_pos hnil]
      exact ⟨hs.rows, hcx, hrow.resolve_right fun hlast => hlast.2 hnil⟩
  · next hcur =>
      have hs := hflowed hk
      obtain ⟨hcx, hrow, _⟩ := hs.place k hk
      rw [if_neg hcur]
      refine ⟨fun l hl => ?_, hcx, ?_⟩
      · rcases List.mem_append.1 hl with hold | hnew
        · exact hs.rows l hold
        · rw [List.mem_singleton.1 hnew]
          exact padded_sound hs.plain hs.cur.le
      · rw [List.length_append, List.length_singleton]
        rcases hrow with hlt | ⟨heq, _⟩ <;> omega

/-- The history holds the last of the lines that went into it. -/
theorem fillHist_history (h : t.Framed care) (hdef : t.mode.altscreen = false)
    {past : List Line} (hpast : ∀ l ∈ past, Sound care col l) :
    let s := t.fillHist col past
    History care col s.histi s.histf s.hist := by
  have hhist := h.hist
  rw [histcol_default hdef] at hhist
  have hmem : ∀ back, back < min past.length histsize →
      Sound care col (past.getD (past.length - 1 - back) []) := by
    intro back hback
    rw [List.getD_eq_getElem _ _ (by omega)]
    exact hpast _ (List.getElem_mem _)
  have hindex := hhist.index
  refine ⟨List.length_mapIdx.trans hhist.length, hindex, Nat.min_le_right _ _,
    fun k hk => ?_, fun hn l hl => ?_⟩
  · have hk : k < min past.length histsize := hk
    have hplace : (t.histi + histsize - k) % histsize < t.hist.length :=
      hhist.length.symm ▸ Nat.mod_lt _ (by decide)
    have hback : (t.histi + histsize -
        (t.histi + histsize - k) % histsize) % histsize = k := by
      simp only [histsize] at *
      omega
    unfold fillHist
    dsimp only
    rw [List.getD_eq_getElem _ _ (by rwa [List.length_mapIdx]),
      List.getElem_mapIdx, hback, if_pos hk]
    exact hmem k hk
  · obtain ⟨j, hj, rfl⟩ := List.mem_mapIdx.1 hl
    dsimp only
    split
    · next hback => exact hmem _ hback
    · refine Sound.take_append
        (fun hn => (hhist.whole hn _ (List.getElem_mem hj)).2 hn) rfl ?_
      rw [List.length_take]
      omega

/-- The rows before the `m`-th: the last `shown` of them on the screen, the
others in the history, and the cursor in the row of the screen that `y`
counts. -/
def distributed (t : Term) (col row m shown y : Nat) (s : Reflow) : Term :=
  { t.fillHist col (s.rows.take (m - shown)) with
    line := (s.rows.take m).drop (m - shown) ++
      List.replicate (row - shown) (List.replicate col (t.tclearglyph false))
    c := { t.c with x := s.cx, y, wrapnext := s.wrapnext } }

theorem distribute_eq (t : Term) (col row : Nat) (nce y : Int) (s : Reflow) :
    t.distribute col row nce y s =
      t.distributed col row (s.rows.length - (-y).toNat) (nce + 1).toNat
        y.toNat s := by
  unfold distribute distributed
  dsimp only
  rw [List.length_take_of_le (Nat.sub_le _ _), List.take_take,
    Nat.min_eq_left (Nat.sub_le _ _)]

/-- The cursor stays on its row. -/
theorem treflow_distributes {row : Nat} {t' : Term} (hrow : 0 < row)
    (hfound : ∀ cy, (t.reflowed col row).cy = some cy →
      cy < (t.reflowed col row).rows.length)
    (ht : t.treflow col row = some t') :
    t.Within ∧ ∃ m shown y,
      m ≤ (t.reflowed col row).rows.length ∧ shown ≤ m ∧ shown ≤ row ∧
      y < shown ∧ (t.reflowed col row).cy = some (m - shown + y) ∧
      t' = t.distributed col row m shown y (t.reflowed col row) := by
  unfold treflow at ht
  extract_lets oce s at ht
  split at ht
  · next hcursor =>
      refine ⟨⟨hcursor.1, hcursor.2.1⟩, ?_⟩
      change ∃ m shown y, m ≤ s.rows.length ∧ shown ≤ m ∧ shown ≤ row ∧
        y < shown ∧ s.cy = some (m - shown + y) ∧
        t' = t.distributed col row m shown y s
      obtain ⟨cy, hcy, ht⟩ := Option.map_eq_some_iff.1 ht
      have hlt := hfound cy hcy
      change cy < s.rows.length at hlt
      clear_value s oce
      subst ht
      dsimp only
      rw [hcy]
      split
      · refine ⟨_, _, _, Nat.sub_le _ _, ?_, ?_, ?_, ?_,
          t.distribute_eq col row _ _ s⟩
        · omega
        · omega
        · omega
        · congr 1
          omega
      · refine ⟨_, _, _, Nat.sub_le _ _, ?_, ?_, ?_, ?_,
          t.distribute_eq col row _ _ s⟩
        · omega
        · omega
        · omega
        · congr 1
          omega
  · cases ht

theorem tclearrow_screen (t : Term) (row col : Nat) :
    Screen care row col
      (List.replicate row (List.replicate col (t.tclearglyph false))) :=
  screen_replicate (sound_replicate rfl)

/-- However the rows are distributed, the screen and the history fit. -/
theorem distributed_inBounds (h : t.Framed care)
    (hdef : t.mode.altscreen = false) {row m shown y : Nat}
    (hrows : ∀ l ∈ s.rows, l.length = col ∧ Sound care col l)
    (hx : s.cx < col) (hm : m ≤ s.rows.length) (hshown : shown ≤ m)
    (hrow : shown ≤ row) (hy : y < shown) (hsize : max row col < 2 ^ 16)
    (htabs : t.tabs.length = col) :
    ((t.distributed col row m shown y s).sized col row).InBounds care := by
  have hpast : ∀ l ∈ s.rows.take (m - shown), Sound care col l := fun l hl =>
    (hrows l (List.mem_of_mem_take hl)).2
  have hhist := fillHist_history h hdef hpast
  have hlines : Screen care shown col ((s.rows.take m).drop (m - shown)) := by
    refine ⟨?_, fun l hl => ?_⟩
    · rw [List.length_drop, List.length_take]
      omega
    · exact (hrows l (List.mem_of_mem_take (List.mem_of_mem_drop hl))).2
  have hscreen := hlines.append (t.tclearrow_screen (row - shown) col)
  rw [Nat.add_sub_of_le hrow] at hscreen
  have hcol : ((t.distributed col row m shown y s).sized col row).histcol =
      col := histcol_default hdef
  have hnew : History care
      ((t.distributed col row m shown y s).sized col row).histcol t.histi
      (t.fillHist col (s.rows.take (m - shown))).histf
      (t.fillHist col (s.rows.take (m - shown))).hist := by
    rw [hcol]
    exact hhist
  have hpos : 0 < col := Nat.zero_lt_of_lt hx
  have hbot : row - 1 < row := by omega
  have hframe : ((t.distributed col row m shown y s).sized col row).Framed
      care :=
    { h with
      row := Nat.zero_lt_of_lt hbot, col := hpos, size := hsize
      screen := hscreen, hist := hnew, scr := Nat.min_le_right _ _ }
  exact ⟨hframe, hx, hy.trans_le hrow, Nat.zero_le _, hbot, htabs,
    even_default hdef⟩

theorem treflow_inBounds (h : t.Framed care) (hdef : t.mode.altscreen = false)
    {row : Nat} (hcol : 0 < col) (hrow : 0 < row) (hsize : max row col < 2 ^ 16)
    (htabs : t.tabs.length = col) {t' : Term}
    (ht : t.treflow col row = some t') :
    (t'.sized col row).InBounds care := by
  have hw : t.Within := by
    unfold treflow at ht
    extract_lets oce s at ht
    split at ht
    · next hcursor => exact ⟨hcursor.1, hcursor.2.1⟩
    · cases ht
  have hreflowed : ∀ k, (t.reflowed col row).cy = some k → _ := fun k hk =>
    reflowed_rows h hdef hw hcol hk
  obtain ⟨_, m, shown, y, hm, hshown, hle, hy, hcy, rfl⟩ :=
    treflow_distributes hrow (fun k hk => (hreflowed k hk).2.2) ht
  obtain ⟨hrows, hcx, _⟩ := hreflowed _ hcy
  exact distributed_inBounds h hdef hrows hcx hm hshown hle hy hsize htabs

end Flow

section Found

variable {col : Nat} {s : Reflow}

/-- Before the cursor is found, the loop has not gone beyond its place. -/
def Seeks (t : Term) (s : Reflow) : Prop :=
  s.cy = none → s.oy < t.c.y ∨
    s.oy = t.c.y ∧ s.ox ≤ t.c.x ∧ (s.ox ≠ 0 → t.c.x < s.len)

/-- What `flow` leaves of the place in the source. -/
theorem flow_place (t : Term) (col : Nat) (s : Reflow) :
    (t.flow col s).len = s.len ∧
      (s.len - s.ox ≤ col - s.cur.length ∧ (t.flow col s).oy = s.oy + 1 ∧
          (t.flow col s).ox = 0 ∨
        col - s.cur.length < s.len - s.ox ∧ (t.flow col s).oy = s.oy ∧
          (t.flow col s).ox = s.ox + (col - s.cur.length)) := by
  unfold flow
  extract_lets room left cur
  split
  · next hgt => split <;> exact ⟨rfl, Or.inl ⟨hgt.le, rfl, rfl⟩⟩
  · split
    · next heq => exact ⟨rfl, Or.inl ⟨heq.ge, rfl, rfl⟩⟩
    · next hle hne => exact ⟨rfl, Or.inr ⟨by omega, rfl, rfl⟩⟩

theorem placeCursor_none (hnone : (t.placeCursor col s).cy = none) :
    t.placeCursor col s = s ∧ s.cy = none ∧
      (s.oy = t.c.y → (col : Int) - s.cur.length ≤ s.cx - s.ox) := by
  unfold placeCursor at hnone ⊢
  dsimp only at hnone ⊢
  split at hnone
  · split at hnone <;> cases hnone
  · next hhere =>
      rw [if_neg hhere]
      exact ⟨rfl, hnone, fun hoy => not_lt.1 fun hlt =>
        hhere ⟨hoy, hnone, hlt⟩⟩

/-- The cursor's line is read as far as the cursor. -/
theorem source_seeks (hs : Flows care t col s) (hseek : t.Seeks s) :
    let s' := t.source s
    s'.cy = s.cy ∧ s'.oy = s.oy ∧ s'.ox = s.ox ∧
      (s.cy = none → s.oy = t.c.y → t.c.x < s'.len) := by
  by_cases hox : s.ox = 0
  · rw [t.source_begins hox]
    refine ⟨rfl, rfl, rfl, fun hnone hoy => ?_⟩
    have hcx := hs.seek hnone
    dsimp only
    rw [if_pos hoy]
    omega
  · rw [t.source_continues hox]
    refine ⟨rfl, rfl, rfl, fun hnone hoy => ?_⟩
    rcases hseek hnone with hlt | ⟨_, _, hlen⟩
    · omega
    · exact hlen hox

theorem reflowStep_seeks (hs : Flows care t col s) (hseek : t.Seeks s) :
    t.Seeks (t.reflowStep col s) := by
  intro hnone
  have hsource := source_flows hs
  obtain ⟨hcy, hoy, hox, hlen⟩ := source_seeks hs hseek
  rw [reflowStep] at hnone ⊢
  rw [(t.flow_cursor col _).1] at hnone
  obtain ⟨hsame, hnone, hfar⟩ := placeCursor_none hnone
  rw [hsame]
  have hcx := hsource.seek hnone
  have hcur := hsource.cur
  obtain ⟨hlen', hplace⟩ := t.flow_place col (t.source s)
  generalize t.source s = s' at *
  generalize t.flow col s' = f at *
  rw [hoy] at hfar hplace
  rw [hox] at hfar hplace
  rw [hcy] at hnone
  rcases hseek hnone with habove | ⟨hhere, hbefore, _⟩
  · rcases hplace with ⟨_, hfoy, hfox⟩ | ⟨_, hfoy, _⟩
    · by_cases hnext : f.oy = t.c.y
      · exact Or.inr ⟨hnext, by omega, fun hne => absurd hfox hne⟩
      · exact Or.inl (by omega)
    · exact Or.inl (by omega)
  · have hfar := hfar hhere
    have hlen := hlen hnone hhere
    rcases hplace with ⟨hle, _, _⟩ | ⟨hlt, hfoy, hfox⟩
    · omega
    · exact Or.inr ⟨by omega, by omega, fun _ => by omega⟩

/-- Before the glyphs flow, a round only looks where it is. -/
theorem placed_keeps (hs : Flows care t col s) :
    let p := t.placeCursor col (t.source s)
    p.rows = s.rows ∧ p.cur = s.cur ∧ p.ox = s.ox ∧ p.oy = s.oy := by
  have hkeeps := t.placeCursor_keeps (source_flows hs).cur
  dsimp only
  rw [hkeeps]
  by_cases hox : s.ox = 0
  · rw [t.source_begins hox]
    exact ⟨rfl, rfl, rfl, rfl⟩
  · rw [t.source_continues hox]
    exact ⟨rfl, rfl, rfl, rfl⟩

/-- Each round brings the end of the loop nearer. -/
def ahead (t : Term) (oce : Int) (s : Reflow) : Nat :=
  (oce + 1 - s.oy).toNat * (t.col + t.c.x + 2) - s.ox

theorem reflowStep_ahead (hs : Flows care t col s) {oce : Int}
    (hoce : s.oy ≤ oce) :
    t.ahead oce (t.reflowStep col s) < t.ahead oce s := by
  have hbefore : s.ox < t.col + t.c.x + 2 := by
    by_cases hox : s.ox = 0
    · omega
    · obtain ⟨_, _, hwidth, hlt⟩ := hs.line hox
      omega
  obtain ⟨_, hcur', hox', hoy'⟩ := placed_keeps hs
  obtain ⟨_, hflow⟩ := t.flow_place col (t.placeCursor col (t.source s))
  rw [hoy', hox', hcur'] at hflow
  have hcur := hs.cur
  have hlines : (oce + 1 - s.oy).toNat = (oce - s.oy).toNat + 1 := by omega
  rw [ahead, ahead, hlines, Nat.succ_mul, reflowStep]
  rcases hflow with ⟨_, hfoy, hfox⟩ | ⟨_, hfoy, hfox⟩
  · have hrest : (oce + 1 - (s.oy + 1)).toNat = (oce - s.oy).toNat := by omega
    rw [hfoy, hfox, hrest]
    omega
  · rw [hfoy, hfox, hlines, Nat.succ_mul]
    omega

/-- The rows that are begun. -/
def begun (s : Reflow) : Nat :=
  s.rows.length + if s.cur = [] then 0 else 1

/-- Since the line `oy` no more rows were begun than its lines and the part that
was read of the next one can take. -/
structure Fits (t : Term) (col : Nat) (oy : Int) (s : Reflow) : Prop where
  start : oy ≤ s.oy
  between : s.ox = 0 → begun s ≤ t.rowsPerLine col * (s.oy - oy).toNat
  within : s.ox ≠ 0 → s.cur = [] ∧
    s.rows.length * col ≤ t.rowsPerLine col * (s.oy - oy).toNat * col + s.ox

theorem le_rowsPerLine (t : Term) (hcol : 0 < col) :
    t.col ≤ t.rowsPerLine col * col := by
  unfold rowsPerLine
  split
  · have hdiv := Nat.div_add_mod' (t.col + col - 1) col
    have hmod := Nat.mod_lt (t.col + col - 1) hcol
    omega
  · omega

/-- There is always room for the row that is being filled. -/
theorem Fits.room (hcol : 0 < col) (hx : t.c.x < t.col) {oy : Int}
    (hs : Flows care t col s) (hfits : t.Fits col oy s) :
    s.rows.length + 1 ≤ t.rowsPerLine col * ((s.oy - oy).toNat + 1) := by
  have hj := t.rowsPerLine_pos hcol
  rw [Nat.mul_succ]
  by_cases hox : s.ox = 0
  · have hbetween := hfits.between hox
    unfold begun at hbetween
    omega
  · obtain ⟨_, hlen⟩ := hfits.within hox
    obtain ⟨_, _, hwidth, hlt⟩ := hs.line hox
    have hwide := t.le_rowsPerLine hcol
    refine Nat.lt_of_mul_lt_mul_right (a := col) ?_
    rw [Nat.add_mul]
    omega

/-- A round begins a row only where there is room for it. -/
theorem reflowStep_fits (h : t.Framed care) (hdef : t.mode.altscreen = false)
    (hw : t.Within) (hx : t.c.x < t.col) (hcol : 0 < col)
    (hs : Flows care t col s) (hoy : s.oy < t.row) {oy : Int}
    (hfits : t.Fits col oy s) : t.Fits col oy (t.reflowStep col s) := by
  have hroom := hfits.room hcol hx hs
  have hstart := hfits.start
  have hlines : (s.oy + 1 - oy).toNat = (s.oy - oy).toNat + 1 := by omega
  obtain ⟨hrows, hcur, hox, hoy'⟩ := placed_keeps hs
  have hreads := source_reads h hdef hw hs hoy
  have hkeeps := t.placeCursor_keeps (source_flows hs).cur
  have hplaced : Reads care t (t.placeCursor col (t.source s)) := by
    rw [hkeeps]
    exact ⟨hreads.line, hreads.len, hreads.width, hreads.ox⟩
  rw [reflowStep]
  generalize t.placeCursor col (t.source s) = p at *
  rcases flow_cases (hcur.symm ▸ hs.cur) (hcur.symm ▸ hs.plain) hplaced with
    ⟨l, _, heq⟩ | ⟨l, hne, _, _, heq⟩ | ⟨l, _, _, heq⟩
  · rw [heq]
    refine ⟨by dsimp only; omega, fun _ => ?_, fun hne => absurd rfl hne⟩
    dsimp only [begun]
    rw [hrows, hoy', hlines, List.length_append, List.length_singleton,
      if_pos rfl]
    exact hroom
  · rw [heq]
    refine ⟨by dsimp only; omega, fun _ => ?_, fun hne => absurd rfl hne⟩
    dsimp only [begun]
    rw [hrows, hoy', hlines, if_neg hne]
    exact hroom
  · rw [heq]
    refine ⟨by dsimp only; omega, fun hzero => ?_, fun _ => ⟨rfl, ?_⟩⟩
    · have hlen := hs.cur
      dsimp only at hzero
      rw [hcur] at hzero
      omega
    · dsimp only
      rw [hrows, hcur, hox, hoy', List.length_append, List.length_singleton,
        Nat.add_mul, Nat.one_mul]
      by_cases hzero : s.ox = 0
      · have hbetween := hfits.between hzero
        unfold begun at hbetween
        have hmul := Nat.mul_le_mul_right col hbetween
        rw [Nat.add_mul] at hmul
        by_cases hnil : s.cur = []
        · rw [if_pos hnil] at hmul
          rw [hnil, List.length_nil]
          omega
        · rw [if_neg hnil] at hmul
          omega
      · obtain ⟨hnil, hlen⟩ := hfits.within hzero
        rw [hnil, List.length_nil]
        omega

/-- With enough fuel the loop reaches its end, and has found the cursor; where
the cursor is on a column of the screen, the rows have fit. -/
theorem reflowLoop_finishes (h : t.Framed care)
    (hdef : t.mode.altscreen = false) (hw : t.Within) (hcol : 0 < col)
    {oce oy : Int} (hoce : oce < t.row) {fuel : Nat} (hs : Flows care t col s)
    (hseek : t.Seeks s) (hfits : t.c.x < t.col → t.Fits col oy s)
    (hoy : s.oy ≤ oce) (hfuel : t.ahead oce s ≤ fuel) :
    let s' := t.reflowLoop col oce fuel s
    s'.oy = oce + 1 ∧ s'.ox = 0 ∧ t.Seeks s' ∧
      (t.c.x < t.col → t.Fits col oy s') := by
  induction fuel generalizing s with
  | zero =>
      have hstep := reflowStep_ahead hs hoy
      omega
  | succ fuel ih =>
      have hstep := reflowStep_ahead hs hoy
      have hflows := reflowStep_flows h hdef hw hs (hoy.trans_lt hoce)
      have hseeks := reflowStep_seeks hs hseek
      have hfits' := fun hx =>
        reflowStep_fits h hdef hw hx hcol hs (hoy.trans_lt hoce) (hfits hx)
      have hplace := (t.flow_place col (t.placeCursor col (t.source s))).2
      rw [(placed_keeps hs).2.2.2] at hplace
      change _ ∧ (t.reflowStep col s).oy = _ ∧ (t.reflowStep col s).ox = 0 ∨
        _ ∧ (t.reflowStep col s).oy = _ ∧ _ at hplace
      rw [reflowLoop]
      dsimp only
      split
      · next hmore => exact ih hflows hseeks hfits' hmore (by omega)
      · next hend =>
          rcases hplace with ⟨_, hnext, hox⟩ | ⟨_, hsame, _⟩
          · exact ⟨by omega, hox, hseeks, hfits'⟩
          · omega

/-- There is room for the rows that the lines of the screen may take. -/
def Roomy (t : Term) (col row : Nat) : Prop :=
  t.rowsPerLine col * t.row ≤ histsize + resizebuffer + row

instance (t : Term) (col row : Nat) : Decidable (t.Roomy col row) :=
  inferInstanceAs (Decidable (_ ≤ _))

/-- So many lines can flow that the cursor's is among them. -/
theorem firstLine_le {row oce : Nat} (hcol : 0 < col) (hroom : t.Roomy col row)
    (hoce : oce < t.row) : t.firstLine col row oce ≤ 0 := by
  have hj := t.rowsPerLine_pos hcol
  unfold firstLine
  extract_lets j most
  split
  · next hcapped =>
      have hrows : t.row ≤ most / j := by
        rw [Nat.le_div_iff_mul_le hj, Nat.mul_comm]
        exact hroom
      omega
  · omega

/-- The buffer has room for the rows of the lines that flow. -/
theorem rows_le_nlines (t : Term) (col row oce : Nat) :
    t.rowsPerLine col *
        ((oce : Int) + 1 - t.firstLine col row oce).toNat ≤
      t.nlines col row oce := by
  unfold firstLine nlines
  extract_lets j most lines
  split
  · next hcapped =>
      have hcount : ((oce : Int) + 1 - -((most / j : Nat) - oce - 1)).toNat =
          most / j := by
        generalize most / j = lines
        omega
      rw [hcount, if_pos hcapped.1]
      exact Nat.le_min.2
        ⟨(Nat.mul_div_le most j).trans hcapped.2.le, Nat.mul_div_le most j⟩
  · next hall =>
      have hcount : ((oce : Int) + 1 - -(t.histf : Int)).toNat =
          t.histf + oce + 1 := by omega
      rw [hcount]
      split
      · next hcol =>
          exact Nat.le_min.2 ⟨le_refl _, not_lt.1 fun hlt => hall ⟨hcol, hlt⟩⟩
      · exact le_refl _

/-- If it does not begin below the cursor, the loop goes through all its
lines. -/
theorem flowed_finishes (h : t.Framed care) (hdef : t.mode.altscreen = false)
    (hw : t.Within) {row : Nat} (hcol : 0 < col)
    (hfirst : t.firstLine col row (t.lineEnd t.row t.c.y) ≤ t.c.y) :
    let s := t.flowed col row
    let oce := t.lineEnd t.row t.c.y
    s.oy = (oce : Int) + 1 ∧ s.ox = 0 ∧ t.Seeks s ∧
      (t.c.x < t.col → t.Fits col (t.firstLine col row oce) s) := by
  have hend := t.lineEnd_lt t.row hw.y
  have hle := t.le_lineEnd t.row t.c.y
  have hstart := t.le_firstLine hcol row (t.lineEnd t.row t.c.y)
  refine reflowLoop_finishes h hdef hw hcol (Int.ofNat_lt.2 hend)
    (t.begins_flows hcol hstart) (fun _ => ?_) (fun _ => ?_) ?_ ?_
  · dsimp only
    omega
  · exact ⟨le_refl _, fun _ => Nat.zero_le _, fun hne => absurd rfl hne⟩
  · dsimp only
    omega
  · rw [ahead, reflowFuel]
    dsimp only
    omega

theorem reflowed_begun (t : Term) (col row : Nat) :
    (t.reflowed col row).rows.length = begun (t.flowed col row) ∧
      (t.reflowed col row).cy = (t.flowed col row).cy := by
  unfold reflowed begun
  dsimp only
  split
  · exact ⟨rfl, rfl⟩
  · exact ⟨List.length_append, rfl⟩

/-- The number of rows is far from overflowing. -/
theorem rows_le_intMax (h : t.Framed care) {row oce : Nat}
    (hsize : max row col < 2 ^ 16) (hroom : t.Roomy col row)
    (hoce : oce < t.row) :
    ((t.rowsPerLine col * (t.histf + oce + 1) : Nat) : Int) ≤ intMax := by
  have hcount := h.hist.count
  have hrow := h.row
  have hself : t.rowsPerLine col ≤ t.rowsPerLine col * t.row :=
    Nat.le_mul_of_pos_right _ hrow
  have hlines : t.rowsPerLine col * (t.histf + oce + 1) ≤
      t.rowsPerLine col * (histsize + t.row) :=
    Nat.mul_le_mul_left _ (by omega)
  rw [Nat.mul_add _ histsize] at hlines
  unfold Roomy at hroom
  generalize t.rowsPerLine col * (t.histf + oce + 1) = rows at *
  simp only [histsize, resizebuffer, intMax] at *
  omega

/-- With room for its lines the reflow succeeds. -/
theorem treflow_isSome (h : t.Framed care) (hdef : t.mode.altscreen = false)
    (hx : t.c.x < t.col) (hy : t.c.y < t.row) {row : Nat} (hcol : 0 < col)
    (hsize : max row col < 2 ^ 16) (hroom : t.Roomy col row) :
    (t.treflow col row).isSome := by
  have hw : t.Within := ⟨hy, hx.trans_le (h.screen.getD hy []).1⟩
  have hend := t.lineEnd_lt t.row hy
  have hfirst : t.firstLine col row (t.lineEnd t.row t.c.y) ≤ t.c.y :=
    (firstLine_le hcol hroom hend).trans (Int.natCast_nonneg _)
  obtain ⟨hbeyond, hox, hseeks, hfits⟩ := flowed_finishes h hdef hw hcol hfirst
  have hle := t.le_lineEnd t.row t.c.y
  have hfound : (t.flowed col row).cy ≠ none := fun hnone => by
    rcases hseeks hnone with hbefore | ⟨hhere, _⟩ <;> omega
  obtain ⟨hrows, hsame⟩ := t.reflowed_begun col row
  have hfit := (hfits hx).between hox
  rw [hbeyond, ← hrows] at hfit
  unfold treflow
  dsimp only
  rw [if_pos ⟨hw.y, hw.x, rows_le_intMax h hsize hroom hend,
    hfit.trans (t.rows_le_nlines col row _)⟩, Option.isSome_map, hsame]
  exact Option.isSome_iff_ne_none.2 hfound

end Found

end Term

end St

end Bodhi
