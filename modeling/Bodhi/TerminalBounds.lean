/-
What keeps st inside its arrays: the screens, the history and the cursor fit
each other in every state, whatever is printed and however the window changes.
In a tame run no line holds half of a wide character, and the screens have one
size while the alternate one is shown.
-/
import Bodhi.TerminalInput

namespace Bodhi

namespace St

variable {care : Care}

/-- What is known of a run: what is outside st, and whether the run is tame;
the answers of a tame one are taken without another read. -/
structure Care where
  host : Host
  tame : Prop
  takes : tame → ∀ out s, host.takes out s = true

/-- A character of a tame run takes one cell, and is not taken for the byte 0
where st keeps a byte of it. -/
def Care.plain (care : Care) (u : Nat) : Prop :=
  (u < 127 ∨ care.host.wcwidth u ≤ 1) ∧ (u % 256 = 0 → u = 0)

/-- The byte 0 itself is plain, as it is no character. -/
theorem Care.plain_zero (care : Care) : care.plain 0 :=
  ⟨Or.inl (by decide), fun _ => rfl⟩

/-- A line that is long enough for a screen. -/
def Sound (care : Care) (col : Nat) (l : Line) : Prop :=
  col ≤ l.length ∧ (care.tame → ∀ g ∈ l, g.mode.wdummy = false)

section Lines

variable {col : Nat} {l : Line}

theorem Sound.mono {col' : Nat} (h : Sound care col l) (hle : col' ≤ col) :
    Sound care col' l := ⟨hle.trans h.1, h.2⟩

/-- A change of one glyph keeps a line sound if it makes no half character. -/
theorem Sound.modify (h : Sound care col l) (x : Nat) {f : Glyph → Glyph}
    (hf : ∀ g, care.tame → g.mode.wdummy = false → (f g).mode.wdummy = false) :
    Sound care col (l.modify x f) := by
  refine ⟨by rw [List.length_modify]; exact h.1, fun hn g hg => ?_⟩
  obtain ⟨i, hi⟩ := List.mem_iff_getElem?.1 hg
  rw [List.getElem?_modify] at hi
  obtain ⟨old, hold, hnew⟩ := Option.map_eq_some_iff.1 hi
  have hmem := h.2 hn old (List.mem_of_getElem? hold)
  split at hnew
  · exact hnew ▸ hf old hn hmem
  · exact hnew ▸ hmem

theorem Sound.mapIdx (h : Sound care col l) {f : Nat → Glyph → Glyph}
    (hf : ∀ x g, g.mode.wdummy = false → (f x g).mode.wdummy = false) :
    Sound care col (l.mapIdx f) := by
  refine ⟨by rw [List.length_mapIdx]; exact h.1, fun hn g hg => ?_⟩
  obtain ⟨i, hi, rfl⟩ := List.mem_mapIdx.1 hg
  exact hf i _ (h.2 hn _ (List.getElem_mem hi))

/-- Glyphs that move within a line stay within it. -/
theorem Sound.memmove (h : Sound care col l) {dst src size : Nat}
    (hdst : dst + size ≤ col) (hsrc : src + size ≤ col) :
    Sound care col (memmove l dst src size) := by
  refine ⟨?_, fun hn g hg => h.2 hn g ?_⟩
  · simp only [St.memmove, List.length_append, List.length_take,
      List.length_drop]
    have := h.1
    omega
  · simp only [St.memmove, List.mem_append] at hg
    rcases hg with (hg | hg) | hg
    · exact List.mem_of_mem_take hg
    · exact List.mem_of_mem_drop (List.mem_of_mem_take hg)
    · exact List.mem_of_mem_drop hg

theorem sound_replicate {g : Glyph} (hg : g.mode.wdummy = false) :
    Sound care col (List.replicate col g) :=
  ⟨by rw [List.length_replicate],
    fun _ x hx => by rw [List.eq_of_mem_replicate hx]; exact hg⟩

theorem Sound.take_append (h : care.tame → ∀ g ∈ l, g.mode.wdummy = false)
    {n : Nat} {g : Glyph} (hg : g.mode.wdummy = false) {k : Nat}
    (hlen : col ≤ (l.take n).length + k) :
    Sound care col (l.take n ++ List.replicate k g) := by
  refine ⟨by rw [List.length_append, List.length_replicate]; exact hlen,
    fun hn x hx => ?_⟩
  rcases List.mem_append.1 hx with hx | hx
  · exact h hn x (List.mem_of_mem_take hx)
  · rw [List.eq_of_mem_replicate hx]
    exact hg

end Lines

/-- A screen of sound lines. -/
def Screen (care : Care) (row col : Nat) (ls : List Line) : Prop :=
  ls.length = row ∧ ∀ l ∈ ls, Sound care col l

section Screens

variable {row col : Nat} {ls : List Line}

theorem Screen.modify (h : Screen care row col ls) (y : Nat)
    {f : Line → Line} (hf : ∀ l, Sound care col l → Sound care col (f l)) :
    Screen care row col (ls.modify y f) := by
  refine ⟨by rw [List.length_modify]; exact h.1, fun l hl => ?_⟩
  obtain ⟨i, hi⟩ := List.mem_iff_getElem?.1 hl
  rw [List.getElem?_modify] at hi
  obtain ⟨old, hold, hnew⟩ := Option.map_eq_some_iff.1 hi
  have hsound := h.2 old (List.mem_of_getElem? hold)
  split at hnew
  · exact hnew ▸ hf old hsound
  · exact hnew ▸ hsound

/-- Every line may be changed, to a new width too. -/
theorem Screen.resize (h : Screen care row col ls) {col' : Nat}
    {f : Nat → Line → Line}
    (hf : ∀ y l, Sound care col l → Sound care col' (f y l)) :
    Screen care row col' (ls.mapIdx f) := by
  refine ⟨by rw [List.length_mapIdx]; exact h.1, fun l hl => ?_⟩
  obtain ⟨i, hi, rfl⟩ := List.mem_mapIdx.1 hl
  exact hf i _ (h.2 _ (List.getElem_mem hi))

theorem Screen.mapIdx (h : Screen care row col ls) {f : Nat → Line → Line}
    (hf : ∀ y l, Sound care col l → Sound care col (f y l)) :
    Screen care row col (ls.mapIdx f) :=
  h.resize hf

theorem Screen.set (h : Screen care row col ls) (y : Nat) {l : Line}
    (hl : Sound care col l) : Screen care row col (ls.set y l) := by
  refine ⟨by rw [List.length_set]; exact h.1, fun l' hl' => ?_⟩
  rcases List.mem_or_eq_of_mem_set hl' with hmem | rfl
  · exact h.2 l' hmem
  · exact hl

theorem Screen.getD (h : Screen care row col ls) {y : Nat} (hy : y < row)
    (d : Line) : Sound care col (ls.getD y d) := by
  have hlt : y < ls.length := h.1 ▸ hy
  rw [List.getD_eq_getElem _ _ hlt]
  exact h.2 _ (List.getElem_mem hlt)

/-- Lines may change places. -/
theorem Screen.swapLines (h : Screen care row col ls) {i j : Nat}
    (hi : i < row) (hj : j < row) :
    Screen care row col (swapLines ls i j) :=
  (h.set i (h.getD hj [])).set j (h.getD hi [])

theorem Screen.foldl {ι : Type*} {f : List Line → ι → List Line} (ks : List ι)
    (hf : ∀ ls, ∀ k ∈ ks, Screen care row col ls →
      Screen care row col (f ls k))
    (h : Screen care row col ls) :
    Screen care row col (ks.foldl f ls) := by
  induction ks generalizing ls with
  | nil => exact h
  | cons k ks ih =>
      apply ih (fun ls k' hk' => hf ls k' (List.mem_cons_of_mem k hk'))
      exact hf ls k List.mem_cons_self h

theorem Screen.append {ls' : List Line} {row' : Nat}
    (h : Screen care row col ls) (h' : Screen care row' col ls') :
    Screen care (row + row') col (ls ++ ls') := by
  refine ⟨by rw [List.length_append, h.1, h'.1], fun l hl => ?_⟩
  exact (List.mem_append.1 hl).elim (h.2 l) (h'.2 l)

theorem screen_replicate {l : Line} (hl : Sound care col l) :
    Screen care row col (List.replicate row l) :=
  ⟨List.length_replicate, fun _ hmem => List.eq_of_mem_replicate hmem ▸ hl⟩

end Screens

/-- The ring of the lines that scrolled away: its last lines, as many as count,
belong to a screen of the width `col`.  In a tame run all of them do. -/
structure History (care : Care) (col histi histf : Nat) (hist : List Line) :
    Prop where
  length : hist.length = histsize
  index : histi < histsize
  count : histf ≤ histsize
  recent : ∀ k < histf,
    Sound care col (hist.getD ((histi + histsize - k) % histsize) [])
  whole : care.tame → ∀ l ∈ hist, Sound care col l

section Histories

variable {col histi histf : Nat} {hist : List Line}

/-- Lines that are not counted any more do not matter. -/
theorem History.fewer (h : History care col histi histf hist) {m : Nat}
    (hm : m ≤ histf) : History care col histi m hist :=
  { h with
    count := hm.trans h.count
    recent := fun k hk => h.recent k (hk.trans_le hm) }

theorem History.mem_set (h : History care col histi histf hist) {i : Nat}
    {l : Line} (hl : Sound care col l) (hn : care.tame) :
    ∀ l' ∈ hist.set i l, Sound care col l' := by
  intro l' hmem
  rcases List.mem_or_eq_of_mem_set hmem with hold | rfl
  · exact h.whole hn l' hold
  · exact hl

/-- A line more; the oldest one may go. -/
theorem History.push (h : History care col histi histf hist) {l : Line}
    (hl : Sound care col l) :
    History care col ((histi + 1) % histsize) (min (histf + 1) histsize)
      (hist.set ((histi + 1) % histsize) l) where
  length := (List.length_set ..).trans h.length
  index := Nat.mod_lt _ (by decide)
  count := Nat.min_le_right _ _
  recent k hk := by
    have hlength := h.length
    have hplace := h.index
    have hrecent := h.recent (k - 1)
    simp only [histsize] at *
    rw [List.getD_eq_getElem?_getD, List.getElem?_set]
    split
    · rw [if_pos (by omega), Option.getD_some]
      exact hl
    · have hback : ((histi + 1) % 2000 + 2000 - k) % 2000 =
          (histi + 2000 - (k - 1)) % 2000 := by omega
      rw [hback, ← List.getD_eq_getElem?_getD]
      exact hrecent (by omega)
  whole hn := h.mem_set hl hn

/-- The last line goes back to the screen. -/
theorem History.pull (h : History care col histi histf hist) {l : Line}
    (hl : Sound care col l) :
    History care col ((histi + histsize - 1) % histsize) (histf - 1)
      (hist.set histi l) where
  length := (List.length_set ..).trans h.length
  index := Nat.mod_lt _ (by decide)
  count := (Nat.sub_le _ _).trans h.count
  recent k hk := by
    have hplace := h.index
    have hrecent := h.recent (k + 1)
    have hcount := h.count
    simp only [histsize] at *
    have hback : ((histi + 2000 - 1) % 2000 + 2000 - k) % 2000 =
        (histi + 2000 - (k + 1)) % 2000 := by omega
    rw [hback, List.getD_eq_getElem?_getD, List.getElem?_set_ne (by omega),
      ← List.getD_eq_getElem?_getD]
    exact hrecent (by omega)
  whole hn := h.mem_set hl hn

/-- The line scrolled away last. -/
theorem History.last (h : History care col histi histf hist)
    (hpos : 0 < histf) : Sound care col (hist.getD histi []) := by
  have hlast := h.recent 0 hpos
  have hplace := h.index
  have hindex : (histi + histsize - 0) % histsize = histi := by
    simp only [histsize] at *
    omega
  rwa [hindex] at hlast

end Histories

/-- The buffers of the sequences that are being read have room for more. -/
structure Reading (esc : Escape) (csi : CsiEscape) (str : StrEscape) :
    Prop where
  csi : esc.start = true → csi.buf.length < escBufSiz - 1
  str : esc.str = true ∨ esc.strEnd = true →
    str.buf.length < str.siz ∧ strBufSiz ≤ str.siz

/-- Nothing is being read. -/
theorem reading_idle (csi : CsiEscape) (str : StrEscape) :
    Reading {} csi str :=
  ⟨fun hs => absurd hs Bool.false_ne_true,
    fun hs => absurd (hs.elim id id) Bool.false_ne_true⟩

namespace Term

section Frames

/-- The width of the lines of the history, which belong to the default
screen. -/
def histcol (t : Term) : Nat := if t.mode.altscreen then t.altcol else t.col

/-- The arrays of st fit the sizes that it keeps for them. -/
structure Framed (care : Care) (t : Term) : Prop where
  row : 0 < t.row
  col : 0 < t.col
  size : max t.row t.col < 2 ^ 16
  screen : Screen care t.row t.col t.line
  hist : History care t.histcol t.histi t.histf t.hist
  scr : t.scr ≤ t.histf
  altrow : 0 < t.altrow
  altcol : 0 < t.altcol
  altsize : max t.altrow t.altcol < 2 ^ 16
  other : Screen care t.altrow t.altcol t.altline
  charset : t.charset < 4
  icharset : t.icharset < 4
  attr : care.tame → t.c.attr.mode.wdummy = false
  saved : care.tame → ∀ alt, (t.saved alt).attr.mode.wdummy = false
  lastc : care.tame → care.plain t.lastc
  reading : Reading t.esc t.csiescseq t.strescseq

/-- And the cursor and the scrolling region lie on the screen. -/
structure InBounds (care : Care) (t : Term) : Prop where
  frame : t.Framed care
  x : t.c.x < t.col
  y : t.c.y < t.row
  region : t.top ≤ t.bot
  bot : t.bot < t.row
  tabs : t.tabs.length = t.col
  even : care.tame → t.mode.altscreen = true →
    t.altcol = t.col ∧ t.altrow = t.row

/-- A step that only changes cells, the cursor and modes. -/
structure Alike (care : Care) (t t' : Term) : Prop where
  row : t'.row = t.row
  col : t'.col = t.col
  screen : Screen care t.row t.col t.line →
    Screen care t.row t.col t'.line
  hist : t'.hist = t.hist
  histi : t'.histi = t.histi
  histf : t'.histf = t.histf
  scr : t'.scr = t.scr
  altscreen : t'.mode.altscreen = t.mode.altscreen
  altrow : t'.altrow = t.altrow
  altcol : t'.altcol = t.altcol
  other : t'.altline = t.altline
  top : t'.top = t.top
  bot : t'.bot = t.bot
  tabs : t'.tabs.length = t.tabs.length
  charset : t.charset < 4 → t'.charset < 4
  icharset : t.icharset < 4 → t'.icharset < 4
  attr : (care.tame → t.c.attr.mode.wdummy = false) →
    care.tame → t'.c.attr.mode.wdummy = false
  saved : (care.tame → t.c.attr.mode.wdummy = false) →
    (care.tame → ∀ alt, (t.saved alt).attr.mode.wdummy = false) →
      care.tame → ∀ alt, (t'.saved alt).attr.mode.wdummy = false
  lastc : t'.lastc = t.lastc
  esc : t'.esc = t.esc
  csi : t'.csiescseq = t.csiescseq
  str : t'.strescseq = t.strescseq

variable {t t' u : Term}

theorem Alike.refl (t : Term) : Alike care t t :=
  ⟨rfl, rfl, id, rfl, rfl, rfl, rfl, rfl, rfl, rfl, rfl, rfl, rfl, rfl, id, id,
    id, fun _ => id, rfl, rfl, rfl, rfl⟩

theorem Alike.trans (h : Alike care t t') (h' : Alike care t' u) :
    Alike care t u where
  row := h'.row.trans h.row
  col := h'.col.trans h.col
  screen hs := by
    have hs' := h'.screen
    rw [h.row, h.col] at hs'
    exact hs' (h.screen hs)
  hist := h'.hist.trans h.hist
  histi := h'.histi.trans h.histi
  histf := h'.histf.trans h.histf
  scr := h'.scr.trans h.scr
  altscreen := h'.altscreen.trans h.altscreen
  altrow := h'.altrow.trans h.altrow
  altcol := h'.altcol.trans h.altcol
  other := h'.other.trans h.other
  top := h'.top.trans h.top
  bot := h'.bot.trans h.bot
  tabs := h'.tabs.trans h.tabs
  charset hc := h'.charset (h.charset hc)
  icharset hc := h'.icharset (h.icharset hc)
  attr ha := h'.attr (h.attr ha)
  saved ha hs := h'.saved (h.attr ha) (h.saved ha hs)
  lastc := h'.lastc.trans h.lastc
  esc := h'.esc.trans h.esc
  csi := h'.csi.trans h.csi
  str := h'.str.trans h.str

/-- Such a step keeps the arrays and their sizes together. -/
theorem Alike.framed (h : Alike care t t') (ht : t.Framed care) :
    t'.Framed care where
  row := h.row ▸ ht.row
  col := h.col ▸ ht.col
  size := by rw [h.row, h.col]; exact ht.size
  screen := by rw [h.row, h.col]; exact h.screen ht.screen
  hist := by
    rw [histcol, h.altscreen, h.altcol, h.col, h.hist, h.histi, h.histf]
    exact ht.hist
  scr := by rw [h.scr, h.histf]; exact ht.scr
  altrow := h.altrow ▸ ht.altrow
  altcol := h.altcol ▸ ht.altcol
  altsize := by rw [h.altrow, h.altcol]; exact ht.altsize
  other := by rw [h.altrow, h.altcol, h.other]; exact ht.other
  charset := h.charset ht.charset
  icharset := h.icharset ht.icharset
  attr := h.attr ht.attr
  saved := h.saved ht.attr ht.saved
  lastc := h.lastc.symm ▸ ht.lastc
  reading := by rw [h.esc, h.csi, h.str]; exact ht.reading

/-- Where the cursor ends on the screen, such a step keeps the bounds. -/
theorem Alike.inBounds (h : Alike care t t') (ht : t.InBounds care)
    (hx : t'.c.x < t.col) (hy : t'.c.y < t.row) : t'.InBounds care where
  frame := h.framed ht.frame
  x := h.col.symm ▸ hx
  y := h.row.symm ▸ hy
  region := by rw [h.top, h.bot]; exact ht.region
  bot := by rw [h.bot, h.row]; exact ht.bot
  tabs := by rw [h.tabs, h.col]; exact ht.tabs
  even := by
    rw [h.altscreen, h.altcol, h.altrow, h.col, h.row]
    exact ht.even

end Frames

section Cells

variable (t : Term)

theorem modLine_alike (y : Nat) {f : Line → Line}
    (hf : ∀ l, Sound care t.col l → Sound care t.col (f l)) :
    Alike care t (t.modLine y f) :=
  { Alike.refl t with screen := fun h => h.modify y hf }

theorem modGlyph_alike (x y : Nat) {f : Glyph → Glyph}
    (hf : ∀ g, care.tame → g.mode.wdummy = false → (f g).mode.wdummy = false) :
    Alike care t (t.modGlyph x y f) :=
  t.modLine_alike y fun _ h => h.modify x hf

theorem tclearregion_alike (x1 y1 x2 y2 : Int) (usecurattr : Bool) :
    Alike care t (t.tclearregion x1 y1 x2 y2 usecurattr) := by
  refine { Alike.refl t with screen := fun h => h.mapIdx fun y l hl => ?_ }
  split
  · refine hl.mapIdx fun x g hg => ?_
    split
    · rfl
    · exact hg
  · exact hl

/-- `LIMIT` stays within its bounds. -/
theorem limit_bounds {x a b : Int} (hab : a ≤ b) :
    a ≤ limit x a b ∧ limit x a b ≤ b := by
  unfold limit
  split
  · exact ⟨le_refl a, hab⟩
  · split <;> omega

theorem tmoveto_alike (x y : Int) : Alike care t (t.tmoveto x y) :=
  { Alike.refl t with }

variable {t}

theorem tmoveto_inside (hrow : 0 < t.row) (hcol : 0 < t.col)
    (hregion : t.top ≤ t.bot) (hbot : t.bot < t.row) (x y : Int) :
    (t.tmoveto x y).c.x < t.col ∧ (t.tmoveto x y).c.y < t.row := by
  have hx := limit_bounds (x := x) (a := 0) (b := (t.col : Int) - 1) (by omega)
  have hy : ∀ a b : Int, 0 ≤ a → a ≤ b → b < t.row →
      (limit y a b).toNat < t.row := by
    intro a b ha hab hb
    have := limit_bounds (x := y) hab
    omega
  refine ⟨?_, ?_⟩
  · change (limit x 0 (t.col - 1)).toNat < t.col
    omega
  · change (limit y (if t.c.origin then (t.top : Int) else 0)
      (if t.c.origin then (t.bot : Int) else t.row - 1)).toNat < t.row
    split
    · exact hy t.top t.bot (by omega) (by omega) (by omega)
    · exact hy 0 (t.row - 1) (by omega) (by omega) (by omega)

theorem InBounds.tmoveto (h : t.InBounds care) (x y : Int) :
    (t.tmoveto x y).InBounds care := by
  obtain ⟨hx, hy⟩ := tmoveto_inside h.frame.row h.frame.col h.region h.bot x y
  exact (t.tmoveto_alike x y).inBounds h hx hy

theorem inInt_some {v : Int} (h : -intMax - 1 ≤ v ∧ v ≤ intMax) :
    inInt v = some v :=
  if_pos h

theorem inInt_eq {v w : Int} (h : inInt v = some w) : w = v := by
  unfold inInt at h
  split at h
  · exact (Option.some.inj h).symm
  · cases h

/-- Characters are deleted within the line of the cursor. -/
theorem tdeletechar_alike (h : t.c.x < t.col) {n : Int} {t' : Term}
    (ht : t.tdeletechar n = some t') : Alike care t t' ∧ t'.c = t.c := by
  unfold tdeletechar at ht
  split at ht
  · exact Option.some.inj ht ▸ ⟨Alike.refl t, rfl⟩
  · obtain ⟨beyond, hbeyond, rfl⟩ := Option.map_eq_some_iff.1 ht
    have hge : t.c.x ≤ beyond.toNat := by
      rw [inInt_eq hbeyond]
      omega
    have hmove : Alike care t (t.modLine t.c.y
        (memmove · t.c.x (min beyond.toNat t.col)
          (t.col - min beyond.toNat t.col))) :=
      t.modLine_alike t.c.y fun l hl => hl.memmove (by omega) (by omega)
    exact ⟨hmove.trans (tclearregion_alike _ _ _ _ _ _), rfl⟩

theorem tinsertblank_alike (h : t.c.x < t.col) {n : Int} {t' : Term}
    (ht : t.tinsertblank n = some t') : Alike care t t' ∧ t'.c = t.c := by
  unfold tinsertblank at ht
  split at ht
  · exact Option.some.inj ht ▸ ⟨Alike.refl t, rfl⟩
  · obtain ⟨beyond, hbeyond, rfl⟩ := Option.map_eq_some_iff.1 ht
    have hge : t.c.x ≤ beyond.toNat := by
      rw [inInt_eq hbeyond]
      omega
    have hmove : Alike care t (t.modLine t.c.y
        (memmove · (min beyond.toNat t.col) t.c.x
          (t.col - min beyond.toNat t.col))) :=
      t.modLine_alike t.c.y fun l hl => hl.memmove (by omega) (by omega)
    exact ⟨hmove.trans (tclearregion_alike _ _ _ _ _ _), rfl⟩

theorem swapDown_screen {row col : Nat} {ls : List Line}
    (h : Screen care row col ls) {top bot : Nat} (hbot : bot < row)
    (n : Nat) : Screen care row col (swapDown ls top bot n) := by
  refine h.foldl _ fun ls k hk hls => hls.swapLines ?_ ?_ <;> omega

theorem swapUp_screen {row col : Nat} {ls : List Line}
    (h : Screen care row col ls) {top bot : Nat} (hbot : bot < row)
    (n : Nat) : Screen care row col (swapUp ls top bot n) := by
  refine h.foldl _ fun ls k hk hls => ?_
  have hlt := List.mem_range.1 hk
  exact hls.swapLines (by omega) (by omega)

/-- Scrolling down only moves and clears lines of the screen. -/
theorem tscrolldown_alike (hbot : t.bot < t.row) (top : Nat) (n : Int) :
    Alike care t (t.tscrolldown top n) := by
  unfold tscrolldown
  split
  · exact Alike.refl t
  · extract_lets k s
    have hclear : Alike care t s := t.tclearregion_alike _ _ _ _ _
    have hswap : Alike care s { s with line := swapDown s.line top s.bot k } :=
      { Alike.refl s with screen := fun h => swapDown_screen h hbot k }
    exact hclear.trans hswap

theorem tputtab_alike (n : Int) : Alike care t (t.tputtab n) :=
  { Alike.refl t with }

theorem InBounds.tputtab (h : t.InBounds care) (n : Int) :
    (t.tputtab n).InBounds care := by
  refine t.tputtab_alike n |>.inBounds h ?_ h.y
  have hcol := h.frame.col
  have hx := fun x : Int =>
    limit_bounds (x := x) (a := 0) (b := (t.col : Int) - 1) (by omega)
  unfold Term.tputtab
  dsimp only
  split
  · have := hx (t.tabForward n.toNat t.c.x)
    omega
  · split
    · have := hx (t.tabBackward n.natAbs t.c.x)
      omega
    · have := hx t.c.x
      omega

theorem saveCursor_alike : Alike care t t.saveCursor :=
  { Alike.refl t with
    saved := fun ha hs hn alt => by
      unfold saveCursor
      dsimp only
      split
      · exact ha hn
      · exact hs hn alt }

/-- A character changes its cell and, where it splits a wide one, the other
half. -/
theorem tsetchar_alike {u : Nat} {attr : Glyph} {x y : Nat} {t' : Term}
    (hattr : care.tame → attr.mode.wdummy = false)
    (h : t.tsetchar u attr x y = some t') : Alike care t t' := by
  unfold tsetchar at h
  obtain ⟨s, hsplit, rfl⟩ := Option.map_eq_some_iff.1 h
  have hs : Alike care t s := by
    split at hsplit
    · split at hsplit
      · obtain rfl := Option.some.inj hsplit
        exact t.modGlyph_alike _ _ fun _ _ _ => rfl
      · obtain rfl := Option.some.inj hsplit
        exact Alike.refl t
    · split at hsplit
      · split at hsplit
        · cases hsplit
        · obtain rfl := Option.some.inj hsplit
          exact t.modGlyph_alike _ _ fun _ _ hg => hg
      · obtain rfl := Option.some.inj hsplit
        exact Alike.refl t
  exact hs.trans (s.modGlyph_alike _ _ fun _ hn _ => hattr hn)

theorem tsetchar_cursor {u : Nat} {attr : Glyph} {x y : Nat} {t' : Term}
    (h : t.tsetchar u attr x y = some t') :
    t'.c = t.c ∧ t'.mode = t.mode ∧ t'.esc = t.esc := by
  unfold tsetchar at h
  obtain ⟨s, hsplit, rfl⟩ := Option.map_eq_some_iff.1 h
  split at hsplit
  · split at hsplit <;> obtain rfl := Option.some.inj hsplit <;>
      exact ⟨rfl, rfl, rfl⟩
  · split at hsplit
    · split at hsplit
      · cases hsplit
      · obtain rfl := Option.some.inj hsplit
        exact ⟨rfl, rfl, rfl⟩
    · obtain rfl := Option.some.inj hsplit
      exact ⟨rfl, rfl, rfl⟩

/-- Without wide characters no write falls off a line. -/
theorem tsetchar_isSome (hn : care.tame) (h : t.InBounds care) (u : Nat)
    (attr : Glyph) {x y : Nat} (hx : x < t.col) (hy : y < t.row) :
    (t.tsetchar u attr x y).isSome := by
  have hglyph : (t.glyph x y).mode.wdummy = false := by
    have hline := h.frame.screen.getD hy []
    have hlt : x < (t.line.getD y []).length := Nat.lt_of_lt_of_le hx hline.1
    unfold glyph
    rw [List.getD_eq_getElem _ _ hlt]
    exact hline.2 hn _ (List.getElem_mem hlt)
  unfold tsetchar
  dsimp only
  rw [hglyph, Option.isSome_map]
  split
  · split <;> rfl
  · rfl

end Cells

end Term

end St

end Bodhi
