/-
How st changes the size of its screens.  The default screen flows: wrapped
lines are joined and broken again at the new width, and lines pass between the
screen and the history.  The alternate screen is only cut or filled up.
-/
import Bodhi.TerminalScreen

namespace Bodhi

namespace St

/-- The variables of the loop of `treflow`: the rows that are finished, the one
that is being filled (empty before it is begun), the place in the source, and
where the cursor was found. -/
structure Reflow where
  rows : List Line
  cur : Line
  ox : Nat
  oy : Int
  line : Line
  len : Nat
  cx : Nat
  cy : Option Nat
  wrapnext : Bool

namespace Term

section Reflow

variable (t : Term)

def setWrap (wrap : Bool) (g : Glyph) : Glyph :=
  { g with mode := { g.mode with wrap } }

/-- A row filled up with cleared glyphs. -/
def padded (col : Nat) (l : Line) : Line :=
  l ++ List.replicate (col - l.length) (t.tclearglyph false)

def modLast (f : Glyph → Glyph) (l : Line) : Line :=
  l.modify (l.length - 1) f

/-- The line that the loop reads and how much of it. -/
def source (s : Reflow) : Reflow :=
  let s :=
    if s.ox = 0 then
      { s with line := t.tlineabs s.oy, len := t.tlinelen (t.tlineabs s.oy) }
    else s
  if s.oy = t.c.y then
    if s.ox = 0 then { s with len := max s.len (s.cx + 1) } else s
  else s

/-- `update cursor`, with `UPDATEWRAPNEXT`. -/
def placeCursor (col : Nat) (s : Reflow) : Reflow :=
  let nx := s.cur.length
  if s.oy = t.c.y ∧ s.cy = none ∧ (s.cx : Int) - s.ox < col - nx then
    let cx := nx + s.cx - s.ox
    if s.wrapnext ∧ cx + t.wrapcwidth false < col then
      { s with
        cx := cx + t.wrapcwidth false, cy := some s.rows.length
        wrapnext := false }
    else
      { s with cx, cy := some s.rows.length }
  else s

/-- `get reflowed lines in buf`. -/
def flow (col : Nat) (s : Reflow) : Reflow :=
  let room := col - s.cur.length
  let left := s.len - s.ox
  if room > left then
    let cur := s.cur ++ (s.line.drop s.ox).take left
    if s.len = 0 ∨ !(s.line.getD (s.len - 1) ⟨0, {}, 0, 0⟩).mode.wrap then
      { s with
        rows := s.rows ++ [t.padded col cur], cur := []
        ox := 0, oy := s.oy + 1 }
    else
      { s with cur := modLast (setWrap false) cur, ox := 0, oy := s.oy + 1 }
  else if room = left then
    { s with
      rows := s.rows ++ [s.cur ++ (s.line.drop s.ox).take room], cur := []
      ox := 0, oy := s.oy + 1 }
  else
    { s with
      rows := s.rows ++
        [modLast (setWrap true) (s.cur ++ (s.line.drop s.ox).take room)]
      cur := []
      ox := s.ox + room }

def reflowStep (col : Nat) (s : Reflow) : Reflow :=
  t.flow col (t.placeCursor col (t.source s))

/-- `do ... while (oy <= oce)`; each round ends a row or a line, so that the
fuel of `flowed` is never used up. -/
def reflowLoop (col : Nat) (oce : Int) : Nat → Reflow → Reflow
  | 0, s => s
  | fuel + 1, s =>
      let s := t.reflowStep col s
      if s.oy ≤ oce then reflowLoop col oce fuel s else s

/-- The end of the cursor's line. -/
def lineEnd : Nat → Nat → Nat
  | 0, oce => oce
  | fuel + 1, oce =>
      if oce + 1 < t.row ∧ t.tiswrapped (t.line.getD oce []) then
        lineEnd fuel (oce + 1)
      else oce

/-- The rows that one line can take at the new width. -/
def rowsPerLine (col : Nat) : Nat :=
  if col < t.col then (t.col + col - 1) / col else 1

/-- The first line that flows: all of the history, unless there is no room for
the rows it may take. -/
def firstLine (col row oce : Nat) : Int :=
  let j := t.rowsPerLine col
  let most := histsize + resizebuffer + row
  if col < t.col ∧ j * (t.histf + oce + 1) > most then
    -((most / j : Nat) - oce - 1)
  else -t.histf

def reflowFuel (oce : Nat) (oy : Int) : Nat :=
  (oce + 1 - oy).toNat * (t.col + t.c.x + 2) + 1

/-- The rows that the buffer of `treflow` is allocated for. -/
def nlines (col row oce : Nat) : Nat :=
  let j := t.rowsPerLine col
  let lines := j * (t.histf + oce + 1)
  if col < t.col then min lines (histsize + resizebuffer + row) else lines

/-- The loop of `treflow`, from its first line to the end of the cursor's. -/
def flowed (col row : Nat) : Reflow :=
  let oce := t.lineEnd t.row t.c.y
  let oy := t.firstLine col row oce
  t.reflowLoop col oce (t.reflowFuel oce oy)
    ⟨[], [], 0, oy, [], 0, t.c.x, none, t.c.wrapnext⟩

/-- Its rows, the last one filled up, and the place of the cursor. -/
def reflowed (col row : Nat) : Reflow :=
  let s := t.flowed col row
  if s.cur = [] then s
  else { s with rows := s.rows ++ [t.padded col s.cur], cur := [] }

/-- `xrealloc` of a line; what it adds is not initialised. -/
def realloc (col : Nat) (l : Line) : Line :=
  l.take col ++ List.replicate (col - l.length) ⟨32, {}, defaultfg, defaultbg⟩

/-- The rows that stay in the history, set into its ring from its last line
backwards, and the lines beyond them at the new width. -/
def fillHist (col : Nat) (past : List Line) : Term :=
  let histf := min past.length histsize
  { t with
    hist := t.hist.mapIdx fun j l =>
      let back := (t.histi + histsize - j) % histsize
      if back < histf then past.getD (past.length - 1 - back) []
      else realloc col l
    histf
    scr := min t.scr histf }

/-- The rows up to the place `nce` of the screen, with the cursor at `y`; rows
below a cursor that would be above the screen are given up. -/
def distribute (col row : Nat) (nce y : Int) (s : Reflow) : Term :=
  let rows := s.rows.take (s.rows.length - (-y).toNat)
  let shown := (nce + 1).toNat
  { t.fillHist col (rows.take (rows.length - shown)) with
    line := rows.drop (rows.length - shown) ++
      List.replicate (row - shown) (List.replicate col (t.tclearglyph false))
    c := { t.c with x := s.cx, y := y.toNat, wrapnext := s.wrapnext } }

/-- No state if the cursor is beyond its line, the number of the rows overflows,
they do not fit into their buffer, or the cursor was not found in the lines that
flow: the last of the screen's rows would then be taken from before the
buffer. -/
def treflow (col row : Nat) : Option Term :=
  let oce := t.lineEnd t.row t.c.y
  let s := t.reflowed col row
  if t.c.y < t.row ∧ t.c.x < (t.line.getD t.c.y []).length ∧
      ((t.rowsPerLine col * (t.histf + oce + 1) : Nat) : Int) ≤ intMax ∧
      s.rows.length ≤ t.nlines col row oce then
    s.cy.map fun cy : Nat =>
      let ny : Int := s.rows.length - 1
      let bot := min ny (row - 1)
      let nce := min (oce + max ((row : Int) - t.row) 0) bot
      let y := nce - (ny - cy)
      if y < 0 then
        t.distribute col row (min (nce - y) bot) (y + min (nce - y) bot - nce) s
      else t.distribute col row nce y s
  else none

end Reflow

section Resize

variable (t : Term)

/-- One round of the second loop of `rscrolldown`. -/
def pullLine (t : Term) (i : Nat) : Term :=
  { t with
    line := t.line.set i (t.hist.getD t.histi [])
    hist := t.hist.set t.histi (t.line.getD i [])
    histi := (t.histi + histsize - 1) % histsize }

/-- The two loops of `rscrolldown`: the rows down to the cursor move down, and
lines of the history take their place. -/
def slideDown (n : Nat) : Term :=
  let t := { t with
    line := (List.range (t.c.y + 1)).foldl
      (fun ls k => swapLines ls (t.c.y + n - k) (t.c.y - k)) t.line }
  let t := (List.range n).reverse.foldl pullLine t
  { t with
    c := { t.c with y := t.c.y + n }
    histf := t.histf - n
    scr := t.scr - n }

/-- No state where the rows above the cursor would be moved off the screen. -/
def rscrolldown (n : Int) : Option Term :=
  let n := (min n t.histf).toNat
  if n = 0 then some t
  else if t.line.length ≤ t.c.y + n then none
  else some (t.slideDown n)

/-- The end of every resize. -/
def sized (col row : Nat) : Term :=
  { t with col, row, top := 0, bot := row - 1 }

/-- The screen slides up where the cursor would fall off. -/
def slideUp (row : Nat) : Option Term :=
  if t.c.y ≥ row then
    (t.tscrollup 0 (t.row - 1) (t.c.y - row + 1) .resize).map fun t =>
      { t with c := { t.c with y := row - 1 } }
  else some t

/-- The rows of the new height. -/
def withRows (col row : Nat) : Term :=
  { t with
    line := t.line.take row ++ List.replicate (row - t.row)
      (List.replicate col (t.tclearglyph false)) }

def tresizedef (col row : Nat) : Option Term :=
  if t.col = col ∧ t.row = row then some t
  else if col ≠ t.col then (t.treflow col row).map (sized · col row)
  else
    (t.slideUp row).bind fun t =>
      ((t.withRows col row).rscrolldown (row - t.row)).map (sized · col row)

/-- A line of the alternate screen at its new width. -/
def fitted (col : Nat) (l : Line) : Line :=
  l.take (min col t.col) ++
    List.replicate (col - t.col) (t.tclearglyph false)

def tresizealt (col row : Nat) : Term :=
  if t.col = col ∧ t.row = row then t
  else
    -- the screen slides up where the cursor would fall off
    let i := t.c.y + 1 - row
    let kept := (t.line.drop i).take (min row t.row)
    let t := { t with
      line := kept.map (t.fitted col) ++ List.replicate (row - t.row)
        (List.replicate col (t.tclearglyph false)) }
    let c : Cursor := if i > 0 then { t.c with y := row - 1 } else t.c
    let c : Cursor :=
      if c.x ≥ col then { c with wrapnext := false, x := col - 1 }
      else if c.wrapnext ∧ c.x + t.wrapcwidth true < col then
        { c with wrapnext := false, x := c.x + t.wrapcwidth true }
      else c
    { t with c }.sized col row

/-- The tab stops for a new width: beyond the last one there are further ones
at the distance `tabspaces`. -/
def tabsFor (col : Nat) : List Bool :=
  let last := t.lastTab t.col
  (List.range col).map fun x =>
    (x < t.col && t.tabs.getD x false) ||
      (t.col < col && last < x && (x - last) % tabspaces == 0)

def tresize (col row : Nat) : Option Term :=
  let t := { t with tabs := t.tabsFor col }
  if t.mode.altscreen then some (t.tresizealt col row)
  else t.tresizedef col row

def tswapscreen : Term :=
  { t with
    line := t.altline
    col := t.altcol
    row := t.altrow
    altline := t.line
    altcol := t.col
    altrow := t.row
    mode := { t.mode with altscreen := !t.mode.altscreen } }

def tloaddefscreen (clear loadcursor : Bool) : Option Term :=
  let alt := t.mode.altscreen
  let (col, row) := (t.col, t.row)
  let t :=
    if alt then
      (if clear then
        t.tclearregion 0 0 (t.col - 1) (t.row - 1) true
      else t).tswapscreen
    else t
  let t := if loadcursor then t.loadCursor else t
  if alt then t.tresizedef col row else some t

def tloadaltscreen (clear savecursor : Bool) : Term :=
  let t := if savecursor then t.saveCursor else t
  let t :=
    if !t.mode.altscreen then
      { t.tswapscreen with scr := 0 }.tresizealt t.col t.row
    else t
  if clear then t.tclearregion 0 0 (t.col - 1) (t.row - 1) true else t

end Resize

section Reset

variable (t : Term)

/-- The screen cleared and its saved cursor reset. -/
def clearScreen : Term :=
  let t := t.saveCursor
  { t with line := t.line.mapIdx fun y l =>
      l.mapIdx fun x g =>
        if y < t.row ∧ x < t.col then t.tclearglyph false else g }

/-- `treset` before its loop. -/
def resetModes : Term :=
  { t with
    c := resetCursor
    tabs := (List.range t.col).map fun x => x ≠ 0 ∧ x % tabspaces = 0
    top := 0
    histf := 0
    scr := 0
    bot := t.row - 1
    mode := { wrap := true, utf8 := true }
    trantbl := fun _ => .usa
    charset := 0 }

/-- The screen that is shown stays, also where it is the alternate one: it is
the default screen from then on, whatever its size. -/
def treset : Term :=
  t.resetModes.clearScreen.tswapscreen.clearScreen.tswapscreen

end Reset

/-- `tnew`; what it allocates is not initialised. -/
def tnew (col row : Nat) : Term :=
  let screen := List.replicate row (List.replicate col ⟨32, {}, 0, 0⟩)
  treset
    { row, col, line := screen, hist := List.replicate histsize
        (List.replicate col ⟨32, {}, 0, 0⟩)
      histi := 0, histf := 0, scr := 0, wrapcwidth := fun _ => 0
      c := resetCursor, top := 0, bot := 0, mode := {}, esc := {}
      trantbl := fun _ => .graphic0, charset := 0, icharset := 0, tabs := []
      lastc := 0, saved := fun _ => resetCursor
      altline := screen, altcol := col, altrow := row
      csiescseq := {}, strescseq := {}, colors := [], out := [] }

end Term

end St

end Bodhi
