/-
The terminal of st: its two screens of glyphs, the ring of lines that scrolled
away, the cursor, and the functions of st.c that move, clear and scroll.  A
function gives no state where it would reach outside an array or where an `int`
would overflow.
-/
import Mathlib.Data.List.Basic
import Bodhi.Utf8Codec

namespace Bodhi

namespace St

/-- The bits of `glyph_attribute`. -/
structure Attributes where
  set : Bool := false
  bold : Bool := false
  faint : Bool := false
  italic : Bool := false
  underline : Bool := false
  blink : Bool := false
  reverse : Bool := false
  invisible : Bool := false
  struck : Bool := false
  wrap : Bool := false
  wide : Bool := false
  wdummy : Bool := false
deriving DecidableEq, Repr

/-- A cell of a screen: its character, and how it is drawn. -/
structure Glyph where
  u : Nat
  mode : Attributes
  fg : Nat
  bg : Nat
deriving DecidableEq, Repr

abbrev Line := List Glyph

structure Cursor where
  attr : Glyph
  x : Nat
  y : Nat
  wrapnext : Bool := false
  origin : Bool := false
deriving DecidableEq, Repr

/-- The bits of `term_mode`. -/
structure Modes where
  wrap : Bool := false
  insert : Bool := false
  altscreen : Bool := false
  crlf : Bool := false
  echo : Bool := false
  print : Bool := false
  utf8 : Bool := false
deriving DecidableEq, Repr

/-- The bits of `escape_state`. -/
structure Escape where
  start : Bool := false
  csi : Bool := false
  str : Bool := false
  altcharset : Bool := false
  strEnd : Bool := false
  test : Bool := false
  utf8 : Bool := false
deriving DecidableEq, Repr

/-- The character sets that `tdeftran` knows. -/
inductive Charset
  | graphic0
  | usa
deriving DecidableEq, Repr

/-- A CSI sequence: its bytes, and what `csiparse` finds in them. -/
structure CsiEscape where
  buf : List UInt8 := []
  priv : Bool := false
  arg : List Int := []
  mode : UInt8 × UInt8 := (0, 0)
deriving DecidableEq, Repr

/-- The string of a sequence, and the size of its buffer. -/
structure StrEscape where
  type : UInt8 := 0
  buf : List UInt8 := []
  siz : Nat := 0
deriving DecidableEq, Repr

/-- What the program asks of the colours of the window: one of them by its
name, or its first value without one, or all of them anew. -/
inductive Recolor
  | set (index : Int) (name : Option (List UInt8))
  | reload
deriving DecidableEq, Repr

/-- What becomes of the lines that scroll away. -/
inductive ScrollMode
  | resize
  | nosavehist
  | savehist
deriving DecidableEq, Repr

def histsize : Nat := 2000

def resizebuffer : Nat := 1000

/-- `config.h`. -/
def tabspaces : Nat := 8

def defaultfg : Nat := 15

def defaultbg : Nat := 0

/-- The screen shown is `line`; the other one waits in `altline`. -/
structure Term where
  row : Nat
  col : Nat
  line : List Line
  hist : List Line
  histi : Nat
  histf : Nat
  scr : Nat
  wrapcwidth : Bool → Nat
  c : Cursor
  top : Nat
  bot : Nat
  mode : Modes
  esc : Escape
  trantbl : Nat → Charset
  charset : Nat
  icharset : Nat
  tabs : List Bool
  lastc : Nat
  saved : Bool → Cursor
  altline : List Line
  altcol : Nat
  altrow : Nat
  csiescseq : CsiEscape
  strescseq : StrEscape
  colors : List Recolor
  out : List UInt8

def intMax : Int := 2 ^ 31 - 1

/-- The value of a sum, if an `int` can hold it. -/
def inInt (v : Int) : Option Int :=
  if -intMax - 1 ≤ v ∧ v ≤ intMax then some v else none

/-- `LIMIT`. -/
def limit (x a b : Int) : Int := if x < a then a else if x > b then b else x

/-- `memmove` within a line. -/
def memmove (l : Line) (dst src size : Nat) : Line :=
  l.take dst ++ (l.drop src).take size ++ l.drop (dst + size)

/-- Scrolling exchanges the pointers to lines. -/
def swapLines (ls : List Line) (i j : Nat) : List Line :=
  (ls.set i (ls.getD j [])).set j (ls.getD i [])

namespace Term

section Cells

variable (t : Term)

def glyph (x y : Nat) : Glyph :=
  ((t.line.getD y []).getD x ⟨0, {}, 0, 0⟩)

def modLine (y : Nat) (f : Line → Line) : Term :=
  { t with line := t.line.modify y f }

def modGlyph (x y : Nat) (f : Glyph → Glyph) : Term :=
  t.modLine y (List.modify · x f)

/-- A cleared cell has the colours of the cursor, or the default ones. -/
def tclearglyph (usecurattr : Bool) : Glyph where
  u := 32
  mode := {}
  fg := if usecurattr then t.c.attr.fg else defaultfg
  bg := if usecurattr then t.c.attr.bg else defaultbg

/-- Both corners belong to the region. -/
def tclearregion (x1 y1 x2 y2 : Int) (usecurattr : Bool) : Term :=
  { t with
    line := t.line.mapIdx fun y l =>
      if y1 ≤ y ∧ y ≤ y2 then
        l.mapIdx fun x g =>
          if x1 ≤ x ∧ x ≤ x2 then t.tclearglyph usecurattr else g
      else l }

/-- The cells up to the last one that was written. -/
def tlinelen (l : Line) : Nat :=
  (l.take t.col).reverse.dropWhile (fun g => !(g.mode.set || g.mode.wrap))
    |>.length

def tiswrapped (l : Line) : Bool :=
  match (l.take (t.tlinelen l)).getLast? with
  | none => false
  | some g => g.mode.wrap

/-- The line `y` of the history and the screen below it. -/
def tlineabs (y : Int) : Line :=
  if y < 0 then
    t.hist.getD ((t.histi + (y + 1 + histsize).toNat) % histsize) []
  else t.line.getD y.toNat []

end Cells

section Cursors

variable (t : Term)

/-- The cursor stays on the screen, or in the scrolling region. -/
def tmoveto (x y : Int) : Term :=
  let miny : Int := if t.c.origin then t.top else 0
  let maxy : Int := if t.c.origin then t.bot else t.row - 1
  { t with c := { t.c with
      wrapnext := false
      x := (limit x 0 (t.col - 1)).toNat
      y := (limit y miny maxy).toNat } }

def tmoveato (x y : Int) : Option Term :=
  (inInt (y + if t.c.origin then t.top else 0)).map (t.tmoveto x)

/-- `tcursor`: each screen has a saved cursor of its own. -/
def saveCursor : Term :=
  { t with saved := fun alt => if alt = t.mode.altscreen then t.c else t.saved alt }

def loadCursor : Term :=
  let c := t.saved t.mode.altscreen
  { t with c }.tmoveto c.x c.y

def resetCursor : Cursor where
  attr := ⟨0, {}, defaultfg, defaultbg⟩
  x := 0
  y := 0

end Cursors

section Scroll

variable (t : Term)

/-- One round of the loop of `tscrollup` that fills the history.  The line that
comes back from it is cleared as far as the screen is wide, beyond its end if it
is a shorter one. -/
def pushLine (t : Term) (i : Nat) : Option Term :=
  let histi := (t.histi + 1) % histsize
  let temp := t.hist.getD histi []
  if temp.length < t.col then none
  else
    some { t with
      histi
      hist := t.hist.set histi (t.line.getD i [])
      line := t.line.set i (temp.mapIdx fun j g =>
        if j < t.col then t.tclearglyph true else g) }

def swapUp (ls : List Line) (top bot n : Nat) : List Line :=
  (List.range (bot + 1 - n - top)).foldl
    (fun ls k => swapLines ls (top + k) (top + k + n)) ls

def swapDown (ls : List Line) (top bot n : Nat) : List Line :=
  (List.range (bot + 1 - n - top)).foldl
    (fun ls k => swapLines ls (bot - k) (bot - k - n)) ls

/-- The lines that `tscrollup` takes off the screen, into the history or
not. -/
def scrolled (top n : Nat) (mode : ScrollMode) : Option Term :=
  if !t.mode.altscreen && top == 0 && mode != .nosavehist then
    ((List.range n).foldlM pushLine t).map fun t => { t with
      histf := min (t.histf + n) histsize
      scr := if t.scr ≠ 0 then min (t.scr + n) histsize else t.scr }
  else
    some (t.tclearregion 0 top (t.col - 1) (top + n - 1) true)

def tscrollup (top bot : Nat) (n : Int) (mode : ScrollMode) : Option Term :=
  if n ≤ 0 then some t
  else
    let n := min n.toNat (bot + 1 - top)
    (t.scrolled top n mode).map fun t =>
      { t with line := swapUp t.line top bot n }

def tscrolldown (top : Nat) (n : Int) : Term :=
  if n ≤ 0 then t
  else
    let n := min n.toNat (t.bot + 1 - top)
    let t := t.tclearregion 0 (t.bot - n + 1) (t.col - 1) t.bot true
    { t with line := swapDown t.line top t.bot n }

def tnewline (firstCol : Bool) : Option Term :=
  let x := if firstCol then 0 else t.c.x
  if t.c.y = t.bot then
    (t.tscrollup t.top t.bot 1 .savehist).map (·.tmoveto x t.c.y)
  else some (t.tmoveto x (t.c.y + 1))

/-- The margins come in either order. -/
def tsetscroll (top bot : Int) : Term :=
  let top := limit top 0 (t.row - 1)
  let bot := limit bot 0 (t.row - 1)
  { t with top := (min top bot).toNat, bot := (max top bot).toNat }

/-- A negative argument is a part of the screen. -/
def kscrolldown (n : Int) : Term :=
  if t.scr = 0 ∨ t.mode.altscreen then t
  else
    let n := if n < 0 then max (t.row / n.natAbs) 1 else n.toNat
    { t with scr := t.scr - n }

def kscrollup (n : Int) : Term :=
  if t.histf = 0 ∨ t.mode.altscreen then t
  else
    let n := if n < 0 then max (t.row / n.natAbs) 1 else n.toNat
    { t with scr := min (t.scr + n) t.histf }

end Scroll

section Edit

variable (t : Term)

def tdeletechar (n : Int) : Option Term :=
  if n ≤ 0 then some t
  else
    (inInt (t.c.x + n)).map fun beyond =>
      let dst := t.c.x
      let src := min beyond.toNat t.col
      let size := t.col - src
      let t := t.modLine t.c.y (memmove · dst src size)
      t.tclearregion (dst + size) t.c.y (t.col - 1) t.c.y true

def tinsertblank (n : Int) : Option Term :=
  if n ≤ 0 then some t
  else
    (inInt (t.c.x + n)).map fun beyond =>
      let dst := min beyond.toNat t.col
      let src := t.c.x
      let size := t.col - dst
      let t := t.modLine t.c.y (memmove · dst src size)
      t.tclearregion src t.c.y (dst - 1) t.c.y true

def tinsertblankline (n : Int) : Term :=
  if t.top ≤ t.c.y ∧ t.c.y ≤ t.bot then t.tscrolldown t.c.y n else t

def tdeleteline (n : Int) : Option Term :=
  if t.top ≤ t.c.y ∧ t.c.y ≤ t.bot then
    t.tscrollup t.c.y t.bot n .nosavehist
  else some t

/-- The loops of `tputtab` look for one tab stop after another. -/
def nextTab (x : Nat) : Nat :=
  ((List.range' (x + 1) (t.col - (x + 1))).find? (t.tabs.getD · false)).getD
    t.col

def lastTab (x : Nat) : Nat :=
  (((List.range' 1 (x - 1)).reverse.find? (t.tabs.getD · false))).getD 0

def tabForward : Nat → Nat → Nat
  | 0, x => x
  | n + 1, x => if x < t.col then tabForward n (t.nextTab x) else x

def tabBackward : Nat → Nat → Nat
  | 0, x => x
  | n + 1, x => if 0 < x then tabBackward n (t.lastTab x) else x

def tputtab (n : Int) : Term :=
  let x :=
    if n > 0 then t.tabForward n.toNat t.c.x
    else if n < 0 then t.tabBackward n.natAbs t.c.x
    else t.c.x
  { t with c := { t.c with x := (limit x 0 (t.col - 1)).toNat } }

/-- What `tsetchar` draws for the keys from `A` to `~` in the line-drawing
set. -/
def vt100 : List (Option Char) :=
  [some '↑', some '↓', some '→', some '←', some '█', some '▚', some '☃'] ++
  List.replicate 23 none ++ [some ' ',
  some '◆', some '▒', some '␉', some '␌', some '␍', some '␊', some '°', some '±',
  some '␤', some '␋', some '┘', some '┐', some '┌', some '└', some '┼', some '⎺',
  some '⎻', some '─', some '⎼', some '⎽', some '├', some '┤', some '┴', some '┬',
  some '│', some '≤', some '≥', some 'π', some '≠', some '£', some '·']

def translated (u : Nat) : Nat :=
  if t.trantbl t.charset = .graphic0 ∧ 0x41 ≤ u ∧ u ≤ 0x7e then
    ((vt100.getD (u - 0x41) none).map Char.toNat).getD u
  else u

/-- No state where the left half of a wide character would lie left of the
line. -/
def tsetchar (u : Nat) (attr : Glyph) (x y : Nat) : Option Term :=
  let u := t.translated u
  let g := t.glyph x y
  let split :=
    if g.mode.wide then
      if x + 1 < t.col then
        some (t.modGlyph (x + 1) y fun g =>
          { g with u := 32, mode := { g.mode with wdummy := false } })
      else some t
    else if g.mode.wdummy then
      if x = 0 then none
      else
        some (t.modGlyph (x - 1) y fun g =>
          { g with u := 32, mode := { g.mode with wide := false } })
    else some t
  split.map fun t => t.modGlyph x y fun _ =>
    { attr with u := u, mode := { attr.mode with set := true } }

end Edit

end Term

end St

end Bodhi
