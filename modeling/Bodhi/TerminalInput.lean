/-
What st does with the characters it is given: control codes, escape sequences,
the parameters of a CSI sequence, the strings that ask for colours, and the
printing of everything else.
-/
import Bodhi.TerminalResize
import Bodhi.Utf8Stream

namespace Bodhi

namespace St

def escArgSiz : Nat := 16

def escBufSiz : Nat := 128 * utfSiz

def strBufSiz : Nat := escBufSiz

def sizeMax : Nat := 2 ^ 64 - 1

def longMax : Int := 2 ^ 63 - 1

def longMin : Int := -2 ^ 63

/-- `config.h`. -/
def vtiden : List UInt8 := "\x1b[?6c".toUTF8.toList

def defaultcs : Nat := 15

/-- What st asks of the C library, the window and the kernel: how many cells a
character takes (-1 to 2), the colours after all that was asked of them, and
whether the bytes of an answer, sent after others, are taken before st reads
what the program has written meanwhile.  `allowaltscreen` is off with the flag
`-a`. -/
structure Host where
  wcwidth : Nat → Int
  xgetcolor : List Recolor → Int → Option (UInt8 × UInt8 × UInt8)
  takes : List UInt8 → List UInt8 → Bool
  allowaltscreen : Bool

def ch (c : Char) : UInt8 := UInt8.ofNat c.toNat

def isControlC0 (u : Nat) : Bool := u ≤ 0x1f || u == 0x7f

def isControlC1 (u : Nat) : Bool := 0x80 ≤ u && u ≤ 0x9f

def isControl (u : Nat) : Bool := isControlC0 u || isControlC1 u

section Numbers

def isSpaceByte (c : UInt8) : Bool := c == 32 || (9 ≤ c && c ≤ 13)

def isDigitByte (c : UInt8) : Bool := 48 ≤ c && c ≤ 57

def digitsValue (ds : List UInt8) : Nat :=
  ds.foldl (fun n d => 10 * n + (d.toNat - 48)) 0

/-- `strtol` in base 10: the value and what follows the number; without a digit
nothing is read. -/
def strtol (p : List UInt8) : Int × List UInt8 :=
  let q := p.dropWhile isSpaceByte
  let (negative, q) :=
    match q with
    | c :: rest =>
        if c = ch '-' then (true, rest)
        else if c = ch '+' then (false, rest)
        else (false, q)
    | [] => (false, q)
  let ds := q.takeWhile isDigitByte
  if ds = [] then (0, p)
  else
    let v : Int := if negative then -digitsValue ds else digitsValue ds
    (limit v longMin longMax, q.dropWhile isDigitByte)

/-- The conversion of a `long` to an `int`. -/
def toInt32 (v : Int) : Int := (v + 2 ^ 31) % 2 ^ 32 - 2 ^ 31

/-- The loop of `csiparse` over the parameters, with at most one round for each
byte and one more. -/
def csiArgs : Nat → List UInt8 → List Int → List Int × List UInt8
  | 0, p, arg => (arg, p)
  | _ + 1, [], arg => (arg, [])
  | fuel + 1, p, arg =>
      let (v, np) := strtol p
      let v := if v = longMax ∨ v = longMin then -1 else v
      let arg := arg ++ [toInt32 v]
      match np with
      | c :: rest =>
          if c ≠ ch ';' ∨ arg.length = escArgSiz then (arg, np)
          else csiArgs fuel rest arg
      | [] => (arg, [])

/-- Whether the sequence ends with its last byte. -/
def csiEnds (buf : List UInt8) (u : Nat) : Bool :=
  (0x40 ≤ u && u ≤ 0x7e) || escBufSiz - 1 ≤ buf.length

def csiparse (csi : CsiEscape) : CsiEscape :=
  let (priv, p) :=
    match csi.buf with
    | c :: rest => if c = ch '?' then (true, rest) else (csi.priv, csi.buf)
    | [] => (csi.priv, csi.buf)
  let (arg, p) := csiArgs (p.length + 1) p []
  { csi with priv, arg, mode := (p.getD 0 0, p.getD 1 0) }

def atoi (s : List UInt8) : Int := toInt32 (strtol s).1

/-- The arguments that `strparse` finds in a string, up to its first zero. -/
def strArgs (buf : List UInt8) : List (List UInt8) :=
  let text := buf.takeWhile (· != 0)
  if text = [] then [] else (text.splitOn (ch ';')).take escArgSiz

/-- `%d`. -/
def numeralBytes (n : Int) : List UInt8 :=
  (if n < 0 then [ch '-'] else []) ++ (Nat.toDigits 10 n.natAbs).map ch

def hexDigit (n : Nat) : UInt8 := UInt8.ofNat (if n < 10 then 48 + n else 87 + n)

/-- `%02x%02x` of one byte given twice. -/
def hexTwice (b : UInt8) : List UInt8 :=
  let byte := [hexDigit (b.toNat / 16), hexDigit (b.toNat % 16)]
  byte ++ byte

end Numbers

section Attributes

def truecolor (r g b : Nat) : Nat := 1 <<< 24 ||| r <<< 16 ||| g <<< 8 ||| b

/-- A colour that `tdefcolor` finds out of range changes nothing. -/
def rgbOf (old : Nat) (r g b : Int) : Nat :=
  if (0 ≤ r ∧ r ≤ 255) ∧ (0 ≤ g ∧ g ≤ 255) ∧ (0 ≤ b ∧ b ≤ 255) then
    truecolor r.toNat g.toNat b.toNat
  else old

def indexOf (old : Nat) (n : Int) : Nat :=
  if 0 ≤ n ∧ n ≤ 255 then n.toNat else old

/-- One attribute without parameters of its own. -/
def plainAttr (g : Glyph) (a : Int) : Glyph :=
  if a = 0 then
    { g with
      mode := { g.mode with
        bold := false, faint := false, italic := false, underline := false
        blink := false, reverse := false, invisible := false, struck := false }
      fg := defaultfg
      bg := defaultbg }
  else if a = 1 then { g with mode := { g.mode with bold := true } }
  else if a = 2 then { g with mode := { g.mode with faint := true } }
  else if a = 3 then { g with mode := { g.mode with italic := true } }
  else if a = 4 then { g with mode := { g.mode with underline := true } }
  else if a = 5 ∨ a = 6 then { g with mode := { g.mode with blink := true } }
  else if a = 7 then { g with mode := { g.mode with reverse := true } }
  else if a = 8 then { g with mode := { g.mode with invisible := true } }
  else if a = 9 then { g with mode := { g.mode with struck := true } }
  else if a = 22 then
    { g with mode := { g.mode with bold := false, faint := false } }
  else if a = 23 then { g with mode := { g.mode with italic := false } }
  else if a = 24 then { g with mode := { g.mode with underline := false } }
  else if a = 25 then { g with mode := { g.mode with blink := false } }
  else if a = 27 then { g with mode := { g.mode with reverse := false } }
  else if a = 28 then { g with mode := { g.mode with invisible := false } }
  else if a = 29 then { g with mode := { g.mode with struck := false } }
  else if a = 39 then { g with fg := defaultfg }
  else if a = 49 then { g with bg := defaultbg }
  else if 30 ≤ a ∧ a ≤ 37 then { g with fg := (a - 30).toNat }
  else if 40 ≤ a ∧ a ≤ 47 then { g with bg := (a - 40).toNat }
  else if 90 ≤ a ∧ a ≤ 97 then { g with fg := (a - 90 + 8).toNat }
  else if 100 ≤ a ∧ a ≤ 107 then { g with bg := (a - 100 + 8).toNat }
  else g

/-- `tdefcolor` looks at the parameter after a 38 or 48 before it asks whether
there is one: `full` where the last parameter is the last one of the array. -/
def tsetattr (full : Bool) (g : Glyph) : List Int → Option Glyph
  | [] => some g
  | 38 :: 2 :: r :: gr :: b :: rest =>
      tsetattr full { g with fg := rgbOf g.fg r gr b } rest
  | 38 :: 5 :: n :: rest => tsetattr full { g with fg := indexOf g.fg n } rest
  | 48 :: 2 :: r :: gr :: b :: rest =>
      tsetattr full { g with bg := rgbOf g.bg r gr b } rest
  | 48 :: 5 :: n :: rest => tsetattr full { g with bg := indexOf g.bg n } rest
  | a :: rest =>
      if full ∧ rest = [] ∧ (a = 38 ∨ a = 48) then none
      else tsetattr full (plainAttr g a) rest

end Attributes

namespace Term

section Output

variable (host : Host) (t : Term)

/-- No state where st has to read while it writes: what it reads then is put
into the buffer that `ttyread` is still going through. -/
def ttywriteraw (t : Term) (s : List UInt8) : Option Term :=
  if s = [] then some t
  else if host.takes t.out s then some { t with out := t.out ++ s }
  else none

/-- The strings that `ttywrite` sends, as the kernel handles ONLCR. -/
def rawPieces (crlf : Bool) (s : List UInt8) : List (List UInt8) :=
  if crlf then
    (s.splitBy fun a b => a != 13 && b != 13).map fun p =>
      if p = [13] then [13, 10] else p
  else [s]

def ttysend (s : List UInt8) : Option Term :=
  (rawPieces t.mode.crlf s).foldlM (ttywriteraw host) t

/-- `ttywrite` without an echo. -/
def answer (s : List UInt8) : Option Term :=
  (t.kscrolldown t.scr).ttysend host s

/-- The characters that are put where `twrite` shows control characters. -/
def shown (u : Nat) : List Nat :=
  if isControl u then
    if 0x80 ≤ u then [(ch '^').toNat, (ch '[').toNat, u - 0x80]
    else if u ≠ 0x0a ∧ u ≠ 0x0d ∧ u ≠ 0x09 then [(ch '^').toNat, u ^^^ 0x40]
    else [u]
  else [u]

/-- `twrite` of what st itself writes, where `put` puts a character. -/
def echo (put : Term → Nat → Option Term) (s : List UInt8) : Option Term :=
  (feed (fun t : Option Term => t.any (·.mode.utf8))
    (fun t u => t.bind fun t => (shown u).foldlM put t) (some t) s).1

/-- `ttywrite` with an echo if the mode is set. -/
def ttywrite (put : Term → Nat → Option Term) (s : List UInt8) :
    Option Term :=
  let t := t.kscrolldown t.scr
  (if t.mode.echo then t.echo put s else some t).bind (·.ttysend host s)

end Output

section Print

variable (t : Term)

/-- A new line after a full one. -/
def wrapFull : Option Term :=
  if t.mode.wrap ∧ t.c.wrapnext then
    (t.modGlyph t.c.x t.c.y (setWrap true)).tnewline true
  else some t

/-- A gap where characters are inserted. -/
def insertGap (width : Nat) : Term :=
  if t.mode.insert ∧ t.c.x + width < t.col then
    (t.modLine t.c.y
        (memmove · (t.c.x + width) t.c.x (t.col - t.c.x - width))).modGlyph
      t.c.x t.c.y fun g => { g with mode := { g.mode with wide := false } }
  else t

/-- A place where the character fits. -/
def makeFit (width : Nat) : Option Term :=
  if t.c.x + width > t.col then
    if t.mode.wrap then t.tnewline true
    else some (t.tmoveto ((t.col : Int) - width) t.c.y)
  else some t

/-- The second cell of a wide character. -/
def widen (x y : Nat) : Term :=
  let t := t.modGlyph x y fun g =>
    { g with mode := { g.mode with wide := true } }
  if x + 1 < t.col then
    let t :=
      if (t.glyph (x + 1) y).mode = { wide := true } ∧ x + 2 < t.col then
        t.modGlyph (x + 2) y fun g =>
          { g with u := 32, mode := { g.mode with wdummy := false } }
      else t
    t.modGlyph (x + 1) y fun g => { g with u := 0, mode := { wdummy := true } }
  else t

def advance (width : Nat) : Term :=
  if t.c.x + width < t.col then t.tmoveto (t.c.x + width) t.c.y
  else
    { t with
      wrapcwidth := fun i =>
        if i = t.mode.altscreen then width else t.wrapcwidth i
      c := { t.c with wrapnext := true } }

/-- The rest of `tputc` for a character that is shown. -/
def tprint (u width : Nat) : Option Term := do
  let t ← t.wrapFull
  let t ← (t.insertGap width).makeFit width
  let x := t.c.x
  let y := t.c.y
  let t ← t.tsetchar u t.c.attr x y
  let t := { t with lastc := u }
  some ((if width = 2 then t.widen x y else t).advance width)

end Print

section Csi

variable (host : Host) (t : Term)

/-- How many cells a character takes. -/
def widthOf (u : Nat) : Nat :=
  if u < 127 ∨ !t.mode.utf8 then 1
  else if host.wcwidth u = -1 then 1
  else (host.wcwidth u).toNat

/-- One private mode of `tsetmode`; the modes of the window are not kept
here. -/
def setPrivateMode (set : Bool) (a : Int) : Option Term :=
  if a = 6 then
    { t with c := { t.c with origin := set } }.tmoveato 0 0
  else if a = 7 then some { t with mode := { t.mode with wrap := set } }
  else if a = 1049 ∨ a = 47 ∨ a = 1047 then
    if !host.allowaltscreen then some t
    else if set then some (t.tloadaltscreen (a = 1049) (a = 1049))
    else t.tloaddefscreen (a = 1047) (a = 1049)
  else if a = 1048 then
    if !host.allowaltscreen then some t
    else some (if set then t.saveCursor else t.loadCursor)
  else some t

def setAnsiMode (set : Bool) (a : Int) : Term :=
  if a = 4 then { t with mode := { t.mode with insert := set } }
  else if a = 12 then { t with mode := { t.mode with echo := !set } }
  else if a = 20 then { t with mode := { t.mode with crlf := set } }
  else t

def tsetmode (priv set : Bool) (args : List Int) : Option Term :=
  args.foldlM (fun t a =>
    if priv then t.setPrivateMode host set a else some (t.setAnsiMode set a)) t

/-- The row of the last line with anything in it, and one more. -/
def usedRows : Nat :=
  (t.line.take t.row).reverse.dropWhile (fun l => t.tlinelen l == 0) |>.length

/-- The cursor position as it is reported. -/
def report : List UInt8 :=
  [27, ch '['] ++ numeralBytes (t.c.y + 1) ++ [ch ';'] ++
    numeralBytes (t.c.x + 1) ++ [ch 'R']

/-- `ED` for the whole of the default screen: what is on it goes into the
history. -/
def eraseAll : Option Term :=
  let used := t.usedRows
  (if used > 0 then t.tscrollup 0 (t.row - 1) used .savehist else some t).bind
    fun t => t.tscrollup 0 (t.row - 1) (t.row - used) .nosavehist

/-- The sequences that clear a part of the screen. -/
def eraseDisplay (n : Int) : Option Term :=
  if n = 0 then
    let t := t.tclearregion t.c.x t.c.y (t.col - 1) t.c.y true
    some (if t.c.y + 1 < t.row then
      t.tclearregion 0 (t.c.y + 1) (t.col - 1) (t.row - 1) true
    else t)
  else if n = 1 then
    let t :=
      if t.c.y ≥ 1 then t.tclearregion 0 0 (t.col - 1) (t.c.y - 1) true else t
    some (t.tclearregion 0 t.c.y t.c.x t.c.y true)
  else if n = 2 then
    if t.mode.altscreen then
      some (t.tclearregion 0 0 (t.col - 1) (t.row - 1) true)
    else t.eraseAll
  else some t

def eraseLine (n : Int) : Term :=
  if n = 0 then t.tclearregion t.c.x t.c.y (t.col - 1) t.c.y true
  else if n = 1 then t.tclearregion 0 t.c.y t.c.x t.c.y true
  else if n = 2 then t.tclearregion 0 t.c.y (t.col - 1) t.c.y true
  else t

/-- The character printed last, `n` times more. -/
def repeatLast (n : Nat) : Option Term :=
  if t.lastc = 0 then some t
  else (List.replicate n t.lastc).foldlM (fun t u =>
    t.tprint u (t.widthOf host u)) t

/-- `DEFAULT`. -/
def orDefault (a b : Int) : Int := if a = 0 then b else a

def csihandle : Option Term :=
  let csi := t.csiescseq
  let a0 := csi.arg.getD 0 0
  let a1 := csi.arg.getD 1 0
  let n := orDefault a0 1
  let c := csi.mode.1
  if c = ch '@' then t.tinsertblank n
  else if c = ch 'A' then (inInt (t.c.y - n)).map (t.tmoveto t.c.x)
  else if c = ch 'B' ∨ c = ch 'e' then
    (inInt (t.c.y + n)).map (t.tmoveto t.c.x)
  else if c = ch 'i' then
    if a0 = 4 then some { t with mode := { t.mode with print := false } }
    else if a0 = 5 then some { t with mode := { t.mode with print := true } }
    else some t
  else if c = ch 'c' then if a0 = 0 then t.answer host vtiden else some t
  else if c = ch 'b' then t.repeatLast host (limit a0 1 65535).toNat
  else if c = ch 'C' ∨ c = ch 'a' then
    (inInt (t.c.x + n)).map (t.tmoveto · t.c.y)
  else if c = ch 'D' then (inInt (t.c.x - n)).map (t.tmoveto · t.c.y)
  else if c = ch 'E' then (inInt (t.c.y + n)).map (t.tmoveto 0)
  else if c = ch 'F' then (inInt (t.c.y - n)).map (t.tmoveto 0)
  else if c = ch 'g' then
    if a0 = 0 then some { t with tabs := t.tabs.set t.c.x false }
    else if a0 = 3 then
      some { t with tabs := t.tabs.mapIdx fun x b => b && !(x < t.col) }
    else some t
  else if c = ch 'G' ∨ c = ch '`' then
    (inInt (n - 1)).map (t.tmoveto · t.c.y)
  else if c = ch 'H' ∨ c = ch 'f' then do
    let x ← inInt (orDefault a1 1 - 1)
    let y ← inInt (n - 1)
    t.tmoveato x y
  else if c = ch 'I' then some (t.tputtab n)
  else if c = ch 'J' then t.eraseDisplay a0
  else if c = ch 'K' then some (t.eraseLine a0)
  else if c = ch 'S' then
    if csi.priv then some t else t.tscrollup t.top t.bot n .savehist
  else if c = ch 'T' then some (t.tscrolldown t.top n)
  else if c = ch 'L' then some (t.tinsertblankline n)
  else if c = ch 'l' then t.tsetmode host csi.priv false csi.arg
  else if c = ch 'M' then t.tdeleteline n
  else if c = ch 'X' then
    if a0 < 0 then some t
    else
      (inInt (t.c.x + n)).map fun x =>
        t.tclearregion t.c.x t.c.y (min x (t.col : Int) - 1) t.c.y true
  else if c = ch 'P' then t.tdeletechar n
  else if c = ch 'Z' then (inInt (-n)).map t.tputtab
  else if c = ch 'd' then (inInt (n - 1)).bind (t.tmoveato t.c.x)
  else if c = ch 'h' then t.tsetmode host csi.priv true csi.arg
  else if c = ch 'm' then
    (tsetattr (csi.arg.length = escArgSiz) t.c.attr csi.arg).map
      fun attr => { t with c := { t.c with attr } }
  else if c = ch 'n' then
    if a0 = 5 then t.answer host ([27] ++ "[0n".toUTF8.toList)
    else if a0 = 6 then t.answer host t.report
    else some t
  else if c = ch 'r' then
    if csi.priv then some t
    else do
      let top ← inInt (n - 1)
      let bot ← inInt (orDefault a1 t.row - 1)
      (t.tsetscroll top bot).tmoveato 0 0
  else if c = ch 's' then some t.saveCursor
  else if c = ch 'u' then some t.loadCursor
  else some t

end Csi

section Escapes

variable (host : Host) (handler : Term → Option Term) (t : Term)

def csireset : Term := { t with csiescseq := {} }

def tstrsequence (c : UInt8) : Term :=
  let type :=
    if c = 0x90 then ch 'P' else if c = 0x9f then ch '_'
    else if c = 0x9e then ch '^' else if c = 0x9d then ch ']' else c
  { t with
    strescseq := { type, siz := strBufSiz }
    esc := { t.esc with str := true } }

def setTab : Term := { t with tabs := t.tabs.set t.c.x true }

/-- Only CAN, SUB, BEL and the C1 characters interrupt a sequence. -/
def interrupt : Term :=
  { t with esc := { t.esc with strEnd := false, str := false } }

/-- The string that was read before, handled by `handler`. -/
def handleStr : Option Term :=
  if t.esc.strEnd then handler t else some t

def tcontrolcode (ascii : Nat) : Option Term :=
  if ascii = 0x09 then some (t.tputtab 1)
  else if ascii = 0x08 then some (t.tmoveto ((t.c.x : Int) - 1) t.c.y)
  else if ascii = 0x0d then some (t.tmoveto 0 t.c.y)
  else if ascii = 0x0c ∨ ascii = 0x0b ∨ ascii = 0x0a then
    t.tnewline t.mode.crlf
  else if ascii = 0x07 then (t.handleStr handler).map interrupt
  else if ascii = 0x1b then
    some { t.csireset with
      esc := { t.esc with
        csi := false, altcharset := false, test := false, start := true } }
  else if ascii = 0x0e ∨ ascii = 0x0f then
    some { t with charset := 1 - (ascii - 0x0e) }
  else if ascii = 0x1a then
    (t.tsetchar (ch '?').toNat t.c.attr t.c.x t.c.y).map
      fun t => t.csireset.interrupt
  else if ascii = 0x18 then some t.csireset.interrupt
  else if ascii = 0x05 ∨ ascii = 0x00 ∨ ascii = 0x11 ∨ ascii = 0x13 ∨
      ascii = 0x7f then some t
  else if ascii = 0x85 then (t.tnewline true).map interrupt
  else if ascii = 0x88 then some t.setTab.interrupt
  else if ascii = 0x9a then (t.answer host vtiden).map interrupt
  else if ascii = 0x90 ∨ ascii = 0x9d ∨ ascii = 0x9e ∨ ascii = 0x9f then
    some (t.tstrsequence (UInt8.ofNat ascii))
  else some t.interrupt

def index : Option Term :=
  if t.c.y = t.bot then t.tscrollup t.top t.bot 1 .savehist
  else some (t.tmoveto t.c.x (t.c.y + 1))

def reverseIndex : Term :=
  if t.c.y = t.top then t.tscrolldown t.top 1
  else t.tmoveto t.c.x (t.c.y - 1)

/-- The cases of `eschandle` in which the sequence goes on. -/
def escContinues (ascii : UInt8) : Option Term :=
  if ascii = ch '[' then some { t with esc := { t.esc with csi := true } }
  else if ascii = ch '#' then some { t with esc := { t.esc with test := true } }
  else if ascii = ch '%' then some { t with esc := { t.esc with utf8 := true } }
  else if ascii = ch 'P' ∨ ascii = ch '_' ∨ ascii = ch '^' ∨ ascii = ch ']' ∨
      ascii = ch 'k' then
    some (t.tstrsequence ascii)
  else if ascii = ch '(' ∨ ascii = ch ')' ∨ ascii = ch '*' ∨ ascii = ch '+' then
    some { t with
      icharset := ascii.toNat - (ch '(').toNat
      esc := { t.esc with altcharset := true } }
  else none

/-- The cases in which it is finished. -/
def escFinishes (ascii : UInt8) : Option Term :=
  if ascii = ch 'n' ∨ ascii = ch 'o' then
    some { t with charset := 2 + (ascii.toNat - (ch 'n').toNat) }
  else if ascii = ch 'D' then t.index
  else if ascii = ch 'E' then t.tnewline true
  else if ascii = ch 'H' then some t.setTab
  else if ascii = ch 'M' then some t.reverseIndex
  else if ascii = ch 'Z' then t.answer host vtiden
  else if ascii = ch 'c' then
    some { t.treset with colors := t.colors ++ [.reload] }
  else if ascii = ch '7' then some t.saveCursor
  else if ascii = ch '8' then some t.loadCursor
  else if ascii = ch '\\' then t.handleStr handler
  else some t

/-- `eschandle`, and what `tputc` does after it. -/
def eschandle (ascii : UInt8) : Option Term :=
  match t.escContinues ascii with
  | some t => some t
  | none => (t.escFinishes host handler ascii).map fun t => { t with esc := {} }

def tdefutf8 (ascii : UInt8) : Term :=
  if ascii = ch 'G' then { t with mode := { t.mode with utf8 := true } }
  else if ascii = ch '@' then { t with mode := { t.mode with utf8 := false } }
  else t

/-- `strchr` finds the end of its table too, where `vcs` has no entry. -/
def tdeftran (ascii : UInt8) : Option Term :=
  let use := fun cs => { t with
    trantbl := fun i => if i = t.icharset then cs else t.trantbl i }
  if ascii = 0 then none
  else if ascii = ch '0' then some (use .graphic0)
  else if ascii = ch 'B' then some (use .usa)
  else some t

def tdectest (c : UInt8) : Option Term :=
  if c = ch '8' then
    (List.range t.col).foldlM (fun t x =>
      (List.range t.row).foldlM (fun t y =>
        t.tsetchar (ch 'E').toNat t.c.attr x y) t) t
  else some t

/-- A character more for the string of a sequence. -/
def strAppend (c : List UInt8) : Term :=
  let s := t.strescseq
  if s.buf.length + c.length ≥ s.siz then
    if s.siz > (sizeMax - utfSiz) / 2 then t
    else { t with strescseq := { s with buf := s.buf ++ c, siz := s.siz * 2 } }
  else { t with strescseq := { s with buf := s.buf ++ c } }

def endStr : Term :=
  { t with esc := { t.esc with start := false, str := false, strEnd := true } }

end Escapes

section Characters

variable (host : Host) (handler : Term → Option Term) (t : Term)

/-- A byte more for a CSI sequence, which is handled if it ends with it. -/
def csiAppend (u : Nat) : Option Term :=
  let buf := t.csiescseq.buf ++ [UInt8.ofNat u]
  let csi := { t.csiescseq with buf }
  if csiEnds buf u then
    { t with esc := {}, csiescseq := csiparse csi }.csihandle host
  else some { t with csiescseq := csi }

/-- `tputc` from `check_control_code` on. -/
def checkControlCode (u : Nat) : Option Term :=
  if isControl u then
    if t.mode.utf8 && isControlC1 u then some t
    else
      (t.tcontrolcode host handler u).map fun t =>
        if t.esc = {} then { t with lastc := 0 } else t
  else if t.esc.start then
    let byte := UInt8.ofNat u
    if t.esc.csi then t.csiAppend host u
    else if t.esc.utf8 then some { t.tdefutf8 byte with esc := {} }
    else if t.esc.altcharset then
      (t.tdeftran byte).map fun t => { t with esc := {} }
    else if t.esc.test then (t.tdectest byte).map fun t => { t with esc := {} }
    else t.eschandle host handler byte
  else t.tprint u (t.widthOf host u)

/-- `tputc`, where `handler` handles the strings that end. -/
def tputcWith (u : Nat) : Option Term :=
  let bytes :=
    if u < 127 ∨ !t.mode.utf8 then [UInt8.ofNat u] else utf8encode u
  if t.esc.str then
    if u = 0x07 ∨ u = 0x18 ∨ u = 0x1a ∨ u = 0x1b ∨ isControlC1 u then
      t.endStr.checkControlCode host handler u
    else some (t.strAppend bytes)
  else t.checkControlCode host handler u

end Characters

section Strings

variable (host : Host) (t : Term)

/-- The answer to a question for a colour. -/
def colorReply (num : Int) (isOsc4 : Bool) : UInt8 × UInt8 × UInt8 → List UInt8
  | (r, g, b) =>
    [27, ch ']'] ++ (if isOsc4 then [ch '4', ch ';'] else []) ++
      numeralBytes num ++ [ch ';', ch 'r', ch 'g', ch 'b', ch ':'] ++
      hexTwice r ++ [ch '/'] ++ hexTwice g ++ [ch '/'] ++ hexTwice b ++ [7]

/-- `osc_color_response`.  No character of its answer ends a string, so that
the echo of the answer needs no handler of strings. -/
def oscColorResponse (num index : Int) (isOsc4 : Bool) : Option Term :=
  match host.xgetcolor t.colors (if isOsc4 then num else index) with
  | none => some t
  | some rgb =>
      let s := colorReply num isOsc4 rgb
      if s.length ≥ 32 then some t
      else t.ttywrite host (fun t u => t.tputcWith host some u) s

def recolor (r : Recolor) : Term := { t with colors := t.colors ++ [r] }

/-- One colour asked for or set. -/
def oscColor (num index : Int) (isOsc4 : Bool) (p : List UInt8) : Option Term :=
  if p = [ch '?'] then t.oscColorResponse host num index isOsc4
  else some (t.recolor (.set (if isOsc4 then num else index) p))

/-- Of the strings that end only those about colours concern more than the
title, the icon and the clipboard. -/
def strhandle : Option Term :=
  let t := { t with esc := { t.esc with strEnd := false, str := false } }
  let args := strArgs t.strescseq.buf
  let par := atoi (args.getD 0 [])
  if t.strescseq.type ≠ ch ']' then some t
  else if par = 10 ∨ par = 11 ∨ par = 12 then
    let index := [defaultfg, defaultbg, defaultcs].getD (par - 10).toNat 0
    match args[1]? with
    | none => some t
    | some p => t.oscColor host par index false p
  else if par = 4 then
    match args[2]? with
    | none => some t
    | some p => t.oscColor host (atoi (args.getD 1 [])) 0 true p
  else if par = 104 then
    match args[1]? with
    | none => some (t.recolor .reload)
    | some j => some (t.recolor (.set (atoi j) none))
  else some t

def tputc (u : Nat) : Option Term := t.tputcWith host (strhandle host) u

end Strings

section Echo

variable (host : Host) {handler handler' : Term → Option Term} (t : Term)

/-- Only BEL and a backslash can end a string. -/
theorem tputcWith_handler {u : Nat} (hbel : u ≠ 0x07)
    (hst : UInt8.ofNat u ≠ ch '\\') :
    t.tputcWith host handler u = t.tputcWith host handler' u := by
  have hcontrol : ∀ s : Term,
      s.tcontrolcode host handler u = s.tcontrolcode host handler' u := fun s => by
    simp only [tcontrolcode, if_neg hbel]
  have hfinish : ∀ s : Term, s.eschandle host handler (UInt8.ofNat u) =
      s.eschandle host handler' (UInt8.ofNat u) := fun s => by
    simp only [eschandle, escFinishes, if_neg hst]
  simp only [tputcWith, checkControlCode, hcontrol, hfinish]

/-- A byte that is shown, in an echo, without a character that can end a
string. -/
def Unending (c : UInt8) : Prop :=
  c.toNat < 0x80 ∧ c.toNat ≠ 0x5c ∧ c.toNat ≠ 0x1c

instance (c : UInt8) : Decidable (Unending c) :=
  inferInstanceAs (Decidable (_ ∧ _ ∧ _))

theorem shown_unending : ∀ c < 0x80, c ≠ 0x5c → c ≠ 0x1c →
    ∀ u ∈ shown c, u ≠ 0x07 ∧ UInt8.ofNat u ≠ ch '\\' := by
  decide +kernel

theorem unending_of_all {s : List UInt8}
    (h : s.all (fun c => decide (Unending c)) = true) :
    ∀ c ∈ s, Unending c :=
  fun c hc => of_decide_eq_true (List.all_eq_true.1 h c hc)

theorem numeralBytes_unending (n : Int) : ∀ c ∈ numeralBytes n, Unending c := by
  have hdigit : ∀ m < 58, 48 ≤ m → Unending (UInt8.ofNat m) := by decide
  refine List.forall_mem_append.2 ⟨?_, fun c hc => ?_⟩
  · split <;> exact unending_of_all rfl
  · obtain ⟨d, hd, rfl⟩ := List.mem_map.1 hc
    have hrange := Nat.isDigit_of_mem_toDigits (by decide) (by decide) hd
    rw [Char.isDigit, Bool.and_eq_true, decide_eq_true_eq,
      decide_eq_true_eq] at hrange
    exact hdigit d.toNat (Nat.lt_succ_of_le hrange.2) hrange.1

theorem hexTwice_unending (b : UInt8) : ∀ c ∈ hexTwice b, Unending c := by
  have hdigit : ∀ n < 16, Unending (hexDigit n) := by decide
  have hb := b.toNat_lt
  have hbyte : ∀ c ∈ [hexDigit (b.toNat / 16), hexDigit (b.toNat % 16)],
      Unending c := by
    refine List.forall_mem_cons.2 ⟨hdigit _ (by omega), ?_⟩
    exact List.forall_mem_singleton.2 (hdigit _ (by omega))
  exact List.forall_mem_append.2 ⟨hbyte, hbyte⟩

theorem colorReply_unending (num : Int) (isOsc4 : Bool)
    (rgb : UInt8 × UInt8 × UInt8) :
    ∀ c ∈ colorReply num isOsc4 rgb, Unending c := by
  obtain ⟨r, g, b⟩ := rgb
  have hnum := numeralBytes_unending num
  have hhex := hexTwice_unending
  have hprefix : ∀ c ∈ (if isOsc4 then [ch '4', ch ';'] else []), Unending c := by
    cases isOsc4 <;> exact unending_of_all rfl
  simp only [colorReply, List.forall_mem_append]
  exact ⟨⟨⟨⟨⟨⟨⟨⟨⟨unending_of_all rfl, hprefix⟩, hnum⟩, unending_of_all rfl⟩,
    hhex r⟩, unending_of_all rfl⟩, hhex g⟩, unending_of_all rfl⟩, hhex b⟩,
    unending_of_all rfl⟩

theorem echo_congr {put put' : Term → Nat → Option Term} {s : List UInt8}
    (hs : ∀ c ∈ s, Unending c)
    (hput : ∀ t u, u ≠ 0x07 → UInt8.ofNat u ≠ ch '\\' → put t u = put' t u) :
    t.echo put s = t.echo put' s := by
  have hchars : ∀ (us : List Nat),
      (∀ u ∈ us, u ≠ 0x07 ∧ UInt8.ofNat u ≠ ch '\\') →
      ∀ t : Term, us.foldlM put t = us.foldlM put' t := by
    intro us hus
    induction us with
    | nil => exact fun _ => rfl
    | cons u us ih =>
        intro t
        obtain ⟨hbel, hst⟩ := hus u List.mem_cons_self
        have hrest := ih fun u' hu' => hus u' (List.mem_cons_of_mem u hu')
        rw [List.foldlM_cons, List.foldlM_cons, hput t u hbel hst]
        exact congrArg (Option.bind (put' t u)) (funext hrest)
  have hascii : ∀ c ∈ s, c.toNat < 0x80 := fun c hc => (hs c hc).1
  rw [echo, echo, feed_ascii _ hascii, feed_ascii _ hascii]
  generalize some t = start
  induction s generalizing start with
  | nil => rfl
  | cons c s ih =>
      obtain ⟨hlt, hbackslash, hfs⟩ := hs c List.mem_cons_self
      have hshown := shown_unending c.toNat hlt hbackslash hfs
      rw [List.foldl_cons, List.foldl_cons,
        funext fun t => hchars (shown c.toNat) hshown t]
      exact ih (fun c' hc' => hs c' (List.mem_cons_of_mem c hc'))
        (fun c' hc' => hascii c' (List.mem_cons_of_mem c hc')) _

/-- The echo of an answer is what `tputc` itself makes of it. -/
theorem oscColorResponse_echo (num : Int) (isOsc4 : Bool)
    (rgb : UInt8 × UInt8 × UInt8) :
    t.ttywrite host (fun t u => t.tputcWith host some u)
        (colorReply num isOsc4 rgb) =
      t.ttywrite host (fun t u => t.tputc host u)
        (colorReply num isOsc4 rgb) := by
  have hecho : ∀ s : Term,
      s.echo (fun t u => t.tputcWith host some u) (colorReply num isOsc4 rgb) =
        s.echo (fun t u => t.tputc host u) (colorReply num isOsc4 rgb) :=
    fun s => s.echo_congr (colorReply_unending num isOsc4 rgb)
      fun t u hbel hst => t.tputcWith_handler host hbel hst
  rw [ttywrite, ttywrite, hecho]

end Echo

end Term

end St

end Bodhi
