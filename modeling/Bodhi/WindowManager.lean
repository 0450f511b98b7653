/-
The state of dwm: its monitors, its clients and the lists they stand in, and
what the functions of dwm.c do to them.  A client is named by its window and a
monitor by its place in `mons`, where monitors are only added and removed at
the end.
-/
import Mathlib.Logic.Function.Basic
import Bodhi.ListRing
import Bodhi.ShellText

namespace Bodhi

namespace Dwm

abbrev Window := Nat

/-- An `unsigned int` with one bit for each tag. -/
abbrev Tags := BitVec 32

/-- The tags of config.h. -/
def tags : List String := ["1", "2", "3"]

def tagMask : Tags := (1 <<< tags.length) - 1

structure Rect where
  x : Int
  y : Int
  w : Int
  h : Int
deriving DecidableEq

/-- The area that two rectangles share. -/
def intersect (r m : Rect) : Int :=
  max 0 (min (r.x + r.w) (m.x + m.w) - max r.x m.x) *
    max 0 (min (r.y + r.h) (m.y + m.h) - max r.y m.y)

/-- The layouts that config.h binds; the last one has no arrange function. -/
inductive Layout where
  | tile
  | monocle
  | spiral
  | dwindle
  | deck
  | bstack
  | bstackhoriz
  | grid
  | nrowgrid
  | horizgrid
  | gaplessgrid
  | centeredmaster
  | centeredfloatingmaster
  | floating
deriving DecidableEq

def Layout.arranges : Layout → Bool
  | .floating => false
  | _ => true

structure Client where
  mon : Nat
  tags : Tags := 0
  isfixed : Bool := false
  isfloating : Bool := false
  isurgent : Bool := false
  neverfocus : Bool := false
  oldstate : Bool := false
  isfullscreen : Bool := false

structure Monitor where
  num : Int
  screen : Rect
  window : Rect
  barY : Int
  showbar : Bool
  topbar : Bool
  nmaster : Int
  gappih : Int
  gappiv : Int
  gappoh : Int
  gappov : Int
  seltags : Bool
  sellt : Bool
  tagset : Bool → Tags
  lt : Bool → Layout
  clients : List Window
  stack : List Window
  sel : Option Window

/-- The tags that a monitor shows. -/
def Monitor.view (m : Monitor) : Tags := m.tagset m.seltags

/-- The other tag set, with new tags if there are any. -/
def Monitor.otherView (ui : Tags) (m : Monitor) : Monitor :=
  { m with
    seltags := !m.seltags
    tagset :=
      if ui &&& tagMask ≠ 0 then
        Function.update m.tagset (!m.seltags) (ui &&& tagMask)
      else m.tagset }

def Monitor.setView (newtagset : Tags) (m : Monitor) : Monitor :=
  { m with tagset := Function.update m.tagset m.seltags newtagset }

/-- Whether the monitor's current layout has an arrange function. -/
def Monitor.arranges (m : Monitor) : Bool := (m.lt m.sellt).arranges

def createMon : Monitor where
  num := 0
  screen := ⟨0, 0, 0, 0⟩
  window := ⟨0, 0, 0, 0⟩
  barY := 0
  showbar := true
  topbar := true
  nmaster := 1
  gappih := 10
  gappiv := 10
  gappoh := 10
  gappov := 10
  seltags := false
  sellt := false
  tagset := fun _ => 1
  lt := fun second => if second then .monocle else .tile
  clients := []
  stack := []
  sel := none

/-- The window area and the bar of a monitor whose screen is known. -/
def updateBarPos (bh : Int) (m : Monitor) : Monitor :=
  let wh := if m.showbar then m.screen.h - bh else m.screen.h
  { m with
    window := { m.window with
      y := if m.showbar && m.topbar then m.screen.y + bh else m.screen.y
      h := wh }
    barY :=
      if m.showbar then
        if m.topbar then m.screen.y else m.screen.y + wh
      else -bh }

/-- The globals of dwm.c.  `shown` is what the last move of a window left on
the screen, `pointed` the `static` monitor of `motionnotify`. -/
structure Wm where
  mon : Nat → Monitor
  monCount : Nat
  selmon : Nat
  client : Window → Client
  netClientList : List Window
  shown : Window → Bool
  enablegaps : Bool
  pointed : Option Nat
  sw : Int
  sh : Int
  bh : Int
  running : Bool
  crashed : Bool

namespace Wm

/-- Writes to the fields of one monitor. -/
def modMon (s : Wm) (i : Nat) (f : Monitor → Monitor) : Wm :=
  { s with mon := Function.update s.mon i (f (s.mon i)) }

/-- Writes to the fields of one client. -/
def modClient (s : Wm) (c : Window) (f : Client → Client) : Wm :=
  { s with client := Function.update s.client c (f (s.client c)) }

@[simp] theorem modMon_mon_self (s : Wm) (i : Nat) (f : Monitor → Monitor) :
    (s.modMon i f).mon i = f (s.mon i) := by
  simp [modMon]

theorem modMon_mon_of_ne (s : Wm) {i j : Nat} (f : Monitor → Monitor)
    (h : j ≠ i) : (s.modMon i f).mon j = s.mon j := by
  simp [modMon, h]

/-- What a write leaves alone in its monitor it leaves alone in all. -/
theorem modMon_field {β : Type} (g : Monitor → β) (s : Wm) {i : Nat}
    {f : Monitor → Monitor} (h : g (f (s.mon i)) = g (s.mon i)) (j : Nat) :
    g ((s.modMon i f).mon j) = g (s.mon j) := by
  by_cases hj : j = i
  · rw [hj, modMon_mon_self, h]
  · rw [modMon_mon_of_ne s f hj]

@[simp] theorem modMon_client (s : Wm) (i : Nat) (f : Monitor → Monitor) :
    (s.modMon i f).client = s.client := rfl

@[simp] theorem modMon_monCount (s : Wm) (i : Nat) (f : Monitor → Monitor) :
    (s.modMon i f).monCount = s.monCount := rfl

@[simp] theorem modMon_selmon (s : Wm) (i : Nat) (f : Monitor → Monitor) :
    (s.modMon i f).selmon = s.selmon := rfl

@[simp] theorem modClient_client_self (s : Wm) (c : Window)
    (f : Client → Client) : (s.modClient c f).client c = f (s.client c) := by
  simp [modClient]

theorem modClient_client_of_ne (s : Wm) {c d : Window} (f : Client → Client)
    (h : d ≠ c) : (s.modClient c f).client d = s.client d := by
  simp [modClient, h]

theorem modClient_field {β : Type} (g : Client → β) (s : Wm) {c : Window}
    {f : Client → Client} (h : g (f (s.client c)) = g (s.client c))
    (d : Window) : g ((s.modClient c f).client d) = g (s.client d) := by
  by_cases hd : d = c
  · rw [hd, modClient_client_self, h]
  · rw [modClient_client_of_ne s f hd]

@[simp] theorem modClient_mon (s : Wm) (c : Window) (f : Client → Client) :
    (s.modClient c f).mon = s.mon := rfl

@[simp] theorem modClient_monCount (s : Wm) (c : Window)
    (f : Client → Client) : (s.modClient c f).monCount = s.monCount := rfl

@[simp] theorem modClient_selmon (s : Wm) (c : Window)
    (f : Client → Client) : (s.modClient c f).selmon = s.selmon := rfl

/-- `ISVISIBLE`. -/
def isVisible (s : Wm) (c : Window) : Bool :=
  (s.client c).tags &&& (s.mon (s.client c).mon).view != 0

/-- All clients, monitor by monitor. -/
def managed (s : Wm) : List Window :=
  (List.range s.monCount).flatMap fun i => (s.mon i).clients

def winToClient (s : Wm) (w : Window) : Option Window :=
  s.managed.find? (· == w)

def rectToMon (s : Wm) (r : Rect) : Nat :=
  ((List.range s.monCount).foldl (fun best i =>
    let a := intersect r (s.mon i).window
    if a > best.2 then (i, a) else best) (s.selmon, 0)).1

section Lists

def attach (s : Wm) (c : Window) : Wm :=
  s.modMon (s.client c).mon fun m => { m with clients := c :: m.clients }

def attachBottom (s : Wm) (c : Window) : Wm :=
  s.modMon (s.client c).mon fun m => { m with clients := m.clients ++ [c] }

def attachStack (s : Wm) (c : Window) : Wm :=
  s.modMon (s.client c).mon fun m => { m with stack := c :: m.stack }

def detach (s : Wm) (c : Window) : Wm :=
  s.modMon (s.client c).mon fun m => { m with clients := m.clients.erase c }

def detachStack (s : Wm) (c : Window) : Wm :=
  s.modMon (s.client c).mon fun m =>
    let stack := m.stack.erase c
    { m with
      stack := stack
      sel := if m.sel = some c then stack.find? s.isVisible else m.sel }

/-- The first client of a chain that the layouts place. -/
def nextTiled (s : Wm) (chain : List Window) : Option Window :=
  chain.find? fun c => !(s.client c).isfloating && s.isVisible c

end Lists

section Screen

/-- The moves of `showhide` along a stack: clients in view are moved to where
they belong from the top down, the others out of the screen from the bottom
up. -/
def showHide (s : Wm) : List Window → (Window → Bool) → Window → Bool
  | [], shown => shown
  | c :: rest, shown =>
      if s.isVisible c then
        s.showHide rest (Function.update shown c true)
      else Function.update (s.showHide rest shown) c false

/-- `arrange(m)`; the layouts themselves only resize clients in view. -/
def arrange (s : Wm) (i : Nat) : Wm :=
  { s with shown := s.showHide (s.mon i).stack s.shown }

/-- `arrange(NULL)`. -/
def arrangeAll (s : Wm) : Wm :=
  (List.range s.monCount).foldl arrange s

/-- `resizeclient` leaves the window on the screen. -/
def resizeClient (s : Wm) (c : Window) : Wm :=
  { s with shown := Function.update s.shown c true }

end Screen

section Focus

/-- The branch of `focus` for a client. -/
def select (s : Wm) (c : Window) : Wm :=
  let s := { s with selmon := (s.client c).mon }
  let s := s.modClient c fun client => { client with isurgent := false }
  let s := (s.detachStack c).attachStack c
  s.modMon s.selmon fun m => { m with sel := some c }

def focus (s : Wm) (c : Option Window) : Wm :=
  let top := (s.mon s.selmon).stack.find? s.isVisible
  match (c.filter s.isVisible).or top with
  | some c => s.select c
  | none => s.modMon s.selmon fun m => { m with sel := none }

/-- `dirtomon`: the next monitor or the one before, around the ends. -/
def dirToMon (s : Wm) (dir : Int) : Nat :=
  if dir > 0 then
    if s.selmon + 1 < s.monCount then s.selmon + 1 else 0
  else if s.selmon = 0 then s.monCount - 1
  else s.selmon - 1

def focusMon (s : Wm) (dir : Int) : Wm :=
  if s.monCount ≤ 1 then s
  else if s.dirToMon dir = s.selmon then s
  else { s with selmon := s.dirToMon dir }.focus none

/-- The next client in view, or the one before, around the ends. -/
def focusStack (s : Wm) (dir : Int) : Wm :=
  match (s.mon s.selmon).sel with
  | none => s
  | some sel =>
      if (s.client sel).isfullscreen then s
      else
        match neighbour s.isVisible dir (s.mon s.selmon).clients sel with
        | none => s
        | some c => s.focus (some c)

end Focus

section Order

def pop (s : Wm) (c : Window) : Wm :=
  let s := ((s.detach c).attach c).focus (some c)
  s.arrange (s.client c).mon

def zoom (s : Wm) : Wm :=
  let m := s.mon s.selmon
  match m.sel with
  | none => s
  | some c =>
      if !m.arranges || (s.client c).isfloating then s
      else if s.nextTiled m.clients = some c then
        match s.nextTiled (m.clients.dropWhile (· != c)).tail with
        | none => s
        | some c => s.pop c
      else s.pop c

/-- The two clients change places. -/
def swapClients (a b : Window) (clients : List Window) : List Window :=
  clients.map fun c => if c = a then b else if c = b then a else c

/-- The clients among which `movestack` moves. -/
def isTiled (s : Wm) (c : Window) : Bool :=
  s.isVisible c && !(s.client c).isfloating

/-- `movestack`.  Without a selected client the way down reads its successor
through the null pointer, and so does the exchange on the way up. -/
def moveStack (s : Wm) (dir : Int) : Wm :=
  let m := s.mon s.selmon
  match m.sel with
  | none =>
      if dir > 0 || m.clients.any s.isTiled then { s with crashed := true } else s
  | some sel =>
      match neighbour s.isTiled dir m.clients sel with
      | none => s
      | some c =>
          if c = sel then s
          else
            (s.modMon s.selmon fun m =>
              { m with clients := swapClients sel c m.clients }).arrange s.selmon

end Order

section Views

def view (s : Wm) (ui : Tags) : Wm :=
  if ui &&& tagMask = (s.mon s.selmon).view then s
  else
    let s := s.modMon s.selmon (.otherView ui)
    let s := s.focus none
    s.arrange s.selmon

def toggleView (s : Wm) (ui : Tags) : Wm :=
  let newtagset := (s.mon s.selmon).view ^^^ (ui &&& tagMask)
  if newtagset = 0 then s
  else
    let s := s.modMon s.selmon (.setView newtagset)
    let s := s.focus none
    s.arrange s.selmon

/-- The selected client gets new tags. -/
def retag (s : Wm) (c : Window) (newtags : Tags) : Wm :=
  let s := s.modClient c fun client => { client with tags := newtags }
  let s := s.focus none
  s.arrange s.selmon

def tag (s : Wm) (ui : Tags) : Wm :=
  match (s.mon s.selmon).sel with
  | none => s
  | some c => if ui &&& tagMask = 0 then s else s.retag c (ui &&& tagMask)

def toggleTag (s : Wm) (ui : Tags) : Wm :=
  match (s.mon s.selmon).sel with
  | none => s
  | some c =>
      let newtags := (s.client c).tags ^^^ (ui &&& tagMask)
      if newtags = 0 then s else s.retag c newtags

end Views

section Monitors

def sendMon (s : Wm) (c : Window) (i : Nat) : Wm :=
  if (s.client c).mon = i then s
  else
    let s := (s.detach c).detachStack c
    let s := s.modClient c fun client =>
      { client with mon := i, tags := (s.mon i).view }
    let s := (s.attachBottom c).attachStack c
    (s.focus none).arrangeAll

def tagMon (s : Wm) (dir : Int) : Wm :=
  match (s.mon s.selmon).sel with
  | none => s
  | some c => if s.monCount ≤ 1 then s else s.sendMon c (s.dirToMon dir)

end Monitors

section Layouts

def setLayout (s : Wm) (v : Option Layout) : Wm :=
  let m := s.mon s.selmon
  let sellt := if v = some (m.lt m.sellt) then m.sellt else !m.sellt
  let s := s.modMon s.selmon fun m => { m with
    sellt := sellt
    lt :=
      match v with
      | some layout => Function.update m.lt sellt layout
      | none => m.lt }
  if m.sel.isSome then s.arrange s.selmon else s

def incNmaster (s : Wm) (i : Int) : Wm :=
  (s.modMon s.selmon fun m =>
    { m with nmaster := max (m.nmaster + i) 0 }).arrange s.selmon

/-- `setmfact`; whether the new factor is within its bounds is given. -/
def setMfact (s : Wm) (accepted : Bool) : Wm :=
  if (s.mon s.selmon).arranges && accepted then s.arrange s.selmon else s

/-- `setcfact`; whether the new factor is within its bounds is given. -/
def setCfact (s : Wm) (accepted : Bool) : Wm :=
  let m := s.mon s.selmon
  if m.sel.isSome && m.arranges && accepted then s.arrange s.selmon else s

def toggleFloating (s : Wm) : Wm :=
  match (s.mon s.selmon).sel with
  | none => s
  | some c =>
      let client := s.client c
      if client.isfullscreen then s
      else
        -- The resize in between is overtaken by the move in `arrange`.
        (s.modClient c fun client => { client with
          isfloating := !client.isfloating || client.isfixed
          }).arrange s.selmon

def toggleBar (s : Wm) : Wm :=
  (s.modMon s.selmon fun m =>
    updateBarPos s.bh { m with showbar := !m.showbar }).arrange s.selmon

def setGaps (s : Wm) (oh ov ih iv : Int) : Wm :=
  (s.modMon s.selmon fun m => { m with
    gappoh := max oh 0
    gappov := max ov 0
    gappih := max ih 0
    gappiv := max iv 0 }).arrange s.selmon

/-- Each gap of the selected monitor changed by its own amount. -/
def addGaps (s : Wm) (oh ov ih iv : Int) : Wm :=
  let m := s.mon s.selmon
  s.setGaps (m.gappoh + oh) (m.gappov + ov) (m.gappih + ih) (m.gappiv + iv)

def incrGaps (s : Wm) (i : Int) : Wm := s.addGaps i i i i
def incriGaps (s : Wm) (i : Int) : Wm := s.addGaps 0 0 i i
def incroGaps (s : Wm) (i : Int) : Wm := s.addGaps i i 0 0
def incrohGaps (s : Wm) (i : Int) : Wm := s.addGaps i 0 0 0
def incrovGaps (s : Wm) (i : Int) : Wm := s.addGaps 0 i 0 0
def incrihGaps (s : Wm) (i : Int) : Wm := s.addGaps 0 0 i 0
def incrivGaps (s : Wm) (i : Int) : Wm := s.addGaps 0 0 0 i
def defaultGaps (s : Wm) : Wm := s.setGaps 10 10 10 10

def toggleGaps (s : Wm) : Wm :=
  { s with enablegaps := !s.enablegaps }.arrangeAll

end Layouts

end Wm

end Dwm

end Bodhi
