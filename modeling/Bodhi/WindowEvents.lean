/-
The events that dwm handles: windows that come and go, changes of the screen,
the pointer, and the commands bound to keys and buttons.
-/
import Mathlib.Logic.Function.Iterate
import Bodhi.RunInvariant
import Bodhi.WindowManager

namespace Bodhi

namespace Dwm

/-- The hints in `WM_NORMAL_HINTS` that say whether a window has one size. -/
structure SizeHints where
  maxw : Int := 0
  maxh : Int := 0
  minw : Int := 0
  minh : Int := 0

/-- `WM_HINTS`: the urgency flag and, where it is set, the input field. -/
structure WmHints where
  urgent : Bool
  input : Option Bool

def broken : Text := "broken".toList

/-- What X tells about a window that asks to be mapped. -/
structure WindowInfo where
  attributes : Bool := true
  overrideRedirect : Bool := false
  transientFor : Option Window := none
  className : Option Text := none
  instanceName : Option Text := none
  title : Text := broken
  stateFullscreen : Bool := false
  typeDialog : Bool := false
  sizeHints : SizeHints := {}
  wmHints : Option WmHints := none

structure Rule where
  className : Option Text
  instanceName : Option Text
  title : Option Text
  tags : Tags
  isfloating : Bool
  monitor : Int

/-- The rules of config.h. -/
def rules : List Rule := [
  ⟨some "Gimp".toList, none, none, 0, true, -1⟩,
  ⟨some "kdenlive".toList, none, none, 0, true, -1⟩,
  ⟨some "QjackCtl".toList, none, none, 0, true, -1⟩,
  ⟨some "Firefox".toList, none, none, 1 <<< 8, false, -1⟩]

def Rule.matches (r : Rule) (x : WindowInfo) : Bool :=
  r.title.all (decide <| · <:+: x.title) &&
    r.className.all (decide <| · <:+: x.className.getD broken) &&
    r.instanceName.all (decide <| · <:+: x.instanceName.getD broken)

/-- The part of the state that the layouts of the screens decide. -/
structure Geometry where
  width : Int
  height : Int
  screens : Option (Rect × List Rect)
  pointer : Option (Int × Int)

/-- Where a pointer event happens. -/
inductive Target where
  | root (pointer : Option (Int × Int))
  | bar (i : Nat)
  | window (w : Window)

/-- What happens in the loop of `movemouse` and `resizemouse`. -/
inductive DragStep where
  | mapRequest (w : Window) (x : WindowInfo)
  | motion (beyondSnap : Bool)

/-- A drag: whether the pointer could be grabbed, the events of the loop, and
the rectangle in which it leaves the client. -/
structure Drag where
  grabbed : Bool
  steps : List DragStep
  rect : Rect

inductive Command where
  | focusstack (i : Int)
  | movestack (i : Int)
  | zoom
  | view (ui : Tags)
  | toggleview (ui : Tags)
  | tag (ui : Tags)
  | toggletag (ui : Tags)
  | focusmon (i : Int)
  | tagmon (i : Int)
  | setlayout (v : Option Layout)
  | incnmaster (i : Int)
  | setmfact (accepted : Bool)
  | setcfact (accepted : Bool)
  | togglefloating
  | togglebar
  | incrgaps (i : Int)
  | incrigaps (i : Int)
  | incrogaps (i : Int)
  | incrohgaps (i : Int)
  | incrovgaps (i : Int)
  | incrihgaps (i : Int)
  | incrivgaps (i : Int)
  | togglegaps
  | defaultgaps
  | movemouse (drag : Drag)
  | resizemouse (drag : Drag)
  | spawn
  | killclient
  | quit

inductive Event where
  | keyPress (bound : List Command)
  | buttonPress (at_ : Target) (bound : List Command)
  | clientMessageFullscreen (w : Window) (action : Int)
  | clientMessageActive (w : Window)
  | configureNotify (g : Geometry)
  | destroyNotify (w : Window)
  | enterNotify (passed : Bool) (at_ : Target)
  | mapRequest (w : Window) (x : WindowInfo)
  | motionNotify (x y : Int)
  | transientFor (w : Window) (parent : Option Window)
  | windowType (w : Window) (fullscreen dialog : Bool)
  | wmHints (w : Window) (hints : Option WmHints)
  | normalHints (w : Window) (hints : SizeHints)
  | unmapNotify (w : Window) (sendEvent : Bool)

namespace Wm

section Clients

/-- One round of the loop in `applyrules`. -/
def applyRule (s : Wm) (x : WindowInfo) (c : Client) (r : Rule) : Client :=
  if r.matches x then
    { c with
      isfloating := r.isfloating
      tags := c.tags ||| r.tags
      mon := ((List.range s.monCount).find? fun i =>
        (s.mon i).num = r.monitor).getD c.mon }
  else c

/-- `applyrules`: the tags, the floating state and the monitor of a client
that is no transient of another. -/
def applyRules (s : Wm) (x : WindowInfo) (c : Client) : Client :=
  let ruled := rules.foldl (s.applyRule x)
    { c with isfloating := false, tags := 0 }
  { ruled with
    tags :=
      if ruled.tags &&& tagMask ≠ 0 then ruled.tags &&& tagMask
      else (s.mon ruled.mon).view }

/-- The fields that `setfullscreen(c, 1)` writes. -/
def enterFullscreen (c : Client) : Client :=
  if c.isfullscreen then c
  else { c with
    isfullscreen := true, oldstate := c.isfloating, isfloating := true }

def updateSizeHints (h : SizeHints) (c : Client) : Client :=
  { c with
    isfixed := h.maxw != 0 && h.maxh != 0 && h.maxw == h.minw &&
      h.maxh == h.minh }

/-- `updatewmhints`; the selected client is not made urgent. -/
def updateWmHints (selected : Bool) (hints : Option WmHints) (c : Client) :
    Client :=
  match hints with
  | none => c
  | some h => { c with
      isurgent := if selected && h.urgent then c.isurgent else h.urgent
      neverfocus := match h.input with
        | some input => !input
        | none => false }

/-- A transient goes where its parent is, other windows where the rules say. -/
def placeClient (s : Wm) (x : WindowInfo) : Client :=
  match x.transientFor.bind s.winToClient with
  | some t => { mon := (s.client t).mon, tags := (s.client t).tags }
  | none => s.applyRules x { mon := s.selmon }

/-- The record that `manage` fills before it enters the client in the lists. -/
def newClient (s : Wm) (x : WindowInfo) : Client :=
  let placed := s.placeClient x
  let typed := if x.stateFullscreen then enterFullscreen placed else placed
  let typed :=
    if x.typeDialog then { typed with isfloating := true } else typed
  let hinted := updateWmHints false x.wmHints (updateSizeHints x.sizeHints typed)
  if hinted.isfloating then hinted
  else
    let isfloating := x.transientFor.isSome || hinted.isfixed
    { hinted with isfloating := isfloating, oldstate := isfloating }

def manage (s : Wm) (w : Window) (x : WindowInfo) : Wm :=
  let c := s.newClient x
  let s := { s with
    client := Function.update s.client w c
    shown := Function.update s.shown w false
    netClientList := s.netClientList ++ [w] }
  let s := (s.attachBottom w).attachStack w
  let s := s.modMon c.mon fun m => { m with sel := some w }
  (s.arrange c.mon).focus none

def unmanage (s : Wm) (c : Window) : Wm :=
  let i := (s.client c).mon
  let s := ((s.detach c).detachStack c).focus none
  { s with netClientList := s.managed }.arrange i

def mapRequest (s : Wm) (w : Window) (x : WindowInfo) : Wm :=
  if !x.attributes || x.overrideRedirect then s
  else if (s.winToClient w).isSome then s
  else s.manage w x

def setFullscreen (s : Wm) (c : Window) (fullscreen : Bool) : Wm :=
  let client := s.client c
  if fullscreen && !client.isfullscreen then
    (s.modClient c enterFullscreen).resizeClient c
  else if !fullscreen && client.isfullscreen then
    let s := s.modClient c fun client =>
      { client with isfullscreen := false, isfloating := client.oldstate }
    (s.resizeClient c).arrange client.mon
  else s

def updateWindowType (s : Wm) (c : Window) (fullscreen dialog : Bool) : Wm :=
  let s := if fullscreen then s.setFullscreen c true else s
  if dialog then s.modClient c fun client => { client with isfloating := true }
  else s

end Clients

section Screens

/-- The screens without those that repeat the geometry of an earlier one. -/
def uniqueScreens (screens : List Rect) : List Rect :=
  screens.foldl (fun unique r => if r ∈ unique then unique else unique ++ [r])
    []

/-- A monitor at the end of `mons`. -/
def addMon (s : Wm) : Wm :=
  { s with
    mon := Function.update s.mon s.monCount createMon
    monCount := s.monCount + 1 }

/-- The monitor gets the geometry of its screen, if that is a change. -/
def placeMon (n : Nat) (s : Wm × Bool) (screen : Rect × Nat) : Wm × Bool :=
  if screen.2 ≥ n ∨ screen.1 ≠ (s.1.mon screen.2).screen then
    (s.1.modMon screen.2 fun m => updateBarPos s.1.bh { m with
      num := screen.2, screen := screen.1, window := screen.1 }, true)
  else s

/-- The loop that gives the clients of a monitor to the first one. -/
def rehome (s : Wm) (i : Nat) : List Window → Wm
  | [] => s
  | c :: rest =>
      let s := s.modMon i fun m => { m with clients := rest }
      let s := s.detachStack c
      let s := s.modClient c fun client => { client with mon := 0 }
      ((s.attach c).attachStack c).rehome i rest

/-- The last monitor goes. -/
def dropMon (s : Wm × Bool) : Wm × Bool :=
  let i := s.1.monCount - 1
  let clients := (s.1.mon i).clients
  let t := s.1.rehome i clients
  ({ t with
    selmon := if i = t.selmon then 0 else t.selmon
    monCount := i }, s.2 || !clients.isEmpty)

/-- The monitors brought in line with the screens; the flag is `dirty`. -/
def updateMons (s : Wm) (g : Geometry) : Wm × Bool :=
  match g.screens with
  | some (first, others) =>
      let unique := uniqueScreens (first :: others)
      let n := s.monCount
      let grown := addMon^[unique.length - n] s
      let placed := unique.zipIdx.foldl (placeMon n) (grown, false)
      dropMon^[n - unique.length] placed
  | none =>
      let s := if s.monCount = 0 then s.addMon else s
      let screen := (s.mon 0).screen
      if screen.w ≠ s.sw ∨ screen.h ≠ s.sh then
        (s.modMon 0 fun m => updateBarPos s.bh { m with
          screen := { m.screen with w := s.sw, h := s.sh }
          window := { m.window with w := s.sw, h := s.sh } }, true)
      else (s, false)

/-- The monitor under the pointer, or the selected one. -/
def pointerMon (s : Wm) (pointer : Option (Int × Int)) : Nat :=
  match pointer with
  | some (x, y) => s.rectToMon ⟨x, y, 1, 1⟩
  | none => s.selmon

def updateGeom (s : Wm) (g : Geometry) : Wm × Bool :=
  let t := s.updateMons g
  if t.2 then
    let s := { t.1 with selmon := 0 }
    ({ s with selmon := s.pointerMon g.pointer }, true)
  else t

def configureNotify (s : Wm) (g : Geometry) : Wm :=
  let dirty := s.sw ≠ g.width ∨ s.sh ≠ g.height
  let t := { s with sw := g.width, sh := g.height }.updateGeom g
  if t.2 ∨ dirty then
    let s := t.1
    let s := { s with
      shown := fun c =>
        s.shown c || s.managed.contains c && (s.client c).isfullscreen }
    (s.focus none).arrangeAll
  else t.1

end Screens

section Pointer

def winToMon (s : Wm) : Target → Nat
  | .root pointer => s.pointerMon pointer
  | .bar i => if i < s.monCount then i else s.selmon
  | .window w =>
      match s.winToClient w with
      | some c => (s.client c).mon
      | none => s.selmon

/-- The client whose window an event reports. -/
def targetClient (s : Wm) : Target → Option Window
  | .window w => s.winToClient w
  | _ => none

def enterNotify (s : Wm) (passed : Bool) (at_ : Target) : Wm :=
  let onRoot := match at_ with
    | .root _ => true
    | _ => false
  if passed && !onRoot then s
  else
    let c := s.targetClient at_
    let i := s.winToMon at_
    if i ≠ s.selmon then { s with selmon := i }.focus c
    else if c = none ∨ c = (s.mon s.selmon).sel then s
    else s.focus c

def motionNotify (s : Wm) (x y : Int) : Wm :=
  let i := s.rectToMon ⟨x, y, 1, 1⟩
  let moved := s.pointed.isSome && s.pointed != some i
  let s := if moved then { s with selmon := i }.focus none else s
  { s with pointed := some i }

def dragStep (c : Window) (s : Wm) : DragStep → Wm
  | .mapRequest w x => s.mapRequest w x
  | .motion beyondSnap =>
      if !(s.client c).isfloating && (s.mon s.selmon).arranges && beyondSnap
      then s.toggleFloating
      else s

/-- The effect of `movemouse` and of `resizemouse`. -/
def drag (s : Wm) (d : Drag) : Wm :=
  match (s.mon s.selmon).sel with
  | none => s
  | some c =>
      if (s.client c).isfullscreen || !d.grabbed then s
      else
        let s := d.steps.foldl (dragStep c) s
        let i := s.rectToMon d.rect
        if i = s.selmon then s
        else { s.sendMon c i with selmon := i }.focus none

def moveMouse (s : Wm) (d : Drag) : Wm := s.drag d

def resizeMouse (s : Wm) (d : Drag) : Wm := s.drag d

end Pointer

section Handlers

/-- A bound function and its argument; `spawn` and `killclient` only start a
process and only ask the client. -/
def command (s : Wm) : Command → Wm
  | .focusstack i => s.focusStack i
  | .movestack i => s.moveStack i
  | .zoom => s.zoom
  | .view ui => s.view ui
  | .toggleview ui => s.toggleView ui
  | .tag ui => s.tag ui
  | .toggletag ui => s.toggleTag ui
  | .focusmon i => s.focusMon i
  | .tagmon i => s.tagMon i
  | .setlayout v => s.setLayout v
  | .incnmaster i => s.incNmaster i
  | .setmfact accepted => s.setMfact accepted
  | .setcfact accepted => s.setCfact accepted
  | .togglefloating => s.toggleFloating
  | .togglebar => s.toggleBar
  | .incrgaps i => s.incrGaps i
  | .incrigaps i => s.incriGaps i
  | .incrogaps i => s.incroGaps i
  | .incrohgaps i => s.incrohGaps i
  | .incrovgaps i => s.incrovGaps i
  | .incrihgaps i => s.incrihGaps i
  | .incrivgaps i => s.incrivGaps i
  | .togglegaps => s.toggleGaps
  | .defaultgaps => s.defaultGaps
  | .movemouse d => s.moveMouse d
  | .resizemouse d => s.resizeMouse d
  | .spawn => s
  | .killclient => s
  | .quit => { s with running := false }

/-- The functions bound to one key or button, one after another. -/
def runBound (s : Wm) : List Command → Wm
  | [] => s
  | cmd :: rest => if s.crashed then s else (s.command cmd).runBound rest

def buttonPress (s : Wm) (at_ : Target) (bound : List Command) : Wm :=
  let i := s.winToMon at_
  let s := if i ≠ s.selmon then { s with selmon := i }.focus none else s
  let s := match s.targetClient at_ with
    | some c => s.focus (some c)
    | none => s
  s.runBound bound

/-- The handler of an event. -/
def handle (s : Wm) : Event → Wm
  | .keyPress bound => s.runBound bound
  | .buttonPress at_ bound => s.buttonPress at_ bound
  | .clientMessageFullscreen w action =>
      match s.winToClient w with
      | none => s
      | some c => s.setFullscreen c
          (action = 1 ∨ action = 2 ∧ !(s.client c).isfullscreen)
  | .clientMessageActive w =>
      match s.winToClient w with
      | none => s
      | some c =>
          if some c = (s.mon s.selmon).sel then s
          else s.modClient c fun client => { client with isurgent := true }
  | .configureNotify g => s.configureNotify g
  | .destroyNotify w =>
      match s.winToClient w with
      | none => s
      | some c => s.unmanage c
  | .enterNotify passed at_ => s.enterNotify passed at_
  | .mapRequest w x => s.mapRequest w x
  | .motionNotify x y => s.motionNotify x y
  | .transientFor w parent =>
      match s.winToClient w with
      | none => s
      | some c =>
          if !(s.client c).isfloating && (parent.bind s.winToClient).isSome then
            (s.modClient c fun client =>
              { client with isfloating := true }).arrange (s.client c).mon
          else s
  | .windowType w fullscreen dialog =>
      match s.winToClient w with
      | none => s
      | some c => s.updateWindowType c fullscreen dialog
  | .wmHints w hints =>
      match s.winToClient w with
      | none => s
      | some c => s.modClient c
          (updateWmHints (some c = (s.mon s.selmon).sel) hints)
  | .normalHints w hints =>
      match s.winToClient w with
      | none => s
      -- dwm only marks the hints as old here; a later `applysizehints` rereads
      -- them, and with them `isfixed`.
      | some c => s.modClient c (updateSizeHints hints)
  | .unmapNotify w sendEvent =>
      match s.winToClient w with
      | none => s
      | some c => if sendEvent then s else s.unmanage c

/-- The event loop of `run`. -/
def step (s : Wm) (event : Event) : Wm :=
  if s.running && !s.crashed then s.handle event else s

/-- The state that `setup` leaves, before any window is managed. -/
def setup (bh : Int) (g : Geometry) : Wm :=
  let s : Wm := {
    mon := fun _ => createMon
    monCount := 0
    selmon := 0
    client := fun _ => { mon := 0 }
    netClientList := []
    shown := fun _ => false
    enablegaps := true
    pointed := none
    sw := g.width
    sh := g.height
    bh := bh
    running := true
    crashed := false }
  (s.updateGeom g).1.focus none

end Handlers

end Wm

def machine : Machine Wm Event where
  next := Wm.step

end Dwm

end Bodhi
