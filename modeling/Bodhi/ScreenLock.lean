/-
The password loop of slock.  Keys edit a fixed array of bytes; Return hands the
array to `crypt`, and the loop ends when the hash agrees or when the pointer
moves soon after locking.  The loop is compared with a prompt that knows no
array: a text, and whether it was accepted.
-/
import Mathlib.Data.List.Infix
import Bodhi.RunInvariant

namespace Bodhi

namespace Slock

inductive Color
  | init
  | input
  | failed
deriving Repr, DecidableEq

/-- `config.h`. -/
def failonclear : Bool := true

def timetocancel : Int := 3

def passwdSize : Nat := 256

def bufSize : Nat := 32

def xkBackSpace : Nat := 0xff08
def xkReturn : Nat := 0xff0d
def xkEscape : Nat := 0xff1b
def xkKpEnter : Nat := 0xff8d
def xkKp0 : Nat := 0xffb0
def xkKp9 : Nat := 0xffb9
def xk0 : Nat := 0x30

/-- The classes of keysyms as Xlib defines them. -/
def isKeypadKey (ksym : Nat) : Bool := 0xff80 ≤ ksym && ksym ≤ 0xffbd

def isPrivateKeypadKey (ksym : Nat) : Bool :=
  0x11000000 ≤ ksym && ksym ≤ 0x1100ffff

def isPFKey (ksym : Nat) : Bool := 0xff91 ≤ ksym && ksym ≤ 0xff94

def isFunctionKey (ksym : Nat) : Bool := 0xffbe ≤ ksym && ksym ≤ 0xffe0

def isMiscFunctionKey (ksym : Nat) : Bool := 0xff60 ≤ ksym && ksym ≤ 0xff6b

/-- In the C locale, which slock never leaves. -/
def iscntrl (byte : UInt8) : Bool := byte < 32 || byte == 127

/-- What `XLookupString` tells of a key press: the keysym and the bytes it put
into `buf`. -/
structure Key where
  ksym : Nat
  text : List UInt8
  fits : text.length ≤ bufSize

inductive Input
  | keyPress (key : Key)
  | motionNotify
  | screenChange (window width height : Nat) (quarter : Bool)
  | other

/-- An event and the seconds since the screen was locked. -/
structure Event where
  elapsed : Int
  input : Input

/-- A screen under its window and the colour of the logo on it. -/
structure Lock where
  win : Nat
  width : Nat
  height : Nat
  color : Color
deriving Repr, DecidableEq

structure State where
  passwd : List UInt8
  len : Nat
  failure : Bool
  oldc : Color
  running : Bool
  bells : Nat
  locks : List Lock
deriving Repr, DecidableEq

/-- `lockscreen` draws the first logo. -/
def lockscreen (screen : Nat × Nat × Nat) : Lock :=
  ⟨screen.1, screen.2.1, screen.2.2, .init⟩

/-- The array starts with whatever the stack held. -/
def start (passwd : Vector UInt8 passwdSize)
    (screens : List (Nat × Nat × Nat)) : State :=
  ⟨passwd.toList, 0, false, .init, true, 0, screens.map lockscreen⟩

/-- A write into the array; one that leaves it is not defined. -/
def store (array : List UInt8) (position : Nat) (bytes : List UInt8) :
    Option (List UInt8) :=
  if position + bytes.length ≤ array.length then
    some (array.take position ++ bytes ++
      array.drop (position + bytes.length))
  else
    none

/-- The string that starts an array, for as far as its first zero byte; without
one the read would leave the array. -/
def cString (array : List UInt8) : Option (List UInt8) :=
  if array.contains 0 then some (array.takeWhile (· != 0)) else none

def wipe (array : List UInt8) : List UInt8 :=
  List.replicate array.length 0

/-- Keys of the keypad stand for those of the main block. -/
def keypad (ksym : Nat) : Nat :=
  if isKeypadKey ksym then
    if ksym = xkKpEnter then xkReturn
    else if xkKp0 ≤ ksym && ksym ≤ xkKp9 then ksym - xkKp0 + xk0
    else ksym
  else ksym

def skipped (ksym : Nat) : Bool :=
  isFunctionKey ksym || isKeypadKey ksym || isMiscFunctionKey ksym ||
    isPFKey ksym || isPrivateKeypadKey ksym

section Loop

variable (crypt : List UInt8 → Option (List UInt8)) (hash : List UInt8)

/-- Whether the loop goes on after a text; without a hash of it, it does. -/
def refuses (s : State) (typed : List UInt8) : Bool :=
  match crypt typed with
  | none => s.running
  | some inputhash => inputhash != hash

/-- `case XK_Return` of the loop. -/
def enter (s : State) : Option State := do
  let passwd ← store s.passwd s.len [0]
  let typed ← cString passwd
  let running := refuses crypt hash s typed
  some { s with
    passwd := wipe passwd
    len := 0
    running
    bells := if running then s.bells + 1 else s.bells
    failure := s.failure || running }

/-- The `switch` of the loop. -/
def edit (s : State) (ksym : Nat) (key : Key) : Option State :=
  if ksym = xkReturn then
    enter crypt hash s
  else if ksym = xkEscape then
    some { s with passwd := wipe s.passwd, len := 0 }
  else if ksym = xkBackSpace then
    if s.len ≠ 0 then do
      let passwd ← store s.passwd (s.len - 1) [0]
      some { s with passwd, len := s.len - 1 }
    else
      some s
  else
    match key.text with
    | [] => some s
    | first :: _ =>
        if !iscntrl first && s.len + key.text.length < passwdSize then do
          let passwd ← store s.passwd s.len key.text
          some { s with passwd, len := s.len + key.text.length }
        else
          some s

/-- The colour that the loop computes after a key. -/
def State.color (s : State) : Color :=
  if s.len ≠ 0 then .input
  else if s.failure || failonclear then .failed
  else .init

def redraw (s : State) : State :=
  if s.running && s.oldc != s.color then
    { s with
      locks := s.locks.map fun lock => { lock with color := s.color }
      oldc := s.color }
  else
    s

def keyPress (s : State) (key : Key) : Option State :=
  let ksym := keypad key.ksym
  if skipped ksym then
    some s
  else
    (edit crypt hash s ksym key).map redraw

/-- The first screen with the window is resized. -/
def screenChange (locks : List Lock) (window width height : Nat)
    (quarter : Bool) : List Lock :=
  match locks with
  | [] => []
  | lock :: rest =>
      if lock.win = window then
        (if quarter then { lock with width := height, height := width }
          else { lock with width, height }) :: rest
      else
        lock :: screenChange rest window width height quarter

/-- The body of the loop. -/
def body (s : State) (event : Event) : Option State :=
  match event.input with
  | .keyPress key => keyPress crypt hash { s with running := true } key
  | .motionNotify =>
      some { s with running := !(event.elapsed < timetocancel) }
  | .screenChange window width height quarter =>
      some { s with
        running := true
        locks := screenChange s.locks window width height quarter }
  | .other => some { s with running := true }

/-- `readpw`; events that come when the loop has ended are not taken. -/
def readpw : Machine (Option State) Event where
  next state event := state.bind fun s =>
    if s.running then body crypt hash s event else some s

end Loop

/-- What a key asks of a prompt. -/
inductive Action
  | submit
  | clear
  | erase
  | put (bytes : List UInt8)
  | nothing
deriving Repr, DecidableEq

/-- A key that the loop takes. -/
def Key.action (key : Key) : Action :=
  let ksym := keypad key.ksym
  if ksym = xkReturn then .submit
  else if ksym = xkEscape then .clear
  else if ksym = xkBackSpace then .erase
  else
    match key.text with
    | [] => .nothing
    | first :: _ => if iscntrl first then .nothing else .put key.text

/-- What an event asks of the prompt, if it is a key that is not skipped. -/
def Event.action? (event : Event) : Option Action :=
  match event.input with
  | .keyPress key => if skipped (keypad key.ksym) then none else some key.action
  | _ => none

def edited (typed : List UInt8) : Action → List UInt8
  | .submit => []
  | .clear => []
  | .erase => typed.dropLast
  | .put bytes =>
      if typed.length + bytes.length < passwdSize then typed ++ bytes else typed
  | .nothing => typed

/-- The text that a run of events leaves in the prompt. -/
def typed (events : List Event) : List UInt8 :=
  (events.filterMap Event.action?).foldl edited []

/-- A prompt: its text, whether it was accepted, whether a key was taken, and
whether a text was taken away as a whole. -/
structure Prompt where
  typed : List UInt8
  opened : Bool
  touched : Bool
  cleared : Bool
deriving Repr, DecidableEq

def Prompt.color (p : Prompt) : Color :=
  if p.typed ≠ [] then .input else if p.touched then .failed else .init

section Prompt

variable (crypt : List UInt8 → Option (List UInt8)) (hash : List UInt8)

/-- The events that end the loop. -/
def opens (typed : List UInt8) (event : Event) : Bool :=
  match event.input with
  | .motionNotify => event.elapsed < timetocancel
  | _ => event.action? = some .submit &&
      crypt (typed.takeWhile (· != 0)) = some hash

def Prompt.answer (p : Prompt) (event : Event) : Prompt :=
  let opened := opens crypt hash p.typed event
  match event.action? with
  | none => { p with opened }
  | some action =>
      { typed := edited p.typed action
        opened
        touched := true
        cleared := p.cleared || action == .submit || action == .clear }

def Prompt.start : Prompt := ⟨[], false, false, false⟩

def prompt : Machine Prompt Event where
  next p event := if p.opened then p else p.answer crypt hash event

end Prompt

section Array

/-- A text in front of the rest of the array; the rest is never empty, so that
a string in the array has its end. -/
structure State.Holds (s : State) (typed rest : List UInt8) : Prop where
  passwd : s.passwd = typed ++ rest
  len : s.len = typed.length
  size : typed.length + rest.length = passwdSize
  room : rest ≠ []

theorem State.Holds.of_eq {s t : State} {typed rest : List UInt8}
    (h : s.Holds typed rest) (hpasswd : t.passwd = s.passwd)
    (hlen : t.len = s.len) : t.Holds typed rest :=
  ⟨hpasswd.trans h.passwd, hlen.trans h.len, h.size, h.room⟩

theorem store_append (typed : List UInt8) {rest bytes : List UInt8}
    (hfits : bytes.length ≤ rest.length) :
    store (typed ++ rest) typed.length bytes =
      some (typed ++ (bytes ++ rest.drop bytes.length)) := by
  have hbound : typed.length + bytes.length ≤ (typed ++ rest).length := by
    rw [List.length_append]
    omega
  rw [store, if_pos hbound, List.take_left, List.append_assoc,
    List.drop_append]
  simp

theorem cString_append (typed rest : List UInt8) :
    cString (typed ++ 0 :: rest) = some (typed.takeWhile (· != 0)) := by
  have hzero : (typed ++ 0 :: rest).contains 0 := by simp
  rw [cString, if_pos hzero]
  congr 1
  induction typed with
  | nil => rfl
  | cons byte bytes ih =>
      rw [List.cons_append, List.takeWhile_cons, List.takeWhile_cons]
      split
      · rw [ih (by simp)]
      · rfl

variable {s : State} {typed rest : List UInt8}

/-- The array wiped holds the empty text. -/
theorem State.Holds.wipe (h : s.Holds typed rest) {t : State}
    (hpasswd : t.passwd = wipe s.passwd) (hlen : t.len = 0) :
    t.Holds [] (List.replicate passwdSize 0) := by
  refine ⟨?_, hlen, by simp, by decide⟩
  rw [hpasswd, Slock.wipe, h.passwd, List.length_append, h.size]
  rfl

/-- What one turn of the `switch` does: the text changes as the prompt's does,
zeros in the rest stay, and only a submitted text ends the loop. -/
structure Follows (crypt : List UInt8 → Option (List UInt8))
    (hash : List UInt8) (s t : State) (typed rest : List UInt8)
    (action : Action) : Prop where
  oldc : t.oldc = s.oldc
  locks : t.locks = s.locks
  running : t.running = !(action = .submit &&
    crypt (typed.takeWhile (· != 0)) = some hash)
  holds : ∃ later, t.Holds (edited typed action) later ∧
    ((∀ byte ∈ rest, byte = 0) ∨ action = .submit ∨ action = .clear →
      ∀ byte ∈ later, byte = 0)

variable {crypt : List UInt8 → Option (List UInt8)} {hash : List UInt8}

theorem enter_follows (h : s.Holds typed rest) (hrun : s.running = true) :
    ∃ t, enter crypt hash s = some t ∧
      Follows crypt hash s t typed rest .submit := by
  obtain ⟨byte, others, rfl⟩ := List.exists_cons_of_ne_nil h.room
  have hstore : store s.passwd s.len [0] = some (typed ++ 0 :: others) := by
    rw [h.passwd, h.len, store_append _ (by simp)]
    rfl
  have hwipe : wipe (typed ++ 0 :: others) = wipe s.passwd := by
    simp [wipe, h.passwd]
  simp only [enter, hstore, Option.bind_eq_bind, Option.bind_some,
    cString_append]
  refine ⟨_, rfl, rfl, rfl, ?_, _, h.wipe hwipe rfl, ?_⟩
  · unfold refuses
    cases crypt (typed.takeWhile (· != 0)) with
    | none => simpa using hrun
    | some inputhash => simp [bne, beq_eq_decide]
  · exact fun _ byte hbyte => List.eq_of_mem_replicate hbyte

/-- A turn of the `switch` that asks for nothing. -/
theorem follows_self (h : s.Holds typed rest) (hrun : s.running = true)
    {action : Action} (hsame : edited typed action = typed)
    (hsubmit : action ≠ .submit) (hclear : action ≠ .clear) :
    Follows crypt hash s s typed rest action := by
  refine ⟨rfl, rfl, by simpa [hsubmit] using hrun, rest, hsame.symm ▸ h, ?_⟩
  rintro (hzero | hact | hact)
  · exact hzero
  · exact absurd hact hsubmit
  · exact absurd hact hclear

theorem erase_follows (h : s.Holds typed rest) (hrun : s.running = true)
    (hlen : s.len ≠ 0) :
    ∃ passwd, store s.passwd (s.len - 1) [0] = some passwd ∧
      Follows crypt hash s { s with passwd, len := s.len - 1 } typed rest
        .erase := by
  have htyped : typed ≠ [] := fun hnil => hlen (by rw [h.len, hnil]; rfl)
  obtain ⟨front, last, rfl⟩ :=
    (List.eq_nil_or_concat' typed).resolve_left htyped
  have hcount : s.len - 1 = front.length := by
    rw [h.len, List.length_append]
    rfl
  have hstore : store s.passwd (s.len - 1) [0] =
      some (front ++ 0 :: rest) := by
    rw [h.passwd, hcount, List.append_assoc, store_append _ (by simp)]
    rfl
  refine ⟨_, hstore, rfl, rfl, by simpa using hrun, 0 :: rest, ⟨?_, ?_, ?_, ?_⟩,
    ?_⟩
  · simp [edited]
  · simpa [edited] using hcount
  · have hsize := h.size
    simp only [edited, List.dropLast_concat, List.length_append,
      List.length_cons, List.length_nil] at hsize ⊢
    omega
  · exact List.cons_ne_nil 0 rest
  · rintro (hzero | hact | hact)
    · exact List.forall_mem_cons.2 ⟨rfl, hzero⟩
    · cases hact
    · cases hact

theorem put_follows (h : s.Holds typed rest) (hrun : s.running = true)
    {bytes : List UInt8} (hfits : s.len + bytes.length < passwdSize) :
    ∃ passwd, store s.passwd s.len bytes = some passwd ∧
      Follows crypt hash s { s with passwd, len := s.len + bytes.length } typed
        rest (.put bytes) := by
  have hsize := h.size
  have hrest : bytes.length < rest.length := by
    rw [h.len] at hfits
    omega
  have hstore := store_append typed hrest.le
  rw [← h.passwd, ← h.len] at hstore
  have htyped : edited typed (.put bytes) = typed ++ bytes :=
    if_pos (h.len ▸ hfits)
  refine ⟨_, hstore, rfl, rfl, by simpa using hrun, rest.drop bytes.length,
    ⟨?_, ?_, ?_, ?_⟩, ?_⟩
  · rw [htyped, List.append_assoc]
  · rw [htyped, List.length_append, ← h.len]
  · rw [htyped, List.length_append, List.length_drop]
    omega
  · intro hnil
    have hlength := congrArg List.length hnil
    rw [List.length_drop, List.length_nil] at hlength
    omega
  · rintro (hzero | hact | hact)
    · exact fun byte hbyte => hzero byte (List.mem_of_mem_drop hbyte)
    · cases hact
    · cases hact

variable (crypt hash)

/-- The `switch` never writes outside the array. -/
theorem edit_follows (h : s.Holds typed rest) (hrun : s.running = true)
    (key : Key) :
    ∃ t, edit crypt hash s (keypad key.ksym) key = some t ∧
      Follows crypt hash s t typed rest key.action := by
  unfold edit Key.action
  dsimp only
  by_cases hreturn : keypad key.ksym = xkReturn
  · rw [if_pos hreturn, if_pos hreturn]
    exact enter_follows h hrun
  rw [if_neg hreturn, if_neg hreturn]
  by_cases hescape : keypad key.ksym = xkEscape
  · rw [if_pos hescape, if_pos hescape]
    refine ⟨_, rfl, rfl, rfl, by simpa using hrun, _, h.wipe rfl rfl, ?_⟩
    exact fun _ byte hbyte => List.eq_of_mem_replicate hbyte
  rw [if_neg hescape, if_neg hescape]
  by_cases hback : keypad key.ksym = xkBackSpace
  · rw [if_pos hback, if_pos hback]
    by_cases hlen : s.len ≠ 0
    · obtain ⟨passwd, hstore, hfollows⟩ := erase_follows h hrun hlen
      rw [if_pos hlen, hstore]
      exact ⟨_, rfl, hfollows⟩
    · rw [if_neg hlen]
      have hnil : typed = [] :=
        List.length_eq_zero_iff.1 (h.len ▸ not_not.1 hlen)
      exact ⟨s, rfl, follows_self h hrun (by rw [hnil]; rfl) (by simp) (by simp)⟩
  rw [if_neg hback, if_neg hback]
  cases htext : key.text with
  | nil => exact ⟨s, rfl, follows_self h hrun rfl (by simp) (by simp)⟩
  | cons first others =>
      dsimp only
      by_cases hcntrl : iscntrl first = true
      · rw [hcntrl, if_pos rfl]
        exact ⟨s, rfl, follows_self h hrun rfl (by simp) (by simp)⟩
      · rw [Bool.not_eq_true] at hcntrl
        rw [hcntrl]
        by_cases hfits : s.len + (first :: others).length < passwdSize
        · obtain ⟨passwd, hstore, hfollows⟩ := put_follows h hrun hfits
          rw [if_pos (by simpa using hfits), hstore]
          exact ⟨_, rfl, hfollows⟩
        · rw [if_neg (by simpa using hfits)]
          have hsame : edited typed (.put (first :: others)) = typed :=
            if_neg (h.len ▸ hfits)
          exact ⟨s, rfl, follows_self h hrun hsame (by simp) (by simp)⟩

end Array

section Runs

variable {crypt : List UInt8 → Option (List UInt8)} {hash : List UInt8}

/-- The loop is where the prompt is: its array starts with the text and, once a
text was taken away, holds nothing else; every screen has the colour for it. -/
structure State.Shows (s : State) (p : Prompt) : Prop where
  holds : ∃ rest, s.Holds p.typed rest ∧
    (p.cleared → ∀ byte ∈ rest, byte = 0)
  running : s.running = !p.opened
  oldc : p.opened = false → s.oldc = p.color
  locks : ∀ lock ∈ s.locks, lock.color = s.oldc

theorem start_shows (passwd : Vector UInt8 passwdSize)
    (screens : List (Nat × Nat × Nat)) :
    (start passwd screens).Shows Prompt.start := by
  refine ⟨⟨passwd.toList, ⟨rfl, rfl, ?_, ?_⟩, nofun⟩, rfl, fun _ => rfl, ?_⟩
  · simp [Prompt.start]
  · refine List.ne_nil_of_length_pos ?_
    rw [Vector.length_toList]
    decide
  · intro lock hlock
    obtain ⟨screen, _, rfl⟩ := List.mem_map.1 hlock
    rfl

/-- After a key the loop draws what the prompt shows, unless it has ended. -/
theorem redraw_color {s : State} (hlocks : ∀ lock ∈ s.locks, lock.color = s.oldc) :
    (s.running = true → (redraw s).oldc = s.color) ∧
      ∀ lock ∈ (redraw s).locks, lock.color = (redraw s).oldc := by
  unfold redraw
  split
  · refine ⟨fun _ => rfl, fun lock hlock => ?_⟩
    obtain ⟨old, _, rfl⟩ := List.mem_map.1 hlock
    rfl
  · next hsame =>
      refine ⟨fun hrun => ?_, hlocks⟩
      simpa [hrun] using hsame

theorem redraw_keeps (s : State) :
    (redraw s).passwd = s.passwd ∧ (redraw s).len = s.len ∧
      (redraw s).running = s.running := by
  unfold redraw
  split <;> exact ⟨rfl, rfl, rfl⟩

theorem screenChange_color {locks : List Lock} {color : Color}
    (h : ∀ lock ∈ locks, lock.color = color) (window width height : Nat)
    (quarter : Bool) :
    ∀ lock ∈ screenChange locks window width height quarter,
      lock.color = color := by
  induction locks with
  | nil => exact h
  | cons first rest ih =>
      obtain ⟨hfirst, hrest⟩ := List.forall_mem_cons.1 h
      unfold screenChange
      split
      · refine List.forall_mem_cons.2 ⟨?_, hrest⟩
        split <;> exact hfirst
      · exact List.forall_mem_cons.2 ⟨hfirst, ih hrest⟩

theorem answer_skipped (p : Prompt) {key : Key} (elapsed : Int)
    (hskip : skipped (keypad key.ksym) = true) :
    p.answer crypt hash ⟨elapsed, .keyPress key⟩ = { p with opened := false } := by
  have haction : Event.action? ⟨elapsed, .keyPress key⟩ = none := if_pos hskip
  simp [Prompt.answer, opens, haction]

theorem answer_key (p : Prompt) {key : Key} (elapsed : Int)
    (hskip : ¬ skipped (keypad key.ksym) = true) :
    p.answer crypt hash ⟨elapsed, .keyPress key⟩ =
      { typed := edited p.typed key.action
        opened := key.action = .submit &&
          crypt (p.typed.takeWhile (· != 0)) = some hash
        touched := true
        cleared := p.cleared || key.action == .submit ||
          key.action == .clear } := by
  have haction : Event.action? ⟨elapsed, .keyPress key⟩ = some key.action :=
    if_neg hskip
  simp [Prompt.answer, opens, haction]

theorem keyPress_shows {s : State} {p : Prompt} (h : s.Shows p)
    (hclosed : p.opened = false) (key : Key) (elapsed : Int) :
    ∃ t, keyPress crypt hash s key = some t ∧
      t.Shows (p.answer crypt hash ⟨elapsed, .keyPress key⟩) := by
  have hrun : s.running = true := by rw [h.running, hclosed]; rfl
  unfold keyPress
  dsimp only
  by_cases hskip : skipped (keypad key.ksym) = true
  · rw [if_pos hskip, answer_skipped p elapsed hskip]
    exact ⟨s, rfl, h.holds, hrun, fun _ => h.oldc hclosed, h.locks⟩
  rw [if_neg hskip, answer_key p elapsed hskip]
  obtain ⟨rest, hholds, hzero⟩ := h.holds
  obtain ⟨t, hedit, hfollows⟩ := edit_follows crypt hash hholds hrun key
  have hlocks : ∀ lock ∈ t.locks, lock.color = t.oldc := by
    rw [hfollows.locks, hfollows.oldc]
    exact h.locks
  obtain ⟨hcolor, hshown⟩ := redraw_color hlocks
  obtain ⟨hpasswd, hlen, hrunning⟩ := redraw_keeps t
  obtain ⟨later, hlater, hlast⟩ := hfollows.holds
  rw [hedit]
  refine ⟨redraw t, rfl, ⟨later, hlater.of_eq hpasswd hlen,
    fun hcleared => hlast ?_⟩, ?_, fun hopen => ?_, hshown⟩
  · simp only [Bool.or_eq_true, beq_iff_eq, or_assoc] at hcleared
    exact hcleared.imp_left hzero
  · rw [hrunning, hfollows.running]
  · have hgoes : t.running = true := by
      rw [hfollows.running]
      exact congrArg not hopen
    rw [hcolor hgoes]
    simp only [State.color, Prompt.color, hlater.len, failonclear, ne_eq,
      List.length_eq_zero_iff, Bool.or_true, if_true]

theorem body_shows {s : State} {p : Prompt} (h : s.Shows p)
    (hclosed : p.opened = false) (event : Event) :
    ∃ t, body crypt hash s event = some t ∧
      t.Shows (p.answer crypt hash event) := by
  have hrun : s.running = true := by rw [h.running, hclosed]; rfl
  obtain ⟨rest, hholds, hzero⟩ := h.holds
  obtain ⟨elapsed, input⟩ := event
  cases input with
  | keyPress key =>
      have hsame : ({ s with running := true } : State) = s := by
        rw [← hrun]
      unfold body
      dsimp only
      rw [hsame]
      exact keyPress_shows h hclosed key elapsed
  | motionNotify =>
      exact ⟨_, rfl, ⟨rest, hholds.of_eq rfl rfl, hzero⟩, rfl, fun _ => h.oldc hclosed, h.locks⟩
  | screenChange window width height quarter =>
      exact ⟨_, rfl, ⟨rest, hholds.of_eq rfl rfl, hzero⟩, rfl, fun _ => h.oldc hclosed,
        screenChange_color h.locks window width height quarter⟩
  | other =>
      exact ⟨_, rfl, ⟨rest, hholds.of_eq rfl rfl, hzero⟩, rfl, fun _ => h.oldc hclosed, h.locks⟩

variable (crypt hash)

/-- Whatever is typed, the loop stays within its array and shows the prompt. -/
theorem readpw_prompt (passwd : Vector UInt8 passwdSize)
    (screens : List (Nat × Nat × Nat)) (events : List Event) :
    ∃ s, (readpw crypt hash).after (some (start passwd screens)) events =
        some s ∧
      s.Shows ((prompt crypt hash).after Prompt.start events) := by
  refine Machine.after_related
    (R := fun state p => ∃ s : State, state = some s ∧ s.Shows p) ?_
    ⟨_, rfl, start_shows passwd screens⟩ events
  rintro _ p event ⟨s, rfl, h⟩
  change ∃ t, (if s.running then body crypt hash s event else some s) = some t ∧
    t.Shows (if p.opened then p else p.answer crypt hash event)
  cases hopened : p.opened with
  | true =>
      rw [h.running, hopened]
      exact ⟨s, rfl, h⟩
  | false =>
      rw [h.running, hopened]
      exact body_shows h hopened event

theorem answer_opened (p : Prompt) (event : Event) :
    (p.answer crypt hash event).opened = opens crypt hash p.typed event := by
  unfold Prompt.answer
  dsimp only
  split <;> rfl

theorem answer_typed (p : Prompt) (before : List Event) (event : Event)
    (h : p.typed = typed before) :
    (p.answer crypt hash event).typed = typed (before ++ [event]) := by
  unfold Prompt.answer typed
  rw [List.filterMap_append, List.foldl_append, ← typed, ← h]
  cases haction : event.action? with
  | none => simp [haction]
  | some action => simp [haction]

/-- The prompt is open after a run exactly if an event of the run opens the
text typed before it; until then it holds that text. -/
theorem prompt_after (events : List Event) :
    (((prompt crypt hash).after Prompt.start events).opened = false →
        ((prompt crypt hash).after Prompt.start events).typed = typed events) ∧
      (((prompt crypt hash).after Prompt.start events).opened = true ↔
        ∃ before event, before ++ [event] <+: events ∧
          opens crypt hash (typed before) event) := by
  induction events using List.reverseRecOn with
  | nil =>
      refine ⟨fun _ => rfl, nofun, ?_⟩
      rintro ⟨before, event, hprefix, _⟩
      have hnil := List.prefix_nil.1 hprefix
      exact absurd hnil (by simp)
  | append_singleton front event ih =>
      obtain ⟨htyped, hopened⟩ := ih
      rw [Machine.after_append, Machine.after_cons, Machine.after_nil]
      generalize (prompt crypt hash).after Prompt.start front = p at htyped hopened
      have hnext : (prompt crypt hash).next p event =
          if p.opened then p else p.answer crypt hash event := rfl
      rw [hnext]
      cases hp : p.opened with
      | true =>
          rw [if_pos rfl, hp]
          obtain ⟨before, last, hprefix, hopens⟩ := hopened.1 hp
          refine ⟨nofun, fun _ => ⟨before, last, ?_, hopens⟩, fun _ => rfl⟩
          exact hprefix.trans (List.prefix_append front [event])
      | false =>
          have hsame := htyped hp
          rw [if_neg Bool.false_ne_true]
          refine ⟨fun _ => answer_typed crypt hash p front event hsame, ?_⟩
          rw [answer_opened, hsame]
          refine ⟨fun h => ⟨front, event, List.prefix_rfl, h⟩, ?_⟩
          rintro ⟨before, last, hprefix, hopens⟩
          rcases List.prefix_concat_iff.1 hprefix with heq | hearlier
          · obtain ⟨rfl, hlast⟩ := List.append_inj' heq rfl
            obtain rfl := List.singleton_inj.1 hlast
            exact hopens
          · have hp' := hopened.2 ⟨before, last, hearlier, hopens⟩
            rw [hp] at hp'
            cases hp'

/-- The screen is unlocked exactly if a text typed and submitted has the hash,
or the pointer moves within `timetocancel`; no other event ends the loop. -/
theorem readpw_unlocks_iff (passwd : Vector UInt8 passwdSize)
    (screens : List (Nat × Nat × Nat)) (events : List Event) :
    ∃ s, (readpw crypt hash).after (some (start passwd screens)) events =
        some s ∧
      (s.running = false ↔ ∃ before event, before ++ [event] <+: events ∧
        opens crypt hash (typed before) event) := by
  obtain ⟨s, hafter, hshows⟩ := readpw_prompt crypt hash passwd screens events
  refine ⟨s, hafter, ?_⟩
  rw [← (prompt_after crypt hash events).2, hshows.running]
  cases ((prompt crypt hash).after Prompt.start events).opened <;> simp

/-- The array starts with the text of the prompt and keeps nothing of a text
that was taken away as a whole; while the screen is locked its colour tells
whether there is a text. -/
theorem readpw_holds (passwd : Vector UInt8 passwdSize)
    (screens : List (Nat × Nat × Nat)) (events : List Event) :
    let p := (prompt crypt hash).after Prompt.start events
    ∃ s, (readpw crypt hash).after (some (start passwd screens)) events =
        some s ∧
      (s.passwd.take s.len = p.typed ∧ s.len = p.typed.length ∧
        s.len < passwdSize) ∧
      (p.cleared → s.passwd =
        p.typed ++ List.replicate (passwdSize - s.len) 0) ∧
      (s.running = true → p.typed = typed events ∧
        ∀ lock ∈ s.locks, lock.color = p.color) := by
  intro p
  obtain ⟨s, hafter, hshows⟩ := readpw_prompt crypt hash passwd screens events
  obtain ⟨rest, hholds, hzero⟩ := hshows.holds
  have hroom := List.length_pos_of_ne_nil hholds.room
  have hsize := hholds.size
  refine ⟨s, hafter, ⟨?_, hholds.len, ?_⟩, fun hcleared => ?_, fun hrun => ?_⟩
  · rw [hholds.passwd, hholds.len, List.take_left]
  · rw [hholds.len]
    omega
  · have hcount : passwdSize - s.len = rest.length := by
      rw [hholds.len]
      omega
    rw [hholds.passwd, hcount, ← List.eq_replicate_of_mem (hzero hcleared)]
  · have hopen : p.opened = false := by
      have hrunning := hshows.running
      rw [hrun] at hrunning
      simpa using hrunning.symm
    refine ⟨(prompt_after crypt hash events).1 hopen, fun lock hlock => ?_⟩
    exact (hshows.locks lock hlock).trans (hshows.oldc hopen)

end Runs

end Slock

end Bodhi
