/-
The runs of st: characters are printed, the window changes its size, the user
looks back and writes something.
-/
import Bodhi.TerminalSafety

namespace Bodhi

namespace St

/-- The sizes of a window are those of its pixels at most, which X counts in 16
bits. -/
inductive Event
  | put (u : Nat)
  | resize (col row : UInt16)
  | scrollUp (page : Bool)
  | scrollDown (page : Bool)
  | input (s : List UInt8) (mayEcho : Bool)

/-- The arguments of `kscrollup` and `kscrolldown` in `config.h`. -/
def scrollArg (page : Bool) : Int := if page then -1 else 1

/-- `cresize` asks for one cell at least. -/
def Event.step (host : Host) (t : Term) : Event → Option Term
  | .put u => t.tputc host u
  | .resize col row => t.tresize (max 1 col.toNat) (max 1 row.toNat)
  | .scrollUp page => some (t.kscrollup (scrollArg page))
  | .scrollDown page => some (t.kscrolldown (scrollArg page))
  | .input s mayEcho =>
      if mayEcho then t.ttywrite host (Term.tputc host) s else t.answer host s

/-- Where a step reaches outside an array, overflows or reads while it writes,
the run has no state any more. -/
def terminal (host : Host) : Machine (Option Term) Event where
  next t event := t.bind fun t => event.step host t

/-- The window that st starts with. -/
def opened (col row : UInt16) : Term :=
  Term.tnew (max 1 col.toNat) (max 1 row.toNat)

/-- The steps of a tame run: gentle characters, resizes that leave the alternate
screen alone and have room for the lines that flow, and input that is not
echoed. -/
def Event.Tame (care : Care) (t : Option Term) : Event → Prop
  | .put u => ∀ s ∈ t, s.Gentle care u
  | .resize col row => ∀ s ∈ t,
      s.col = max 1 col.toNat ∧ s.row = max 1 row.toNat ∨
        s.mode.altscreen = false ∧ s.Roomy (max 1 col.toNat) (max 1 row.toNat)
  | .scrollUp _ => True
  | .scrollDown _ => True
  | .input _ mayEcho => mayEcho = true → ∀ s ∈ t, s.mode.echo = false

/-- `ttyread`: the characters of a chunk go to `tputc`, the bytes of one that is
not complete wait for the next chunk. -/
def ttyread (host : Host) : Machine (Option Term × List UInt8) (List UInt8) :=
  reader (fun t => t.any (·.mode.utf8)) fun t u => t.bind (·.tputc host u)

/-- However its output is cut into chunks, a program leaves the same terminal
and the same bytes that wait, too few to fill the buffer. -/
theorem ttyread_chunks (host : Host) (t : Option Term)
    {chunks chunks' : List (List UInt8)}
    (h : chunks.flatten = chunks'.flatten) :
    (ttyread host).after (t, []) chunks = (ttyread host).after (t, []) chunks' ∧
      ((ttyread host).after (t, []) chunks).2.length < utfSiz := by
  obtain ⟨heq, hsize⟩ := reader_after (fun t : Option Term =>
    t.any (·.mode.utf8)) (fun t u => t.bind (·.tputc host u)) t chunks
  obtain ⟨heq', _⟩ := reader_after (fun t : Option Term =>
    t.any (·.mode.utf8)) (fun t u => t.bind (·.tputc host u)) t chunks'
  exact ⟨by rw [ttyread, heq, heq', h], hsize⟩

/-- A host with narrow characters and no colours, which takes every answer. -/
def plainHost : Host where
  wcwidth _ := 1
  xgetcolor _ _ := none
  takes _ _ := true
  allowaltscreen := true

theorem ttyread_chunks_split :
    (ttyread plainHost).after (some (opened 80 24), []) [[0xe2, 0x82], [0xac]] =
        (ttyread plainHost).after (some (opened 80 24), [])
          [[0xe2], [0x82, 0xac]] ∧
      ((ttyread plainHost).after (some (opened 80 24), [])
        [[0xe2, 0x82], [0xac]]).2.length < utfSiz :=
  ttyread_chunks plainHost (some (opened 80 24)) rfl

section Runs

variable {care : Care}

theorem size_lt (col row : UInt16) :
    max (max 1 row.toNat) (max 1 col.toNat) < 2 ^ 16 := by
  have hcol := col.toNat_lt
  have hrow := row.toNat_lt
  omega

theorem opened_inBounds (care : Care) (col row : UInt16) :
    (opened col row).InBounds care :=
  Term.tnew_inBounds (by omega) (by omega) (size_lt col row)

theorem step_yields {t : Term} (h : t.InBounds care) (event : Event)
    (htame : care.tame → event.Tame care (some t)) :
    Yields care.tame (Term.InBounds care) (event.step care.host t) := by
  cases event with
  | put u => exact h.tputc fun hn => htame hn t rfl
  | resize col row =>
      have hcol : 0 < max 1 col.toNat := by omega
      have hrow : 0 < max 1 row.toNat := by omega
      have hsize := size_lt col row
      have hkind := fun hn => htame hn t rfl
      refine ⟨fun t' ht => ?_, fun hn => ?_⟩
      · exact h.tresize hcol hrow hsize
          (fun hn => (hkind hn).symm.imp_left And.left) ht
      · exact Term.tresize_isSome hn h hcol hrow hsize fun _ =>
          (hkind hn).imp_right And.right
  | scrollUp page => exact yields_some (h.kscrollup _)
  | scrollDown page => exact yields_some (h.kscrolldown _)
  | input s mayEcho =>
      refine yields_ite (fun hecho => ?_) fun _ => h.answer s
      refine h.ttywrite (fun hn => htame hn hecho t rfl) (fun hwild s u hs => ?_) s
      exact (hs.tputc fun hn => absurd hn hwild).holds

/-- What one step keeps, a run keeps. -/
theorem terminal_yields (care : Care) {t : Option Term}
    (h : Yields care.tame (Term.InBounds care) t) {events : List Event}
    (htame : care.tame →
      (terminal care.host).Throughout (Event.Tame care) t events) :
    (terminal care.host).Always (Yields care.tame (Term.InBounds care)) t
      events := by
  induction events generalizing t with
  | nil => exact h
  | cons event rest ih =>
      refine ⟨h, ih ?_ fun hn => (htame hn).2⟩
      cases t with
      | none => exact yields_none _ fun hn => absurd (h.isSome hn) Bool.false_ne_true
      | some s => exact step_yields (h.holds s rfl) event fun hn => (htame hn).1

/-- Whatever is printed and whatever the sizes of the window are, in every state
of every run the arrays of st fit the sizes that it keeps for them, and the
cursor and the scrolling region lie on the screen. -/
theorem terminal_inBounds (host : Host) (col row : UInt16)
    (events : List Event) :
    (terminal host).Always
      (fun t => ∀ s ∈ t, s.InBounds ⟨host, False, fun hn => hn.elim⟩)
      (some (opened col row)) events := by
  refine (terminal_yields ⟨host, False, fun hn => hn.elim⟩
    (yields_some (opened_inBounds _ col row)) fun hn => hn.elim).mono ?_
  exact fun t h s hs => h.holds s hs

end Runs

end St

end Bodhi
