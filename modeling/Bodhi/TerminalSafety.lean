/-
Whatever st is given to print, the terminal stays within its arrays.  Where it
is given no wide character, no byte that its tables do not know and no number
that is out of all proportion, it never reaches outside them either.
-/
import Bodhi.TerminalSizes

namespace Bodhi

namespace St

/-- A CSI sequence whose numbers do not overflow, and whose sixteenth parameter
asks for no colour. -/
structure Moderate (csi : CsiEscape) : Prop where
  small : ∀ a ∈ csi.arg, -10 ^ 9 ≤ a ∧ a ≤ 10 ^ 9
  last : csi.arg.length = escArgSiz →
    csi.arg.getLast? ≠ some 38 ∧ csi.arg.getLast? ≠ some 48

/-- What a tame run puts: a plain character, with no echo to come while a string
is read; where it ends a CSI sequence, a moderate one. -/
structure Term.Gentle (care : Care) (t : Term) (u : Nat) : Prop where
  plain : care.plain u
  quiet : t.esc.str = true ∨ t.esc.strEnd = true → t.mode.echo = false
  moderate : let buf := t.csiescseq.buf ++ [UInt8.ofNat u]
    t.esc.start = true → t.esc.csi = true → csiEnds buf u = true →
      Moderate (csiparse { t.csiescseq with buf })

namespace Term

variable {care : Care} {t : Term}

section Numbers

/-- A sum that does not overflow is the sum. -/
theorem yields_inInt {safe : Prop} {v : Int}
    (h : safe → -intMax - 1 ≤ v ∧ v ≤ intMax) :
    Yields safe (· = v) (inInt v) :=
  ⟨fun _ heq => inInt_eq heq, fun hs => by rw [inInt_some (h hs)]; rfl⟩

/-- A parameter that is missing is 0, and 0 stands for the default. -/
theorem Moderate.parameter {csi : CsiEscape} (h : Moderate csi) (i : Nat)
    {b : Int} (hb : -10 ^ 9 ≤ b ∧ b ≤ 10 ^ 9) :
    -10 ^ 9 ≤ orDefault (csi.arg.getD i 0) b ∧
      orDefault (csi.arg.getD i 0) b ≤ 10 ^ 9 := by
  have harg : -10 ^ 9 ≤ csi.arg.getD i 0 ∧ csi.arg.getD i 0 ≤ 10 ^ 9 := by
    rw [List.getD_eq_getElem?_getD]
    cases hi : csi.arg[i]? with
    | none => exact ⟨by decide, by decide⟩
    | some a => exact h.small a (List.mem_of_getElem? hi)
  unfold orDefault
  split
  · exact hb
  · exact harg

end Numbers

section Lines

/-- A new line scrolls at the bottom of the region, and moves elsewhere. -/
theorem InBounds.tnewline (h : t.InBounds care) (firstCol : Bool) :
    Yields care.tame (InBounds care) (t.tnewline firstCol) := by
  unfold Term.tnewline
  refine yields_ite (fun _ => ?_) fun _ => yields_some (h.tmoveto _ _)
  exact (h.tscrollup h.bot 1 .savehist).map fun s hs => hs.tmoveto _ _

/-- A move relative to the scrolling region adds its top to the row. -/
theorem InBounds.tmoveato (h : t.InBounds care) (x : Int) {y : Int}
    (hy : care.tame → -10 ^ 9 - 1 ≤ y ∧ y ≤ 10 ^ 9) :
    Yields care.tame (InBounds care) (t.tmoveato x y) := by
  have hsize := h.frame.size
  have hregion := h.region
  have hbot := h.bot
  refine (yields_inInt fun hn => ?_).map fun v _ => h.tmoveto x v
  have hsmall := hy hn
  simp only [intMax] at *
  split <;> omega

theorem InBounds.tsetscroll (h : t.InBounds care) (top bot : Int) :
    (t.tsetscroll top bot).InBounds care := by
  have hrow := h.frame.row
  have htop := limit_bounds (x := top) (a := 0) (b := (t.row : Int) - 1)
    (by omega)
  have hbot := limit_bounds (x := bot) (a := 0) (b := (t.row : Int) - 1)
    (by omega)
  refine { h with frame := { h.frame with }, region := ?_, bot := ?_ }
  · unfold Term.tsetscroll
    dsimp only
    omega
  · unfold Term.tsetscroll
    dsimp only
    omega

/-- Looking back and forth changes nothing but the place that is shown. -/
theorem InBounds.kscrolldown (h : t.InBounds care) (n : Int) :
    (t.kscrolldown n).InBounds care := by
  unfold Term.kscrolldown
  split
  · exact h
  · exact { h with frame := { h.frame with
      scr := (Nat.sub_le _ _).trans h.frame.scr } }

theorem InBounds.kscrollup (h : t.InBounds care) (n : Int) :
    (t.kscrollup n).InBounds care := by
  unfold Term.kscrollup
  split
  · exact h
  · exact { h with frame := { h.frame with scr := Nat.min_le_right _ _ } }

theorem kscrolldown_mode (t : Term) (n : Int) :
    (t.kscrolldown n).mode = t.mode := by
  unfold kscrolldown
  split <;> rfl

end Lines

section Answers

/-- Nothing that is sent changes the screen. -/
theorem InBounds.ttywriteraw (h : t.InBounds care) (s : List UInt8) :
    Yields care.tame (InBounds care) (Term.ttywriteraw care.host t s) := by
  unfold Term.ttywriteraw
  refine yields_ite (fun _ => yields_some h) fun _ => ?_
  refine yields_ite (fun _ => yields_some { h with frame := { h.frame with } })
    fun hrefused => ?_
  exact yields_none _ fun hn => hrefused (care.takes hn _ _)

theorem InBounds.ttysend (h : t.InBounds care) (s : List UInt8) :
    Yields care.tame (InBounds care) (t.ttysend care.host s) :=
  yields_foldlM _ (fun _ p _ ht => ht.ttywriteraw p) h

theorem InBounds.answer (h : t.InBounds care) (s : List UInt8) :
    Yields care.tame (InBounds care) (t.answer care.host s) :=
  (h.kscrolldown t.scr).ttysend s

/-- What is put one by one for an echo keeps the bounds if every character
does. -/
theorem InBounds.echo (h : t.InBounds care)
    {put : Term → Nat → Option Term}
    (hput : ∀ s u, s.InBounds care → ∀ s' ∈ put s u, s'.InBounds care)
    (s : List UInt8) : ∀ t' ∈ t.echo put s, t'.InBounds care := by
  have hchars : ∀ (us : List Nat) (s : Term), s.InBounds care →
      ∀ s' ∈ us.foldlM put s, s'.InBounds care := by
    intro us s hs
    have hall : Yields False (InBounds care) (us.foldlM put s) :=
      yields_foldlM us (fun s u _ hs => ⟨hput s u hs, fun hn => hn.elim⟩) hs
    exact hall.holds
  refine feed_keeps _ _ (I := fun o : Option Term => ∀ s ∈ o, s.InBounds care)
    (fun o u ho s' hs' => ?_) (fun t' ht' => ?_) s
  · obtain ⟨s, hs, hs'⟩ := Option.bind_eq_some_iff.1 hs'
    exact hchars (shown u) s (ho s hs) s' hs'
  · exact Option.some.inj ht' ▸ h

/-- In a tame run nothing is echoed. -/
theorem InBounds.ttywrite (h : t.InBounds care)
    (hquiet : care.tame → t.mode.echo = false)
    {put : Term → Nat → Option Term}
    (hput : ¬care.tame →
      ∀ s u, s.InBounds care → ∀ s' ∈ put s u, s'.InBounds care)
    (s : List UInt8) :
    Yields care.tame (InBounds care) (t.ttywrite care.host put s) := by
  have hdown := h.kscrolldown t.scr
  unfold Term.ttywrite
  extract_lets down
  have hmode : down.mode = t.mode := t.kscrolldown_mode t.scr
  refine Yields.bind (P := InBounds care) ?_ fun t' ht' => ht'.ttysend s
  refine yields_ite (fun hecho => ?_) fun _ => yields_some hdown
  have htame : ¬care.tame := fun hn => by
    rw [hmode, hquiet hn] at hecho
    exact Bool.false_ne_true hecho
  exact ⟨hdown.echo (hput htame) s, fun hn => absurd hn htame⟩

end Answers

section Print

theorem InBounds.modGlyph (h : t.InBounds care) (x y : Nat)
    {f : Glyph → Glyph}
    (hf : ∀ g, care.tame → g.mode.wdummy = false → (f g).mode.wdummy = false) :
    (t.modGlyph x y f).InBounds care :=
  (t.modGlyph_alike x y hf).inBounds h h.x h.y

/-- A character is written onto the screen; in a tame run it always can be. -/
theorem InBounds.tsetchar (h : t.InBounds care) (u : Nat) {attr : Glyph}
    (hattr : care.tame → attr.mode.wdummy = false) {x y : Nat} (hx : x < t.col)
    (hy : y < t.row) :
    Yields care.tame (fun t' =>
        t'.InBounds care ∧ t'.col = t.col ∧ t'.row = t.row)
      (t.tsetchar u attr x y) := by
  refine ⟨fun t' ht => ?_, fun hn => tsetchar_isSome hn h u attr hx hy⟩
  obtain ⟨hc, _, _⟩ := tsetchar_cursor ht
  have halike := tsetchar_alike hattr ht
  exact ⟨halike.inBounds h (hc.symm ▸ h.x) (hc.symm ▸ h.y), halike.col,
    halike.row⟩

/-- A wrapped line is marked before the cursor leaves it. -/
theorem InBounds.wrapFull (h : t.InBounds care) :
    Yields care.tame (InBounds care) t.wrapFull := by
  have hmark : (t.modGlyph t.c.x t.c.y (setWrap true)).InBounds care :=
    h.modGlyph _ _ fun _ _ hg => hg
  exact yields_ite (fun _ => hmark.tnewline true) fun _ => yields_some h

theorem InBounds.insertGap (h : t.InBounds care) (width : Nat) :
    (t.insertGap width).InBounds care := by
  unfold Term.insertGap
  split
  · have hshift : (t.modLine t.c.y (memmove · (t.c.x + width) t.c.x
        (t.col - t.c.x - width))).InBounds care :=
      (t.modLine_alike t.c.y fun l hl =>
        hl.memmove (by omega) (by omega)).inBounds h h.x h.y
    exact hshift.modGlyph _ _ fun _ _ hg => hg
  · exact h

theorem InBounds.makeFit (h : t.InBounds care) (width : Nat) :
    Yields care.tame (InBounds care) (t.makeFit width) := by
  unfold Term.makeFit
  refine yields_ite (fun _ => ?_) fun _ => yields_some h
  exact yields_ite (fun _ => h.tnewline true)
    fun _ => yields_some (h.tmoveto _ _)

/-- Only a run with wide characters puts half of one into a cell. -/
theorem InBounds.widen (h : t.InBounds care) (htame : ¬care.tame) (x y : Nat) :
    (t.widen x y).InBounds care := by
  unfold Term.widen
  extract_lets s₁ s₂
  have h₁ : s₁.InBounds care := h.modGlyph _ _ fun _ _ hg => hg
  have h₂ : s₂.InBounds care := by
    by_cases hover : (s₁.glyph (x + 1) y).mode = { wide := true } ∧
        x + 2 < s₁.col
    · have hs₂ : s₂ = _ := if_pos hover
      rw [hs₂]
      exact h₁.modGlyph _ _ fun _ _ _ => rfl
    · have hs₂ : s₂ = s₁ := if_neg hover
      rw [hs₂]
      exact h₁
  split
  · exact h₂.modGlyph _ _ fun _ hn _ => absurd hn htame
  · exact h₁

/-- Behind the last column the cursor waits where it is. -/
theorem InBounds.advance (h : t.InBounds care) (width : Nat) :
    (t.advance width).InBounds care := by
  unfold Term.advance
  split
  · exact h.tmoveto _ _
  · exact { h with frame := { h.frame with } }

theorem InBounds.tprint (h : t.InBounds care) {u width : Nat}
    (hplain : care.tame → care.plain u) (hwidth : care.tame → width ≤ 1) :
    Yields care.tame (InBounds care) (t.tprint u width) := by
  unfold Term.tprint
  refine h.wrapFull.bind fun s₁ h₁ => ?_
  refine ((h₁.insertGap width).makeFit width).bind fun s₂ h₂ => ?_
  refine (h₂.tsetchar u h₂.frame.attr h₂.x h₂.y).bind fun s₃ h₃ =>
    yields_some ?_
  have hlast : { s₃ with lastc := u }.InBounds care :=
    { h₃.1 with frame := { h₃.1.frame with lastc := hplain } }
  split
  · next htwo =>
      have htame : ¬care.tame := fun hn => by
        have := hwidth hn
        omega
      exact (hlast.widen htame _ _).advance width
  · exact hlast.advance width

end Print

section Screens

/-- The two screens of a tame run have one size, so that nothing flows when the
alternate one is left. -/
theorem tloaddefscreen_isSome (hn : care.tame) (h : t.InBounds care)
    (clear loadcursor : Bool) :
    (t.tloaddefscreen clear loadcursor).isSome := by
  unfold tloaddefscreen
  cases halt : t.mode.altscreen with
  | false => simp only [Bool.false_eq_true, if_false, Option.isSome_some]
  | true =>
      obtain ⟨hcol, hrow⟩ := h.even hn halt
      simp only [if_true]
      rw [tresizedef_same]
      · rfl
      · cases clear <;> cases loadcursor <;> exact hcol
      · cases clear <;> cases loadcursor <;> exact hrow

/-- Private modes may change the screen that is shown. -/
theorem InBounds.setPrivateMode (h : t.InBounds care) (set : Bool) (a : Int) :
    Yields care.tame (InBounds care) (t.setPrivateMode care.host set a) := by
  unfold Term.setPrivateMode
  refine yields_ite (fun _ => ?_) fun _ => ?_
  · have horigin : { t with c := { t.c with origin := set } }.InBounds care :=
      { h with frame := { h.frame with } }
    exact horigin.tmoveato 0 fun _ => ⟨by decide, by decide⟩
  refine yields_ite (fun _ => yields_some ?_) fun _ => ?_
  · exact { h with frame := { h.frame with } }
  refine yields_ite (fun _ => ?_) fun _ => ?_
  · refine yields_ite (fun _ => yields_some h) fun _ => ?_
    refine yields_ite (fun _ => yields_some ?_) fun _ => ?_
    · exact h.tloadaltscreen _ _
    · exact ⟨fun _ ht => h.tloaddefscreen _ _ ht,
        fun hn => tloaddefscreen_isSome hn h _ _⟩
  refine yields_ite (fun _ => ?_) fun _ => yields_some h
  refine yields_ite (fun _ => yields_some h) fun _ => yields_some ?_
  split
  · exact saveCursor_alike.inBounds h h.x h.y
  · exact h.loadCursor

/-- The modes play no part but for the screen that is shown. -/
theorem InBounds.setMode (h : t.InBounds care) {mode : Modes}
    (heq : mode.altscreen = t.mode.altscreen) :
    { t with mode }.InBounds care := by
  have hcol : ({ t with mode } : Term).histcol = t.histcol := by
    rw [histcol, histcol, heq]
  exact { h with
    frame := { h.frame with hist := hcol.symm ▸ h.frame.hist }
    even := by rw [heq]; exact h.even }

theorem InBounds.setAnsiMode (h : t.InBounds care) (set : Bool) (a : Int) :
    (t.setAnsiMode set a).InBounds care := by
  unfold Term.setAnsiMode
  split
  · exact h.setMode rfl
  · split
    · exact h.setMode rfl
    · split
      · exact h.setMode rfl
      · exact h

theorem InBounds.tsetmode (h : t.InBounds care) (priv set : Bool)
    (args : List Int) :
    Yields care.tame (InBounds care) (t.tsetmode care.host priv set args) := by
  refine yields_foldlM args (fun s a _ hs => ?_) h
  split
  · exact hs.setPrivateMode set a
  · exact yields_some (hs.setAnsiMode set a)

end Screens

section Sequences

theorem InBounds.tclearregion (h : t.InBounds care) (x1 y1 x2 y2 : Int)
    (usecurattr : Bool) :
    (t.tclearregion x1 y1 x2 y2 usecurattr).InBounds care :=
  (t.tclearregion_alike x1 y1 x2 y2 usecurattr).inBounds h h.x h.y

theorem InBounds.tscrolldown (h : t.InBounds care) (top : Nat) (n : Int) :
    (t.tscrolldown top n).InBounds care := by
  have hsame : (t.tscrolldown top n).c = t.c := by
    unfold Term.tscrolldown
    split <;> rfl
  exact (tscrolldown_alike h.bot top n).inBounds h (hsame.symm ▸ h.x)
    (hsame.symm ▸ h.y)

/-- A parameter of a tame sequence can be added to the column. -/
theorem InBounds.column (h : t.InBounds care) {n : Int}
    (hn : -10 ^ 9 ≤ n ∧ n ≤ 10 ^ 9) :
    (-intMax - 1 ≤ t.c.x + n ∧ t.c.x + n ≤ intMax) ∧
      (-intMax - 1 ≤ t.c.x - n ∧ t.c.x - n ≤ intMax) := by
  have hsize := h.frame.size
  have hx := h.x
  simp only [intMax] at *
  omega

/-- And to the row. -/
theorem InBounds.line (h : t.InBounds care) {n : Int}
    (hn : -10 ^ 9 ≤ n ∧ n ≤ 10 ^ 9) :
    (-intMax - 1 ≤ t.c.y + n ∧ t.c.y + n ≤ intMax) ∧
      (-intMax - 1 ≤ t.c.y - n ∧ t.c.y - n ≤ intMax) := by
  have hsize := h.frame.size
  have hy := h.y
  simp only [intMax] at *
  omega

theorem InBounds.tinsertblank (h : t.InBounds care) {n : Int}
    (hn : care.tame → -10 ^ 9 ≤ n ∧ n ≤ 10 ^ 9) :
    Yields care.tame (InBounds care) (t.tinsertblank n) := by
  refine ⟨fun t' ht => ?_, fun htame => ?_⟩
  · obtain ⟨halike, hc⟩ := tinsertblank_alike h.x ht
    exact halike.inBounds h (hc.symm ▸ h.x) (hc.symm ▸ h.y)
  · unfold Term.tinsertblank
    split
    · rfl
    · rw [Option.isSome_map, inInt_some (h.column (hn htame)).1]
      rfl

theorem InBounds.tdeletechar (h : t.InBounds care) {n : Int}
    (hn : care.tame → -10 ^ 9 ≤ n ∧ n ≤ 10 ^ 9) :
    Yields care.tame (InBounds care) (t.tdeletechar n) := by
  refine ⟨fun t' ht => ?_, fun htame => ?_⟩
  · obtain ⟨halike, hc⟩ := tdeletechar_alike h.x ht
    exact halike.inBounds h (hc.symm ▸ h.x) (hc.symm ▸ h.y)
  · unfold Term.tdeletechar
    split
    · rfl
    · rw [Option.isSome_map, inInt_some (h.column (hn htame)).1]
      rfl

/-- What was on the screen goes into the history, and nothing is left. -/
theorem InBounds.eraseAll (h : t.InBounds care) :
    Yields care.tame (InBounds care) t.eraseAll := by
  have hlast : t.row - 1 < t.row := Nat.sub_lt h.frame.row Nat.one_pos
  unfold Term.eraseAll
  extract_lets used
  refine Yields.bind (P := Scrolls care t) ?_ fun s hs => ?_
  · exact yields_ite (fun _ => tscrollup_scrolls h.frame 0 hlast _ _)
      fun _ => yields_some ⟨rfl, h.frame⟩
  · have hrow : s.row = t.row := by rw [hs.keeps]
    have hinside := Scrolls.inBounds h hs
    exact hinside.tscrollup (by omega) _ _

theorem InBounds.eraseDisplay (h : t.InBounds care) (n : Int) :
    Yields care.tame (InBounds care) (t.eraseDisplay n) := by
  unfold Term.eraseDisplay
  refine yields_ite (fun _ => yields_some ?_) fun _ => ?_
  · split
    · exact (h.tclearregion _ _ _ _ _).tclearregion _ _ _ _ _
    · exact h.tclearregion _ _ _ _ _
  refine yields_ite (fun _ => yields_some ?_) fun _ => ?_
  · split
    · exact (h.tclearregion _ _ _ _ _).tclearregion _ _ _ _ _
    · exact h.tclearregion _ _ _ _ _
  refine yields_ite (fun _ => ?_) fun _ => yields_some h
  exact yields_ite (fun _ => yields_some (h.tclearregion _ _ _ _ _))
    fun _ => h.eraseAll

theorem InBounds.eraseLine (h : t.InBounds care) (n : Int) :
    (t.eraseLine n).InBounds care := by
  unfold Term.eraseLine
  split
  · exact h.tclearregion _ _ _ _ _
  · split
    · exact h.tclearregion _ _ _ _ _
    · split
      · exact h.tclearregion _ _ _ _ _
      · exact h

theorem InBounds.tinsertblankline (h : t.InBounds care) (n : Int) :
    (t.tinsertblankline n).InBounds care := by
  unfold Term.tinsertblankline
  split
  · exact h.tscrolldown _ _
  · exact h

theorem InBounds.tdeleteline (h : t.InBounds care) (n : Int) :
    Yields care.tame (InBounds care) (t.tdeleteline n) :=
  yields_ite (fun _ => h.tscrollup h.bot _ _) fun _ => yields_some h

/-- A plain character takes one cell, or none. -/
theorem widthOf_le {u : Nat} (h : care.plain u) :
    t.widthOf care.host u ≤ 1 := by
  unfold widthOf
  split
  · exact le_refl 1
  · next hwide =>
      split
      · exact le_refl 1
      · have hle := h.1.resolve_left fun hlt => hwide (Or.inl hlt)
        omega

theorem InBounds.repeatLast (h : t.InBounds care) (n : Nat) :
    Yields care.tame (InBounds care) (t.repeatLast care.host n) := by
  unfold Term.repeatLast
  refine yields_ite (fun _ => yields_some h) fun _ => ?_
  refine yields_foldlM _ (fun s u hu hs => ?_) h
  have hplain : care.tame → care.plain u := fun hn =>
    (List.eq_of_mem_replicate hu).symm ▸ h.frame.lastc hn
  exact hs.tprint hplain fun hn => widthOf_le (hplain hn)

theorem ite_wdummy {c : Prop} [Decidable c] {g g' : Glyph} {w : Bool}
    (h : g.mode.wdummy = w) (h' : g'.mode.wdummy = w) :
    (if c then g else g').mode.wdummy = w := by
  split
  · exact h
  · exact h'

theorem plainAttr_wdummy (g : Glyph) (a : Int) :
    (plainAttr g a).mode.wdummy = g.mode.wdummy := by
  unfold plainAttr
  repeat refine ite_wdummy rfl ?_
  rfl

theorem getLast?_after {a v : Int} {rest : List Int}
    (h : rest.getLast? = some v) : (a :: rest).getLast? = some v := by
  rw [List.getLast?_cons, h, Option.getD_some]

/-- The attributes of the cursor never are those of half a character, and they
can be set unless a colour is asked for at the end of the parameters. -/
theorem tsetattr_yields {safe : Prop} {full : Bool} (g : Glyph)
    (args : List Int) (h : safe → full = true →
      args.getLast? ≠ some 38 ∧ args.getLast? ≠ some 48) :
    Yields safe (fun g' => g'.mode.wdummy = g.mode.wdummy)
      (tsetattr full g args) := by
  have hrest : ∀ {a : Int} {rest : List Int},
      ((a :: rest).getLast? ≠ some 38 ∧ (a :: rest).getLast? ≠ some 48) →
        rest.getLast? ≠ some 38 ∧ rest.getLast? ≠ some 48 := fun hlast =>
    ⟨fun heq => hlast.1 (getLast?_after heq),
      fun heq => hlast.2 (getLast?_after heq)⟩
  induction g, args using tsetattr.induct full with
  | case1 g => exact yields_some rfl
  | case2 g r gr b rest ih =>
      exact ih fun hs hf => hrest (hrest (hrest (hrest (hrest (h hs hf)))))
  | case3 g n rest ih => exact ih fun hs hf => hrest (hrest (hrest (h hs hf)))
  | case4 g r gr b rest ih =>
      exact ih fun hs hf => hrest (hrest (hrest (hrest (hrest (h hs hf)))))
  | case5 g n rest ih => exact ih fun hs hf => hrest (hrest (hrest (h hs hf)))
  | case6 g a rest h₁ h₂ h₃ h₄ hask =>
      rw [tsetattr, if_pos hask]
      · obtain ⟨hfull, rfl, rfl | rfl⟩ := hask
        · exact yields_none _ fun hs => (h hs hfull).1 rfl
        · exact yields_none _ fun hs => (h hs hfull).2 rfl
      all_goals assumption
  | case7 g a rest h₁ h₂ h₃ h₄ hask ih =>
      rw [tsetattr, if_neg hask]
      · exact (ih fun hs hf => hrest (h hs hf)).mono fun g' hg =>
          hg.trans (plainAttr_wdummy g a)
      all_goals assumption

/-- Every CSI sequence keeps the bounds. -/
theorem InBounds.csihandle (h : t.InBounds care)
    (hmod : care.tame → Moderate t.csiescseq) :
    Yields care.tame (InBounds care) (t.csihandle care.host) := by
  unfold Term.csihandle
  extract_lets csi a0 a1 n c
  have hn : care.tame → -10 ^ 9 ≤ n ∧ n ≤ 10 ^ 9 := fun ht =>
    Moderate.parameter (hmod ht) 0 ⟨by decide, by decide⟩
  have hpred : care.tame → -intMax - 1 ≤ n - 1 ∧ n - 1 ≤ intMax := fun ht => by
    have := hn ht
    simp only [intMax]
    omega
  have hsecond : ∀ b : Int, (-10 ^ 9 ≤ b ∧ b ≤ 10 ^ 9) → care.tame →
      -intMax - 1 ≤ orDefault a1 b - 1 ∧ orDefault a1 b - 1 ≤ intMax :=
    fun b hb ht => by
      have hsmall : -10 ^ 9 ≤ orDefault a1 b ∧ orDefault a1 b ≤ 10 ^ 9 :=
        Moderate.parameter (hmod ht) 1 hb
      simp only [intMax]
      omega
  have hmoveto := fun x y => h.tmoveto x y
  -- the branches stand in the order of the `switch`
  refine yields_ite (fun _ => h.tinsertblank hn) fun _ => ?_
  refine yields_ite (fun _ => ?_) fun _ => ?_
  · exact (yields_inInt fun ht => (h.line (hn ht)).2).map fun v _ =>
      hmoveto _ v
  refine yields_ite (fun _ => ?_) fun _ => ?_
  · exact (yields_inInt fun ht => (h.line (hn ht)).1).map fun v _ =>
      hmoveto _ v
  refine yields_ite (fun _ => ?_) fun _ => ?_
  · refine yields_ite (fun _ => yields_some ?_) fun _ => ?_
    · exact { h with frame := { h.frame with } }
    refine yields_ite (fun _ => yields_some ?_) fun _ => yields_some h
    exact { h with frame := { h.frame with } }
  refine yields_ite (fun _ => ?_) fun _ => ?_
  · exact yields_ite (fun _ => h.answer vtiden) fun _ => yields_some h
  refine yields_ite (fun _ => h.repeatLast _) fun _ => ?_
  refine yields_ite (fun _ => ?_) fun _ => ?_
  · exact (yields_inInt fun ht => (h.column (hn ht)).1).map fun v _ =>
      hmoveto v _
  refine yields_ite (fun _ => ?_) fun _ => ?_
  · exact (yields_inInt fun ht => (h.column (hn ht)).2).map fun v _ =>
      hmoveto v _
  refine yields_ite (fun _ => ?_) fun _ => ?_
  · exact (yields_inInt fun ht => (h.line (hn ht)).1).map fun v _ =>
      hmoveto _ v
  refine yields_ite (fun _ => ?_) fun _ => ?_
  · exact (yields_inInt fun ht => (h.line (hn ht)).2).map fun v _ =>
      hmoveto _ v
  refine yields_ite (fun _ => ?_) fun _ => ?_
  · refine yields_ite (fun _ => yields_some ?_) fun _ => ?_
    · exact { h with
        frame := { h.frame with }
        tabs := (List.length_set ..).trans h.tabs }
    refine yields_ite (fun _ => yields_some ?_) fun _ => yields_some h
    exact { h with
      frame := { h.frame with }
      tabs := List.length_mapIdx.trans h.tabs }
  refine yields_ite (fun _ => ?_) fun _ => ?_
  · exact (yields_inInt hpred).map fun v _ => hmoveto v _
  refine yields_ite (fun _ => ?_) fun _ => ?_
  · refine (yields_inInt (hsecond 1 ⟨by decide, by decide⟩)).bind fun x _ => ?_
    refine (yields_inInt hpred).bind fun y hy => h.tmoveato x fun ht => ?_
    have := hn ht
    omega
  refine yields_ite (fun _ => yields_some (h.tputtab n)) fun _ => ?_
  refine yields_ite (fun _ => h.eraseDisplay a0) fun _ => ?_
  refine yields_ite (fun _ => yields_some (h.eraseLine a0)) fun _ => ?_
  refine yields_ite (fun _ => ?_) fun _ => ?_
  · exact yields_ite (fun _ => yields_some h)
      fun _ => h.tscrollup h.bot n .savehist
  refine yields_ite (fun _ => yields_some (h.tscrolldown t.top n)) fun _ => ?_
  refine yields_ite (fun _ => yields_some (h.tinsertblankline n)) fun _ => ?_
  refine yields_ite (fun _ => h.tsetmode csi.priv false csi.arg) fun _ => ?_
  refine yields_ite (fun _ => h.tdeleteline n) fun _ => ?_
  refine yields_ite (fun _ => ?_) fun _ => ?_
  · refine yields_ite (fun _ => yields_some h) fun _ => ?_
    exact (yields_inInt fun ht => (h.column (hn ht)).1).map fun x _ =>
      h.tclearregion _ _ _ _ _
  refine yields_ite (fun _ => h.tdeletechar hn) fun _ => ?_
  refine yields_ite (fun _ => ?_) fun _ => ?_
  · refine (yields_inInt fun ht => ?_).map fun v _ => h.tputtab v
    have := hn ht
    simp only [intMax]
    omega
  refine yields_ite (fun _ => ?_) fun _ => ?_
  · refine (yields_inInt hpred).bind fun y hy => h.tmoveato _ fun ht => ?_
    have := hn ht
    omega
  refine yields_ite (fun _ => h.tsetmode csi.priv true csi.arg) fun _ => ?_
  refine yields_ite (fun _ => ?_) fun _ => ?_
  · refine (tsetattr_yields t.c.attr csi.arg fun ht hfull =>
      (hmod ht).last (of_decide_eq_true hfull)).map fun attr hattr => ?_
    exact { h with frame := { h.frame with
      attr := fun hn => hattr.trans (h.frame.attr hn) } }
  refine yields_ite (fun _ => ?_) fun _ => ?_
  · refine yields_ite (fun _ => h.answer _) fun _ => ?_
    exact yields_ite (fun _ => h.answer _) fun _ => yields_some h
  refine yields_ite (fun _ => ?_) fun _ => ?_
  · refine yields_ite (fun _ => yields_some h) fun _ => ?_
    have hrow : -10 ^ 9 ≤ (t.row : Int) ∧ (t.row : Int) ≤ 10 ^ 9 := by
      have := h.frame.size
      omega
    refine (yields_inInt hpred).bind fun top _ => ?_
    refine (yields_inInt (hsecond t.row hrow)).bind fun bot _ => ?_
    exact (h.tsetscroll top bot).tmoveato 0 fun _ => ⟨by decide, by decide⟩
  refine yields_ite (fun _ => yields_some ?_) fun _ => ?_
  · exact saveCursor_alike.inBounds h h.x h.y
  exact yields_ite (fun _ => yields_some h.loadCursor) fun _ => yields_some h

end Sequences

section Escapes

/-- Nothing of a sequence is left to be read. -/
theorem InBounds.idle (h : t.InBounds care) : { t with esc := {} }.InBounds care :=
  { h with frame := { h.frame with reading := reading_idle _ _ } }

/-- Of a string that is given up nothing is read any more. -/
theorem InBounds.interrupt (h : t.InBounds care) :
    t.interrupt.InBounds care :=
  { h with frame := { h.frame with
      reading := ⟨h.frame.reading.csi,
        fun hs => absurd (hs.elim id id) Bool.false_ne_true⟩ } }

theorem InBounds.csireset (h : t.InBounds care) : t.csireset.InBounds care :=
  { h with frame := { h.frame with
      reading := ⟨fun _ => (by decide : 0 < escBufSiz - 1),
        h.frame.reading.str⟩ } }

theorem InBounds.setTab (h : t.InBounds care) : t.setTab.InBounds care :=
  { h with
    frame := { h.frame with }
    tabs := (List.length_set ..).trans h.tabs }

/-- A string begins with an empty buffer. -/
theorem InBounds.tstrsequence (h : t.InBounds care) (c : UInt8) :
    (t.tstrsequence c).InBounds care :=
  { h with frame := { h.frame with
      reading := ⟨h.frame.reading.csi,
        fun _ => ⟨(by decide : 0 < strBufSiz), le_refl strBufSiz⟩⟩ } }

/-- The buffer of a string grows before it is full. -/
theorem InBounds.strAppend (h : t.InBounds care) (hstr : t.esc.str = true)
    {c : List UInt8} (hc : c.length ≤ utfSiz) :
    (t.strAppend c).InBounds care := by
  obtain ⟨hlen, hsiz⟩ := h.frame.reading.str (Or.inl hstr)
  have hbuf : utfSiz ≤ strBufSiz := by decide
  have hgrow : ∀ siz, (t.strescseq.buf ++ c).length < siz → strBufSiz ≤ siz →
      { t with strescseq := { t.strescseq with
        buf := t.strescseq.buf ++ c, siz } }.InBounds care := fun _ hroom hle =>
    { h with frame := { h.frame with
        reading := ⟨h.frame.reading.csi, fun _ => ⟨hroom, hle⟩⟩ } }
  have hlength : (t.strescseq.buf ++ c).length =
      t.strescseq.buf.length + c.length := List.length_append
  unfold Term.strAppend
  dsimp only
  split
  · split
    · exact h
    · exact hgrow _ (by omega) (by omega)
  · exact hgrow t.strescseq.siz (by omega) hsiz

theorem InBounds.endStr (h : t.InBounds care) (hstr : t.esc.str = true) :
    t.endStr.InBounds care :=
  { h with frame := { h.frame with
      reading := ⟨fun hs => absurd hs Bool.false_ne_true,
        fun _ => h.frame.reading.str (Or.inl hstr)⟩ } }

/-- What the handler of strings must keep. -/
def Handles (care : Care) (handler : Term → Option Term) : Prop :=
  ∀ t : Term, t.InBounds care → (care.tame → t.mode.echo = false) →
    Yields care.tame (InBounds care) (handler t)

variable {handler : Term → Option Term}

theorem Handles.handleStr (hh : Handles care handler) (h : t.InBounds care)
    (hquiet : care.tame → t.esc.strEnd = true → t.mode.echo = false) :
    Yields care.tame (InBounds care) (t.handleStr handler) :=
  yields_ite (fun hend => hh t h fun hn => hquiet hn hend)
    fun _ => yields_some h

/-- So does every control code, also within a sequence. -/
theorem InBounds.tcontrolcode (h : t.InBounds care)
    (hh : Handles care handler)
    (hquiet : care.tame → t.esc.strEnd = true → t.mode.echo = false)
    (ascii : Nat) :
    Yields care.tame (InBounds care)
      (t.tcontrolcode care.host handler ascii) := by
  unfold Term.tcontrolcode
  refine yields_ite (fun _ => yields_some (h.tputtab 1)) fun _ => ?_
  refine yields_ite (fun _ => yields_some (h.tmoveto _ _)) fun _ => ?_
  refine yields_ite (fun _ => yields_some (h.tmoveto _ _)) fun _ => ?_
  refine yields_ite (fun _ => h.tnewline _) fun _ => ?_
  refine yields_ite (fun _ => ?_) fun _ => ?_
  · exact (hh.handleStr h hquiet).map fun _ hs => hs.interrupt
  refine yields_ite (fun _ => yields_some ?_) fun _ => ?_
  · have hreset := h.csireset
    exact { hreset with frame := { hreset.frame with
      reading := ⟨fun _ => (by decide : 0 < escBufSiz - 1),
        h.frame.reading.str⟩ } }
  refine yields_ite (fun _ => yields_some ?_) fun _ => ?_
  · have hcharset : 1 - (ascii - 0x0e) < 4 := by omega
    exact { h with frame := { h.frame with charset := hcharset } }
  refine yields_ite (fun _ => ?_) fun _ => ?_
  · exact (h.tsetchar _ h.frame.attr h.x h.y).map fun s hs =>
      hs.1.csireset.interrupt
  refine yields_ite (fun _ => yields_some h.csireset.interrupt) fun _ => ?_
  refine yields_ite (fun _ => yields_some h) fun _ => ?_
  refine yields_ite (fun _ => ?_) fun _ => ?_
  · exact (h.tnewline true).map fun _ hs => hs.interrupt
  refine yields_ite (fun _ => yields_some h.setTab.interrupt) fun _ => ?_
  refine yields_ite (fun _ => ?_) fun _ => ?_
  · exact (h.answer vtiden).map fun _ hs => hs.interrupt
  exact yields_ite (fun _ => yields_some (h.tstrsequence _))
    fun _ => yields_some h.interrupt

theorem InBounds.index (h : t.InBounds care) :
    Yields care.tame (InBounds care) t.index :=
  yields_ite (fun _ => h.tscrollup h.bot 1 .savehist)
    fun _ => yields_some (h.tmoveto _ _)

theorem InBounds.reverseIndex (h : t.InBounds care) :
    t.reverseIndex.InBounds care := by
  unfold Term.reverseIndex
  split
  · exact h.tscrolldown t.top 1
  · exact h.tmoveto _ _

/-- A sequence that goes on keeps what was read of it. -/
theorem InBounds.escContinues (h : t.InBounds care) (ascii : UInt8) :
    ∀ t' ∈ t.escContinues ascii, t'.InBounds care := by
  have hall : Yields False (InBounds care) (t.escContinues ascii) := by
    unfold Term.escContinues
    refine yields_ite (fun _ => yields_some ?_) fun _ => ?_
    · exact { h with frame := { h.frame with
        reading := ⟨h.frame.reading.csi, h.frame.reading.str⟩ } }
    refine yields_ite (fun _ => yields_some ?_) fun _ => ?_
    · exact { h with frame := { h.frame with
        reading := ⟨h.frame.reading.csi, h.frame.reading.str⟩ } }
    refine yields_ite (fun _ => yields_some ?_) fun _ => ?_
    · exact { h with frame := { h.frame with
        reading := ⟨h.frame.reading.csi, h.frame.reading.str⟩ } }
    refine yields_ite (fun _ => yields_some (h.tstrsequence ascii)) fun _ => ?_
    refine yields_ite (fun hc => yields_some ?_) fun _ => yields_none _ id
    have hicharset : ascii.toNat - (ch '(').toNat < 4 := by
      rcases hc with rfl | rfl | rfl | rfl <;> decide
    exact { h with frame := { h.frame with
      icharset := hicharset
      reading := ⟨h.frame.reading.csi, h.frame.reading.str⟩ } }
  exact hall.holds

/-- A sequence that ends does one thing more. -/
theorem InBounds.escFinishes (h : t.InBounds care) (hh : Handles care handler)
    (hquiet : care.tame → t.esc.strEnd = true → t.mode.echo = false)
    (ascii : UInt8) :
    Yields care.tame (InBounds care)
      (t.escFinishes care.host handler ascii) := by
  unfold Term.escFinishes
  refine yields_ite (fun hc => yields_some ?_) fun _ => ?_
  · have hcharset : 2 + (ascii.toNat - (ch 'n').toNat) < 4 := by
      rcases hc with rfl | rfl <;> decide
    exact { h with frame := { h.frame with charset := hcharset } }
  refine yields_ite (fun _ => h.index) fun _ => ?_
  refine yields_ite (fun _ => h.tnewline true) fun _ => ?_
  refine yields_ite (fun _ => yields_some h.setTab) fun _ => ?_
  refine yields_ite (fun _ => yields_some h.reverseIndex) fun _ => ?_
  refine yields_ite (fun _ => h.answer vtiden) fun _ => ?_
  refine yields_ite (fun _ => yields_some ?_) fun _ => ?_
  · have hreset := treset_inBounds h.frame fun hn halt => (h.even hn halt).1
    exact { hreset with frame := { hreset.frame with } }
  refine yields_ite (fun _ => yields_some ?_) fun _ => ?_
  · exact saveCursor_alike.inBounds h h.x h.y
  refine yields_ite (fun _ => yields_some h.loadCursor) fun _ => ?_
  exact yields_ite (fun _ => hh.handleStr h hquiet) fun _ => yields_some h

theorem InBounds.eschandle (h : t.InBounds care) (hh : Handles care handler)
    (hquiet : care.tame → t.esc.strEnd = true → t.mode.echo = false)
    (ascii : UInt8) :
    Yields care.tame (InBounds care) (t.eschandle care.host handler ascii) := by
  have hcontinues := h.escContinues ascii
  unfold Term.eschandle
  cases hgoes : t.escContinues ascii with
  | some s => exact yields_some (hcontinues s hgoes)
  | none => exact (h.escFinishes hh hquiet ascii).map fun _ hs => hs.idle

theorem InBounds.tdefutf8 (h : t.InBounds care) (ascii : UInt8) :
    (t.tdefutf8 ascii).InBounds care := by
  unfold Term.tdefutf8
  split
  · exact h.setMode rfl
  · split
    · exact h.setMode rfl
    · exact h

theorem InBounds.tdeftran (h : t.InBounds care) {ascii : UInt8}
    (hzero : care.tame → ascii ≠ 0) :
    Yields care.tame (InBounds care) (t.tdeftran ascii) := by
  unfold Term.tdeftran
  extract_lets use
  have huse : ∀ cs, (use cs).InBounds care := fun cs =>
    { h with frame := { h.frame with } }
  refine yields_ite (fun heq => ?_) fun _ => ?_
  · exact yields_none _ fun hn => hzero hn heq
  refine yields_ite (fun _ => yields_some (huse .graphic0)) fun _ => ?_
  exact yields_ite (fun _ => yields_some (huse .usa)) fun _ => yields_some h

/-- The test of the screen writes every cell, and no size changes meanwhile. -/
theorem InBounds.tdectest (h : t.InBounds care) (c : UInt8) :
    Yields care.tame (InBounds care) (t.tdectest c) := by
  unfold Term.tdectest
  refine yields_ite (fun _ => ?_) fun _ => yields_some h
  have hstart : t.InBounds care ∧ t.col = t.col ∧ t.row = t.row :=
    ⟨h, rfl, rfl⟩
  refine (yields_foldlM (I := fun s => s.InBounds care ∧ s.col = t.col ∧
    s.row = t.row) _ (fun s x hx hs => ?_) hstart).mono fun s hs => hs.1
  have hx := List.mem_range.1 hx
  refine yields_foldlM _ (fun s' y hy hs' => ?_) hs
  have hy := List.mem_range.1 hy
  obtain ⟨hs', hcol, hrow⟩ := hs'
  have hset := hs'.tsetchar (ch 'E').toNat hs'.frame.attr (x := x) (y := y)
    (hcol.symm ▸ hx) (by rw [hrow, ← hs.2.2]; exact hy)
  exact hset.mono fun s'' ⟨hinside, hcol', hrow'⟩ =>
    ⟨hinside, hcol'.trans hcol, hrow'.trans hrow⟩

end Escapes

section Characters

variable {handler : Term → Option Term}

theorem ofNat_ne_zero {u : Nat} (h : u % 256 = 0 → u = 0) (hu : u ≠ 0) :
    UInt8.ofNat u ≠ 0 := by
  intro hzero
  have hnat := congrArg UInt8.toNat hzero
  rw [UInt8.toNat_ofNat'] at hnat
  exact hu (h hnat)

/-- A CSI sequence is handled before its buffer is full. -/
theorem InBounds.csiAppend (h : t.InBounds care) {u : Nat}
    (hmod : care.tame → let buf := t.csiescseq.buf ++ [UInt8.ofNat u]
      csiEnds buf u = true → Moderate (csiparse { t.csiescseq with buf })) :
    Yields care.tame (InBounds care) (t.csiAppend care.host u) := by
  unfold Term.csiAppend
  extract_lets buf csi
  refine yields_ite (fun hends => ?_) fun hmore => yields_some ?_
  · refine InBounds.csihandle ?_ fun hn => hmod hn hends
    exact { h with frame := { h.frame with reading := reading_idle _ _ } }
  · have hroom : buf.length < escBufSiz - 1 := by
      rw [csiEnds, Bool.or_eq_true, not_or, decide_eq_true_eq] at hmore
      exact not_le.1 hmore.2
    exact { h with frame := { h.frame with
      reading := ⟨fun _ => hroom, h.frame.reading.str⟩ } }

/-- A character is a control code, a part of a sequence, or printed. -/
theorem InBounds.checkControlCode (h : t.InBounds care)
    (hh : Handles care handler) {u : Nat} (hgentle : care.tame → t.Gentle care u) :
    Yields care.tame (InBounds care)
      (t.checkControlCode care.host handler u) := by
  have hquiet : care.tame → t.esc.strEnd = true → t.mode.echo = false :=
    fun hn hend => (hgentle hn).quiet (Or.inr hend)
  have hplain : care.tame → care.plain u := fun hn => (hgentle hn).plain
  unfold Term.checkControlCode
  refine yields_ite (fun _ => ?_) fun hcontrol => ?_
  · refine yields_ite (fun _ => yields_some h) fun _ => ?_
    refine (h.tcontrolcode hh hquiet u).map fun s hs => ?_
    split
    · exact { hs with frame := { hs.frame with lastc := fun _ => care.plain_zero } }
    · exact hs
  refine yields_ite (fun hstart => ?_) fun _ => ?_
  · extract_lets byte
    refine yields_ite (fun hcsi => ?_) fun _ => ?_
    · exact h.csiAppend fun hn => (hgentle hn).moderate hstart hcsi
    refine yields_ite (fun _ => yields_some (h.tdefutf8 byte).idle) fun _ => ?_
    refine yields_ite (fun _ => ?_) fun _ => ?_
    · have hzero : care.tame → byte ≠ 0 := fun hn =>
        ofNat_ne_zero (hplain hn).2 fun hu => hcontrol (by rw [hu]; rfl)
      exact (h.tdeftran hzero).map fun s hs => hs.idle
    refine yields_ite (fun _ => ?_) fun _ => h.eschandle hh hquiet byte
    exact (h.tdectest byte).map fun s hs => hs.idle
  · exact h.tprint hplain fun hn => widthOf_le (hplain hn)

theorem InBounds.tputcWith (h : t.InBounds care) (hh : Handles care handler)
    {u : Nat} (hgentle : care.tame → t.Gentle care u) :
    Yields care.tame (InBounds care) (t.tputcWith care.host handler u) := by
  unfold Term.tputcWith
  extract_lets bytes
  refine yields_ite (fun hstr => ?_) fun _ => h.checkControlCode hh hgentle
  refine yields_ite (fun _ => ?_) fun _ => yields_some ?_
  · refine (h.endStr hstr).checkControlCode hh fun hn => ?_
    exact ⟨(hgentle hn).plain, fun _ => (hgentle hn).quiet (Or.inl hstr),
      fun hs => absurd hs Bool.false_ne_true⟩
  · refine h.strAppend hstr ?_
    unfold bytes
    split
    · exact (by decide : 1 ≤ utfSiz)
    · exact utf8encode_length_le u

end Characters

section Strings

theorem InBounds.recolor (h : t.InBounds care) (r : Recolor) :
    (t.recolor r).InBounds care :=
  { h with frame := { h.frame with } }

/-- The echo of an answer only comes in a run that is not tame. -/
theorem InBounds.oscColor (h : t.InBounds care)
    (hquiet : care.tame → t.mode.echo = false) (num index : Int)
    (isOsc4 : Bool) (p : List UInt8) :
    Yields care.tame (InBounds care)
      (t.oscColor care.host num index isOsc4 p) := by
  have hreply : Yields care.tame (InBounds care)
      (t.oscColorResponse care.host num index isOsc4) := by
    unfold Term.oscColorResponse
    split
    · exact yields_some h
    · refine yields_ite (fun _ => yields_some h) fun _ => ?_
      refine h.ttywrite hquiet (fun htame s u hs => ?_) _
      have hsome : Handles care some := fun _ hs _ => yields_some hs
      exact (hs.tputcWith hsome fun hn => absurd hn htame).holds
  exact yields_ite (fun _ => hreply) fun _ => yields_some (h.recolor _)

/-- A string changes at most the colours, and is perhaps answered. -/
theorem strhandle_handles (care : Care) :
    Handles care (strhandle care.host) := by
  intro t h hquiet
  unfold Term.strhandle
  extract_lets src s args par
  have hs : s.InBounds care := h.interrupt
  refine yields_ite (fun _ => yields_some hs) fun _ => ?_
  refine yields_ite (fun _ => ?_) fun _ => ?_
  · split
    · exact yields_some hs
    · exact hs.oscColor hquiet _ _ _ _
  refine yields_ite (fun _ => ?_) fun _ => ?_
  · split
    · exact yields_some hs
    · exact hs.oscColor hquiet _ _ _ _
  refine yields_ite (fun _ => ?_) fun _ => yields_some hs
  split <;> exact yields_some (hs.recolor _)

theorem InBounds.tputc (h : t.InBounds care) {u : Nat}
    (hgentle : care.tame → t.Gentle care u) :
    Yields care.tame (InBounds care) (t.tputc care.host u) :=
  h.tputcWith (strhandle_handles care) hgentle

end Strings

end Term

end St

end Bodhi
