/-
`printf` of bash with a format and nothing behind it: the escapes and the
conversions that a format is read for, the formats it refuses, and the texts
that come out as they went in.
-/
import Bodhi.ShellText

namespace Bodhi

/-- A percent sign or a backslash. -/
def isMarker (byte : UInt8) : Bool :=
  byte == 37 || byte == 92

def markers (bytes : Bytes) : Nat :=
  bytes.countP isMarker

/-- What `printf` leaves to the system, in a UTF-8 locale: what a conversion
makes of no argument (an empty text, a zero, the time), with no percent sign or
backslash but those of a time format, and the bytes of a character beyond
ASCII. -/
structure Printf where
  convert : Text → Option Bytes
  unicode : Nat → Bytes
  convert_markers : ∀ {specification : Text} {output : Bytes},
    convert specification = some output →
      markers output < markers (utf8 specification)
  unicode_markers : ∀ code, markers (unicode code) = 0

/-- Conversions that write nothing, such as `%s`, in a locale without
characters beyond ASCII. -/
def plainPrintf : Printf where
  convert
    | '%' :: _ => some []
    | _ => none
  unicode _ := []
  convert_markers := by
    intro specification output h
    split at h
    · cases h
      simp [markers, utf8, isMarker, String.utf8EncodeChar]
    · cases h
  unicode_markers _ := rfl

section Escapes

def hexDigits : Text := "0123456789abcdef".toList

def isHexDigit (c : Char) : Bool :=
  hexDigits.contains c.toLower

def isOctalDigit (c : Char) : Bool :=
  "01234567".toList.contains c

def valueOf (base : Nat) (digits : Text) : Nat :=
  digits.foldl (fun n c => n * base + hexDigits.idxOf c.toLower) 0

/-- At most so many characters of a kind, and what is behind them. -/
def spanUpTo (p : Char → Bool) : Nat → Text → Text × Text
  | n + 1, c :: rest =>
      if p c then (c :: (spanUpTo p n rest).1, (spanUpTo p n rest).2)
      else ([], c :: rest)
  | _, text => ([], text)

/-- The escapes of one letter. -/
def letterEscapes : List (Char × UInt8) :=
  [('a', 7), ('b', 8), ('e', 27), ('E', 27), ('f', 12), ('n', 10), ('r', 13),
    ('t', 9), ('v', 11), ('\\', 92), ('\x27', 39), ('"', 34), ('?', 63)]

/-- The escapes in hexadecimal, with the digits they have at most. -/
def hexEscapes : List (Char × Nat) :=
  [('x', 2), ('u', 4), ('U', 8)]

/-- What an escape writes, for the text behind its backslash, and what is
behind the escape; the backslash of no escape is written itself. -/
def escape (P : Printf) : Text → Bytes × Text
  | [] => ([92], [])
  | c :: rest =>
      match letterEscapes.lookup c with
      | some byte => ([byte], rest)
      | none =>
          if isOctalDigit c then
            let (digits, behind) := spanUpTo isOctalDigit 3 (c :: rest)
            ([UInt8.ofNat (valueOf 8 digits)], behind)
          else
            match hexEscapes.lookup c with
            | none => ([92], c :: rest)
            | some most =>
                let (digits, behind) := spanUpTo isHexDigit most rest
                let code := valueOf 16 digits
                if digits = [] then ([92], c :: rest)
                else if c = 'x' ∨ code ≤ 127 then ([UInt8.ofNat code], behind)
                else (P.unicode code, behind)

end Escapes

section Conversions

def isFlag (c : Char) : Bool :=
  "#'-+ 0".toList.contains c

def isModifier (c : Char) : Bool :=
  "hjlLtz".toList.contains c

def isConversion (c : Char) : Bool :=
  "diouxXaAeEfFgGcsbqQn".toList.contains c

def spanOf (p : Char → Bool) (text : Text) : Text × Text :=
  (text.takeWhile p, text.dropWhile p)

def spanWidth : Text → Text × Text
  | '*' :: rest => (['*'], rest)
  | text => spanOf Char.isDigit text

def spanPrecision : Text → Text × Text
  | '.' :: '*' :: rest => (['.', '*'], rest)
  | '.' :: '-' :: rest =>
      ('.' :: '-' :: (spanOf Char.isDigit rest).1, (spanOf Char.isDigit rest).2)
  | '.' :: rest =>
      ('.' :: (spanOf Char.isDigit rest).1, (spanOf Char.isDigit rest).2)
  | text => ([], text)

/-- One part of a text after the other. -/
def spanBoth (first last : Text → Text × Text) (text : Text) : Text × Text :=
  ((first text).1 ++ (last (first text).2).1, (last (first text).2).2)

/-- The flags, the width and the precision of a conversion. -/
def spanHead : Text → Text × Text :=
  spanBoth (spanBoth (spanOf isFlag) spanWidth) spanPrecision

/-- What is before the parenthesis that closes so many open ones and one more,
and what is behind it. -/
def closing : Nat → Text → Option (Text × Text)
  | _, [] => none
  | depth, c :: rest =>
      if c = '(' then
        (closing (depth + 1) rest).map fun found => (c :: found.1, found.2)
      else if c = ')' then
        if depth = 0 then some ([], rest)
        else (closing (depth - 1) rest).map fun found => (c :: found.1, found.2)
      else (closing depth rest).map fun found => (c :: found.1, found.2)

/-- A time format, for the text behind its parenthesis: what it holds, and what
is behind the `T` at its end. -/
def timeFormat (body : Text) : Option (Text × Text) :=
  match closing 0 body with
  | some (time, 'T' :: behind) => some (time, behind)
  | _ => none

/-- A time format without its end is taken back: the percent sign is written,
but the parenthesis has been put over the first modifier. -/
def takenBack (head modifiers body : Text) : Bytes × Text :=
  match modifiers with
  | [] => ([37], head ++ '(' :: body)
  | _ :: others => (utf8 ('%' :: (head ++ ['('])), others ++ '(' :: body)

/-- A conversion, for the text behind its percent sign. -/
def conversion (P : Printf) (text : Text) : Option (Bytes × Text) :=
  let (head, rest) := spanHead text
  let (modifiers, rest) := spanOf isModifier rest
  match rest with
  | [] => none
  | letter :: behind =>
      if letter = '(' then
        match timeFormat behind with
        | some (time, behind) =>
            (P.convert ('%' :: (head ++ modifiers ++
              '(' :: (time ++ [')', 'T'])))).map (·, behind)
        | none => some (takenBack head modifiers behind)
      else if isConversion letter then
        (P.convert ('%' :: (head ++ modifiers ++ [letter]))).map (·, behind)
      else none

end Conversions

/-- What the next part of a format writes, and what is behind it. -/
def directive (P : Printf) : Text → Option (Bytes × Text)
  | [] => some ([], [])
  | c :: rest =>
      if c = '\\' then some (escape P rest)
      else if c = '%' then
        if rest.head? = some '%' then some ([37], rest.tail)
        else conversion P rest
      else some (String.utf8EncodeChar c, rest)

/-- The parts of a format that are left; each takes up a character at least. -/
def written (P : Printf) : Nat → Text → Option Bytes
  | _, [] => some []
  | 0, _ :: _ => none
  | steps + 1, c :: rest => do
      let (output, behind) ← directive P (c :: rest)
      return output ++ (← written P steps behind)

/-- `printf "$format"`; nothing where it fails. -/
def printf (P : Printf) (format : Text) : Option Bytes :=
  written P format.length format

example : printf plainPrintf "1: a%sb\\n".toList =
    some (utf8 "1: ab\n".toList) := by decide

example : printf plainPrintf "1: my%20vm.qcow2\\n".toList = none := by decide

/-- The `\n` behind a text in a format. -/
def lineEnd : Text := ['\\', 'n']

section Standing

/-- An escape is behind a backslash; behind one that is last comes the one of
the line end. -/
def opensEscape : Text → Bool
  | [] => true
  | c :: rest =>
      (letterEscapes.lookup c).isSome || isOctalDigit c ||
        ((hexEscapes.lookup c).isSome && rest.head?.any isHexDigit)

/-- A time format without its end is behind a percent sign. -/
def opensNothing (rest : Text) : Bool :=
  match (spanHead rest).2 with
  | '(' :: body => (timeFormat body).isNone
  | _ => false

/-- A character stands for itself before the rest of a text. -/
def stands (c : Char) (rest : Text) : Bool :=
  if c = '\\' then !opensEscape rest
  else if c = '%' then opensNothing rest
  else true

/-- Every character of a text stands for itself in a format: no backslash is
last or makes an escape with what is behind it, and no percent sign opens
anything but a time format without its end. -/
def StandsForItself : Text → Prop
  | [] => True
  | c :: rest => stands c rest = true ∧ StandsForItself rest

instance decidableStandsForItself :
    ∀ text, Decidable (StandsForItself text)
  | [] => isTrue trivial
  | c :: rest =>
      have : Decidable (StandsForItself rest) := decidableStandsForItself rest
      inferInstanceAs (Decidable (stands c rest = true ∧ StandsForItself rest))

end Standing

section Spans

/-- A way to split a text does so the same way before a line end. -/
def Spans (split : Text → Text × Text) : Prop :=
  ∀ text, (split text).1 ++ (split text).2 = text ∧
    split (text ++ lineEnd) = ((split text).1, (split text).2 ++ lineEnd)

theorem spans_spanUpTo {p : Char → Bool} (hp : p '\\' = false) (most : Nat) :
    Spans (spanUpTo p most) := by
  intro text
  induction most generalizing text with
  | zero => exact ⟨rfl, rfl⟩
  | succ most ih =>
      cases text with
      | nil => simp [spanUpTo, lineEnd, hp]
      | cons c rest =>
          obtain ⟨hjoin, hline⟩ := ih rest
          by_cases hc : p c = true
          · simp [spanUpTo, hc, hjoin, hline]
          · simp [spanUpTo, hc]

theorem spans_spanOf {p : Char → Bool} (hp : p '\\' = false) :
    Spans (spanOf p) := by
  intro text
  refine ⟨List.takeWhile_append_dropWhile, ?_⟩
  induction text with
  | nil => simp [spanOf, lineEnd, hp]
  | cons c rest ih =>
      rw [spanOf, Prod.mk.injEq] at ih
      by_cases hc : p c = true
      · simpa [spanOf, hc] using ih
      · simp [spanOf, hc]

theorem spans_spanWidth : Spans spanWidth := by
  have hdigits : Spans (spanOf Char.isDigit) := spans_spanOf (by decide)
  intro text
  cases text with
  | nil => exact hdigits []
  | cons c rest =>
      by_cases hc : c = '*'
      · subst hc
        exact ⟨rfl, rfl⟩
      · have hwidth : ∀ behind, spanWidth (c :: behind) =
            spanOf Char.isDigit (c :: behind) := by
          intro behind
          rw [spanWidth]
          exact fun _ h => hc (List.cons.inj h).1
        rw [List.cons_append, hwidth, hwidth]
        exact hdigits (c :: rest)

theorem spans_spanPrecision : Spans spanPrecision := by
  have hdigits : Spans (spanOf Char.isDigit) := spans_spanOf (by decide)
  intro text
  cases text with
  | nil => exact ⟨rfl, rfl⟩
  | cons c rest =>
      by_cases hc : c = '.'
      · subst hc
        cases rest with
        | nil => exact ⟨rfl, rfl⟩
        | cons d tail =>
            by_cases hstar : d = '*'
            · subst hstar
              exact ⟨rfl, rfl⟩
            · by_cases hminus : d = '-'
              · subst hminus
                obtain ⟨hjoin, hline⟩ := hdigits tail
                simp [spanPrecision, hjoin, hline]
              · have hprecision : ∀ behind, spanPrecision ('.' :: d :: behind) =
                    ('.' :: (spanOf Char.isDigit (d :: behind)).1,
                      (spanOf Char.isDigit (d :: behind)).2) := by
                  intro behind
                  rw [spanPrecision]
                  · exact fun _ h => hstar (List.cons.inj h).1
                  · exact fun _ h => hminus (List.cons.inj h).1
                obtain ⟨hjoin, hline⟩ := hdigits (d :: tail)
                rw [List.cons_append, List.cons_append, hprecision, hprecision]
                rw [List.cons_append] at hline
                simp [hjoin, hline]
      · have hnone : ∀ behind, spanPrecision (c :: behind) =
            ([], c :: behind) := by
          intro behind
          rw [spanPrecision]
          · exact fun _ h => hc (List.cons.inj h).1
          · exact fun _ h => hc (List.cons.inj h).1
          · exact fun _ h => hc (List.cons.inj h).1
        rw [List.cons_append, hnone, hnone]
        exact ⟨rfl, rfl⟩

theorem spans_spanBoth {first last : Text → Text × Text}
    (hfirst : Spans first) (hlast : Spans last) :
    Spans (spanBoth first last) := by
  intro text
  obtain ⟨hjoin, hline⟩ := hfirst text
  obtain ⟨hjoin', hline'⟩ := hlast (first text).2
  constructor
  · rw [spanBoth, List.append_assoc, hjoin', hjoin]
  · simp only [spanBoth, hline, hline']

theorem spans_spanHead : Spans spanHead :=
  spans_spanBoth (spans_spanBoth (spans_spanOf (by decide)) spans_spanWidth)
    spans_spanPrecision

/-- A time format is closed the same way before a line end. -/
theorem closing_lineEnd (depth : Nat) (body : Text) :
    closing depth (body ++ lineEnd) =
      (closing depth body).map fun found => (found.1, found.2 ++ lineEnd) := by
  induction body generalizing depth with
  | nil => rfl
  | cons c rest ih =>
      rw [List.cons_append, closing, closing]
      split
      · rw [ih, Option.map_map, Option.map_map]
        rfl
      · split
        · split
          · rfl
          · rw [ih, Option.map_map, Option.map_map]
            rfl
        · rw [ih, Option.map_map, Option.map_map]
          rfl

theorem closing_join {depth : Nat} {body : Text} {found : Text × Text}
    (h : closing depth body = some found) :
    body = found.1 ++ ')' :: found.2 := by
  induction body generalizing depth found with
  | nil => cases h
  | cons c rest ih =>
      rw [closing] at h
      have hlater : ∀ {depth'}, ((closing depth' rest).map
          fun found => (c :: found.1, found.2)) = some found →
          c :: rest = found.1 ++ ')' :: found.2 := by
        intro depth' hfound
        obtain ⟨inner, hinner, rfl⟩ := Option.map_eq_some_iff.1 hfound
        rw [ih hinner]
        rfl
      split at h
      · exact hlater h
      · split at h
        · rename_i hclose
          split at h
          · obtain rfl := Option.some.inj h
            rw [hclose]
            rfl
          · exact hlater h
        · exact hlater h

/-- So is a time format. -/
theorem timeFormat_lineEnd (body : Text) :
    timeFormat (body ++ lineEnd) =
      (timeFormat body).map fun found => (found.1, found.2 ++ lineEnd) := by
  rw [timeFormat, timeFormat, closing_lineEnd]
  cases closing 0 body with
  | none => rfl
  | some found =>
      obtain ⟨time, behind⟩ := found
      cases behind with
      | nil => rfl
      | cons c behind =>
          by_cases hc : c = 'T'
          · subst hc
            rfl
          · simp [hc]

theorem timeFormat_join {body : Text} {found : Text × Text}
    (h : timeFormat body = some found) :
    body = found.1 ++ ')' :: 'T' :: found.2 := by
  rw [timeFormat] at h
  split at h
  · rename_i hclosing
    obtain rfl := Option.some.inj h
    exact closing_join hclosing
  · cases h

end Spans

section Falls

/-- What is written falls short of the part of the format it is written for: it
has fewer markers, or as many and fewer bytes, or it is another text of as many
markers and bytes. -/
def Falls (output part : Bytes) : Prop :=
  markers output < markers part ∨
    markers output = markers part ∧
      (output.length < part.length ∨
        output.length = part.length ∧ output ≠ part)

theorem Falls.ne {output part : Bytes} (h : Falls output part) :
    output ≠ part := by
  rintro rfl
  rcases h with h | ⟨_, h | ⟨_, h⟩⟩
  · exact absurd h (lt_irrefl _)
  · exact absurd h (lt_irrefl _)
  · exact h rfl

theorem markers_append (first last : Bytes) :
    markers (first ++ last) = markers first + markers last :=
  List.countP_append

/-- What falls short in one part falls short in all, unless another part makes
up for it. -/
theorem Falls.append {first last part part' : Bytes} (h : Falls first part)
    (h' : last = part' ∨ Falls last part') :
    Falls (first ++ last) (part ++ part') := by
  simp only [Falls, markers_append, List.length_append]
  rcases h' with rfl | h'
  · rcases h with h | ⟨hmarkers, h | ⟨hlength, h⟩⟩
    · exact .inl (by omega)
    · exact .inr ⟨by omega, .inl (by omega)⟩
    · refine .inr ⟨by omega, .inr ⟨by omega, ?_⟩⟩
      exact fun heq => h (List.append_cancel_right heq)
  · rcases h with h | ⟨hmarkers, h | ⟨hlength, h⟩⟩
    · rcases h' with h' | ⟨h', _⟩ <;> exact .inl (by omega)
    · rcases h' with h' | ⟨hmarkers', h' | ⟨hlength', _⟩⟩
      · exact .inl (by omega)
      · exact .inr ⟨by omega, .inl (by omega)⟩
      · exact .inr ⟨by omega, .inl (by omega)⟩
    · rcases h' with h' | ⟨hmarkers', h' | ⟨hlength', _⟩⟩
      · exact .inl (by omega)
      · exact .inr ⟨by omega, .inl (by omega)⟩
      · refine .inr ⟨by omega, .inr ⟨by omega, ?_⟩⟩
        exact fun heq => h (List.append_inj heq hlength).1

theorem Falls.behind {last part : Bytes} (first : Bytes)
    (h : Falls last part) : Falls (first ++ last) (first ++ part) := by
  simp only [Falls, markers_append, List.length_append]
  rcases h with h | ⟨hmarkers, h | ⟨hlength, h⟩⟩
  · exact .inl (by omega)
  · exact .inr ⟨by omega, .inl (by omega)⟩
  · refine .inr ⟨by omega, .inr ⟨by omega, ?_⟩⟩
    exact fun heq => h (List.append_cancel_left heq)

/-- A single byte falls short of a marker with something behind it. -/
theorem falls_byte (byte : UInt8) {marker : Char}
    (hmarker : marker = '%' ∨ marker = '\\') {rest : Text} (hne : rest ≠ []) :
    Falls [byte] (utf8 (marker :: rest)) := by
  have hone : markers (String.utf8EncodeChar marker) = 1 ∧
      (String.utf8EncodeChar marker).length = 1 := by
    rcases hmarker with rfl | rfl
    · exact ⟨rfl, rfl⟩
    · exact ⟨rfl, rfl⟩
  have hbyte : markers [byte] ≤ 1 := List.countP_le_length
  have hrest : 0 < (utf8 rest).length := by
    obtain ⟨c, tail, rfl⟩ := List.exists_cons_of_ne_nil hne
    rw [utf8_cons, List.length_append]
    have hc := List.length_pos_of_ne_nil (String.utf8EncodeChar_ne_nil (c := c))
    omega
  rw [Falls, utf8_cons, markers_append, List.length_append, hone.1, hone.2]
  simp only [List.length_singleton]
  by_cases hmarkers : markers [byte] < 1 + markers (utf8 rest)
  · exact .inl hmarkers
  · exact .inr ⟨by omega, .inl (by omega)⟩

theorem falls_unicode (P : Printf) (code : Nat) (rest : Text) :
    Falls (P.unicode code) (utf8 ('\\' :: rest)) := by
  have hone : markers (String.utf8EncodeChar '\\') = 1 := rfl
  refine .inl ?_
  rw [P.unicode_markers, utf8_cons, markers_append, hone]
  omega

end Falls

section Directives

/-- What a directive may do with a character of a text before a line end: the
character stands for itself; or it does not, and the format is refused, or what
is written falls short of a part of the text; or the backslash at the end of
the text takes the one of the line end away. -/
inductive Takes (c : Char) (rest : Text) : Option (Bytes × Text) → Prop
  | stands (h : stands c rest = true) :
      Takes c rest (some (String.utf8EncodeChar c, rest ++ lineEnd))
  | refused (h : Bodhi.stands c rest = false) : Takes c rest none
  | falls (h : Bodhi.stands c rest = false) {output : Bytes} {taken left : Text}
      (hrest : rest = taken ++ left) (hfalls : Falls output (utf8 (c :: taken))) :
      Takes c rest (some (output, left ++ lineEnd))
  | last (hc : c = '\\') (hrest : rest = []) :
      Takes c rest (some ([92], ['n']))

theorem hexEscapes_ne_zero {c : Char} {most : Nat}
    (h : hexEscapes.lookup c = some most) : most ≠ 0 := by
  obtain ⟨before, behind, hsplit, _⟩ := List.lookup_eq_some_iff.1 h
  have hmem : (c, most) ∈ hexEscapes := by
    rw [hsplit]
    simp
  have hall : ∀ found ∈ hexEscapes, found.2 ≠ 0 := by decide
  exact hall _ hmem

theorem spanUpTo_eq_nil_iff {p : Char → Bool} {most : Nat} (h : most ≠ 0)
    (text : Text) :
    (spanUpTo p most text).1 = [] ↔ ¬ text.head?.any p = true := by
  obtain ⟨n, rfl⟩ := Nat.exists_eq_succ_of_ne_zero h
  cases text with
  | nil => simp [spanUpTo]
  | cons c rest =>
      by_cases hc : p c = true
      · simp [spanUpTo, hc]
      · simp [spanUpTo, hc]

/-- An escape in hexadecimal has a digit. -/
theorem takes_hexEscape (P : Printf) {c : Char} {most : Nat} (tail : Text)
    (hletter : letterEscapes.lookup c = none)
    (hoctal : isOctalDigit c = false) (hhex : hexEscapes.lookup c = some most) :
    Takes '\\' (c :: tail) (some (escape P (c :: (tail ++ lineEnd)))) := by
  obtain ⟨hjoin, hline⟩ :=
    spans_spanUpTo (p := isHexDigit) (by decide) most tail
  have hdigits :=
    spanUpTo_eq_nil_iff (p := isHexDigit) (hexEscapes_ne_zero hhex) tail
  simp only [escape, hletter, hoctal, hhex, Bool.false_eq_true, if_false, hline]
  by_cases hempty : (spanUpTo isHexDigit most tail).1 = []
  · simp only [hempty, if_true]
    refine .stands ?_
    have hhead := hdigits.1 hempty
    rw [Bool.not_eq_true] at hhead
    simp [stands, opensEscape, hletter, hoctal, hhead]
  · have hhead := not_not.1 (mt hdigits.2 hempty)
    have hstands : stands '\\' (c :: tail) = false := by
      simp [stands, opensEscape, hhex, hhead]
    have htaken : c :: tail = (c :: (spanUpTo isHexDigit most tail).1) ++
        (spanUpTo isHexDigit most tail).2 := by
      rw [List.cons_append, hjoin]
    simp only [hempty, if_false]
    split
    · exact .falls hstands htaken
        (falls_byte _ (.inr rfl) (List.cons_ne_nil _ _))
    · exact .falls hstands htaken (falls_unicode P _ _)

theorem takes_escape (P : Printf) (rest : Text) :
    Takes '\\' rest (some (escape P (rest ++ lineEnd))) := by
  cases rest with
  | nil => exact .last rfl rfl
  | cons c tail =>
      rw [List.cons_append]
      cases hletter : letterEscapes.lookup c with
      | some byte =>
          have hstands : stands '\\' (c :: tail) = false := by
            simp [stands, opensEscape, hletter]
          have htaken : c :: tail = [c] ++ tail := rfl
          simp only [escape, hletter]
          exact .falls hstands htaken
            (falls_byte byte (.inr rfl) (List.cons_ne_nil _ _))
      | none =>
          by_cases hoctal : isOctalDigit c = true
          · obtain ⟨hjoin, hline⟩ :=
              spans_spanUpTo (p := isOctalDigit) (by decide) 3 (c :: tail)
            rw [List.cons_append] at hline
            simp only [escape, hletter, hoctal, if_true, hline]
            have hne : (spanUpTo isOctalDigit 3 (c :: tail)).1 ≠ [] := by
              simp [spanUpTo, hoctal]
            refine .falls ?_ hjoin.symm (falls_byte _ (.inr rfl) hne)
            simp [stands, opensEscape, hoctal]
          · rw [Bool.not_eq_true] at hoctal
            cases hhex : hexEscapes.lookup c with
            | none =>
                simp only [escape, hletter, hoctal, hhex]
                refine .stands ?_
                simp [stands, opensEscape, hletter, hoctal, hhex]
            | some most => exact takes_hexEscape P tail hletter hoctal hhex

/-- The parenthesis over the first modifier. -/
theorem falls_modifier (head : Text) {modifier : Char}
    (h : isModifier modifier = true) :
    Falls (utf8 ('%' :: (head ++ ['(']))) (utf8 ('%' :: (head ++ [modifier]))) := by
  have hone : Falls (utf8 ['(']) (utf8 [modifier]) := by
    have hmem : modifier ∈ ['h', 'j', 'l', 'L', 't', 'z'] := by
      simpa [isModifier] using h
    simp only [List.mem_cons, List.not_mem_nil, or_false] at hmem
    rcases hmem with rfl | rfl | rfl | rfl | rfl | rfl <;>
      exact .inr ⟨rfl, .inr ⟨rfl, by decide⟩⟩
  have hparenthesis := hone.behind (utf8 ('%' :: head))
  rwa [← utf8_append, ← utf8_append] at hparenthesis

/-- A percent sign stands for itself before a time format without its end;
another character in the way of the parenthesis is a modifier. -/
theorem stands_percent_iff {rest head modifiers behind : Text}
    (hhead : spanHead rest = (head, modifiers ++ behind))
    (hmodifier : ∀ c ∈ modifiers, isModifier c = true) :
    stands '%' rest = true ↔
      modifiers = [] ∧
        ∃ body, behind = '(' :: body ∧ timeFormat body = none := by
  have hpercent : stands '%' rest = opensNothing rest := rfl
  rw [hpercent, opensNothing, hhead]
  cases modifiers with
  | nil =>
      dsimp only [List.nil_append]
      split
      · simp
      · rename_i hnone
        simp only [Bool.false_eq_true, true_and, false_iff, not_exists, not_and]
        exact fun body hbody => absurd hbody (hnone body)
  | cons modifier others =>
      have hfirst := hmodifier modifier List.mem_cons_self
      dsimp only [List.cons_append]
      split
      · rename_i hparenthesis
        obtain ⟨rfl, _⟩ := List.cons.inj hparenthesis
        exact absurd hfirst (by decide)
      · simp

/-- What a conversion writes has fewer markers than the conversion. -/
theorem takes_convert (P : Printf) {rest taken left : Text}
    (htaken : rest = taken ++ left) (hstands : stands '%' rest = false) :
    Takes '%' rest ((P.convert ('%' :: taken)).map (·, left ++ lineEnd)) := by
  cases houtput : P.convert ('%' :: taken) with
  | none => exact .refused hstands
  | some output =>
      exact .falls hstands htaken (.inl (P.convert_markers houtput))

/-- A time format without its end is written as it is, unless a modifier is in
the way of its parenthesis. -/
theorem takes_takenBack {rest head modifiers body : Text}
    (hhead : spanHead rest = (head, modifiers ++ '(' :: body))
    (hrest : rest = head ++ (modifiers ++ '(' :: body))
    (hmodifier : ∀ c ∈ modifiers, isModifier c = true)
    (htime : timeFormat body = none) :
    Takes '%' rest (some (takenBack head modifiers (body ++ lineEnd))) := by
  have hiff := stands_percent_iff hhead hmodifier
  cases modifiers with
  | nil =>
      have hstands := Takes.stands (hiff.2 ⟨rfl, body, rfl, htime⟩)
      have hbehind : rest ++ lineEnd = head ++ '(' :: (body ++ lineEnd) := by
        rw [hrest]
        simp
      rw [hbehind] at hstands
      exact hstands
  | cons modifier others =>
      have hfalls := falls_modifier head (hmodifier modifier List.mem_cons_self)
      have hstands : stands '%' rest = false := by
        rw [← Bool.not_eq_true, hiff]
        simp
      have htaken : rest = (head ++ [modifier]) ++ (others ++ '(' :: body) := by
        rw [hrest]
        simp
      have htakes := Takes.falls hstands htaken hfalls
      rwa [List.append_assoc] at htakes

theorem takes_conversion (P : Printf) (rest : Text) :
    Takes '%' rest (conversion P (rest ++ lineEnd)) := by
  obtain ⟨hjoin, hline⟩ := spans_spanHead rest
  obtain ⟨hjoin', hline'⟩ :=
    spans_spanOf (p := isModifier) (by decide) (spanHead rest).2
  have hmodifier : ∀ c ∈ (spanOf isModifier (spanHead rest).2).1,
      isModifier c = true := fun c hc => List.mem_takeWhile_imp hc
  rw [conversion]
  simp only [hline, hline']
  generalize hhead : spanHead rest = split at *
  obtain ⟨head, middle⟩ := split
  generalize spanOf isModifier middle = split at *
  obtain ⟨modifiers, behind⟩ := split
  dsimp only at *
  subst hjoin'
  have hiff := stands_percent_iff hhead hmodifier
  cases behind with
  | nil =>
      refine .refused ?_
      rw [← Bool.not_eq_true, hiff]
      simp
  | cons letter left =>
      rw [List.cons_append]
      dsimp only
      by_cases hletter : letter = '('
      · subst hletter
        rw [if_pos rfl, timeFormat_lineEnd]
        cases htime : timeFormat left with
        | none => exact takes_takenBack hhead hjoin.symm hmodifier htime
        | some found =>
            refine takes_convert P ?_ ?_
            · rw [← hjoin, timeFormat_join htime]
              simp
            · rw [← Bool.not_eq_true, hiff]
              rintro ⟨_, body, hbody, hopen⟩
              rw [← (List.cons.inj hbody).2, htime] at hopen
              cases hopen
      · have hstands : stands '%' rest = false := by
          rw [← Bool.not_eq_true, hiff]
          rintro ⟨_, body, hbody, _⟩
          exact hletter (List.cons.inj hbody).1
        rw [if_neg hletter]
        split
        · refine takes_convert P ?_ hstands
          rw [← hjoin]
          simp
        · exact .refused hstands

theorem Takes.of_stands {c : Char} {rest : Text}
    {result : Option (Bytes × Text)} (h : Takes c rest result)
    (hstands : Bodhi.stands c rest = true) :
    result = some (String.utf8EncodeChar c, rest ++ lineEnd) := by
  cases h with
  | stands => rfl
  | refused hno =>
      rw [hstands] at hno
      cases hno
  | falls hno =>
      rw [hstands] at hno
      cases hno
  | last hc hrest =>
      subst hc
      subst hrest
      cases hstands

theorem takes_directive (P : Printf) (c : Char) (rest : Text) :
    Takes c rest (directive P (c :: rest ++ lineEnd)) := by
  rw [List.cons_append, directive]
  by_cases hback : c = '\\'
  · subst hback
    exact takes_escape P rest
  · by_cases hpercent : c = '%'
    · subst hpercent
      rw [if_neg hback, if_pos rfl]
      cases rest with
      | nil => exact takes_conversion P []
      | cons d tail =>
          by_cases hd : d = '%'
          · subst hd
            have hstands : stands '%' ('%' :: tail) = false := rfl
            have htaken : '%' :: tail = ['%'] ++ tail := rfl
            exact .falls hstands htaken
              (falls_byte 37 (.inl rfl) (List.cons_ne_nil _ _))
          · rw [List.cons_append, List.head?_cons, if_neg (by simpa using hd)]
            exact takes_conversion P (d :: tail)
    · rw [if_neg hback, if_neg hpercent]
      exact .stands (by simp [stands, hback, hpercent])

end Directives

section Lines

variable (P : Printf)

/-- What is written for a text and a line end: the text and a newline where it
stands for itself, and otherwise something that falls short of them or ends in
the letter of the line end. -/
theorem written_lineEnd {steps : Nat} {text : Text} {output : Bytes}
    (h : written P steps (text ++ lineEnd) = some output) :
    (∃ front, output = front ++ [92, 110]) ∨
      output = utf8 text ++ [10] ∧ StandsForItself text ∨
        Falls output (utf8 text ++ [10]) := by
  induction steps generalizing text output with
  | zero => cases text <;> cases h
  | succ steps ih =>
      cases text with
      | nil =>
          have hnewline : written P (steps + 1) lineEnd = some [10] := by
            cases steps <;> rfl
          rw [List.nil_append, hnewline] at h
          exact .inr (.inl ⟨(Option.some.inj h).symm, trivial⟩)
      | cons c rest =>
          rw [List.cons_append, written] at h
          obtain ⟨⟨first, behind⟩, hfirst, hlater⟩ :=
            Option.bind_eq_some_iff.1 h
          obtain ⟨last, hlast, hjoin⟩ := Option.bind_eq_some_iff.1 hlater
          obtain rfl := Option.some.inj hjoin
          have htakes := takes_directive P c rest
          rw [List.cons_append, hfirst] at htakes
          cases htakes with
          | stands hstands =>
              rcases ih hlast with ⟨front, rfl⟩ | ⟨rfl, hrest⟩ | hfalls
              · exact .inl ⟨_, (List.append_assoc _ _ _).symm⟩
              · refine .inr (.inl ⟨?_, hstands, hrest⟩)
                rw [utf8_cons, List.append_assoc]
              · refine .inr (.inr ?_)
                rw [utf8_cons, List.append_assoc]
                exact hfalls.behind _
          | falls hstands hrest hfalls =>
              rename_i taken left
              have hpart : utf8 (c :: rest) ++ [10] =
                  utf8 (c :: taken) ++ (utf8 left ++ [10]) := by
                rw [hrest, ← List.cons_append, utf8_append, List.append_assoc]
              rcases ih hlast with ⟨front, rfl⟩ | ⟨rfl, _⟩ | hfalls'
              · exact .inl ⟨_, (List.append_assoc _ _ _).symm⟩
              · exact .inr (.inr (hpart ▸ hfalls.append (.inl rfl)))
              · exact .inr (.inr (hpart ▸ hfalls.append (.inr hfalls')))
          | last hc hrest =>
              have hletter : written P steps ['n'] = some [110] ∨
                  written P steps ['n'] = none := by
                rcases steps with _ | _ | steps
                · exact .inr rfl
                · exact .inl rfl
                · exact .inl rfl
              rcases hletter with hletter | hletter
              · rw [hletter] at hlast
                obtain rfl := Option.some.inj hlast
                exact .inl ⟨[], rfl⟩
              · rw [hletter] at hlast
                cases hlast

theorem written_of_stands {text : Text} (h : StandsForItself text)
    {steps : Nat} (hsteps : text.length < steps) :
    written P steps (text ++ lineEnd) = some (utf8 text ++ [10]) := by
  induction text generalizing steps with
  | nil =>
      obtain ⟨n, rfl⟩ := Nat.exists_eq_succ_of_ne_zero (by omega : steps ≠ 0)
      cases n <;> rfl
  | cons c rest ih =>
      obtain ⟨n, rfl⟩ := Nat.exists_eq_succ_of_ne_zero (by omega : steps ≠ 0)
      have hdirective : directive P (c :: (rest ++ lineEnd)) =
          some (String.utf8EncodeChar c, rest ++ lineEnd) := by
        have htakes := takes_directive P c rest
        rw [List.cons_append] at htakes
        exact htakes.of_stands h.1
      have hshort : rest.length < n := by
        rw [List.length_cons] at hsteps
        omega
      have hlater := ih h.2 hshort
      rw [List.cons_append, written, hdirective]
      simp only [Option.bind_eq_bind, Option.bind_some, hlater, Option.pure_def]
      rw [utf8_cons, List.append_assoc]

/-- A text and its line end are printed as they are exactly if the text stands
for itself. -/
theorem printf_lineEnd_iff (text : Text) :
    printf P (text ++ lineEnd) = some (utf8 text ++ [10]) ↔
      StandsForItself text := by
  constructor
  · intro h
    rcases written_lineEnd P h with ⟨front, hfront⟩ | ⟨_, hstands⟩ | hfalls
    · have hlast := congrArg List.getLast? hfront
      simp at hlast
    · exact hstands
    · exact absurd rfl hfalls.ne
  · intro h
    refine written_of_stands P h ?_
    simp [lineEnd]

/-- What is not a marker in front of a text changes nothing. -/
theorem standsForItself_append {front : Text}
    (h : ∀ c ∈ front, c ≠ '%' ∧ c ≠ '\\') (text : Text) :
    StandsForItself (front ++ text) ↔ StandsForItself text := by
  induction front with
  | nil => rfl
  | cons c front ih =>
      obtain ⟨hpercent, hback⟩ := h c List.mem_cons_self
      rw [List.cons_append, StandsForItself,
        ih fun d hd => h d (List.mem_cons_of_mem _ hd)]
      simp [stands, hpercent, hback]

end Lines

end Bodhi
