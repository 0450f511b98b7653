/-
JSON texts: values, their indented printing, and a reader for a sequence of
values that stops at the first error.
-/
import Mathlib.Data.List.Nodup
import Bodhi.ShellText

namespace Bodhi

/-- A JSON value; a number is kept as its literal. -/
inductive Json where
  | null
  | bool (value : Bool)
  | num (literal : Text)
  | str (value : Text)
  | arr (items : List Json)
  | obj (fields : List (Text × Json))

/-- The tokens of a JSON text; a word is a keyword or a number. -/
inductive Token where
  | openArr | closeArr | openObj | closeObj | comma | colon
  | word (literal : Text)
  | str (value : Text)
deriving DecidableEq

section Print

def hexDigit (n : Nat) : Char :=
  if n < 10 then Char.ofNat (48 + n) else Char.ofNat (87 + n)

/-- The letters of the short escapes and the characters they stand for. -/
def shortEscapes : List (Char × Char) :=
  [('"', '"'), ('\\', '\\'), ('n', '\n'), ('t', '\t'), ('r', '\r'),
    ('b', '\x08'), ('f', '\x0c')]

def escapeChar (c : Char) : Text :=
  match shortEscapes.find? (·.2 = c) with
  | some (letter, _) => ['\\', letter]
  | none =>
      if c.toNat < 32 ∨ c.toNat = 127 then
        ['\\', 'u', '0', '0', hexDigit (c.toNat / 16), hexDigit (c.toNat % 16)]
      else [c]

def printString (value : Text) : Text :=
  '"' :: (value.flatMap escapeChar ++ ['"'])

def indent (depth : Nat) : Text :=
  '\n' :: List.replicate (2 * depth) ' '

mutual

/-- A value on several lines, indented by two spaces a level. -/
def printAt (depth : Nat) : Json → Text
  | .null => "null".toList
  | .bool true => "true".toList
  | .bool false => "false".toList
  | .num literal => literal
  | .str value => printString value
  | .arr items =>
      '[' :: (printItems (depth + 1) true items ++
        (if items.isEmpty then [] else indent depth) ++ [']'])
  | .obj fields =>
      '{' :: (printFields (depth + 1) true fields ++
        (if fields.isEmpty then [] else indent depth) ++ ['}'])

/-- The items of an array; the flag tells the first one, which no comma
precedes. -/
def printItems (depth : Nat) (first : Bool) : List Json → Text
  | [] => []
  | item :: items =>
      (if first then [] else [',']) ++ indent depth ++ printAt depth item ++
        printItems depth false items

def printFields (depth : Nat) (first : Bool) : List (Text × Json) → Text
  | [] => []
  | (key, value) :: fields =>
      (if first then [] else [',']) ++ indent depth ++ printString key ++
        [':', ' '] ++ printAt depth value ++ printFields depth false fields

end

def printJson (value : Json) : Text :=
  printAt 0 value

end Print

section Scan

def hexValue (c : Char) : Option Nat :=
  if '0' ≤ c ∧ c ≤ '9' then some (c.toNat - 48)
  else if 'a' ≤ c ∧ c ≤ 'f' then some (c.toNat - 87)
  else if 'A' ≤ c ∧ c ≤ 'F' then some (c.toNat - 55)
  else none

def isJsonSpace (c : Char) : Bool :=
  c == ' ' || c == '\n' || c == '\t' || c == '\r'

def punctuation (c : Char) : Option Token :=
  if c = '[' then some .openArr
  else if c = ']' then some .closeArr
  else if c = '{' then some .openObj
  else if c = '}' then some .closeObj
  else if c = ',' then some .comma
  else if c = ':' then some .colon
  else none

/-- Where the scanner stands: between tokens, in a word, or in a string, there
possibly after a backslash or in the digits of a code point. -/
inductive ScanMode where
  | plain
  | word (done : Text)
  | string (done : Text)
  | escape (done : Text)
  | code (done : Text) (digits value : Nat)

/-- The character of a code point; half a surrogate pair has none. -/
def codeChar (value : Nat) : Char :=
  if value.isValidChar then Char.ofNat value else '\uFFFD'

/-- The tokens of a text up to its first error. -/
def scan : ScanMode → Text → List Token
  | .plain, [] => []
  | .word done, [] => [.word done]
  | .string _, [] => []
  | .escape _, [] => []
  | .code _ _ _, [] => []
  | .plain, c :: rest =>
      if isJsonSpace c then scan .plain rest
      else if c = '"' then scan (.string []) rest
      else
        match punctuation c with
        | some token => token :: scan .plain rest
        | none => scan (.word [c]) rest
  | .word done, c :: rest =>
      if isJsonSpace c then .word done :: scan .plain rest
      else if c = '"' then .word done :: scan (.string []) rest
      else
        match punctuation c with
        | some token => .word done :: token :: scan .plain rest
        | none => scan (.word (done ++ [c])) rest
  | .string done, c :: rest =>
      if c = '"' then .str done :: scan .plain rest
      else if c = '\\' then scan (.escape done) rest
      else if c.toNat < 32 then []
      else scan (.string (done ++ [c])) rest
  | .escape done, c :: rest =>
      match shortEscapes.lookup c with
      | some d => scan (.string (done ++ [d])) rest
      | none =>
          if c = '/' then scan (.string (done ++ [c])) rest
          else if c = 'u' then scan (.code done 0 0) rest
          else []
  | .code done digits value, c :: rest =>
      match hexValue c with
      | none => []
      | some digit =>
          if digits < 3 then
            scan (.code done (digits + 1) (16 * value + digit)) rest
          else scan (.string (done ++ [codeChar (16 * value + digit)])) rest

end Scan

section Read

/-- The digits after an `e`, with an optional sign. -/
def isExponent : Text → Bool
  | '+' :: digits => digits ≠ [] && digits.all Char.isDigit
  | '-' :: digits => digits ≠ [] && digits.all Char.isDigit
  | digits => digits ≠ [] && digits.all Char.isDigit

/-- What may follow the integer part of a number. -/
def isNumberEnd (text : Text) : Bool :=
  let fraction := text.tail.takeWhile Char.isDigit
  let ending := text.tail.dropWhile Char.isDigit
  if text.head? = some '.' then
    fraction ≠ [] && (ending = [] ||
      (ending.head? ∈ [some 'e', some 'E'] && isExponent ending.tail))
  else text = [] ||
    (text.head? ∈ [some 'e', some 'E'] && isExponent text.tail)

def isNumberChar (c : Char) : Bool :=
  c.isDigit || ['-', '+', '.', 'e', 'E'].contains c

/-- The number literals of JSON. -/
def isNumber (text : Text) : Bool :=
  let body := if text.head? = some '-' then text.tail else text
  let whole := body.takeWhile Char.isDigit
  text.all isNumberChar && whole ≠ [] &&
    (whole = ['0'] || whole.head? ≠ some '0') &&
    isNumberEnd (body.dropWhile Char.isDigit)

def wordValue (text : Text) : Option Json :=
  if text = "null".toList then some .null
  else if text = "true".toList then some (.bool true)
  else if text = "false".toList then some (.bool false)
  else if isNumber text then some (.num text)
  else none

/-- A later field replaces an earlier one of the same key. -/
def setField (key : Text) (value : Json) :
    List (Text × Json) → List (Text × Json)
  | [] => [(key, value)]
  | (key', value') :: fields =>
      if key' = key then (key, value) :: fields
      else (key', value') :: setField key value fields

/-- An array or object that is still open; an object has the key whose value
is read. -/
inductive Frame where
  | items (done : List Json)
  | fields (done : List (Text × Json)) (key : Text)

/-- What the reader looks for. -/
inductive Need where
  | value | item | next | field | key | colon
deriving DecidableEq

structure Reader where
  stack : List Frame
  need : Need

/-- Hand a complete value to the frame it belongs to, or give it out. -/
def deliver (value : Json) : List Frame → List Json × Reader
  | [] => ([value], ⟨[], .value⟩)
  | .items done :: stack => ([], ⟨.items (done ++ [value]) :: stack, .next⟩)
  | .fields done key :: stack =>
      ([], ⟨.fields (setField key value done) [] :: stack, .next⟩)

/-- The start of a value. -/
def readValue (stack : List Frame) : Token → Option (List Json × Reader)
  | .openArr => some ([], ⟨.items [] :: stack, .item⟩)
  | .openObj => some ([], ⟨.fields [] [] :: stack, .field⟩)
  | .str value => some (deliver (.str value) stack)
  | .word literal => (wordValue literal).map (deliver · stack)
  | _ => none

def readToken (reader : Reader) (token : Token) :
    Option (List Json × Reader) :=
  match reader.need, token, reader.stack with
  | .item, .closeArr, .items done :: stack => some (deliver (.arr done) stack)
  | .next, .closeArr, .items done :: stack => some (deliver (.arr done) stack)
  | .next, .comma, .items done :: stack =>
      some ([], ⟨.items done :: stack, .value⟩)
  | .next, .comma, .fields done key :: stack =>
      some ([], ⟨.fields done key :: stack, .key⟩)
  | .next, .closeObj, .fields done _ :: stack =>
      some (deliver (.obj done) stack)
  | .field, .closeObj, .fields done _ :: stack =>
      some (deliver (.obj done) stack)
  | .field, .str key, .fields done _ :: stack =>
      some ([], ⟨.fields done key :: stack, .colon⟩)
  | .key, .str key, .fields done _ :: stack =>
      some ([], ⟨.fields done key :: stack, .colon⟩)
  | .colon, .colon, stack => some ([], ⟨stack, .value⟩)
  | .value, token, stack => readValue stack token
  | .item, token, stack => readValue stack token
  | _, _, _ => none

/-- The values that the tokens complete before the first error. -/
def readTokens : Reader → List Token → List Json
  | _, [] => []
  | reader, token :: tokens =>
      match readToken reader token with
      | none => []
      | some (values, reader) => values ++ readTokens reader tokens

def readJson (text : Text) : List Json :=
  readTokens ⟨[], .value⟩ (scan .plain text)

end Read

section Tokens

mutual

/-- The tokens of a value. -/
def tokens : Json → List Token
  | .null => [.word "null".toList]
  | .bool true => [.word "true".toList]
  | .bool false => [.word "false".toList]
  | .num literal => [.word literal]
  | .str value => [.str value]
  | .arr items => .openArr :: (itemTokens true items ++ [.closeArr])
  | .obj fields => .openObj :: (fieldTokens true fields ++ [.closeObj])

def itemTokens (first : Bool) : List Json → List Token
  | [] => []
  | item :: items =>
      (if first then [] else [.comma]) ++ tokens item ++
        itemTokens false items

def fieldTokens (first : Bool) : List (Text × Json) → List Token
  | [] => []
  | (key, value) :: fields =>
      (if first then [] else [.comma]) ++ .str key :: .colon ::
        (tokens value ++ fieldTokens false fields)

end

/-- The values that printing can write: numbers are number literals, and no
object has a key twice. -/
inductive Json.Valid : Json → Prop
  | null : Valid .null
  | bool (value : Bool) : Valid (.bool value)
  | num {literal : Text} (h : isNumber literal = true) : Valid (.num literal)
  | str (value : Text) : Valid (.str value)
  | arr {items : List Json} (h : ∀ item ∈ items, Valid item) :
      Valid (.arr items)
  | obj {fields : List (Text × Json)} (hkeys : (fields.map Prod.fst).Nodup)
      (h : ∀ field ∈ fields, Valid field.2) : Valid (.obj fields)

end Tokens

section ScanPrint

/-- The characters that words are made of. -/
def isWordChar (c : Char) : Bool :=
  !isJsonSpace c && c != '"' && (punctuation c).isNone

/-- A text before which a word ends. -/
def Delimited (text : Text) : Prop :=
  ∀ c, text.head? = some c → isWordChar c = false

theorem delimited_nil : Delimited [] := by
  intro c h
  cases h

theorem delimited_cons {c : Char} (h : isWordChar c = false) (rest : Text) :
    Delimited (c :: rest) := by
  intro d hd
  obtain rfl : c = d := by simpa using hd
  exact h

/-- The two digits of a code below 128 are read back. -/
theorem hexDigit_code : ∀ n < 128,
    hexValue (hexDigit (n / 16)) = some (n / 16) ∧
      hexValue (hexDigit (n % 16)) = some (n % 16) := by
  decide

theorem codeChar_toNat (c : Char) : codeChar c.toNat = c := by
  have hvalid : c.toNat.isValidChar := c.valid
  rw [codeChar, if_pos hvalid, Char.ofNat_toNat]

theorem scan_codeEscape (done rest : Text) {c : Char} (hc : c.toNat < 128) :
    scan (.string done) (['\\', 'u', '0', '0', hexDigit (c.toNat / 16),
      hexDigit (c.toNat % 16)] ++ rest) =
        scan (.string (done ++ [c])) rest := by
  obtain ⟨hhigh, hlow⟩ := hexDigit_code c.toNat hc
  have hzero : hexValue '0' = some 0 := by decide
  have hletter : shortEscapes.lookup 'u' = none := by decide
  have hcode : 16 * (c.toNat / 16) + c.toNat % 16 = c.toNat :=
    Nat.div_add_mod c.toNat 16
  simp [scan, hletter, hzero, hhigh, hlow, hcode, codeChar_toNat]

/-- The escape of a character is read as that character. -/
theorem scan_escapeChar (done : Text) (c : Char) (rest : Text) :
    scan (.string done) (escapeChar c ++ rest) =
      scan (.string (done ++ [c])) rest := by
  rw [escapeChar]
  cases hfind : shortEscapes.find? (·.2 = c) with
  | some pair =>
      have hlookup : ∀ pair ∈ shortEscapes,
          shortEscapes.lookup pair.1 = some pair.2 := by decide
      have hpair := hlookup pair (List.mem_of_find?_eq_some hfind)
      have hc : pair.2 = c := by simpa using List.find?_some hfind
      simp [scan, hpair, hc]
  | none =>
      have hshort : ∀ pair ∈ shortEscapes, pair.2 ≠ c := by
        simpa using hfind
      have hquote : c ≠ '"' := Ne.symm (hshort ('"', '"') (by decide))
      have hback : c ≠ '\\' := Ne.symm (hshort ('\\', '\\') (by decide))
      by_cases hcontrol : c.toNat < 32 ∨ c.toNat = 127
      · rw [if_pos hcontrol]
        exact scan_codeEscape done rest (by omega)
      · rw [not_or] at hcontrol
        simp [scan, hquote, hback, hcontrol]

theorem scan_printString (value rest : Text) :
    scan .plain (printString value ++ rest) =
      .str value :: scan .plain rest := by
  have hchars : ∀ done, scan (.string done)
      (value.flatMap escapeChar ++ '"' :: rest) =
        .str (done ++ value) :: scan .plain rest := by
    induction value with
    | nil => intro done; simp [scan]
    | cons c value ih =>
        intro done
        rw [List.flatMap_cons, List.append_assoc, scan_escapeChar, ih,
          List.append_assoc, List.singleton_append]
  simpa [printString, scan, isJsonSpace] using hchars []

theorem scan_indent (depth : Nat) (rest : Text) :
    scan .plain (indent depth ++ rest) = scan .plain rest := by
  have hblanks : ∀ n, scan .plain (List.replicate n ' ' ++ rest) =
      scan .plain rest := by
    intro n
    induction n with
    | zero => rfl
    | succ n ih =>
        rw [List.replicate_succ, List.cons_append, scan]
        simpa [isJsonSpace] using ih
  simpa [indent, scan, isJsonSpace] using hblanks (2 * depth)

theorem scan_word_end {done rest : Text} (hrest : Delimited rest) :
    scan (.word done) rest = .word done :: scan .plain rest := by
  cases rest with
  | nil => simp [scan]
  | cons c rest =>
      have hc := hrest c rfl
      by_cases hspace : isJsonSpace c = true
      · simp [scan, hspace]
      · by_cases hquote : c = '"'
        · subst hquote
          rw [Bool.not_eq_true] at hspace
          simp [scan, hspace]
        · cases hpunct : punctuation c with
          | none => simp [isWordChar, hspace, hquote, hpunct] at hc
          | some token => simp [scan, hspace, hquote, hpunct]

theorem scan_word (word : Text) (hne : word ≠ [])
    (hword : ∀ c ∈ word, isWordChar c = true) {rest : Text}
    (hrest : Delimited rest) :
    scan .plain (word ++ rest) = .word word :: scan .plain rest := by
  have hchar : ∀ c, isWordChar c = true → isJsonSpace c = false ∧
      c ≠ '"' ∧ punctuation c = none := by
    intro c hc
    simpa [isWordChar, and_assoc] using hc
  have hloop : ∀ done last, (∀ c ∈ last, isWordChar c = true) →
      scan (.word done) (last ++ rest) =
        .word (done ++ last) :: scan .plain rest := by
    intro done last hlast
    induction last generalizing done with
    | nil => simpa using scan_word_end hrest
    | cons c last ih =>
        obtain ⟨hspace, hquote, hpunct⟩ := hchar c (hlast c (by simp))
        have htail := ih (done ++ [c]) fun d hd => hlast d (by simp [hd])
        simpa [scan, hspace, hquote, hpunct] using htail
  obtain ⟨c, last, rfl⟩ := List.exists_cons_of_ne_nil hne
  obtain ⟨hspace, hquote, hpunct⟩ := hchar c (hword c (by simp))
  have htail := hloop [c] last fun d hd => hword d (by simp [hd])
  simpa [scan, hspace, hquote, hpunct] using htail

theorem isWordChar_of_isNumberChar {c : Char} (h : isNumberChar c = true) :
    isWordChar c = true := by
  have hno : ∀ d ∈ [' ', '\n', '\t', '\r', '"', '[', ']', '{', '}', ',', ':'],
      c ≠ d := by
    rintro d hd rfl
    have hnumber : ([' ', '\n', '\t', '\r', '"', '[', ']', '{', '}', ',',
        ':'].any isNumberChar) = false := by decide
    exact List.any_eq_false.1 hnumber c hd h
  simp only [List.mem_cons, List.not_mem_nil, or_false, forall_eq_or_imp,
    forall_eq] at hno
  simp [isWordChar, isJsonSpace, punctuation, hno]

theorem isNumber_word {literal : Text} (h : isNumber literal = true) :
    literal ≠ [] ∧ ∀ c ∈ literal, isWordChar c = true := by
  simp only [isNumber, Bool.and_eq_true, List.all_eq_true] at h
  obtain ⟨⟨⟨hchars, hwhole⟩, _⟩, _⟩ := h
  refine ⟨?_, fun c hc => isWordChar_of_isNumberChar (hchars c hc)⟩
  rintro rfl
  simp at hwhole

theorem scan_punctuation {c : Char} {token : Token} {rest : Text}
    (hspace : isJsonSpace c = false) (hquote : c ≠ '"')
    (h : punctuation c = some token) :
    scan .plain (c :: rest) = token :: scan .plain rest := by
  simp [scan, hspace, hquote, h]

/-- The scanner reads the tokens of the value wherever it is printed. -/
def ScansBack (value : Json) : Prop :=
  ∀ depth rest, Delimited rest →
    scan .plain (printAt depth value ++ rest) =
      tokens value ++ scan .plain rest

theorem delimited_indent (depth : Nat) (rest : Text) :
    Delimited (indent depth ++ rest) :=
  delimited_cons (by decide) _

theorem delimited_printItems (depth : Nat) (items : List Json) {rest : Text}
    (hrest : Delimited rest) :
    Delimited (printItems depth false items ++ rest) := by
  cases items with
  | nil => simpa [printItems] using hrest
  | cons item items => exact delimited_cons (by decide) _

theorem delimited_printFields (depth : Nat) (fields : List (Text × Json))
    {rest : Text} (hrest : Delimited rest) :
    Delimited (printFields depth false fields ++ rest) := by
  cases fields with
  | nil => simpa [printFields] using hrest
  | cons field fields => exact delimited_cons (by decide) _

theorem scan_comma (first : Bool) (rest : Text) :
    scan .plain ((if first then [] else [',']) ++ rest) =
      (if first then [] else [Token.comma]) ++ scan .plain rest := by
  cases first with
  | true => rfl
  | false => exact scan_punctuation (by decide) (by decide) (by decide)

theorem scan_printItems {items : List Json}
    (hitems : ∀ item ∈ items, ScansBack item) (depth : Nat) (first : Bool)
    {rest : Text} (hrest : Delimited rest) :
    scan .plain (printItems depth first items ++ rest) =
      itemTokens first items ++ scan .plain rest := by
  induction items generalizing first with
  | nil => rfl
  | cons item items ih =>
      have htail := ih (fun item h => hitems item (List.mem_cons_of_mem _ h))
        false
      have hitem := hitems item List.mem_cons_self depth _
        (delimited_printItems depth items hrest)
      rw [printItems, itemTokens]
      simp only [List.append_assoc]
      rw [scan_comma, scan_indent, hitem, htail]

theorem scan_printFields {fields : List (Text × Json)}
    (hfields : ∀ field ∈ fields, ScansBack field.2) (depth : Nat)
    (first : Bool) {rest : Text} (hrest : Delimited rest) :
    scan .plain (printFields depth first fields ++ rest) =
      fieldTokens first fields ++ scan .plain rest := by
  induction fields generalizing first with
  | nil => rfl
  | cons field fields ih =>
      obtain ⟨key, value⟩ := field
      have htail := ih (fun field h => hfields field (List.mem_cons_of_mem _ h))
        false
      have hvalue := hfields (key, value) List.mem_cons_self depth _
        (delimited_printFields depth fields hrest)
      have hcolon : ∀ text, scan .plain (':' :: ' ' :: text) =
          .colon :: scan .plain text := by
        intro text
        rw [scan_punctuation (by decide) (by decide) rfl]
        simp [scan, isJsonSpace]
      rw [printFields, fieldTokens]
      simp only [List.append_assoc, List.cons_append, List.nil_append]
      rw [scan_comma, scan_indent, scan_printString, hcolon, hvalue, htail]

/-- The end of an array or object, on a line of its own unless it is empty. -/
theorem scan_close (empty : Bool) (depth : Nat) (rest : Text) {c : Char}
    {token : Token} (hspace : isJsonSpace c = false) (hquote : c ≠ '"')
    (h : punctuation c = some token) :
    scan .plain ((if empty then [] else indent depth) ++ c :: rest) =
        token :: scan .plain rest ∧
      Delimited ((if empty then [] else indent depth) ++ c :: rest) := by
  have hclose : scan .plain (c :: rest) = token :: scan .plain rest :=
    scan_punctuation hspace hquote h
  cases empty with
  | true => exact ⟨hclose, delimited_cons (by simp [isWordChar, h]) _⟩
  | false => exact ⟨(scan_indent depth _).trans hclose, delimited_indent _ _⟩

/-- The scanner reads the tokens of a printed value. -/
theorem scan_printAt {value : Json} (hvalue : value.Valid) :
    ScansBack value := by
  induction hvalue with
  | null =>
      exact fun _ _ => scan_word "null".toList (by decide)
        (List.all_eq_true.1 (by decide))
  | bool value =>
      cases value with
      | true =>
          exact fun _ _ => scan_word "true".toList (by decide)
            (List.all_eq_true.1 (by decide))
      | false =>
          exact fun _ _ => scan_word "false".toList (by decide)
            (List.all_eq_true.1 (by decide))
  | num h =>
      exact fun _ _ => scan_word _ (isNumber_word h).1 (isNumber_word h).2
  | str value => exact fun _ rest _ => scan_printString value rest
  | @arr items _ ih =>
      intro depth rest _
      obtain ⟨hclose, hend⟩ := scan_close items.isEmpty depth rest
        (show isJsonSpace ']' = false by decide) (by decide) rfl
      rw [printAt, tokens]
      simp only [List.append_assoc, List.cons_append, List.nil_append]
      rw [scan_punctuation (by decide) (by decide) rfl,
        scan_printItems ih _ _ hend, hclose]
  | @obj fields _ _ ih =>
      intro depth rest _
      obtain ⟨hclose, hend⟩ := scan_close fields.isEmpty depth rest
        (show isJsonSpace '}' = false by decide) (by decide) rfl
      rw [printAt, tokens]
      simp only [List.append_assoc, List.cons_append, List.nil_append]
      rw [scan_punctuation (by decide) (by decide) rfl,
        scan_printFields ih _ _ hend, hclose]

end ScanPrint

section ReadTokens

theorem wordValue_null : wordValue "null".toList = some .null := by
  rfl

theorem wordValue_bool (value : Bool) :
    wordValue (if value then "true".toList else "false".toList) =
      some (.bool value) := by
  cases value <;> rfl

/-- No number is a keyword. -/
theorem wordValue_num {literal : Text} (h : isNumber literal = true) :
    wordValue literal = some (.num literal) := by
  have hkeyword : ∀ word, isNumber word = false → literal ≠ word := by
    rintro word hword rfl
    rw [h] at hword
    cases hword
  rw [wordValue, if_neg (hkeyword _ (by decide)),
    if_neg (hkeyword _ (by decide)), if_neg (hkeyword _ (by decide)), if_pos h]

/-- A key that an object does not have yet is added at its end. -/
theorem setField_of_not_mem {key : Text} {fields : List (Text × Json)}
    (h : key ∉ fields.map Prod.fst) (value : Json) :
    setField key value fields = fields ++ [(key, value)] := by
  induction fields with
  | nil => rfl
  | cons field fields ih =>
      obtain ⟨key', value'⟩ := field
      simp only [List.map_cons, List.mem_cons, not_or] at h
      rw [setField, if_neg (Ne.symm h.1), ih h.2, List.cons_append]

/-- A value, and then what is read on. -/
def readOn (delivered : List Json × Reader) (tokens : List Token) :
    List Json :=
  delivered.1 ++ readTokens delivered.2 tokens

theorem readTokens_cons {reader : Reader} {token : Token}
    {delivered : List Json × Reader}
    (h : readToken reader token = some delivered) (rest : List Token) :
    readTokens reader (token :: rest) = readOn delivered rest := by
  rw [readTokens, h]
  rfl

/-- The reader delivers the value whose tokens it reads, wherever a value may
start. -/
def ReadsBack (value : Json) : Prop :=
  ∀ stack need rest, need = .value ∨ need = .item →
    readTokens ⟨stack, need⟩ (tokens value ++ rest) =
      readOn (deliver value stack) rest

theorem readTokens_comma (first : Bool) (done : List Json)
    (stack : List Frame) (rest : List Token) :
    readTokens ⟨.items done :: stack, if first then .item else .next⟩
        ((if first then [] else [Token.comma]) ++ rest) =
      readTokens ⟨.items done :: stack, if first then .item else .value⟩
        rest := by
  cases first <;> rfl

theorem readTokens_items {items : List Json}
    (hitems : ∀ item ∈ items, ReadsBack item) (first : Bool)
    (done : List Json) (stack : List Frame) (rest : List Token) :
    readTokens ⟨.items done :: stack, if first then .item else .next⟩
        (itemTokens first items ++ .closeArr :: rest) =
      readOn (deliver (.arr (done ++ items)) stack) rest := by
  induction items generalizing first done with
  | nil =>
      rw [itemTokens, List.nil_append, List.append_nil]
      exact readTokens_cons (by cases first <;> rfl) rest
  | cons item items ih =>
      have htail := ih (fun item h => hitems item (List.mem_cons_of_mem _ h))
        false (done ++ [item])
      have hitem := hitems item List.mem_cons_self (.items done :: stack)
        (if first then .item else .value)
        (itemTokens false items ++ .closeArr :: rest)
        (by cases first <;> simp)
      rw [itemTokens, List.append_assoc, List.append_assoc, readTokens_comma,
        hitem]
      simpa [readOn, deliver] using htail

theorem readTokens_fields {fields : List (Text × Json)}
    (hfields : ∀ field ∈ fields, ReadsBack field.2) (first : Bool)
    (done : List (Text × Json)) (key : Text) (stack : List Frame)
    (hkeys : ((done ++ fields).map Prod.fst).Nodup) (rest : List Token) :
    readTokens ⟨.fields done key :: stack, if first then .field else .next⟩
        (fieldTokens first fields ++ .closeObj :: rest) =
      readOn (deliver (.obj (done ++ fields)) stack) rest := by
  induction fields generalizing first done key with
  | nil =>
      rw [fieldTokens, List.nil_append, List.append_nil]
      exact readTokens_cons (by cases first <;> rfl) rest
  | cons field fields ih =>
      obtain ⟨key', value⟩ := field
      have hsplit : done ++ (key', value) :: fields =
          done ++ [(key', value)] ++ fields := by simp
      have htail := ih (fun field h => hfields field (List.mem_cons_of_mem _ h))
        false (done ++ [(key', value)]) [] (hsplit ▸ hkeys)
      have hvalue := hfields (key', value) List.mem_cons_self
        (.fields done key' :: stack) .value
        (fieldTokens false fields ++ .closeObj :: rest) (Or.inl rfl)
      have hfresh : key' ∉ done.map Prod.fst := by
        rw [hsplit, List.map_append, List.map_append] at hkeys
        intro hmem
        exact (List.nodup_append.1 (List.nodup_append.1 hkeys).1).2.2 _ hmem _
          List.mem_cons_self rfl
      have hkey : ∀ tokens, readTokens
          ⟨.fields done key :: stack, if first then .field else .next⟩
            ((if first then [] else [Token.comma]) ++
              .str key' :: .colon :: tokens) =
          readTokens ⟨.fields done key' :: stack, .value⟩ tokens := by
        intro tokens
        cases first <;> rfl
      rw [fieldTokens, List.append_assoc, List.cons_append, List.cons_append,
        List.append_assoc, hkey, hvalue]
      simpa [readOn, deliver, setField_of_not_mem hfresh] using htail

/-- The reader reads the tokens of a value back. -/
theorem readTokens_tokens {value : Json} (hvalue : value.Valid) :
    ReadsBack value := by
  have hword : ∀ {word : Text} {value : Json}, wordValue word = some value →
      ∀ stack need rest, need = .value ∨ need = .item →
        readTokens ⟨stack, need⟩ (.word word :: rest) =
          readOn (deliver value stack) rest := by
    intro word value h stack need rest hneed
    refine readTokens_cons ?_ rest
    rcases hneed with rfl | rfl <;> simp [readToken, readValue, h]
  induction hvalue with
  | null => exact hword wordValue_null
  | bool value =>
      cases value with
      | true => exact hword (wordValue_bool true)
      | false => exact hword (wordValue_bool false)
  | num h => exact hword (wordValue_num h)
  | str value =>
      rintro stack need rest (rfl | rfl) <;> exact readTokens_cons rfl rest
  | @arr items _ ih =>
      rintro stack need rest hneed
      have hopen : readToken ⟨stack, need⟩ .openArr =
          some ([], ⟨.items [] :: stack, .item⟩) := by
        rcases hneed with rfl | rfl <;> rfl
      have hitems := readTokens_items ih true [] stack rest
      rw [tokens, List.cons_append, List.append_assoc, readTokens_cons hopen]
      simpa [readOn] using hitems
  | @obj fields hkeys _ ih =>
      rintro stack need rest hneed
      have hopen : readToken ⟨stack, need⟩ .openObj =
          some ([], ⟨.fields [] [] :: stack, .field⟩) := by
        rcases hneed with rfl | rfl <;> rfl
      have hfields := readTokens_fields ih true [] [] stack hkeys rest
      rw [tokens, List.cons_append, List.append_assoc, readTokens_cons hopen]
      simpa [readOn] using hfields

end ReadTokens

/-- A printed value in front of a text is read first, if it does not run into
that text. -/
theorem readJson_printJson_append {value : Json} (hvalue : value.Valid)
    {rest : Text} (hrest : Delimited rest) :
    readJson (printJson value ++ rest) = value :: readJson rest := by
  rw [readJson, printJson, scan_printAt hvalue 0 _ hrest,
    readTokens_tokens hvalue _ _ _ (Or.inl rfl)]
  rfl

/-- A text that is one value and nothing else. -/
def readOneJson (text : Text) : Option Json :=
  match readJson text with
  | [value] => if scan .plain text = tokens value then some value else none
  | _ => none

@[simp] theorem readJson_nil : readJson [] = [] := rfl

theorem readJson_printJson {value : Json} (hvalue : value.Valid) :
    readJson (printJson value) = [value] := by
  simpa using readJson_printJson_append hvalue delimited_nil

theorem readOneJson_printJson {value : Json} (hvalue : value.Valid) :
    readOneJson (printJson value) = some value := by
  have hscan : scan .plain (printJson value) = tokens value := by
    simpa [printJson, scan] using scan_printAt hvalue 0 [] delimited_nil
  rw [readOneJson, readJson_printJson hvalue]
  exact if_pos hscan

section ReadValid

theorem mem_setField {key : Text} {value : Json} {fields : List (Text × Json)}
    {field : Text × Json} (h : field ∈ setField key value fields) :
    field = (key, value) ∨ field ∈ fields := by
  induction fields with
  | nil => exact Or.inl (List.mem_singleton.1 h)
  | cons head fields ih =>
      obtain ⟨key', value'⟩ := head
      by_cases hkey : key' = key
      · rw [setField, if_pos hkey, List.mem_cons] at h
        exact h.imp_right (List.mem_cons_of_mem _)
      · rw [setField, if_neg hkey, List.mem_cons] at h
        rcases h with rfl | h
        · exact Or.inr List.mem_cons_self
        · exact (ih h).imp_right (List.mem_cons_of_mem _)

theorem setField_keys_nodup {key : Text} {value : Json}
    {fields : List (Text × Json)} (h : (fields.map Prod.fst).Nodup) :
    ((setField key value fields).map Prod.fst).Nodup := by
  induction fields with
  | nil => simp [setField]
  | cons head fields ih =>
      obtain ⟨key', value'⟩ := head
      rw [List.map_cons, List.nodup_cons] at h
      by_cases hkey : key' = key
      · rw [setField, if_pos hkey, List.map_cons, List.nodup_cons]
        exact ⟨hkey ▸ h.1, h.2⟩
      · rw [setField, if_neg hkey, List.map_cons, List.nodup_cons]
        refine ⟨fun hmem => ?_, ih h.2⟩
        obtain ⟨field, hfield, hfst⟩ := List.mem_map.1 hmem
        rcases mem_setField hfield with rfl | hfield
        · exact hkey hfst.symm
        · exact h.1 (List.mem_map.2 ⟨field, hfield, hfst⟩)

def Frame.Valid : Frame → Prop
  | .items done => ∀ item ∈ done, item.Valid
  | .fields done _ =>
      (done.map Prod.fst).Nodup ∧ ∀ field ∈ done, field.2.Valid

/-- Only valid values are given out and kept. -/
def Delivered (delivered : List Json × Reader) : Prop :=
  (∀ value ∈ delivered.1, value.Valid) ∧
    ∀ frame ∈ delivered.2.stack, frame.Valid

theorem deliver_valid {value : Json} (hvalue : value.Valid)
    {stack : List Frame} (hstack : ∀ frame ∈ stack, frame.Valid) :
    Delivered (deliver value stack) := by
  cases stack with
  | nil => exact ⟨by simpa [deliver] using hvalue, by simp [deliver]⟩
  | cons frame stack =>
      have hframe := hstack frame List.mem_cons_self
      have hrest : ∀ frame ∈ stack, frame.Valid := fun frame h =>
        hstack frame (List.mem_cons_of_mem _ h)
      cases frame with
      | items done =>
          refine ⟨by simp [deliver], ?_⟩
          intro frame hmem
          rcases List.mem_cons.1 hmem with rfl | hmem
          · intro item hitem
            rcases List.mem_append.1 hitem with hitem | hitem
            · exact hframe item hitem
            · exact List.mem_singleton.1 hitem ▸ hvalue
          · exact hrest frame hmem
      | fields done key =>
          refine ⟨by simp [deliver], ?_⟩
          intro frame hmem
          rcases List.mem_cons.1 hmem with rfl | hmem
          · refine ⟨setField_keys_nodup hframe.1, ?_⟩
            intro field hfield
            rcases mem_setField hfield with rfl | hfield
            · exact hvalue
            · exact hframe.2 field hfield
          · exact hrest frame hmem

theorem wordValue_valid {literal : Text} {value : Json}
    (h : wordValue literal = some value) : value.Valid := by
  rw [wordValue] at h
  split at h
  · exact Option.some.inj h ▸ .null
  · split at h
    · exact Option.some.inj h ▸ .bool true
    · split at h
      · exact Option.some.inj h ▸ .bool false
      · split at h
        · next hnumber => exact Option.some.inj h ▸ .num hnumber
        · cases h

theorem readValue_valid {stack : List Frame} {token : Token}
    {delivered : List Json × Reader}
    (h : readValue stack token = some delivered)
    (hstack : ∀ frame ∈ stack, frame.Valid) : Delivered delivered := by
  have hopen : ∀ (frame : Frame) need, frame.Valid →
      Delivered ([], ⟨frame :: stack, need⟩) := by
    intro frame need hframe
    refine ⟨by simp, fun frame' hmem => ?_⟩
    rcases List.mem_cons.1 hmem with rfl | hmem
    · exact hframe
    · exact hstack frame' hmem
  cases token with
  | openArr => exact Option.some.inj h ▸ hopen (.items []) _ (by simp [Frame.Valid])
  | openObj =>
      exact Option.some.inj h ▸ hopen (.fields [] []) _ (by simp [Frame.Valid])
  | str value => exact Option.some.inj h ▸ deliver_valid (.str value) hstack
  | word literal =>
      obtain ⟨value, hvalue, rfl⟩ := Option.map_eq_some_iff.1 h
      exact deliver_valid (wordValue_valid hvalue) hstack
  | closeArr | closeObj | comma | colon => cases h

theorem readToken_valid {reader : Reader} {token : Token}
    {delivered : List Json × Reader}
    (h : readToken reader token = some delivered)
    (hstack : ∀ frame ∈ reader.stack, frame.Valid) : Delivered delivered := by
  obtain ⟨stack, need⟩ := reader
  have htail : ∀ {frame : Frame} {rest : List Frame}, stack = frame :: rest →
      frame.Valid ∧ ∀ frame ∈ rest, frame.Valid := by
    rintro frame rest rfl
    exact ⟨hstack frame List.mem_cons_self, fun frame h =>
      hstack frame (List.mem_cons_of_mem _ h)⟩
  have harr : ∀ {done rest}, stack = .items done :: rest →
      Delivered (deliver (.arr done) rest) := fun heq =>
    deliver_valid (.arr (htail heq).1) (htail heq).2
  have hobj : ∀ {done key rest}, stack = .fields done key :: rest →
      Delivered (deliver (.obj done) rest) := fun heq =>
    deliver_valid (.obj (htail heq).1.1 (htail heq).1.2) (htail heq).2
  have hkeep : ∀ {frame : Frame} {rest need}, frame.Valid →
      (∀ frame ∈ rest, frame.Valid) →
        Delivered ([], ⟨frame :: rest, need⟩) := by
    intro frame rest need hframe hrest
    refine ⟨by simp, fun frame' hmem => ?_⟩
    rcases List.mem_cons.1 hmem with rfl | hmem
    · exact hframe
    · exact hrest frame' hmem
  unfold readToken at h
  split at h
  · next heq => exact Option.some.inj h ▸ harr heq
  · next heq => exact Option.some.inj h ▸ harr heq
  · next heq => exact Option.some.inj h ▸ hkeep (htail heq).1 (htail heq).2
  · next heq => exact Option.some.inj h ▸ hkeep (htail heq).1 (htail heq).2
  · next heq => exact Option.some.inj h ▸ hobj heq
  · next heq => exact Option.some.inj h ▸ hobj heq
  · next heq => exact Option.some.inj h ▸ hkeep (htail heq).1 (htail heq).2
  · next heq => exact Option.some.inj h ▸ hkeep (htail heq).1 (htail heq).2
  · exact Option.some.inj h ▸ ⟨by simp, hstack⟩
  · exact readValue_valid h hstack
  · exact readValue_valid h hstack
  · cases h

/-- The values that the reader finds are valid. -/
theorem valid_of_mem_readJson {text : Text} {value : Json}
    (h : value ∈ readJson text) : value.Valid := by
  have hloop : ∀ tokens reader, (∀ frame ∈ reader.stack, frame.Valid) →
      ∀ value ∈ readTokens reader tokens, value.Valid := by
    intro tokens
    induction tokens with
    | nil => intro reader _ value hmem; cases hmem
    | cons token tokens ih =>
        intro reader hstack value hmem
        cases hstep : readToken reader token with
        | none => simp [readTokens, hstep] at hmem
        | some delivered =>
            obtain ⟨hout, hframes⟩ := readToken_valid hstep hstack
            rw [readTokens_cons hstep, readOn, List.mem_append] at hmem
            rcases hmem with hmem | hmem
            · exact hout value hmem
            · exact ih delivered.2 hframes value hmem
  exact hloop _ ⟨[], .value⟩ (by simp) value h

end ReadValid

theorem printJson_arr (items : List Json) :
    ∃ body, printJson (.arr items) = '[' :: (body ++ [']']) :=
  ⟨_, rfl⟩

/-- A printed value ends in a character of its own. -/
theorem printJson_last {value : Json} (hvalue : value.Valid) :
    ∃ c, (printJson value).getLast? = some c ∧ c ≠ '\n' := by
  cases hvalue with
  | null => exact ⟨'l', rfl, by decide⟩
  | bool value => cases value <;> exact ⟨'e', rfl, by decide⟩
  | @num literal h =>
      obtain ⟨hne, hword⟩ := isNumber_word h
      refine ⟨literal.getLast hne, List.getLast?_eq_some_getLast hne, ?_⟩
      intro hlast
      have hnewline := hword _ (List.getLast_mem hne)
      rw [hlast] at hnewline
      exact absurd hnewline (by decide)
  | str value =>
      refine ⟨'"', ?_, by decide⟩
      rw [printJson, printAt, printString, ← List.cons_append]
      exact List.getLast?_concat
  | @arr items h =>
      refine ⟨']', ?_, by decide⟩
      rw [printJson, printAt, ← List.cons_append]
      exact List.getLast?_concat
  | @obj fields hkeys h =>
      refine ⟨'}', ?_, by decide⟩
      rw [printJson, printAt, ← List.cons_append]
      exact List.getLast?_concat

end Bodhi
