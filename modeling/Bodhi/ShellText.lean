/-
Texts as a POSIX shell handles them: word splitting, command substitution,
`echo`, `tr`, parameter expansion with `%.*`, `basename`, and the numerals
that `test` and the process tools read.
-/
import Mathlib.Data.List.DropRight
import Bodhi.ListScan

namespace Bodhi

abbrev Text := List Char

instance : LawfulBEq Text := inferInstance

abbrev Bytes := List UInt8

/-- The bytes of a text in UTF-8. -/
def utf8 (text : Text) : Bytes :=
  text.flatMap String.utf8EncodeChar

theorem utf8_append (first last : Text) :
    utf8 (first ++ last) = utf8 first ++ utf8 last :=
  List.flatMap_append

theorem utf8_cons (c : Char) (rest : Text) :
    utf8 (c :: rest) = String.utf8EncodeChar c ++ utf8 rest :=
  List.flatMap_cons

/-- The characters that unquoted expansions are split at. -/
def isBlank (c : Char) : Bool :=
  c == ' ' || c == '\t' || c == '\n'

/-- The class `[[:space:]]` of the regular expression tools. -/
def isSpace (c : Char) : Bool :=
  isBlank c || c == '\r' || c == '\x0b' || c == '\x0c'

/-- A non-empty text that word splitting leaves in one piece. -/
structure Word where
  text : Text
  nonempty : text ≠ []
  solid : ∀ c ∈ text, isBlank c = false
deriving DecidableEq

def Word.ofText (text : Text)
    (h : text ≠ [] ∧ text.any isBlank = false) : Word where
  text := text
  nonempty := h.1
  solid := by simpa using h.2

/-- Word splitting of an unquoted expansion. -/
def splitWords (text : Text) : List Text :=
  fields isBlank text

/-- `$(...)` drops the newlines at the end of the output. -/
def commandSubst (output : Text) : Text :=
  output.rdropWhile (· == '\n')

/-- The output of `echo` in lines, each ended by a newline. -/
def unlines (lines : List Text) : Text :=
  lines.flatMap fun line => line ++ ['\n']

@[simp] theorem commandSubst_newline (text : Text) :
    commandSubst (text ++ ['\n']) = commandSubst text :=
  List.rdropWhile_concat_pos _ _ _ (by decide)

/-- A text that ends in another character is kept. -/
theorem commandSubst_of_last {text : Text}
    (h : ∀ hne : text ≠ [], text.getLast hne ≠ '\n') :
    commandSubst text = text := by
  rw [commandSubst, List.rdropWhile_eq_self_iff]
  intro hne
  simpa using h hne

theorem commandSubst_eq_nil_iff (text : Text) :
    commandSubst text = [] ↔ ∀ c ∈ text, c = '\n' := by
  simp [commandSubst, List.rdropWhile_eq_nil_iff]

/-- Newlines in front of a text are not dropped. -/
theorem commandSubst_append {first last : Text}
    (h : commandSubst last ≠ []) :
    commandSubst (first ++ last) = first ++ commandSubst last := by
  simp only [commandSubst, List.rdropWhile, List.reverse_append] at h ⊢
  have hne : last.reverse.dropWhile (· == '\n') ≠ [] := by simpa using h
  rw [List.dropWhile_append]
  simp [hne]

/-- Newlines behind a text are dropped. -/
theorem commandSubst_append_newlines (text : Text) {last : Text}
    (h : ∀ c ∈ last, c = '\n') :
    commandSubst (text ++ last) = commandSubst text := by
  induction last using List.reverseRecOn with
  | nil => rw [List.append_nil]
  | append_singleton last c ih =>
      obtain rfl : c = '\n' := h c (by simp)
      rw [← List.append_assoc, commandSubst_newline]
      exact ih fun d hd => h d (by simp [hd])

@[simp] theorem unlines_nil : unlines [] = [] := rfl

@[simp] theorem unlines_cons (line : Text) (lines : List Text) :
    unlines (line :: lines) = line ++ '\n' :: unlines lines := by
  simp [unlines]

theorem unlines_append (first last : List Text) :
    unlines (first ++ last) = unlines first ++ unlines last :=
  List.flatMap_append

/-- Lines of which all are empty leave nothing in a substitution. -/
theorem commandSubst_unlines_eq_nil_iff {lines : List Text}
    (hlines : ∀ line ∈ lines, '\n' ∉ line) :
    commandSubst (unlines lines) = [] ↔ ∀ line ∈ lines, line = [] := by
  rw [commandSubst_eq_nil_iff]
  constructor
  · intro h line hline
    rw [List.eq_nil_iff_forall_not_mem]
    intro c hc
    have hmem : c ∈ unlines lines :=
      List.mem_flatMap.2 ⟨line, hline, List.mem_append_left _ hc⟩
    exact hlines line hline (h c hmem ▸ hc)
  · intro h c hc
    obtain ⟨line, hline, hmem⟩ := List.mem_flatMap.1 hc
    simpa [h line hline] using hmem

/-- Around a line that is not empty, a substitution gives one line back only
if no line comes before it and none but empty lines after it. -/
theorem commandSubst_unlines_eq_iff {first last : List Text} {line word : Text}
    (hline : line ≠ []) (hword : '\n' ∉ word)
    (hlines : ∀ other ∈ first ++ line :: last, '\n' ∉ other) :
    commandSubst (unlines (first ++ line :: last)) = word ↔
      first = [] ∧ line = word ∧ ∀ other ∈ last, other = [] := by
  have hlast : ∀ other ∈ last, '\n' ∉ other := fun other h =>
    hlines other (by simp [h])
  have hown : '\n' ∉ line := hlines line (by simp)
  have hkeep : commandSubst line = line := by
    refine commandSubst_of_last fun hne heq => hown ?_
    exact heq ▸ List.getLast_mem hne
  have hrest : commandSubst (line ++ '\n' :: unlines last) ≠ [] := by
    rw [Ne, commandSubst_eq_nil_iff]
    intro h
    obtain ⟨c, rest, rfl⟩ := List.exists_cons_of_ne_nil hline
    exact hown (h c (by simp) ▸ List.mem_cons_self)
  rw [unlines_append, unlines_cons, commandSubst_append hrest]
  constructor
  · intro h
    have hfirst : first = [] := by
      cases first with
      | nil => rfl
      | cons head tail =>
          refine absurd ?_ hword
          rw [← h, unlines_cons]
          simp
    subst hfirst
    rw [unlines_nil, List.nil_append] at h
    have hempty : commandSubst (unlines last) = [] := by
      by_contra hne
      have hsplit : commandSubst ((line ++ ['\n']) ++ unlines last) =
          (line ++ ['\n']) ++ commandSubst (unlines last) :=
        commandSubst_append hne
      rw [List.append_assoc, List.singleton_append, h] at hsplit
      exact hword (hsplit ▸ by simp)
    have hnewlines := (commandSubst_eq_nil_iff _).1 hempty
    have hdrop : commandSubst (line ++ '\n' :: unlines last) = line := by
      rw [commandSubst_append_newlines line (by simpa using hnewlines), hkeep]
    exact ⟨rfl, hdrop ▸ h,
      (commandSubst_unlines_eq_nil_iff hlast).1 hempty⟩
  · rintro ⟨rfl, rfl, hempty⟩
    have hnil := (commandSubst_unlines_eq_nil_iff hlast).2 hempty
    have hnewlines := (commandSubst_eq_nil_iff _).1 hnil
    rw [unlines_nil, List.nil_append,
      commandSubst_append_newlines line (by simpa using hnewlines), hkeep]

/-- The newlines that a substitution drops would separate no words. -/
theorem splitWords_commandSubst (output : Text) :
    splitWords (commandSubst output) = splitWords output := by
  induction output using List.reverseRecOn with
  | nil => rfl
  | append_singleton text c ih =>
      by_cases hc : c = '\n'
      · subst hc
        have hsplit := fields_append_sep isBlank text [] (x := '\n') (by decide)
        rw [commandSubst_newline, ih]
        simpa [splitWords] using hsplit.symm
      · rw [commandSubst_of_last (by simpa using hc)]

/-- Words of letters `n`, `e`, `E` after a dash are options of bash's `echo`. -/
def isEchoOption (arg : Text) : Bool :=
  match arg with
  | '-' :: letter :: rest =>
      (letter :: rest).all fun c => c == 'n' || c == 'e' || c == 'E'
  | _ => false

/-- `echo "$arg"` with a single argument. -/
def echo (arg : Text) : Text :=
  if isEchoOption arg then (if 'n' ∈ arg then [] else ['\n'])
  else arg ++ ['\n']

/-- `tr a b` for two characters. -/
def tr (a b : Char) (text : Text) : Text :=
  text.map fun c => if c = a then b else c

/-- `${x%.*}`: drop the shortest ending that starts with a dot. -/
def stripExtension (text : Text) : Text :=
  match afterLast ['.'] text with
  | none => text
  | some ending => text.take (text.length - (ending.length + 1))

/-- `basename`, which drops trailing slashes before it looks for the last. -/
def basename (path : Text) : Text :=
  let stem := path.rdropWhile (· == '/')
  if stem = [] then (if path = [] then [] else ['/'])
  else (afterLast ['/'] stem).getD stem

/-- The decimal numeral of a number. -/
def numeral (n : Nat) : Text :=
  Nat.toDigits 10 n

/-- The value of a text read as a decimal numeral. -/
def numeralValue (text : Text) : Nat :=
  Nat.ofDigitChars 10 text 0

@[simp] theorem numeralValue_numeral (n : Nat) :
    numeralValue (numeral n) = n :=
  Nat.ofDigitChars_ten_toDigits

theorem numeral_ne_nil (n : Nat) : numeral n ≠ [] :=
  Nat.toDigits_ne_nil

/-- The numeral of a positive number has no leading zero. -/
theorem numeral_head_ne_zero {n : Nat} (hpos : 1 ≤ n) :
    (numeral n).head? ≠ some '0' := by
  induction n using Nat.strong_induction_on with
  | _ n ih =>
      have hdigit : ∀ d, 1 ≤ d → d < 10 → d.digitChar ≠ '0' := by decide
      rw [numeral, Nat.toDigits_eq_if (by decide)]
      by_cases hlt : n < 10
      · rw [if_pos hlt, List.head?_cons, Ne, Option.some.injEq]
        exact hdigit n hpos hlt
      · rw [if_neg hlt, List.head?_append_of_ne_nil _ Nat.toDigits_ne_nil]
        exact ih (n / 10) (by omega) (by omega)

theorem isDigit_of_mem_numeral {n : Nat} {c : Char} (h : c ∈ numeral n) :
    c.isDigit = true :=
  Nat.isDigit_of_mem_toDigits (by decide) (by decide) h

theorem isBlank_of_isDigit {c : Char} (h : c.isDigit = true) :
    isBlank c = false := by
  by_contra hblank
  simp only [isBlank, Bool.or_eq_true, beq_iff_eq, Bool.not_eq_false] at hblank
  rcases hblank with (rfl | rfl) | rfl <;> revert h <;> decide

/-- The integer that the comparison operators of `test` read: blanks around an
optional sign and decimal digits. -/
def testInteger (text : Text) : Option Int :=
  let body := text.dropWhile isSpace
  let unsigned := match body with
    | '-' :: digits => digits
    | '+' :: digits => digits
    | digits => digits
  let digits := unsigned.takeWhile Char.isDigit
  let value : Int := numeralValue digits
  if digits ≠ [] ∧ (unsigned.dropWhile Char.isDigit).all isBlank then
    some (if body.head? = some '-' then -value else value)
  else none

/-- A decimal numeral as a word. -/
def numeralWord (n : Nat) : Word where
  text := numeral n
  nonempty := numeral_ne_nil n
  solid _ hc := isBlank_of_isDigit (isDigit_of_mem_numeral hc)

theorem not_mem_numeral {n : Nat} {c : Char} (hc : c.isDigit = false) :
    c ∉ numeral n := by
  intro h
  rw [isDigit_of_mem_numeral h] at hc
  cases hc

/-- `${array[i]}`; a negative subscript counts from the end. -/
def arrayItem (array : List Text) (subscript : Int) : Text :=
  let index := if subscript < 0 then array.length + subscript else subscript
  if index < 0 then [] else (array[index.toNat]?).getD []

/-- Pathname expansion of one word in some directory.  A word without pattern
characters stands for itself. -/
structure Globbing where
  expand : Text → List Text
  plain : ∀ word, (∀ c ∈ word, c ∉ ['*', '?', '[', '\\']) → expand word = [word]

/-- A directory in which no pattern matches: every word stays as it is. -/
def Globbing.unmatched : Globbing where
  expand word := [word]
  plain _ _ := rfl

/-- The array that `a=($(echo "$arg" | tr sep ' '))` fills. -/
def splitArray (G : Globbing) (sep : Char) (arg : Text) : List Text :=
  (splitWords (commandSubst (tr sep ' ' (echo arg)))).flatMap G.expand

/-- The characters that survive in an element of a separated argument. -/
def isPlain (sep : Char) (c : Char) : Bool :=
  c != sep && !isBlank c && !(['*', '?', '[', '\\'].contains c)

/-- An element that `splitArray` gives back as it is. -/
def PlainWord (sep : Char) (word : Text) : Prop :=
  word ≠ [] ∧ ∀ c ∈ word, isPlain sep c = true

theorem isEchoOption_of_mem {arg : Text} {c : Char} (hc : c ∈ arg)
    (hletter : c ∉ ['-', 'n', 'e', 'E']) : isEchoOption arg = false := by
  simp only [List.mem_cons, List.not_mem_nil, or_false, not_or] at hletter
  obtain ⟨hdash, hn, he, hE⟩ := hletter
  match arg with
  | [] => rfl
  | [x] => simp [isEchoOption]
  | x :: y :: rest =>
      by_cases hx : x = '-'
      · subst hx
        rcases List.mem_cons.1 hc with rfl | hmem
        · exact absurd rfl hdash
        · simp only [isEchoOption, List.all_eq_false]
          exact ⟨c, hmem, by simp [hn, he, hE]⟩
      · simp [isEchoOption, hx]

theorem echo_of_not_option {arg : Text} (h : isEchoOption arg = false) :
    echo arg = arg ++ ['\n'] := by
  simp [echo, h]

theorem tr_of_not_mem {a b : Char} {text : Text} (h : a ∉ text) :
    tr a b text = text := by
  apply map_eq_self_iff.2
  intro c hc
  have hne : c ≠ a := fun heq => h (heq ▸ hc)
  simp [hne]

theorem tr_append (a b : Char) (first last : Text) :
    tr a b (first ++ last) = tr a b first ++ tr a b last :=
  List.map_append

theorem tr_intercalate {a b : Char} {words : List Text}
    (h : ∀ word ∈ words, a ∉ word) :
    tr a b ([a].intercalate words) = [b].intercalate words := by
  induction words with
  | nil => rfl
  | cons head tail ih =>
      have hhead := tr_of_not_mem (b := b) (h head List.mem_cons_self)
      cases tail with
      | nil => simpa using hhead
      | cons next rest =>
          have htail := ih fun word hw => h word (List.mem_cons_of_mem _ hw)
          have hsep : tr a b [a] = [b] := by simp [tr]
          rw [List.intercalate_cons_cons, List.intercalate_cons_cons,
            tr_append, tr_append, hhead, hsep, htail]

/-- Splitting gives back the elements that were joined. -/
theorem splitArray_intercalate (G : Globbing) {sep : Char} {words : List Text}
    (hwords : ∀ word ∈ words, PlainWord sep word)
    (hecho : isEchoOption ([sep].intercalate words) = false) :
    splitArray G sep ([sep].intercalate words) = words := by
  have hplain : ∀ word ∈ words, ∀ c ∈ word,
      c ≠ sep ∧ isBlank c = false ∧ c ∉ ['*', '?', '[', '\\'] := by
    intro word hw c hc
    have := (hwords word hw).2 c hc
    simpa only [isPlain, Bool.and_eq_true, bne_iff_ne, Bool.not_eq_true',
      List.contains_eq_mem, decide_eq_false_iff_not, and_assoc] using this
  have htr : tr sep ' ' ([sep].intercalate words) = [' '].intercalate words :=
    tr_intercalate fun word hw hmem => (hplain word hw sep hmem).1 rfl
  have hsplit : splitWords ([' '].intercalate words) = words :=
    fields_intercalate_words isBlank (by decide)
      (fun word hw => (hwords word hw).1)
      fun word hw c hc => (hplain word hw c hc).2.1
  have hexpand : words.flatMap G.expand = words := by
    conv_rhs => rw [← List.flatMap_singleton' words]
    apply List.flatMap_congr
    intro word hw
    exact G.plain word fun c hc => (hplain word hw c hc).2.2
  have hline : splitWords ([' '].intercalate words ++ tr sep ' ' ['\n']) = words := by
    have hblank : isBlank (if '\n' = sep then ' ' else '\n') = true := by
      split <;> decide
    have hend := fields_append_sep isBlank ([' '].intercalate words) [] hblank
    simpa [tr, splitWords] using hend.trans (by simpa [splitWords] using hsplit)
  rw [splitArray, echo_of_not_option hecho, tr_append, htr,
    splitWords_commandSubst, hline, hexpand]

end Bodhi
