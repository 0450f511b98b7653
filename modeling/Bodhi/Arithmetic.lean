/-
Arithmetic expressions of the shell, as an array subscript holds them: their
tokens, their syntax by the levels of the operators, and their value on 64-bit
integers in a store of variables.
-/
import Mathlib.Logic.Function.Basic
import Bodhi.ShellText

namespace Bodhi

namespace Arithmetic

abbrev Value := BitVec 64

/-- The strict binary operators. -/
inductive Binary where
  | pow | mul | div | mod | add | sub | shl | shr
  | le | ge | lt | gt | eq | ne | and | xor | or
deriving DecidableEq, Repr

namespace Binary

/-- The binding strength; the comma has level 1, assignments have level 2,
the conditional has level 3, and `||` and `&&` have levels 4 and 5. -/
def level : Binary → Nat
  | or => 6
  | xor => 7
  | and => 8
  | eq | ne => 9
  | le | ge | lt | gt => 10
  | shl | shr => 11
  | add | sub => 12
  | mul | div | mod => 13
  | pow => 14

/-- The level at which the right operand is read. -/
def rightLevel : Binary → Nat
  | pow => 14
  | op => op.level + 1

end Binary

/-- The operand of a unary operator is read at this level. -/
def unaryLevel : Nat := 15

inductive Unary where
  | plus | minus | bang | tilde
deriving DecidableEq, Repr

/-- Whether `++` or `--` stands before or behind the variable. -/
inductive Side where
  | before | behind
deriving DecidableEq, Repr

/-- A variable, or an element of an array by the text of its subscript. -/
structure Reference where
  name : Text
  subscript : Option Text
deriving DecidableEq, Repr

inductive Token where
  | constant (value : Value)
  | variable (reference : Reference)
  | binary (op : Binary)
  | assign (op : Option Binary)
  | step (side : Side) (up : Bool)
  | bang | tilde | andAnd | orOr | question | colon | comma | opening | closing
deriving DecidableEq, Repr

inductive Expr where
  | constant (value : Value)
  | variable (reference : Reference)
  | step (side : Side) (up : Bool) (reference : Reference)
  | group (inner : Expr)
  | unary (op : Unary) (operand : Expr)
  | binary (op : Binary) (left right : Expr)
  | both (left right : Expr)
  | either (left right : Expr)
  | choice (test first second : Expr)
  | assign (op : Option Binary) (reference : Reference) (right : Expr)
  | sequence (left right : Expr)
deriving DecidableEq, Repr

section Constants

/-- The characters that a constant goes on with. -/
def isConstantChar (c : Char) : Bool :=
  c.isAlphanum || c == '#' || c == '@' || c == '_'

/-- The digits above 9 are letters; up to base 36 their case does not
matter. -/
def digitValue (base : Nat) (c : Char) : Option Nat :=
  let value :=
    if c.isDigit then some (c.toNat - '0'.toNat)
    else if c.isLower then some (c.toNat - 'a'.toNat + 10)
    else if c.isUpper then
      some (c.toNat - 'A'.toNat + if base ≤ 36 then 10 else 36)
    else if c = '@' then some 62
    else if c = '_' then some 63
    else none
  value.filter (· < base)

/-- The value of digits that go on from a value; a digit that is too great for
the base is an error. -/
def readDigits (base : Nat) : Text → Nat → Option Nat
  | [], value => some value
  | c :: rest, value =>
      (digitValue base c).bind fun digit =>
        readDigits base rest (value * base + digit)

/-- A constant: octal behind a leading zero, hexadecimal behind `0x`, in
another base behind `base#`.  Values that are too large wrap around. -/
def constant (text : Text) : Option Value :=
  match text with
  | '0' :: 'x' :: digits => (readDigits 16 digits 0).map (BitVec.ofNat 64)
  | '0' :: 'X' :: digits => (readDigits 16 digits 0).map (BitVec.ofNat 64)
  | '0' :: digits => (readDigits 8 digits 0).map (BitVec.ofNat 64)
  | _ =>
      match text.dropWhile (· ≠ '#') with
      | [] => (readDigits 10 text 0).map (BitVec.ofNat 64)
      | _ :: digits => do
          let written ← readDigits 10 (text.takeWhile (· ≠ '#')) 0
          let base := (BitVec.ofNat 64 written).toInt
          if 2 ≤ base ∧ base ≤ 64 ∧ digits ≠ [] then
            (readDigits base.toNat digits 0).map (BitVec.ofNat 64)
          else none

end Constants

section Tokens

def isNameStart (c : Char) : Bool :=
  c.isAlpha || c == '_'

def isNameChar (c : Char) : Bool :=
  c.isAlphanum || c == '_'

/-- The text up to the bracket that closes a subscript, and what follows it;
the first argument counts the brackets opened inside. -/
def cutSubscript : Nat → Text → Option (Text × Text)
  | _, [] => none
  | 0, ']' :: rest => some ([], rest)
  | depth + 1, ']' :: rest =>
      (cutSubscript depth rest).map fun cut => (']' :: cut.1, cut.2)
  | depth, '[' :: rest =>
      (cutSubscript (depth + 1) rest).map fun cut => ('[' :: cut.1, cut.2)
  | depth, c :: rest =>
      (cutSubscript depth rest).map fun cut => (c :: cut.1, cut.2)

/-- Two signs of one kind: a step of the variable before or behind them, or
else the first sign alone. -/
def readSigns (afterVariable up : Bool) (rest : Text) : Token × Text :=
  let sign := Token.binary (if up then .add else .sub)
  if afterVariable then (.step .behind up, rest)
  else if (rest.dropWhile isBlank).head?.any isNameStart then
    (.step .before up, rest)
  else (sign, (if up then '+' else '-') :: rest)

/-- The operator that a text starts with. -/
def readOperator (afterVariable : Bool) : Text → Option (Token × Text)
  | '=' :: '=' :: rest => some (.binary .eq, rest)
  | '!' :: '=' :: rest => some (.binary .ne, rest)
  | '>' :: '=' :: rest => some (.binary .ge, rest)
  | '<' :: '=' :: rest => some (.binary .le, rest)
  | '<' :: '<' :: '=' :: rest => some (.assign (some .shl), rest)
  | '<' :: '<' :: rest => some (.binary .shl, rest)
  | '>' :: '>' :: '=' :: rest => some (.assign (some .shr), rest)
  | '>' :: '>' :: rest => some (.binary .shr, rest)
  | '&' :: '&' :: rest => some (.andAnd, rest)
  | '|' :: '|' :: rest => some (.orOr, rest)
  | '*' :: '*' :: rest => some (.binary .pow, rest)
  | '+' :: '+' :: rest => some (readSigns afterVariable true rest)
  | '-' :: '-' :: rest => some (readSigns afterVariable false rest)
  | '*' :: '=' :: rest => some (.assign (some .mul), rest)
  | '/' :: '=' :: rest => some (.assign (some .div), rest)
  | '%' :: '=' :: rest => some (.assign (some .mod), rest)
  | '+' :: '=' :: rest => some (.assign (some .add), rest)
  | '-' :: '=' :: rest => some (.assign (some .sub), rest)
  | '&' :: '=' :: rest => some (.assign (some .and), rest)
  | '^' :: '=' :: rest => some (.assign (some .xor), rest)
  | '|' :: '=' :: rest => some (.assign (some .or), rest)
  | '=' :: rest => some (.assign none, rest)
  | '>' :: rest => some (.binary .gt, rest)
  | '<' :: rest => some (.binary .lt, rest)
  | '+' :: rest => some (.binary .add, rest)
  | '-' :: rest => some (.binary .sub, rest)
  | '*' :: rest => some (.binary .mul, rest)
  | '/' :: rest => some (.binary .div, rest)
  | '%' :: rest => some (.binary .mod, rest)
  | '&' :: rest => some (.binary .and, rest)
  | '^' :: rest => some (.binary .xor, rest)
  | '|' :: rest => some (.binary .or, rest)
  | '!' :: rest => some (.bang, rest)
  | '~' :: rest => some (.tilde, rest)
  | '?' :: rest => some (.question, rest)
  | ':' :: rest => some (.colon, rest)
  | ',' :: rest => some (.comma, rest)
  | '(' :: rest => some (.opening, rest)
  | ')' :: rest => some (.closing, rest)
  | _ => none

/-- The token that a text without blanks in front starts with. -/
def readToken (afterVariable : Bool) (text : Text) : Option (Token × Text) :=
  match text.head? with
  | none => none
  | some c =>
      if c.isDigit then
        (constant (text.takeWhile isConstantChar)).map fun value =>
          (.constant value, text.dropWhile isConstantChar)
      else if isNameStart c then
        let name := text.takeWhile isNameChar
        match text.dropWhile isNameChar with
        | '[' :: rest =>
            (cutSubscript 0 rest).map fun cut =>
              (.variable ⟨name, some cut.1⟩, cut.2)
        | rest => some (.variable ⟨name, none⟩, rest)
      else readOperator afterVariable text

def Token.isVariable : Token → Bool
  | .variable _ => true
  | _ => false

/-- The tokens of a text; every one takes at least one character. -/
def tokens : Nat → Bool → Text → Option (List Token)
  | 0, _, _ => none
  | fuel + 1, afterVariable, text =>
      let body := text.dropWhile isBlank
      if body = [] then some []
      else do
        let (token, rest) ← readToken afterVariable body
        let others ← tokens fuel token.isVariable rest
        return token :: others

end Tokens

section Syntax

/-- How to go on: from an operand, if one has been read, with the operators
from a level on. -/
abbrev Parser := Option Expr → Nat → List Token → Option (Expr × List Token)

section Grammar

variable (next : Parser)

/-- An expression and the token that closes it. -/
def readUntil (stop : Token) (input : List Token) :
    Option (Expr × List Token) :=
  match next none 1 input with
  | some (inner, token :: rest) =>
      if token = stop then some (inner, rest) else none
  | _ => none

/-- A right operand from a level on, and then what follows it. -/
def readRight (rightLevel level : Nat) (build : Expr → Expr)
    (input : List Token) : Option (Expr × List Token) := do
  let (right, rest) ← next none rightLevel input
  next (some (build right)) level rest

/-- Read an operand and go on behind it. -/
def readOperand (level : Nat) : List Token → Option (Expr × List Token)
  | .constant value :: rest => next (some (.constant value)) level rest
  | .variable x :: .step .behind up :: rest =>
      next (some (.step .behind up x)) level rest
  | .variable x :: rest => next (some (.variable x)) level rest
  | .step .before up :: .variable x :: rest =>
      next (some (.step .before up x)) level rest
  | .opening :: rest => do
      let (inner, rest) ← readUntil next .closing rest
      next (some (.group inner)) level rest
  | .binary .add :: rest => readRight next unaryLevel level (.unary .plus) rest
  | .binary .sub :: rest => readRight next unaryLevel level (.unary .minus) rest
  | .bang :: rest => readRight next unaryLevel level (.unary .bang) rest
  | .tilde :: rest => readRight next unaryLevel level (.unary .tilde) rest
  | _ => none

/-- Read the operators from a level on behind an operand; only a variable can
be assigned to. -/
def readOperators (left : Expr) (level : Nat) (input : List Token) :
    Option (Expr × List Token) :=
  match input with
  | .binary op :: rest =>
      if level ≤ op.level then
        readRight next op.rightLevel level (.binary op left) rest
      else some (left, input)
  | .andAnd :: rest =>
      if level ≤ 5 then readRight next 6 level (.both left) rest
      else some (left, input)
  | .orOr :: rest =>
      if level ≤ 4 then readRight next 5 level (.either left) rest
      else some (left, input)
  | .question :: rest =>
      if level ≤ 3 then do
        let (first, rest) ← readUntil next .colon rest
        readRight next 3 level (.choice left first) rest
      else some (left, input)
  | .assign op :: rest =>
      if level ≤ 2 then
        match left with
        | .variable x => readRight next 2 level (.assign op x) rest
        | _ => none
      else some (left, input)
  | .comma :: rest =>
      if level ≤ 1 then readRight next 2 level (.sequence left) rest
      else some (left, input)
  | _ => some (left, input)

end Grammar

/-- Read an operand, if none is there yet, and then the operators from a level
on. -/
def parse : Nat → Parser
  | 0, _, _, _ => none
  | fuel + 1, none, level, input => readOperand (parse fuel) level input
  | fuel + 1, some left, level, input =>
      readOperators (parse fuel) left level input

/-- The expression that the tokens make up; a branch of the calls takes a token
with every call but its last. -/
def parseAll (input : List Token) : Option Expr :=
  match parse (input.length + 1) none 1 input with
  | some (expr, []) => some expr
  | _ => none

end Syntax

section Evaluation

/-- A variable: whether it is an array, and its elements, which are empty where
they are not set; one that is no array is its own element 0. -/
structure Variable where
  indexed : Bool
  elements : List Text
deriving DecidableEq, Repr

abbrev Store := Text → Variable

/-- A value, or an error; errors end the evaluation, and the script. -/
abbrev Eval := StateT Store Option

/-- What the shell makes of a subscript before it is evaluated, and the
variables that cannot be assigned to. -/
structure Shell where
  expand : Text → Eval Text
  readonly : Text → Bool

def ofOption {α : Type} (result : Option α) : Eval α :=
  fun store => result.map fun value => (value, store)

def truth (p : Bool) : Value :=
  if p then 1 else 0

def Unary.apply : Unary → Value → Value
  | plus, a => a
  | minus, a => -a
  | bang, a => truth (a == 0)
  | tilde, a => ~~~a

def power (a : Value) : Nat → Value
  | 0 => 1
  | n + 1 => power a n * a

/-- Division truncates, shifts take their count modulo 64. -/
def Binary.apply : Binary → Value → Value → Option Value
  | pow, a, b => if b.toInt < 0 then none else some (power a b.toNat)
  | mul, a, b => some (a * b)
  | div, a, b => if b = 0 then none else some (a.sdiv b)
  | mod, a, b => if b = 0 then none else some (a.srem b)
  | add, a, b => some (a + b)
  | sub, a, b => some (a - b)
  | shl, a, b => some (a <<< (b.toNat % 64))
  | shr, a, b => some (a.sshiftRight (b.toNat % 64))
  | le, a, b => some (truth (a.sle b))
  | ge, a, b => some (truth (b.sle a))
  | lt, a, b => some (truth (a.slt b))
  | gt, a, b => some (truth (b.slt a))
  | eq, a, b => some (truth (a == b))
  | ne, a, b => some (truth (a != b))
  | and, a, b => some (a &&& b)
  | xor, a, b => some (a ^^^ b)
  | or, a, b => some (a ||| b)

/-- The text that an assignment stores. -/
def decimalText (value : Value) : Text :=
  if value.toInt < 0 then '-' :: numeral value.toInt.natAbs
  else numeral value.toInt.natAbs

/-- An array with one element set; elements before it that were not there are
empty. -/
def setItem (array : List Text) (index : Nat) (text : Text) : List Text :=
  if index < array.length then array.set index text
  else array ++ List.replicate (index - array.length) [] ++ [text]

section Step

variable (shell : Shell) (evaluate : Text → Eval Value)

/-- The subscript of a variable, if it is not left out between the brackets;
`@` and `*` are errors. -/
def subscriptOf (x : Reference) : Eval (Option Int) :=
  match x.subscript with
  | none => pure (some 0)
  | some [] => pure none
  | some written =>
      if written = ['@'] ∨ written = ['*'] then ofOption none
      else do
        let text ← shell.expand written
        let value ← evaluate text
        return some value.toInt

/-- The place that a subscript stands for: a negative one counts from the end,
and one that is too far below zero is an error. -/
def placeOf (elements : List Text) (subscript : Int) : Option Nat :=
  let place := if subscript < 0 then elements.length + subscript else subscript
  if place < 0 then none else some place.toNat

/-- The value of a variable is the value of its text.  Only an array is read
from its end. -/
def fetch (x : Reference) (subscript : Option Int) : Eval Value := do
  let store ← get
  let found := store x.name
  let subscript ← ofOption subscript
  let place ← ofOption (placeOf found.elements subscript)
  if subscript < 0 ∧ found.indexed = false then ofOption none
  else
    let text := (found.elements[place]?).getD []
    if text = [] then return 0 else evaluate text

/-- Assignment; without a subscript between the brackets it has no effect. -/
def put (x : Reference) (subscript : Option Int) (value : Value) :
    Eval Unit :=
  match subscript with
  | none => pure ()
  | some subscript => do
      let store ← get
      let found := store x.name
      let place ← ofOption (placeOf found.elements subscript)
      if shell.readonly x.name then ofOption none
      else
        set (Function.update store x.name
          { indexed := found.indexed || x.subscript.isSome
            elements := setItem found.elements place (decimalText value) })

def Expr.eval : Expr → Eval Value
  | .constant value => pure value
  | .variable x => do
      fetch evaluate x (← subscriptOf shell evaluate x)
  | .step side up x => do
      let subscript ← subscriptOf shell evaluate x
      let old ← fetch evaluate x subscript
      let new := if up then old + 1 else old - 1
      put shell x subscript new
      return match side with
        | .before => new
        | .behind => old
  | .group inner => inner.eval
  | .unary op operand => do
      return op.apply (← operand.eval)
  | .binary op left right => do
      let a ← left.eval
      let b ← right.eval
      ofOption (op.apply a b)
  | .both left right => do
      let a ← left.eval
      if a = 0 then pure 0 else return truth ((← right.eval) != 0)
  | .either left right => do
      let a ← left.eval
      if a = 0 then return truth ((← right.eval) != 0) else pure 1
  | .choice test first second => do
      let a ← test.eval
      if a = 0 then second.eval else first.eval
  | .assign none x right => do
      let value ← right.eval
      put shell x (← subscriptOf shell evaluate x) value
      return value
  | .assign (some op) x right => do
      let subscript ← subscriptOf shell evaluate x
      let old ← fetch evaluate x subscript
      let value ← ofOption (op.apply old (← right.eval))
      put shell x subscript value
      return value
  | .sequence left right => do
      let _ ← left.eval
      right.eval

end Step

/-- The value of a text, which is 0 where there is nothing; the number bounds
how deep the values of variables and subscripts are evaluated in turn. -/
def evaluate (shell : Shell) : Nat → Text → Eval Value
  | 0, _ => ofOption none
  | depth + 1, text => do
      let input ← ofOption (tokens (text.length + 1) false text)
      if input = [] then return 0
      else
        let expr ← ofOption (parseAll input)
        expr.eval shell (evaluate shell depth)

/-- The shell gives up at this depth. -/
def depthLimit : Nat := 1024

end Evaluation

section Numerals

theorem digitValue_ten {c : Char} (h : c.isDigit = true) :
    digitValue 10 c = some (c.toNat - '0'.toNat) := by
  have hlt : c.toNat - '0'.toNat < 10 := by
    simp only [Char.isDigit, Bool.and_eq_true, decide_eq_true_eq,
      UInt32.le_iff_toNat_le, ge_iff_le] at h
    change 48 ≤ c.toNat ∧ c.toNat ≤ 57 at h
    change c.toNat - 48 < 10
    omega
  simp only [digitValue, h, ↓reduceIte, Option.filter_some]
  rw [if_pos (by simpa using hlt)]

theorem readDigits_ten {digits : Text} (h : ∀ c ∈ digits, c.isDigit = true)
    (value : Nat) :
    readDigits 10 digits value = some (Nat.ofDigitChars 10 digits value) := by
  induction digits generalizing value with
  | nil => simp [readDigits]
  | cons c rest ih =>
      have hc := digitValue_ten (h c List.mem_cons_self)
      have hrest := ih (fun d hd => h d (List.mem_cons_of_mem c hd))
        (value * 10 + (c.toNat - '0'.toNat))
      rw [readDigits, hc, Option.bind_some, hrest, Nat.ofDigitChars_cons,
        Nat.mul_comm]

/-- Without a leading zero the digits of a constant are decimal. -/
theorem constant_decimal {digits : Text} (h : ∀ c ∈ digits, c.isDigit = true)
    (hzero : digits.head? ≠ some '0') :
    constant digits = some (BitVec.ofNat 64 (numeralValue digits)) := by
  have hbase : digits.dropWhile (· ≠ '#') = [] := by
    rw [List.dropWhile_eq_nil_iff]
    intro c hc
    rw [decide_eq_true_iff]
    rintro rfl
    exact absurd (h _ hc) (by decide)
  have hdigits := readDigits_ten h 0
  unfold constant
  split
  · exact absurd rfl hzero
  · exact absurd rfl hzero
  · exact absurd rfl hzero
  · rw [hbase]
    dsimp only
    rw [hdigits]
    rfl

theorem isConstantChar_of_isDigit {c : Char} (h : c.isDigit = true) :
    isConstantChar c = true := by
  simp [isConstantChar, Char.isAlphanum, h]

/-- A numeral is one token, whatever follows it. -/
theorem tokens_numeral {digits rest : Text} (hne : digits ≠ [])
    (h : ∀ c ∈ digits, c.isDigit = true)
    (hrest : ∀ c, rest.head? = some c → isConstantChar c = false)
    (fuel : Nat) (afterVariable : Bool) :
    tokens (fuel + 1) afterVariable (digits ++ rest) =
      (constant digits).bind fun value =>
        (tokens fuel false rest).map (Token.constant value :: ·) := by
  obtain ⟨first, others, rfl⟩ := List.exists_cons_of_ne_nil hne
  have hfirst := h first List.mem_cons_self
  have hbody : (first :: others ++ rest).dropWhile isBlank =
      first :: others ++ rest := by
    simp [isBlank_of_isDigit hfirst]
  have hall : ∀ c ∈ first :: others, isConstantChar c = true :=
    fun c hc => isConstantChar_of_isDigit (h c hc)
  have hstop : rest.takeWhile isConstantChar = [] ∧
      rest.dropWhile isConstantChar = rest := by
    cases rest with
    | nil => exact ⟨rfl, rfl⟩
    | cons c rest => simp [hrest c rfl]
  have htake : (first :: others ++ rest).takeWhile isConstantChar =
      first :: others := by
    rw [List.takeWhile_append_of_pos hall, hstop.1, List.append_nil]
  have hdrop : (first :: others ++ rest).dropWhile isConstantChar = rest := by
    rw [List.dropWhile_append_of_pos hall, hstop.2]
  have htoken : readToken afterVariable (first :: others ++ rest) =
      (constant (first :: others)).map fun value =>
        (Token.constant value, rest) := by
    rw [readToken, htake, hdrop]
    simp [hfirst]
  simp only [tokens, hbody, htoken]
  cases constant (first :: others) with
  | none => simp
  | some value =>
      cases hothers : tokens fuel false rest <;>
        simp [Token.isVariable, hothers]

theorem evaluate_of_tokens {text : Text} {input : List Token} {expr : Expr}
    (htokens : tokens (text.length + 1) false text = some input)
    (hexpr : parseAll input = some expr) (shell : Shell) (depth : Nat) :
    evaluate shell (depth + 1) text =
      expr.eval shell (evaluate shell depth) := by
  have hne : input ≠ [] := by
    rintro rfl
    cases hexpr
  funext store
  rw [evaluate, htokens]
  simp [ofOption, bind, StateT.bind, hne, hexpr]

theorem evaluate_of_no_tokens {text : Text}
    (htokens : tokens (text.length + 1) false text = none) (shell : Shell)
    (depth : Nat) (store : Store) :
    evaluate shell (depth + 1) text store = none := by
  rw [evaluate, htokens]
  rfl

/-- The value of a text that a numeral stands at the front of. -/
theorem evaluate_numeral_append {digits rest : Text} {others : List Token}
    (expr : Value → Expr) (hne : digits ≠ [])
    (h : ∀ c ∈ digits, c.isDigit = true)
    (hrest : ∀ c, rest.head? = some c → isConstantChar c = false)
    (hothers : tokens (digits.length + rest.length) false rest = some others)
    (hexpr : ∀ value,
      parseAll (.constant value :: others) = some (expr value))
    (shell : Shell) (depth : Nat) (store : Store) :
    evaluate shell (depth + 1) (digits ++ rest) store =
      (constant digits).bind fun value =>
        (expr value).eval shell (evaluate shell depth) store := by
  have htokens := tokens_numeral hne h hrest (digits.length + rest.length)
    false
  rw [hothers, ← List.length_append] at htokens
  cases hvalue : constant digits with
  | none =>
      rw [hvalue] at htokens
      exact evaluate_of_no_tokens htokens shell depth store
  | some value =>
      rw [hvalue] at htokens
      rw [evaluate_of_tokens htokens (hexpr value), Option.bind_some]

/-- A numeral alone has the value of the constant. -/
theorem evaluate_numeral (shell : Shell) (depth : Nat) {digits : Text}
    (hne : digits ≠ []) (h : ∀ c ∈ digits, c.isDigit = true) (store : Store) :
    evaluate shell (depth + 1) digits store =
      (constant digits).map fun value => (value, store) := by
  obtain ⟨n, hn⟩ := Nat.exists_eq_succ_of_ne_zero
    (mt List.length_eq_zero_iff.1 hne)
  have hend : tokens (digits.length + ([] : Text).length) false [] =
      some [] := by
    rw [hn]
    rfl
  have hvalue := evaluate_numeral_append .constant hne h (by simp) hend
    (fun _ => rfl) shell depth store
  rw [List.append_nil] at hvalue
  rw [hvalue, Option.map_eq_bind]
  rfl

def minusOne : Text := " - 1".toList

/-- One is subtracted from the constant. -/
theorem evaluate_numeral_minusOne (shell : Shell) (depth : Nat) {digits : Text}
    (hne : digits ≠ []) (h : ∀ c ∈ digits, c.isDigit = true) (store : Store) :
    evaluate shell (depth + 1) (digits ++ minusOne) store =
      (constant digits).map fun value => (value - 1, store) := by
  have hend : tokens (digits.length + minusOne.length) false minusOne =
      some [.binary .sub, .constant 1] := rfl
  rw [evaluate_numeral_append
    (fun value => .binary .sub (.constant value) (.constant 1)) hne h
    (by rintro c ⟨⟩; decide) hend (fun _ => rfl) shell depth store,
    Option.map_eq_bind]
  rfl

end Numerals

section Enough

theorem cutSubscript_shortens {depth : Nat} {text inner rest : Text}
    (h : cutSubscript depth text = some (inner, rest)) :
    rest.length < text.length := by
  have hbehind {cut : Option (Text × Text)} {c : Char} {inner : Text}
      (h : (cut.map fun cut => (c :: cut.1, cut.2)) = some (inner, rest)) :
      ∃ short, cut = some (short, rest) := by
    obtain ⟨⟨short, _⟩, hcut, heq⟩ := Option.map_eq_some_iff.1 h
    cases heq
    exact ⟨short, hcut⟩
  fun_induction cutSubscript depth text generalizing inner with
  | case1 => cases h
  | case2 after =>
      cases h
      exact Nat.lt_succ_self _
  | case3 depth after ih =>
      obtain ⟨short, hcut⟩ := hbehind h
      exact Nat.lt_succ_of_lt (ih hcut)
  | case4 depth after ih =>
      obtain ⟨short, hcut⟩ := hbehind h
      exact Nat.lt_succ_of_lt (ih hcut)
  | case5 depth c after _ _ _ ih =>
      obtain ⟨short, hcut⟩ := hbehind h
      exact Nat.lt_succ_of_lt (ih hcut)

theorem readSigns_shortens (afterVariable up : Bool) (rest : Text) :
    (readSigns afterVariable up rest).2.length ≤ rest.length + 1 := by
  unfold readSigns
  dsimp only
  split
  · exact Nat.le_succ _
  · split
    · exact Nat.le_succ _
    · exact Nat.le_refl _

theorem readOperator_shortens {afterVariable : Bool} {text rest : Text}
    {token : Token} (h : readOperator afterVariable text = some (token, rest)) :
    rest.length < text.length := by
  have hsigns {up : Bool} {c : Char} {after : Text}
      (hread : some (readSigns afterVariable up after) = some (token, rest)) :
      rest.length < (c :: c :: after).length := by
    have hle := readSigns_shortens afterVariable up after
    rw [Option.some.inj hread] at hle
    exact Nat.lt_succ_of_le hle
  unfold readOperator at h
  split at h
  -- Two signs of one kind may leave the second one where it is.
  case h_12 => exact hsigns h
  case h_13 => exact hsigns h
  all_goals cases h <;> simp only [List.length_cons] <;> omega

theorem isNameChar_of_isNameStart {c : Char} (h : isNameStart c = true) :
    isNameChar c = true := by
  rw [isNameStart, Bool.or_eq_true] at h
  rw [isNameChar, Char.isAlphanum, Bool.or_eq_true, Bool.or_eq_true]
  rcases h with hletter | hline
  · exact Or.inl (Or.inl hletter)
  · exact Or.inr hline

/-- A token takes at least one character. -/
theorem readToken_shortens {afterVariable : Bool} {text rest : Text}
    {token : Token} (h : readToken afterVariable text = some (token, rest)) :
    rest.length < text.length := by
  cases text with
  | nil => cases h
  | cons c text =>
      rw [readToken, List.head?_cons] at h
      dsimp only at h
      split at h
      · next hdigit =>
          obtain ⟨value, _, heq⟩ := Option.map_eq_some_iff.1 h
          cases heq
          rw [List.dropWhile_cons_of_pos (isConstantChar_of_isDigit hdigit)]
          exact Nat.lt_succ_of_le (List.length_dropWhile_le _ _)
      · split at h
        · next hname =>
            have hc := isNameChar_of_isNameStart hname
            rw [List.dropWhile_cons_of_pos hc] at h
            have hdrop := List.length_dropWhile_le isNameChar text
            split at h
            · next after hopen =>
                obtain ⟨⟨inner, behind⟩, hcut, heq⟩ :=
                  Option.map_eq_some_iff.1 h
                cases heq
                have hlt := cutSubscript_shortens hcut
                rw [hopen, List.length_cons] at hdrop
                exact hlt.trans (Nat.lt_succ_of_lt hdrop)
            · cases h
              exact Nat.lt_succ_of_le hdrop
        · exact readOperator_shortens h

theorem tokens_agrees (fuel : Nat) (afterVariable : Bool) {text : Text}
    (h : text.length < fuel) :
    tokens fuel afterVariable text = tokens (fuel + 1) afterVariable text := by
  induction fuel generalizing afterVariable text with
  | zero => exact absurd h (Nat.not_lt_zero _)
  | succ fuel ih =>
      have hbody : (text.dropWhile isBlank).length ≤ fuel :=
        (List.length_dropWhile_le _ _).trans (Nat.le_of_lt_succ h)
      rw [tokens, tokens]
      refine if_congr Iff.rfl rfl ?_
      apply Option.bind_congr
      rintro ⟨token, rest⟩ hread
      have hlt := (readToken_shortens hread).trans_le hbody
      dsimp only
      rw [ih token.isVariable hlt]

/-- More calls than characters are enough. -/
theorem tokens_enough {fuel : Nat} {text : Text} (h : text.length < fuel)
    (afterVariable : Bool) :
    tokens fuel afterVariable text =
      tokens (text.length + 1) afterVariable text := by
  induction fuel, h using Nat.le_induction with
  | base => rfl
  | succ fuel h ih => rw [← tokens_agrees fuel afterVariable h, ih]

/-- What is read is gone from the input. -/
structure Shortens (next : Parser) : Prop where
  operand : ∀ level input expr rest,
    next none level input = some (expr, rest) → rest.length < input.length
  operators : ∀ left level input expr rest,
    next (some left) level input = some (expr, rest) →
      rest.length ≤ input.length

variable {next next' : Parser}

theorem readUntil_shortens (h : Shortens next) {stop : Token}
    {input rest : List Token} {expr : Expr}
    (hread : readUntil next stop input = some (expr, rest)) :
    rest.length < input.length := by
  rw [readUntil] at hread
  split at hread
  · next inner token after hinner =>
      have hlt := h.operand _ _ _ _ hinner
      rw [Option.ite_none_right_eq_some, Option.some.injEq,
        Prod.mk.injEq] at hread
      rw [List.length_cons, hread.2.2] at hlt
      omega
  · cases hread

theorem readRight_shortens (h : Shortens next) {rightLevel level : Nat}
    {build : Expr → Expr} {input rest : List Token} {expr : Expr}
    (hread : readRight next rightLevel level build input = some (expr, rest)) :
    rest.length < input.length := by
  obtain ⟨⟨right, after⟩, hright, hafter⟩ := Option.bind_eq_some_iff.1 hread
  exact Nat.lt_of_le_of_lt (h.operators _ _ _ _ _ hafter)
    (h.operand _ _ _ _ hright)

theorem readOperand_shortens (h : Shortens next) {level : Nat}
    {input rest : List Token} {expr : Expr}
    (hread : readOperand next level input = some (expr, rest)) :
    rest.length < input.length := by
  unfold readOperand at hread
  split at hread
  · exact Nat.lt_succ_of_le (h.operators _ _ _ _ _ hread)
  · have := h.operators _ _ _ _ _ hread
    simp; omega
  · exact Nat.lt_succ_of_le (h.operators _ _ _ _ _ hread)
  · have := h.operators _ _ _ _ _ hread
    simp; omega
  · obtain ⟨⟨inner, after⟩, hinner, hafter⟩ := Option.bind_eq_some_iff.1 hread
    have := h.operators _ _ _ _ _ hafter
    have := readUntil_shortens h hinner
    simp; omega
  iterate 4 exact Nat.lt_succ_of_lt (readRight_shortens h hread)
  · cases hread

theorem readOperators_shortens (h : Shortens next) {left : Expr} {level : Nat}
    {input rest : List Token} {expr : Expr}
    (hread : readOperators next left level input = some (expr, rest)) :
    rest.length ≤ input.length := by
  have hright {rightLevel : Nat} {build : Expr → Expr} {token : Token}
      {after : List Token}
      (hread : readRight next rightLevel level build after =
        some (expr, rest)) : rest.length ≤ (token :: after).length :=
    Nat.le_succ_of_le (readRight_shortens h hread).le
  have hstop {input : List Token}
      (hread : some (left, input) = some (expr, rest)) :
      rest.length ≤ input.length := by
    cases hread
    exact Nat.le_refl _
  unfold readOperators at hread
  split at hread
  · split at hread
    · exact hright hread
    · exact hstop hread
  · split at hread
    · exact hright hread
    · exact hstop hread
  · split at hread
    · exact hright hread
    · exact hstop hread
  · split at hread
    · obtain ⟨⟨first, after⟩, hfirst, hsecond⟩ :=
        Option.bind_eq_some_iff.1 hread
      exact Nat.le_succ_of_le
        ((readRight_shortens h hsecond).trans (readUntil_shortens h hfirst)).le
    · exact hstop hread
  · split at hread
    · split at hread
      · exact hright hread
      · cases hread
    · exact hstop hread
  · split at hread
    · exact hright hread
    · exact hstop hread
  · exact hstop hread

theorem parse_shortens (fuel : Nat) : Shortens (parse fuel) := by
  induction fuel with
  | zero => exact ⟨by rintro _ _ _ _ ⟨⟩, by rintro _ _ _ _ _ ⟨⟩⟩
  | succ fuel ih =>
      exact ⟨fun _ _ _ _ h => readOperand_shortens ih h,
        fun _ _ _ _ _ h => readOperators_shortens ih h⟩

/-- Two ways to go on that do the same on all shorter inputs. -/
def AgreeBelow (n : Nat) (next next' : Parser) : Prop :=
  ∀ left level input, input.length < n →
    next left level input = next' left level input

theorem readUntil_congr {n : Nat} (h : AgreeBelow n next next')
    (stop : Token) {input : List Token} (hlt : input.length < n) :
    readUntil next stop input = readUntil next' stop input := by
  rw [readUntil, readUntil, h none 1 input hlt]

theorem readRight_congr (hshort : Shortens next) {n : Nat}
    (h : AgreeBelow n next next') (rightLevel level : Nat)
    (build : Expr → Expr) {input : List Token} (hlt : input.length < n) :
    readRight next rightLevel level build input =
      readRight next' rightLevel level build input := by
  rw [readRight, readRight, ← h none rightLevel input hlt]
  apply Option.bind_congr
  rintro ⟨right, rest⟩ hright
  exact h _ level rest ((hshort.operand _ _ _ _ hright).trans hlt)

/-- The step behind a bracketed expression. -/
theorem readUntil_bind_congr (hshort : Shortens next) {n : Nat}
    (h : AgreeBelow n next next') (stop : Token) {input : List Token}
    (hlt : input.length < n)
    {goOn goOn' : Expr × List Token → Option (Expr × List Token)}
    (hgoOn : ∀ inner rest, rest.length < n →
      goOn (inner, rest) = goOn' (inner, rest)) :
    (readUntil next stop input).bind goOn =
      (readUntil next' stop input).bind goOn' := by
  rw [← readUntil_congr h stop hlt]
  apply Option.bind_congr
  rintro ⟨inner, rest⟩ hinner
  exact hgoOn inner rest ((readUntil_shortens hshort hinner).trans hlt)

theorem readOperand_congr (hshort : Shortens next) {level : Nat}
    {input : List Token} (h : AgreeBelow input.length next next') :
    readOperand next level input = readOperand next' level input := by
  unfold readOperand
  split
  · exact h _ _ _ (Nat.lt_succ_self _)
  · exact h _ _ _ (Nat.lt_succ_of_lt (Nat.lt_succ_self _))
  · exact h _ _ _ (Nat.lt_succ_self _)
  · exact h _ _ _ (Nat.lt_succ_of_lt (Nat.lt_succ_self _))
  · exact readUntil_bind_congr hshort h .closing (Nat.lt_succ_self _)
      fun inner rest hlt => h _ _ _ hlt
  iterate 4 exact readRight_congr hshort h _ _ _ (Nat.lt_succ_self _)
  · rfl

theorem readOperators_congr (hshort : Shortens next) {left : Expr}
    {level : Nat} {input : List Token}
    (h : AgreeBelow input.length next next') :
    readOperators next left level input =
      readOperators next' left level input := by
  unfold readOperators
  split
  · exact if_congr Iff.rfl
      (readRight_congr hshort h _ _ _ (Nat.lt_succ_self _)) rfl
  · exact if_congr Iff.rfl
      (readRight_congr hshort h _ _ _ (Nat.lt_succ_self _)) rfl
  · exact if_congr Iff.rfl
      (readRight_congr hshort h _ _ _ (Nat.lt_succ_self _)) rfl
  · refine if_congr Iff.rfl ?_ rfl
    exact readUntil_bind_congr hshort h .colon (Nat.lt_succ_self _)
      fun first rest hlt => readRight_congr hshort h _ _ _ hlt
  · refine if_congr Iff.rfl ?_ rfl
    split
    · exact readRight_congr hshort h _ _ _ (Nat.lt_succ_self _)
    · rfl
  · exact if_congr Iff.rfl
      (readRight_congr hshort h _ _ _ (Nat.lt_succ_self _)) rfl
  · rfl

/-- One more call changes nothing where the calls are more than the tokens. -/
theorem parse_agrees (fuel : Nat) :
    AgreeBelow fuel (parse fuel) (parse (fuel + 1)) := by
  induction fuel with
  | zero => exact fun _ _ _ hlt => absurd hlt (Nat.not_lt_zero _)
  | succ fuel ih =>
      intro left level input hlt
      have hbelow : AgreeBelow input.length (parse fuel) (parse (fuel + 1)) :=
        fun left level shorter hshorter => ih left level shorter (by omega)
      cases left with
      | none => exact readOperand_congr (parse_shortens fuel) hbelow
      | some left => exact readOperators_congr (parse_shortens fuel) hbelow

/-- More calls than tokens are enough. -/
theorem parse_enough {fuel : Nat} {input : List Token}
    (h : input.length < fuel) (left : Option Expr) (level : Nat) :
    parse fuel left level input =
      parse (input.length + 1) left level input := by
  induction fuel, h using Nat.le_induction with
  | base => rfl
  | succ fuel h ih => rw [← parse_agrees fuel left level input h, ih]

end Enough

end Arithmetic

end Bodhi
