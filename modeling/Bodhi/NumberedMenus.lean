/-
The numbered menus of `start_vm` and `install_vm`: what they print, with every
name in the format of a `printf`, and the entry that the line typed at the
prompt selects.
-/
import Mathlib.Algebra.Group.Nat.Defs
import Mathlib.Algebra.Ring.Int.Defs
import Bodhi.Arithmetic
import Bodhi.InstallKeeps
import Bodhi.PrintfFormat

namespace Bodhi

open Arithmetic

section Prompt

/-- The characters of a typed line, each with whether a backslash was taken
away before it.  Behind a backslash at its end the line goes on; where the input
ends there, `read` fails. -/
def readChars : Text → Option (List (Char × Bool))
  | '\\' :: '\n' :: rest => readChars rest
  | '\\' :: c :: rest => (readChars rest).map ((c, true) :: ·)
  | ['\\'] => none
  | c :: rest => (readChars rest).map ((c, false) :: ·)
  | [] => some []

def isMargin (char : Char × Bool) : Bool :=
  isBlank char.1 && !char.2

/-- `read selection`: the line without the blanks around it. -/
def readSelection (line : Text) : Option Text :=
  (readChars line).map fun chars =>
    ((chars.dropWhile isMargin).rdropWhile isMargin).map Prod.fst

/-- `[ "$selection" -lt 1 ]`; a text that is no 64-bit integer is an error,
which counts as false. -/
def belowOne (selection : Text) : Bool :=
  (testInteger selection).any fun n => -2 ^ 63 ≤ n && n < 1

/-- LARGE_INT, which stands in for a selection below 1. -/
def largeInt : Text := "999".toList

end Prompt

/-- The two menus: over the files in VMS_DIR, and over CLOUD_DISTROS. -/
inductive Menu where
  | vms (files : List Text)
  | distros (names : List Text)

def vmsDir (home : Text) : Text :=
  home ++ "/VMs/vms".toList

/-- The loop of `start_vm` that fills the array `vms` from a counter on. -/
def fillVms : Nat → List Text → List Text → List Text
  | _, vms, [] => vms
  | counter, vms, vmName :: rest =>
      fillVms (counter + 1) (setItem vms counter vmName) rest

/-- The text that stands for an entry in the format of its `printf`, before the
line end. -/
def entryText (counter : Nat) (name : Text) : Text :=
  numeral counter ++ [':', ' '] ++ name

/-- The loops that print the entries from a counter on; where a `printf` fails
the script ends. -/
def printEntries (P : Printf) : Nat → List Text → Option (List Bytes)
  | _, [] => some []
  | counter, name :: rest => do
      let line ← printf P (entryText counter name ++ lineEnd)
      return line :: (← printEntries P (counter + 1) rest)

namespace Menu

section Model

variable (tools : InstallTools) (P : Printf)

/-- The name that `$(basename "$vm")` gives a file. -/
def vmName (file : Text) : Text :=
  commandSubst (tools.basename (vmsDir tools.home ++ '/' :: file) ++ ['\n'])

/-- The entries there are. -/
def entries : Menu → List Text
  | vms files => files.map (vmName tools)
  | distros names => names

/-- The entries that the loop goes over; where the pattern in VMS_DIR matches
no file it stands for itself. -/
def listed : Menu → List Text
  | vms files => (if files = [] then [['*']] else files).map (vmName tools)
  | distros names => names

/-- The lines that are printed, one for each entry. -/
def printed (menu : Menu) : Option (List Bytes) :=
  printEntries P 1 (menu.listed tools)

def arrayName : Menu → Text
  | vms _ => "vms".toList
  | distros _ => "CLOUD_DISTROS".toList

def array (menu : Menu) : List Text :=
  match menu with
  | vms _ => fillVms 1 [] (menu.listed tools)
  | distros names => names

/-- The subscript between the brackets once the selection is expanded. -/
def subscript (menu : Menu) (selection : Text) : Text :=
  match menu with
  | vms _ => selection
  | distros _ => selection ++ minusOne

variable (shell : Shell)

/-- The variables when the subscript is evaluated. -/
def storeWith (menu : Menu) (store : Store) : Store :=
  Function.update store menu.arrayName ⟨true, menu.array tools⟩

/-- What the expansion of the array at a selection gives; an error in the
subscript gives nothing. -/
def element (menu : Menu) (store : Store) (selection : Text) : Text :=
  match evaluate shell depthLimit (menu.subscript selection)
      (menu.storeWith tools store) with
  | none => []
  | some (value, store') =>
      arrayItem (store' menu.arrayName).elements value.toInt

/-- The selection whose element is looked at. -/
def guarded (selection : Text) : Text :=
  if belowOne selection then largeInt else selection

/-- The entry that is chosen at the prompt; without one the script ends, with
an error message or under `set -e`. -/
def choose (menu : Menu) (store : Store) (line : Text) : Option Text := do
  let selection ← readSelection line
  let element := menu.element tools shell store (guarded selection)
  if element = [] then none else some element

/-- The entry that a typed line selects, if the script comes to its prompt. -/
def select (menu : Menu) (store : Store) (line : Text) : Option Text := do
  let _ ← menu.printed tools P
  menu.choose tools shell store line

end Model

end Menu

/-- A decimal numeral. -/
def IsNumeral (line : Text) : Prop :=
  line ≠ [] ∧ ∀ c ∈ line, c.isDigit = true

/-- A text is the element of an array at a subscript, counted from the front
or, where the subscript is negative, from the end. -/
def IsElement (array : List Text) (subscript : Int) (text : Text) : Prop :=
  ∃ i : Nat, array[i]? = some text ∧
    (subscript = i ∨ subscript = (i : Int) - array.length)

namespace Menu

section Property

variable (tools : InstallTools) (P : Printf) (shell : Shell)

/-- The line is the number of an entry. -/
def Numbers (menu : Menu) (line entry : Text) : Prop :=
  IsNumeral line ∧ (entry, numeralValue line) ∈ (menu.entries tools).zipIdx 1

/-- The entries there are, each on a line behind its number. -/
def lines (menu : Menu) : List Bytes :=
  ((menu.entries tools).zipIdx 1).map fun entry =>
    utf8 (entryText entry.2 entry.1) ++ [10]

/-- The menu prints the entries there are, and a line selects the entry that
it is the number of. -/
def SelectsPrinted (menu : Menu) (store : Store) (line : Text) : Prop :=
  menu.printed tools P = some (menu.lines tools) ∧
    ∀ entry, menu.select tools P shell store line = some entry ↔
      menu.Numbers tools line entry

/-- The entries as the elements of an array, which `start_vm` counts from 1 and
`install_vm` from 0. -/
def numbered (menu : Menu) : List Text :=
  match menu with
  | vms _ => [] :: menu.entries tools
  | distros names => names

/-- What `install_vm` makes of a number to count from 0. -/
def offset (menu : Menu) (value : Value) : Value :=
  match menu with
  | vms _ => value
  | distros _ => value - 1

/-- As an arithmetic expression of the shell, in `install_vm` with ` - 1` behind
it, a line has a value, and leaves the numbered entries as these. -/
def Expresses (menu : Menu) (store : Store) (selection : Text) (value : Value)
    (items : List Text) : Prop :=
  ∃ store', evaluate shell depthLimit (menu.subscript selection)
      (Function.update store menu.arrayName ⟨true, menu.numbered tools⟩) =
        some (value, store') ∧
    (store' menu.arrayName).elements = items

/-- There are files in VMS_DIR, and every name stands for itself in a format;
the number of an entry leads, as the shell reads a constant, to an entry that
is the same and not empty; a line that is read as an integer below 1 comes to
LARGE_INT, the number of no entry; and any other line is no expression or one
that leads to no entry, counted from either end. -/
structure ReadsRight (menu : Menu) (store : Store) (line : Text) : Prop where
  offers : menu ≠ .vms []
  names : ∀ name ∈ menu.entries tools, StandsForItself name
  numeral : ∀ entry, menu.Numbers tools line entry →
    entry ≠ [] ∧ ∃ value, constant line = some value ∧
      IsElement (menu.numbered tools) (menu.offset value).toInt entry
  sentinel : ∀ selection, readSelection line = some selection →
    belowOne selection = true → ((menu.entries tools)[998]?).getD [] = []
  other : (∀ entry, ¬ menu.Numbers tools line entry) →
    ∀ selection, readSelection line = some selection →
      belowOne selection = false → ∀ value items,
        menu.Expresses tools shell store selection value items →
          ∀ text, IsElement items value.toInt text → text = []

end Property

end Menu

section Prompt

theorem readChars_plain {line : Text} (h : '\\' ∉ line) :
    readChars line = some (line.map fun c => (c, false)) := by
  induction line with
  | nil => rfl
  | cons c rest ih =>
      simp only [List.mem_cons, not_or] at h
      have hc : c ≠ '\\' := fun heq => h.1 heq.symm
      rw [readChars.eq_4 c rest (fun _ heq => absurd heq hc)
        (fun _ _ heq => absurd heq hc) (fun heq => absurd heq hc), ih h.2]
      rfl

/-- A numeral is read as it is. -/
theorem readSelection_numeral {line : Text} (h : IsNumeral line) :
    readSelection line = some line := by
  have hplain : '\\' ∉ line := fun hmem =>
    absurd (h.2 _ hmem) (by decide)
  have hmargin : ∀ char ∈ line.map fun c => (c, false),
      isMargin char = false := by
    intro char hchar
    obtain ⟨c, hc, rfl⟩ := List.mem_map.1 hchar
    simp [isMargin, isBlank_of_isDigit (h.2 c hc)]
  have hfront : (line.map fun c => (c, false)).dropWhile isMargin =
      line.map fun c => (c, false) := by
    cases line with
    | nil => rfl
    | cons c rest => simp [hmargin (c, false) (by simp)]
  have hend : (line.map fun c => (c, false)).rdropWhile isMargin =
      line.map fun c => (c, false) := by
    rw [List.rdropWhile_eq_self_iff]
    intro hne
    rw [hmargin _ (List.getLast_mem hne)]
    decide
  rw [readSelection, readChars_plain hplain, Option.map_some, hfront, hend,
    List.map_map]
  exact congrArg some (List.map_id line)

theorem testInteger_numeral {line : Text} (h : IsNumeral line) :
    testInteger line = some (numeralValue line : Int) := by
  obtain ⟨c, rest, rfl⟩ := List.exists_cons_of_ne_nil h.1
  have hc := h.2 c List.mem_cons_self
  have hspace : isSpace c = false := by
    by_contra hspace
    have hblank := isBlank_of_isDigit hc
    simp only [isSpace, hblank, Bool.false_or, Bool.or_eq_true, beq_iff_eq,
      Bool.not_eq_false] at hspace
    rcases hspace with (rfl | rfl) | rfl <;> revert hc <;> decide
  have hminus : c ≠ '-' := by
    rintro rfl
    revert hc
    decide
  have hplus : c ≠ '+' := by
    rintro rfl
    revert hc
    decide
  have htake : (c :: rest).takeWhile Char.isDigit = c :: rest :=
    List.takeWhile_eq_self_iff.2 h.2
  have hdrop : (c :: rest).dropWhile Char.isDigit = [] :=
    List.dropWhile_eq_nil_iff.2 h.2
  have hbody : (c :: rest).dropWhile isSpace = c :: rest := by
    simp [hspace]
  simp [testInteger, hbody, hminus, hplus, htake, hdrop]

/-- A positive numeral passes the test. -/
theorem belowOne_numeral {line : Text} (h : IsNumeral line)
    (hpos : 1 ≤ numeralValue line) : belowOne line = false := by
  rw [belowOne, testInteger_numeral h]
  have hnot : ¬ ((numeralValue line : Int) < 1) := by omega
  simp [hnot]

end Prompt

section Arrays

theorem arrayItem_eq_iff (array : List Text) (subscript : Int) {text : Text}
    (hne : text ≠ []) :
    arrayItem array subscript = text ↔ IsElement array subscript text := by
  have hitem : ∀ i : Nat, (array[i]?).getD [] = text ↔
      array[i]? = some text := by
    intro i
    cases array[i]? <;> simp [hne.symm]
  rw [arrayItem]
  by_cases hneg : subscript < 0
  · rw [if_pos hneg]
    by_cases hout : (array.length : Int) + subscript < 0
    · rw [if_pos hout]
      constructor
      · exact fun h => absurd h.symm hne
      · rintro ⟨i, _, hi | hi⟩ <;> omega
    · rw [if_neg hout, hitem]
      constructor
      · intro h
        exact ⟨_, h, Or.inr (by omega)⟩
      · rintro ⟨i, hi, heq | heq⟩
        · omega
        · rwa [show ((array.length : Int) + subscript).toNat = i by omega]
  · rw [if_neg hneg, if_neg hneg, hitem]
    constructor
    · intro h
      exact ⟨_, h, Or.inl (by omega)⟩
    · rintro ⟨i, hi, heq | heq⟩
      · rwa [heq, Int.toNat_natCast]
      · have hlt := (List.getElem?_eq_some_iff.1 hi).1
        omega

theorem isElement_natCast (array : List Text) (i : Nat) (text : Text) :
    IsElement array i text ↔ array[i]? = some text := by
  constructor
  · rintro ⟨j, hj, heq | heq⟩
    · rwa [Int.ofNat.inj heq]
    · have hlt := (List.getElem?_eq_some_iff.1 hj).1
      omega
  · exact fun h => ⟨i, h, Or.inl rfl⟩

theorem fillVms_append (vms names : List Text) :
    fillVms vms.length vms names = vms ++ names := by
  induction names generalizing vms with
  | nil => simp [fillVms]
  | cons name rest ih =>
      have hnext := ih (vms ++ [name])
      rw [List.length_append, List.length_singleton] at hnext
      simp [fillVms, setItem, hnext]

/-- The array of `start_vm` has its entries from 1 on. -/
theorem fillVms_one {names : List Text} (hne : names ≠ []) :
    fillVms 1 [] names = [] :: names := by
  obtain ⟨name, rest, rfl⟩ := List.exists_cons_of_ne_nil hne
  exact fillVms_append [[], name] rest

end Arrays

section Printing

variable {P : Printf}

theorem printEntries_length {counter : Nat} {names : List Text}
    {lines : List Bytes} (h : printEntries P counter names = some lines) :
    lines.length = names.length := by
  induction names generalizing counter lines with
  | nil =>
      obtain rfl := Option.some.inj h
      rfl
  | cons name rest ih =>
      obtain ⟨line, _, hlater⟩ := Option.bind_eq_some_iff.1 h
      obtain ⟨others, hothers, hjoin⟩ := Option.bind_eq_some_iff.1 hlater
      obtain rfl := Option.some.inj hjoin
      rw [List.length_cons, List.length_cons, ih hothers]

/-- An entry is printed as it is exactly if its name stands for itself. -/
theorem printf_entry_iff (counter : Nat) (name : Text) :
    printf P (entryText counter name ++ lineEnd) =
        some (utf8 (entryText counter name) ++ [10]) ↔
      StandsForItself name := by
  have hfront : ∀ c ∈ numeral counter ++ [':', ' '], c ≠ '%' ∧ c ≠ '\\' := by
    intro c hc
    rcases List.mem_append.1 hc with hdigit | hcolon
    · constructor
      · rintro rfl
        exact absurd (isDigit_of_mem_numeral hdigit) (by decide)
      · rintro rfl
        exact absurd (isDigit_of_mem_numeral hdigit) (by decide)
    · revert hcolon
      simp only [List.mem_cons, List.not_mem_nil, or_false]
      rintro (rfl | rfl) <;> decide
  rw [printf_lineEnd_iff, entryText, standsForItself_append hfront]

/-- The entries are printed as they are exactly if all names stand for
themselves. -/
theorem printEntries_iff (counter : Nat) (names : List Text) :
    printEntries P counter names =
        some ((names.zipIdx counter).map fun entry =>
          utf8 (entryText entry.2 entry.1) ++ [10]) ↔
      ∀ name ∈ names, StandsForItself name := by
  induction names generalizing counter with
  | nil => simp [printEntries]
  | cons name rest ih =>
      rw [List.forall_mem_cons, ← printf_entry_iff (P := P) counter name,
        ← ih (counter + 1), printEntries, List.zipIdx_cons, List.map_cons]
      constructor
      · intro h
        obtain ⟨line, hline, hlater⟩ := Option.bind_eq_some_iff.1 h
        obtain ⟨others, hothers, hjoin⟩ := Option.bind_eq_some_iff.1 hlater
        obtain ⟨rfl, rfl⟩ := List.cons.inj (Option.some.inj hjoin)
        exact ⟨hline, hothers⟩
      · rintro ⟨hline, hothers⟩
        rw [hline, hothers]
        rfl

end Printing

namespace Menu

section Selection

variable {tools : InstallTools} {P : Printf} {shell : Shell} {store : Store}

theorem select_eq_some_iff (menu : Menu) (line entry : Text) :
    menu.select tools P shell store line = some entry ↔
      (∃ lines, menu.printed tools P = some lines) ∧
        menu.choose tools shell store line = some entry := by
  rw [select]
  cases menu.printed tools P with
  | none => simp
  | some lines => simp

/-- A line chooses a text exactly if the guarded selection comes to a subscript
of it. -/
theorem choose_eq_some_iff (menu : Menu) (line entry : Text) :
    menu.choose tools shell store line = some entry ↔
      entry ≠ [] ∧ ∃ selection, readSelection line = some selection ∧
        ∃ value store', evaluate shell depthLimit
            (menu.subscript (guarded selection)) (menu.storeWith tools store) =
              some (value, store') ∧
          IsElement (store' menu.arrayName).elements value.toInt entry := by
  cases hline : readSelection line with
  | none => simp [choose, hline]
  | some selection =>
      have hselect : menu.choose tools shell store line = some entry ↔
          entry ≠ [] ∧
            menu.element tools shell store (guarded selection) = entry := by
        simp only [choose, hline, Option.bind_eq_bind, Option.bind_some]
        by_cases hempty : menu.element tools shell store (guarded selection) = []
        · simp only [hempty, ↓reduceIte, reduceCtorEq, false_iff, not_and]
          exact fun hne h => hne h.symm
        · rw [if_neg hempty, Option.some.injEq]
          constructor
          · rintro rfl
            exact ⟨hempty, rfl⟩
          · exact And.right
      rw [hselect]
      apply and_congr_right
      intro hne
      simp only [Option.some.injEq, exists_eq_left', element]
      cases evaluate shell depthLimit (menu.subscript (guarded selection))
          (menu.storeWith tools store) with
      | none => simp [hne.symm]
      | some result =>
          obtain ⟨value, store'⟩ := result
          simp only [Option.some.injEq, Prod.mk.injEq]
          rw [arrayItem_eq_iff _ _ hne]
          constructor
          · exact fun h => ⟨value, store', ⟨rfl, rfl⟩, h⟩
          · rintro ⟨_, _, ⟨rfl, rfl⟩, h⟩
            exact h

/-- The subscript made of a numeral comes to the constant it is read as. -/
theorem evaluate_subscript (menu : Menu) {digits : Text} (h : IsNumeral digits)
    (store : Store) :
    evaluate shell depthLimit (menu.subscript digits) store =
      (constant digits).map fun value => (menu.offset value, store) := by
  cases menu with
  | vms files => exact evaluate_numeral shell _ h.1 h.2 store
  | distros names => exact evaluate_numeral_minusOne shell _ h.1 h.2 store

@[simp] theorem storeWith_arrayName (menu : Menu) :
    ((menu.storeWith tools store) menu.arrayName).elements =
      menu.array tools := by
  simp [storeWith]

/-- A numeral that passes the test chooses what the constant is a subscript
of. -/
theorem choose_numeral_iff (menu : Menu) {line : Text} (h : IsNumeral line)
    (hpos : 1 ≤ numeralValue line) (entry : Text) :
    menu.choose tools shell store line = some entry ↔
      entry ≠ [] ∧ ∃ value, constant line = some value ∧
        IsElement (menu.array tools) (menu.offset value).toInt entry := by
  have hguard : guarded line = line := by
    rw [guarded, belowOne_numeral h hpos, if_neg (by decide)]
  rw [choose_eq_some_iff, readSelection_numeral h]
  simp only [Option.some.injEq, exists_eq_left', hguard]
  rw [evaluate_subscript menu h]
  cases constant line with
  | none => simp
  | some value => simp

theorem listed_ne_nil (files : List Text) :
    (Menu.vms files).listed tools ≠ [] := by
  rw [listed]
  split
  · simp
  · simpa using ‹¬ files = []›

theorem listed_eq_entries {menu : Menu} (h : menu ≠ .vms []) :
    menu.listed tools = menu.entries tools := by
  cases menu with
  | vms files =>
      have hfiles : files ≠ [] := fun heq => h (heq ▸ rfl)
      rw [listed, if_neg hfiles, entries]
  | distros names => rfl

theorem array_eq_numbered {menu : Menu} (h : menu ≠ .vms []) :
    menu.array tools = menu.numbered tools := by
  cases menu with
  | vms files =>
      rw [array, fillVms_one (listed_ne_nil files), listed_eq_entries h, numbered]
  | distros names => rfl

theorem printed_eq_iff (menu : Menu) :
    menu.printed tools P = some (menu.lines tools) ↔
      menu ≠ .vms [] ∧ ∀ name ∈ menu.entries tools, StandsForItself name := by
  constructor
  · intro h
    have hoffers : menu ≠ .vms [] := by
      rintro rfl
      have hlength := printEntries_length h
      simp [lines, listed, entries] at hlength
    rw [printed, listed_eq_entries hoffers, lines, printEntries_iff] at h
    exact ⟨hoffers, h⟩
  · rintro ⟨hoffers, hnames⟩
    rw [printed, listed_eq_entries hoffers, lines, printEntries_iff]
    exact hnames

theorem toInt_ofNat_of_lt {n : Nat} (h : n < 2 ^ 63) :
    (BitVec.ofNat 64 n).toInt = n := by
  rw [BitVec.toInt_ofNat', Int.bmod_eq_of_le] <;> omega

/-- The number of an entry leads to that entry, as long as it fits. -/
theorem isElement_offset (menu : Menu) {n : Nat} (hpos : 1 ≤ n)
    (hfits : n < 2 ^ 63) (text : Text) :
    IsElement (menu.array tools) (menu.offset (BitVec.ofNat 64 n)).toInt text ↔
      (menu.listed tools)[n - 1]? = some text := by
  obtain ⟨k, rfl⟩ : ∃ k, n = k + 1 := ⟨n - 1, by omega⟩
  cases menu with
  | vms files =>
      have harray : (Menu.vms files).array tools =
          [] :: (Menu.vms files).listed tools :=
        fillVms_one (listed_ne_nil files)
      rw [harray, offset, toInt_ofNat_of_lt hfits, isElement_natCast,
        List.getElem?_cons_succ, Nat.add_sub_cancel]
  | distros names =>
      have hvalue : BitVec.ofNat 64 (k + 1) - 1 = BitVec.ofNat 64 k := by
        rw [BitVec.ofNat_add]
        exact BitVec.add_sub_cancel _ _
      rw [offset, hvalue, toInt_ofNat_of_lt (by omega), isElement_natCast,
        Nat.add_sub_cancel]
      rfl

theorem constant_largeInt : constant largeInt = some (BitVec.ofNat 64 999) :=
  rfl

/-- LARGE_INT chooses the entry of its number. -/
theorem choose_sentinel_iff (menu : Menu) {line selection : Text}
    (hread : readSelection line = some selection)
    (hbelow : belowOne selection = true) (entry : Text) :
    menu.choose tools shell store line = some entry ↔
      entry ≠ [] ∧ (menu.listed tools)[998]? = some entry := by
  have hguard : guarded selection = largeInt := by
    rw [guarded, hbelow, if_pos rfl]
  have hlarge : IsNumeral largeInt :=
    ⟨by decide, List.all_eq_true.1 (by decide)⟩
  have hplace : IsElement (menu.array tools)
      (menu.offset (BitVec.ofNat 64 999)).toInt entry ↔
        (menu.listed tools)[998]? = some entry :=
    isElement_offset menu (by decide) (by decide) entry
  rw [choose_eq_some_iff, hread]
  simp only [Option.some.injEq, exists_eq_left', hguard]
  rw [evaluate_subscript menu hlarge, constant_largeInt]
  apply and_congr_right
  intro _
  rw [← hplace]
  simp

theorem Numbers.pos {menu : Menu} {line entry : Text}
    (h : menu.Numbers tools line entry) : 1 ≤ numeralValue line :=
  (List.mk_mem_zipIdx_iff_le_and_getElem?_sub.1 h.2).1

/-- A line is the number of at most one entry. -/
theorem Numbers.unique {menu : Menu} {line entry entry' : Text}
    (h : menu.Numbers tools line entry) (h' : menu.Numbers tools line entry') :
    entry = entry' := by
  have hitem := (List.mk_mem_zipIdx_iff_le_and_getElem?_sub.1 h.2).2
  have hitem' := (List.mk_mem_zipIdx_iff_le_and_getElem?_sub.1 h'.2).2
  exact Option.some.inj (hitem.symm.trans hitem')

/-- The numbered entries are the array the subscript is evaluated in. -/
theorem expresses_iff {menu : Menu} (hoffers : menu ≠ .vms [])
    (selection : Text) (value : Value) (items : List Text) :
    menu.Expresses tools shell store selection value items ↔
      ∃ store', evaluate shell depthLimit (menu.subscript selection)
          (menu.storeWith tools store) = some (value, store') ∧
        (store' menu.arrayName).elements = items := by
  rw [Expresses, storeWith, array_eq_numbered hoffers]

/-- If the line reads right, what it selects is the entry of its number. -/
theorem ReadsRight.numbers_of_select {menu : Menu} {line entry : Text}
    (h : menu.ReadsRight tools shell store line)
    (hselect : menu.select tools P shell store line = some entry) :
    menu.Numbers tools line entry := by
  have hchoose := ((select_eq_some_iff menu line entry).1 hselect).2
  by_cases hnumbers : ∃ other, menu.Numbers tools line other
  · obtain ⟨other, hother⟩ := hnumbers
    have hnumeral := h.numeral other hother
    rw [← array_eq_numbered h.offers] at hnumeral
    have hchosen : menu.choose tools shell store line = some other :=
      (choose_numeral_iff menu hother.1 hother.pos other).2 hnumeral
    rw [hchoose, Option.some.injEq] at hchosen
    exact hchosen ▸ hother
  · rw [not_exists] at hnumbers
    exfalso
    obtain ⟨hne, selection, hread, value, store', hvalue, helement⟩ :=
      (choose_eq_some_iff menu line entry).1 hchoose
    by_cases hbelow : belowOne selection = true
    · obtain ⟨_, hentry⟩ :=
        (choose_sentinel_iff menu hread hbelow entry).1 hchoose
      have hempty := h.sentinel selection hread hbelow
      rw [← listed_eq_entries h.offers, hentry, Option.getD_some] at hempty
      exact hne hempty
    · rw [Bool.not_eq_true] at hbelow
      rw [guarded, hbelow, if_neg (by decide)] at hvalue
      exact hne (h.other hnumbers selection hread hbelow value _
        ((expresses_iff h.offers _ _ _).2 ⟨store', hvalue, rfl⟩) entry helement)

/-- A menu that selects what it prints comes to its prompt. -/
theorem SelectsPrinted.choose_iff {menu : Menu} {line : Text}
    (h : menu.SelectsPrinted tools P shell store line) (entry : Text) :
    menu.choose tools shell store line = some entry ↔
      menu.Numbers tools line entry := by
  rw [← h.2 entry, select_eq_some_iff]
  exact ⟨fun hchoose => ⟨⟨_, h.1⟩, hchoose⟩, And.right⟩

/-- LARGE_INT is then the number of no entry. -/
theorem SelectsPrinted.sentinel {menu : Menu} {line selection : Text}
    (h : menu.SelectsPrinted tools P shell store line)
    (hread : readSelection line = some selection)
    (hbelow : belowOne selection = true) :
    ((menu.entries tools)[998]?).getD [] = [] := by
  cases hentry : (menu.entries tools)[998]? with
  | none => rfl
  | some entry =>
      by_contra hne
      rw [← listed_eq_entries ((printed_eq_iff menu).1 h.1).1] at hentry
      have hnumber := (h.choose_iff entry).1
        ((choose_sentinel_iff menu hread hbelow entry).2 ⟨hne, hentry⟩)
      rw [readSelection_numeral hnumber.1, Option.some.injEq] at hread
      rw [← hread, belowOne_numeral hnumber.1 hnumber.pos] at hbelow
      cases hbelow

end Selection

section Ordinary

variable (tools : InstallTools) (P : Printf) (shell : Shell) (store : Store)

/-- The number as the menu prints it reads right. -/
theorem readsRight_numeral {menu : Menu} {entry : Text} {n : Nat}
    (hentries : (entry, n) ∈ (menu.entries tools).zipIdx 1)
    (hoffers : menu ≠ .vms [])
    (hnames : ∀ name ∈ menu.entries tools, StandsForItself name)
    (hne : entry ≠ []) (hfits : n < 2 ^ 63) :
    menu.ReadsRight tools shell store (numeral n) := by
  obtain ⟨hpos, hentry⟩ :=
    List.mk_mem_zipIdx_iff_le_and_getElem?_sub.1 hentries
  have hnumeral : IsNumeral (numeral n) :=
    ⟨numeral_ne_nil n, fun _ hc => isDigit_of_mem_numeral hc⟩
  have hnumbers : menu.Numbers tools (numeral n) entry := by
    refine ⟨hnumeral, List.mk_mem_zipIdx_iff_le_and_getElem?_sub.2 ?_⟩
    rw [numeralValue_numeral]
    exact ⟨hpos, hentry⟩
  have hconstant : constant (numeral n) = some (BitVec.ofNat 64 n) := by
    rw [constant_decimal hnumeral.2 (numeral_head_ne_zero hpos),
      numeralValue_numeral]
  refine ⟨hoffers, hnames, ?_, ?_, fun hnone => absurd hnumbers (hnone entry)⟩
  · intro other hother
    rw [hother.unique hnumbers]
    refine ⟨hne, _, hconstant, ?_⟩
    rw [← array_eq_numbered hoffers, isElement_offset menu hpos hfits,
      listed_eq_entries hoffers]
    exact hentry
  · intro selection hread hbelow
    rw [readSelection_numeral hnumeral, Option.some.injEq] at hread
    rw [← hread, belowOne_numeral hnumeral hnumbers.pos] at hbelow
    cases hbelow

/-- A line of blanks is no number, and in the menu of `install_vm` it selects
the last distro. -/
theorem select_blank {line : Text} (h : ∀ c ∈ line, isBlank c = true)
    {names : List Text} {last : Text} (hlast : names.getLast? = some last)
    (hne : last ≠ []) (hnames : ∀ name ∈ names, StandsForItself name) :
    (Menu.distros names).select tools P shell store line = some last := by
  have hplain : '\\' ∉ line := fun hmem => absurd (h _ hmem) (by decide)
  have hread : readSelection line = some [] := by
    rw [readSelection, readChars_plain hplain, Option.map_some]
    have hdrop : (line.map fun c => (c, false)).dropWhile isMargin = [] := by
      rw [List.dropWhile_eq_nil_iff]
      intro char hchar
      obtain ⟨c, hc, rfl⟩ := List.mem_map.1 hchar
      simp [isMargin, h c hc]
    rw [hdrop]
    rfl
  have hvalue : evaluate shell depthLimit minusOne
      ((Menu.distros names).storeWith tools store) =
        some (-1, (Menu.distros names).storeWith tools store) := by
    have htokens : Arithmetic.tokens (minusOne.length + 1) false minusOne =
        some [.binary .sub, .constant 1] := rfl
    have hexpr : parseAll [.binary .sub, .constant 1] =
        some (.unary .minus (.constant 1)) := rfl
    rw [depthLimit, evaluate_of_tokens htokens hexpr]
    rfl
  have hprinted : (Menu.distros names).printed tools P =
      some ((Menu.distros names).lines tools) :=
    (printed_eq_iff _).2 ⟨nofun, hnames⟩
  rw [select_eq_some_iff, choose_eq_some_iff]
  refine ⟨⟨_, hprinted⟩, hne, [], hread, -1, _, hvalue, names.length - 1, ?_, Or.inr ?_⟩
  · rw [storeWith_arrayName, array, ← hlast, List.getLast?_eq_getElem?]
  · have hpos : 0 < names.length := by
      cases names with
      | nil => cases hlast
      | cons name rest => simp
    rw [storeWith_arrayName, array]
    have hminus : (-1 : Value).toInt = -1 := by decide
    rw [hminus]
    omega

end Ordinary

section Commands

variable (tools : InstallTools) (P : Printf) (shell : Shell) (store : Store)

/-- `start_vm` from its flags and, without an image among them, from the line
typed at its menu. -/
def startTyped (files : List Text) (line : Text) (s : Settings) :
    Option QemuCommand := do
  if s.vid = [] then none
  else
    let selectedVm ←
      if s.img ≠ [] then some s.img
      else (Menu.vms files).select tools P shell store line
    startVm tools.home selectedVm s

/-- A line that reads right starts a machine from the image of its number. -/
theorem startTyped_drive {files : List Text} {line : Text} {s : Settings}
    {command : QemuCommand}
    (h : (Menu.vms files).ReadsRight tools shell store line)
    (himg : s.img = [])
    (hstart : startTyped tools P shell store files line s = some command) :
    ∃ entry, (Menu.vms files).Numbers tools line entry ∧
      command.drive = imageDrive entry := by
  have hvid : s.vid ≠ [] := by
    intro hvid
    rw [startTyped, if_pos hvid] at hstart
    cases hstart
  rw [startTyped, if_neg hvid, if_neg (not_not.2 himg)] at hstart
  obtain ⟨entry, hselect, hcommand⟩ := Option.bind_eq_some_iff.1 hstart
  refine ⟨entry, h.numbers_of_select hselect, ?_⟩
  rcases startVm_eq_some_iff.1 hcommand with ⟨_, rfl⟩ | ⟨_, rfl⟩
  · rfl
  · rfl

/-- The subscript that a line typed at the menu of `install_vm` comes to. -/
def typedSubscript (line : Text) : Option Int := do
  let menu := Menu.distros cloudDistros
  let selection ← readSelection line
  let (value, _) ← evaluate shell depthLimit
    (menu.subscript (guarded selection)) (menu.storeWith tools store)
  return value.toInt

/-- `install_vm` installs the distro that is selected; the line may not have
assigned to CLOUD_DISTROS. -/
theorem installVm_typed (outcomes : InstallOutcomes) {request : InstallRequest}
    {line : Text} (hiso : request.settings.iso = [])
    (hpre : request.settings.pre = [])
    (hsubscript : request.subscript = typedSubscript tools shell store line)
    (hkeeps : ∀ selection value store', readSelection line = some selection →
      evaluate shell depthLimit
          ((Menu.distros cloudDistros).subscript (guarded selection))
          ((Menu.distros cloudDistros).storeWith tools store) =
        some (value, store') →
      (store' (Menu.distros cloudDistros).arrayName).elements =
        cloudDistros) :
    installVm tools outcomes request =
      (plainStep outcomes.mkdirVms).andThen
        (match (Menu.distros cloudDistros).select tools P shell store line with
          | none => Script.exit
          | some distro =>
              installVmFromPredefined tools outcomes distro
                request.answer) := by
  have hprinted : (Menu.distros cloudDistros).printed tools P =
      some ((Menu.distros cloudDistros).lines tools) :=
    (printed_eq_iff _).2 ⟨nofun, List.forall_mem_singleton.2 (by decide)⟩
  have hselect : (Menu.distros cloudDistros).select tools P shell store line =
      (Menu.distros cloudDistros).choose tools shell store line := by
    rw [select, hprinted]
    rfl
  rw [installVm, if_neg (not_not.2 hiso), if_neg (not_not.2 hpre), hsubscript,
    typedSubscript, hselect, choose]
  congr 1
  cases hread : readSelection line with
  | none => rfl
  | some selection =>
      simp only [Option.bind_eq_bind, Option.bind_some, element]
      rcases Option.eq_none_or_eq_some (evaluate shell depthLimit
          ((Menu.distros cloudDistros).subscript (guarded selection))
          ((Menu.distros cloudDistros).storeWith tools store)) with
        hvalue | ⟨⟨value, store'⟩, hvalue⟩
      · simp [hvalue]
      · have helements := hkeeps selection value store' hread hvalue
        by_cases hitem : arrayItem cloudDistros value.toInt = []
        · simp [hvalue, helements, hitem]
        · simp [hvalue, helements, hitem]

end Commands

/-- A shell whose subscripts hold nothing to expand, and in which no variable
is set. -/
def plainShell : Shell where
  expand := pure
  readonly _ := false

def noVariables : Store := fun _ => ⟨false, []⟩

end Menu

end Bodhi
