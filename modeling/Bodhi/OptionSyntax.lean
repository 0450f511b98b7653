/-
Comma-separated option texts: `key=value` items in which a doubled comma
stands for a comma inside a value, and an empty item at the end is ignored.
Every list of items is rendered to a text that is read back as that list.
-/
import Bodhi.ShellText

namespace Bodhi

/-- One option; an option without `=` has no value. -/
structure OptionItem where
  key : Text
  value : Option Text
deriving DecidableEq, Repr

/-- The scanner.  The first argument is the key once its `=` is read; the
second is what has been read of the current key or value. -/
def scanOptions : Option Text → Text → Text → List OptionItem
  | none, acc, [] => if acc = [] then [] else [⟨acc, none⟩]
  | some key, acc, [] => [⟨key, some acc⟩]
  | none, acc, ',' :: rest => ⟨acc, none⟩ :: scanOptions none [] rest
  | none, acc, '=' :: rest => scanOptions (some acc) [] rest
  | none, acc, c :: rest => scanOptions none (acc ++ [c]) rest
  | some key, acc, ',' :: ',' :: rest =>
      scanOptions (some key) (acc ++ [',']) rest
  | some key, acc, ',' :: rest =>
      ⟨key, some acc⟩ :: scanOptions none [] rest
  | some key, acc, c :: rest => scanOptions (some key) (acc ++ [c]) rest

def readOptions (text : Text) : List OptionItem :=
  scanOptions none [] text

/-- Double the commas of a value. -/
def escapeCommas (value : Text) : Text :=
  value.flatMap fun c => if c = ',' then [',', ','] else [c]

@[simp] theorem escapeCommas_nil : escapeCommas [] = [] := rfl

theorem escapeCommas_append (first last : Text) :
    escapeCommas (first ++ last) = escapeCommas first ++ escapeCommas last :=
  List.flatMap_append

theorem escapeCommas_of_not_mem {value : Text} (h : ',' ∉ value) :
    escapeCommas value = value := by
  induction value with
  | nil => rfl
  | cons c value ih =>
      simp only [List.mem_cons, not_or] at h
      have hc : c ≠ ',' := fun heq => h.1 heq.symm
      have htail := ih h.2
      simp only [escapeCommas] at htail
      simp [escapeCommas, hc, htail]

theorem escapeCommas_cons_comma (value : Text) :
    escapeCommas (',' :: value) = ',' :: ',' :: escapeCommas value := rfl

/-- A key that the scanner reads up to its `=`. -/
def IsOptionKey (key : Text) : Prop :=
  key ≠ [] ∧ ',' ∉ key ∧ '=' ∉ key

instance (key : Text) : Decidable (IsOptionKey key) :=
  inferInstanceAs (Decidable (_ ∧ _ ∧ _))

theorem scanOptions_key_cons {c : Char} (hcomma : c ≠ ',') (heq : c ≠ '=')
    (acc rest : Text) :
    scanOptions none acc (c :: rest) = scanOptions none (acc ++ [c]) rest := by
  rw [scanOptions]
  · exact hcomma
  · exact heq

theorem scanOptions_key {key : Text} (hcomma : ',' ∉ key) (heq : '=' ∉ key)
    (acc rest : Text) :
    scanOptions none acc (key ++ '=' :: rest) =
      scanOptions (some (acc ++ key)) [] rest := by
  induction key generalizing acc with
  | nil => simp [scanOptions]
  | cons c key ih =>
      simp only [List.mem_cons, not_or] at hcomma heq
      rw [List.cons_append,
        scanOptions_key_cons (fun h => hcomma.1 h.symm) (fun h => heq.1 h.symm),
        ih hcomma.2 heq.2, List.append_assoc]
      rfl

/-- An option without `=` is read up to the comma that ends it. -/
theorem scanOptions_flag {key : Text} (hcomma : ',' ∉ key) (heq : '=' ∉ key)
    (acc rest : Text) :
    scanOptions none acc (key ++ ',' :: rest) =
      ⟨acc ++ key, none⟩ :: scanOptions none [] rest := by
  induction key generalizing acc with
  | nil => simp [scanOptions]
  | cons c key ih =>
      simp only [List.mem_cons, not_or] at hcomma heq
      rw [List.cons_append,
        scanOptions_key_cons (fun h => hcomma.1 h.symm) (fun h => heq.1 h.symm),
        ih hcomma.2 heq.2, List.append_assoc]
      rfl

theorem scanOptions_value_cons {c : Char} (hc : c ≠ ',')
    (key acc rest : Text) :
    scanOptions (some key) acc (c :: rest) =
      scanOptions (some key) (acc ++ [c]) rest := by
  rw [scanOptions]
  · exact fun _ h => absurd h hc
  · exact hc

theorem scanOptions_value_end (key acc : Text) {rest : Text}
    (hrest : rest.head? ≠ some ',') :
    scanOptions (some key) acc (',' :: rest) =
      ⟨key, some acc⟩ :: scanOptions none [] rest := by
  cases rest with
  | nil => rfl
  | cons c rest =>
      have hc : c ≠ ',' := by simpa using hrest
      conv_lhs => rw [scanOptions.eq_def]
      split <;> grind

/-- A value is read up to the comma that ends it. -/
theorem scanOptions_value (key value acc rest : Text)
    (hrest : rest.head? ≠ some ',') :
    scanOptions (some key) acc (escapeCommas value ++ ',' :: rest) =
      ⟨key, some (acc ++ value)⟩ :: scanOptions none [] rest := by
  induction value generalizing acc with
  | nil =>
      simpa using scanOptions_value_end key acc hrest
  | cons c value ih =>
      by_cases hc : c = ','
      · subst hc
        have hstep := ih (acc ++ [','])
        simp only [escapeCommas] at hstep
        simpa [escapeCommas, scanOptions] using hstep
      · have hstep := ih (acc ++ [c])
        simp only [escapeCommas] at hstep
        simpa [escapeCommas, hc, scanOptions_value_cons hc] using hstep

theorem scanOptions_last_value (key value acc : Text) :
    scanOptions (some key) acc (escapeCommas value) =
      [⟨key, some (acc ++ value)⟩] := by
  induction value generalizing acc with
  | nil => simp [scanOptions]
  | cons c value ih =>
      by_cases hc : c = ','
      · subst hc
        have hstep := ih (acc ++ [','])
        simp only [escapeCommas] at hstep
        simpa [escapeCommas, scanOptions] using hstep
      · have hstep := ih (acc ++ [c])
        simp only [escapeCommas] at hstep
        simpa [escapeCommas, hc, scanOptions_value_cons hc] using hstep

/-- One `key=value` item as text. -/
def renderItem (item : Text × Text) : Text :=
  item.1 ++ '=' :: escapeCommas item.2

def renderOptions (items : List (Text × Text)) : Text :=
  [','].intercalate (items.map renderItem)

/-- The items that a rendered list stands for. -/
def optionItems (items : List (Text × Text)) : List OptionItem :=
  items.map fun item => ⟨item.1, some item.2⟩

theorem renderOptions_cons_cons (item next : Text × Text)
    (rest : List (Text × Text)) :
    renderOptions (item :: next :: rest) =
      renderItem item ++ ',' :: renderOptions (next :: rest) := by
  simp [renderOptions, List.intercalate_cons_cons]

/-- Each further item is added behind a comma. -/
theorem renderOptions_append (item : Text × Text)
    (first last : List (Text × Text)) :
    renderOptions (item :: first ++ last) =
      renderOptions (item :: first) ++
        last.flatMap fun next => ',' :: renderItem next := by
  induction first generalizing item with
  | nil =>
      induction last generalizing item with
      | nil => simp
      | cons next rest ih =>
          have hrest := ih next
          simp only [List.cons_append, List.nil_append] at hrest ⊢
          rw [renderOptions_cons_cons, hrest]
          simp [renderOptions]
  | cons next first ih =>
      have hrest := ih next
      simp only [List.cons_append] at hrest ⊢
      rw [renderOptions_cons_cons, hrest, renderOptions_cons_cons,
        List.append_assoc, List.cons_append]

theorem renderOptions_head {item : Text × Text} (hkey : IsOptionKey item.1)
    (rest : List (Text × Text)) (last : Text) :
    (renderOptions (item :: rest) ++ last).head? ≠ some ',' := by
  have hitem : (renderItem item).head? = item.1.head? := by
    rw [renderItem, List.head?_append_of_ne_nil _ hkey.1]
  have hne : renderItem item ≠ [] := by simp [renderItem]
  have hhead : (renderOptions (item :: rest) ++ last).head? =
      item.1.head? := by
    rw [← hitem]
    cases rest with
    | nil =>
        have hone : renderOptions [item] = renderItem item := by
          simp [renderOptions]
        rw [hone, List.head?_append_of_ne_nil _ hne]
    | cons next rest =>
        rw [renderOptions_cons_cons, List.append_assoc,
          List.head?_append_of_ne_nil _ hne]
  rw [hhead]
  intro h
  exact hkey.2.1 (List.mem_of_mem_head? h)

/-- Rendering is read back, also with a comma too many at the end. -/
theorem readOptions_renderOptions_append {items : List (Text × Text)}
    (hkeys : ∀ item ∈ items, IsOptionKey item.1) (hne : items ≠ [])
    {last : Text} (hlast : last = [] ∨ last = [',']) :
    readOptions (renderOptions items ++ last) = optionItems items := by
  rw [readOptions]
  induction items with
  | nil => exact absurd rfl hne
  | cons item rest ih =>
      obtain ⟨_, hcomma, heq⟩ := hkeys item List.mem_cons_self
      cases rest with
      | nil =>
          have hone : renderOptions [item] = renderItem item := by
            simp [renderOptions]
          rw [hone, renderItem, List.append_assoc, List.cons_append,
            scanOptions_key hcomma heq, List.nil_append]
          rcases hlast with rfl | rfl
          · rw [List.append_nil, scanOptions_last_value]
            rfl
          · rw [scanOptions_value _ _ _ [] (by simp)]
            rfl
      | cons next rest =>
          have hnext := hkeys next (by simp)
          have hrest := ih
            (fun other hmem => hkeys other (List.mem_cons_of_mem _ hmem))
            (by simp)
          have hhead := renderOptions_head hnext rest last
          rw [renderOptions_cons_cons, renderItem, List.append_assoc,
            List.append_assoc, List.cons_append, List.cons_append,
            scanOptions_key hcomma heq, List.nil_append,
            scanOptions_value _ _ _ _ hhead, hrest]
          rfl

/-- The values that a key is given, in order. -/
def optionValues (key : Text) (items : List OptionItem) : List Text :=
  items.filterMap fun item => if item.key = key then item.value else none

/-- The value that counts where a key is given more than once: the last. -/
def optionValue (key : Text) (items : List OptionItem) : Option Text :=
  (optionValues key items).getLast?

end Bodhi
