/-
Scanning lists: the fields between separators, the text after the last
occurrence of a pattern, the erasure of every occurrence, and the rows that
the members of a list are given.
-/
import Mathlib.Data.List.Basic
import Mathlib.Data.List.Infix
import Mathlib.Data.List.Nodup
import Mathlib.Data.List.TakeWhile

namespace Bodhi

universe u

variable {α : Type u}

/-- The maximal runs of elements that are not separators. -/
def fields (sep : α → Bool) (xs : List α) : List (List α) :=
  (xs.splitOnP sep).filter fun field => !field.isEmpty

@[simp] theorem fields_nil (sep : α → Bool) : fields sep [] = [] := by
  simp [fields, List.splitOnP_nil]

/-- Fields do not cross a separator. -/
theorem fields_append_sep (sep : α → Bool) (xs ys : List α) {x : α}
    (hx : sep x = true) :
    fields sep (xs ++ x :: ys) = fields sep xs ++ fields sep ys := by
  simp [fields, List.splitOnP_append_cons xs ys hx]

/-- A text without separators is one field. -/
theorem fields_eq_singleton (sep : α → Bool) {xs : List α}
    (hne : xs ≠ []) (hxs : ∀ x ∈ xs, sep x = false) :
    fields sep xs = [xs] := by
  simp [fields, List.splitOnP_eq_singleton hxs, hne]

theorem fields_word_cons (sep : α → Bool) {word : List α} (xs : List α)
    {x : α} (hne : word ≠ []) (hword : ∀ y ∈ word, sep y = false)
    (hx : sep x = true) :
    fields sep (word ++ x :: xs) = word :: fields sep xs := by
  rw [fields_append_sep sep word xs hx, fields_eq_singleton sep hne hword]
  rfl

/-- The fields of a separated list are the fields of its members in turn. -/
theorem fields_intercalate (sep : α → Bool) {x : α} (hx : sep x = true)
    (lists : List (List α)) :
    fields sep ([x].intercalate lists) = lists.flatMap (fields sep) := by
  induction lists with
  | nil => simp
  | cons head tail ih =>
      cases tail with
      | nil => simp
      | cons next rest =>
          have hsplit := fields_append_sep sep head
            ([x].intercalate (next :: rest)) hx
          rw [List.intercalate_cons_cons, List.append_assoc,
            List.singleton_append, hsplit, ih]
          rfl

/-- Words joined by a separator are read back. -/
theorem fields_intercalate_words (sep : α → Bool) {x : α}
    (hx : sep x = true) {words : List (List α)}
    (hne : ∀ word ∈ words, word ≠ [])
    (hwords : ∀ word ∈ words, ∀ y ∈ word, sep y = false) :
    fields sep ([x].intercalate words) = words := by
  rw [fields_intercalate sep hx]
  induction words with
  | nil => rfl
  | cons head tail ih =>
      have hhead : fields sep head = [head] :=
        fields_eq_singleton sep (hne head List.mem_cons_self)
          (hwords head List.mem_cons_self)
      have htail := ih (fun word hw => hne word (List.mem_cons_of_mem _ hw))
        (fun word hw => hwords word (List.mem_cons_of_mem _ hw))
      rw [List.flatMap_cons, hhead, htail]
      rfl

theorem mem_splitOnP {sep : α → Bool} {xs piece : List α}
    (h : piece ∈ xs.splitOnP sep) :
    ∀ x ∈ piece, x ∈ xs ∧ sep x = false := by
  induction xs generalizing piece with
  | nil => simp_all
  | cons y xs ih =>
      obtain ⟨first, rest, hsplit⟩ :=
        List.exists_cons_of_ne_nil (List.splitOnP_ne_nil sep xs)
      have hrest : ∀ other ∈ first :: rest, ∀ x ∈ other,
          x ∈ y :: xs ∧ sep x = false := by
        intro other hother x hx
        obtain ⟨hmem, hsep⟩ := ih (hsplit ▸ hother) x hx
        exact ⟨List.mem_cons_of_mem y hmem, hsep⟩
      rw [List.splitOnP_cons_eq_if_modifyHead, hsplit] at h
      by_cases hy : sep y = true
      · rw [if_pos hy, List.mem_cons] at h
        rcases h with rfl | h
        · simp
        · exact hrest piece h
      · rw [if_neg hy, List.modifyHead_cons, List.mem_cons] at h
        rcases h with rfl | h
        · intro x hx
          rcases List.mem_cons.1 hx with rfl | hx
          · exact ⟨List.mem_cons_self, by simpa using hy⟩
          · exact hrest first List.mem_cons_self x hx
        · exact hrest piece (List.mem_cons_of_mem first h)

/-- A field is not empty and made of elements that are not separators. -/
theorem mem_fields {sep : α → Bool} {xs field : List α}
    (h : field ∈ fields sep xs) :
    field ≠ [] ∧ ∀ x ∈ field, x ∈ xs ∧ sep x = false := by
  obtain ⟨hmem, hne⟩ := List.mem_filter.1 h
  exact ⟨by simpa using hne, mem_splitOnP hmem⟩

/-- The fields stay as they are when only separators are replaced, by other
separators. -/
theorem fields_map {sep sep' : α → Bool} {f : α → α} {xs : List α}
    (hsep : ∀ x ∈ xs, sep' (f x) = sep x)
    (hkeep : ∀ x ∈ xs, sep x = false → f x = x) :
    fields sep' (xs.map f) = fields sep xs := by
  have hsplit : (xs.map f).splitOnP sep' = xs.splitOnP sep := by
    induction xs with
    | nil => rfl
    | cons x xs ih =>
        have hrest := ih (fun y hy => hsep y (List.mem_cons_of_mem x hy))
          (fun y hy => hkeep y (List.mem_cons_of_mem x hy))
        rw [List.map_cons, List.splitOnP_cons_eq_if_modifyHead,
          List.splitOnP_cons_eq_if_modifyHead, hrest,
          hsep x List.mem_cons_self]
        by_cases hx : sep x = true
        · rw [if_pos hx, if_pos hx]
        · rw [if_neg hx, if_neg hx, hkeep x List.mem_cons_self (by simpa using hx)]
  rw [fields, fields, hsplit]

/-- `tail` follows an occurrence of `pat` in `xs` that no other occurrence
starts after. -/
def FollowsLast (pat xs tail : List α) : Prop :=
  ∃ before, xs = before ++ pat ++ tail ∧
    ∀ before' tail', xs = before' ++ pat ++ tail' →
      before'.length ≤ before.length

theorem FollowsLast.unique {pat xs tail tail' : List α}
    (h : FollowsLast pat xs tail) (h' : FollowsLast pat xs tail') :
    tail = tail' := by
  obtain ⟨before, heq, hlast⟩ := h
  obtain ⟨before', heq', hlast'⟩ := h'
  have hlen : before.length = before'.length :=
    Nat.le_antisymm (hlast' before tail heq) (hlast before' tail' heq')
  have hboth : before ++ (pat ++ tail) = before' ++ (pat ++ tail') := by
    rw [← List.append_assoc, ← heq, heq', List.append_assoc]
  exact List.append_cancel_left (List.append_inj_right hboth hlen)

theorem prefix_append_sep_iff {pat : List α} {x : α} (hx : x ∉ pat)
    (xs ys : List α) :
    pat <+: xs ++ x :: ys ↔ pat <+: xs := by
  constructor
  · intro h
    induction xs generalizing pat with
    | nil =>
        cases pat with
        | nil => exact List.nil_prefix
        | cons p pat =>
            simp only [List.nil_append, List.cons_prefix_cons] at h
            exact absurd (h.1 ▸ List.mem_cons_self) hx
    | cons z xs ih =>
        cases pat with
        | nil => exact List.nil_prefix
        | cons p pat =>
            simp only [List.cons_append, List.cons_prefix_cons] at h ⊢
            exact ⟨h.1, ih (fun hmem => hx (List.mem_cons_of_mem p hmem)) h.2⟩
  · exact fun h => h.trans (List.prefix_append xs _)

/-- The scan of `dropWhile` stops at an element that fails the test. -/
theorem dropWhile_eq_cons {p : α → Bool} {xs : List α} {x : α}
    {rest : List α} (h : xs.dropWhile p = x :: rest) : p x = false := by
  have hhead := List.head?_dropWhile_not p xs
  rwa [h] at hhead

/-- The first field of a text that does not begin with a separator. -/
theorem fields_head (sep : α → Bool) {x : α} (xs : List α)
    (hx : sep x = false) :
    (fields sep (x :: xs)).head? =
      some ((x :: xs).takeWhile fun y => !sep y) := by
  have hword : ∀ y ∈ (x :: xs).takeWhile (fun y => !sep y),
      sep y = false := by
    intro y hy
    simpa using List.mem_takeWhile_imp hy
  have hne : (x :: xs).takeWhile (fun y => !sep y) ≠ [] := by
    simp [hx]
  have hsplit : (x :: xs).takeWhile (fun y => !sep y) ++
      (x :: xs).dropWhile (fun y => !sep y) = x :: xs :=
    List.takeWhile_append_dropWhile
  conv_lhs => rw [← hsplit]
  cases hrest : (x :: xs).dropWhile (fun y => !sep y) with
  | nil => rw [List.append_nil, fields_eq_singleton sep hne hword]; rfl
  | cons y rest =>
      have hy : sep y = true := by simpa using dropWhile_eq_cons hrest
      rw [fields_word_cons sep rest hne hword hy]
      rfl

theorem dropLast_eq_self_iff {xs : List α} : xs.dropLast = xs ↔ xs = [] := by
  constructor
  · intro h
    have hlength := congrArg List.length h
    rw [List.length_dropLast] at hlength
    exact List.length_eq_zero_iff.1 (by omega)
  · rintro rfl
    rfl

/-- Dropping the last element of a list takes a non-empty front away exactly if
the front is one element and the rest are copies of it. -/
theorem dropLast_append_eq_right_iff {xs ys : List α} (hne : xs ≠ []) :
    (xs ++ ys).dropLast = ys ↔ ∃ x, xs = [x] ∧ ∀ y ∈ ys, y = x := by
  constructor
  · intro h
    have hlength := congrArg List.length h
    rw [List.length_dropLast, List.length_append] at hlength
    have hpos := List.length_pos_of_ne_nil hne
    obtain ⟨x, rfl⟩ := List.length_eq_one_iff.1 (show xs.length = 1 by omega)
    refine ⟨x, rfl, ?_⟩
    clear hne hlength hpos
    induction ys generalizing x with
    | nil => simp
    | cons y ys ih =>
        have hcons : x :: (y :: ys).dropLast = y :: ys := by simpa using h
        obtain ⟨rfl, htail⟩ := List.cons.inj hcons
        intro z hz
        rcases List.mem_cons.1 hz with rfl | hz
        · rfl
        · exact ih x (by simpa using htail) z hz
  · rintro ⟨x, rfl, hcopies⟩
    have hys : ys = List.replicate ys.length x :=
      List.eq_replicate_of_mem hcopies
    rw [hys, List.singleton_append, ← List.replicate_succ,
      List.dropLast_replicate, Nat.add_sub_cancel]

theorem map_eq_self_iff {f : α → α} {xs : List α} :
    xs.map f = xs ↔ ∀ x ∈ xs, f x = x := by
  rw [← List.map_inj_left, List.map_id']

/-- Padding a list that does not hold the padding gives what another list is
padded to exactly if the other is the first with some of the padding. -/
theorem rightpad_eq_rightpad_iff {xs ys : List α} {n : Nat} {a : α}
    (ha : a ∉ xs) :
    xs.rightpad n a = ys.rightpad n a ↔
      ∃ k, ys = xs ++ List.replicate k a ∧ (k = 0 ∨ ys.length ≤ n) := by
  constructor
  · intro h
    rw [List.rightpad, List.rightpad, List.append_eq_append_iff] at h
    rcases h with ⟨more, rfl, hpad⟩ | ⟨more, rfl, hpad⟩
    · have hmore : more = List.replicate more.length a :=
        List.eq_replicate_of_mem fun y hy =>
          List.eq_of_mem_replicate (hpad ▸ List.mem_append_left _ hy)
      have hlength := congrArg List.length hpad
      simp only [List.length_replicate, List.length_append] at hlength
      refine ⟨more.length, by rw [← hmore], ?_⟩
      rw [List.length_append]
      omega
    · cases more with
      | nil => exact ⟨0, by simp, Or.inl rfl⟩
      | cons y more =>
          have hmem : y ∈ List.replicate (n - ys.length) a := by
            rw [hpad]
            exact List.mem_cons_self
          have hy : y = a := List.eq_of_mem_replicate hmem
          exact absurd (by simp [hy]) ha
  · rintro ⟨k, rfl, hk⟩
    rw [List.length_append, List.length_replicate] at hk
    rw [List.rightpad, List.rightpad, List.append_assoc,
      List.replicate_append_replicate, List.length_append,
      List.length_replicate]
    congr 2
    omega

theorem mem_intercalate_isInfix (sep : List α) {xs : List α}
    {lists : List (List α)} (h : xs ∈ lists) :
    xs <:+: sep.intercalate lists := by
  induction lists with
  | nil => cases h
  | cons head tail ih =>
      cases tail with
      | nil => simp [List.mem_singleton.1 h]
      | cons next rest =>
          rw [List.intercalate_cons_cons]
          rcases List.mem_cons.1 h with rfl | h
          · exact ⟨[], sep ++ sep.intercalate (next :: rest), by simp⟩
          · exact (ih h).trans (List.suffix_append _ _).isInfix

theorem mem_of_mem_intercalate {sep : List α} {lists : List (List α)} {x : α}
    (h : x ∈ sep.intercalate lists) : x ∈ sep ∨ ∃ xs ∈ lists, x ∈ xs := by
  induction lists with
  | nil => simp at h
  | cons head tail ih =>
      cases tail with
      | nil => exact Or.inr ⟨head, List.mem_cons_self, by simpa using h⟩
      | cons next rest =>
          rw [List.intercalate_cons_cons, List.mem_append,
            List.mem_append] at h
          rcases h with (h | h) | h
          · exact Or.inr ⟨head, List.mem_cons_self, h⟩
          · exact Or.inl h
          · rcases ih h with hsep | ⟨xs, hxs, hx⟩
            · exact Or.inl hsep
            · exact Or.inr ⟨xs, List.mem_cons_of_mem _ hxs, hx⟩

theorem suffix_intercalate_concat (sep : List α) (lists : List (List α))
    (last : List α) : last <:+ sep.intercalate (lists ++ [last]) := by
  induction lists with
  | nil => simp
  | cons head tail ih =>
      cases tail with
      | nil => exact ⟨head ++ sep, by simp [List.intercalate_cons_cons]⟩
      | cons next rest =>
          simp only [List.cons_append] at ih ⊢
          rw [List.intercalate_cons_cons]
          exact ih.trans (List.suffix_append _ _)

/-- Replace every run of `x` by one `x`. -/
def squeeze [DecidableEq α] (x : α) : List α → List α
  | [] => []
  | [y] => [y]
  | y :: z :: rest =>
      if y = x ∧ z = x then squeeze x (z :: rest)
      else y :: squeeze x (z :: rest)

/-- Squeezing a separator keeps the first piece of a text and the non-empty
ones after it. -/
theorem splitOnP_squeeze [DecidableEq α] (sep : α → Bool) {x : α}
    (hx : sep x = true) (xs : List α) :
    ∃ first rest rest', (squeeze x xs).splitOnP sep = first :: rest ∧
      xs.splitOnP sep = first :: rest' ∧
      rest.filter (!·.isEmpty) = rest'.filter (!·.isEmpty) := by
  induction xs with
  | nil => exact ⟨[], [], [], by simp [squeeze], by simp, rfl⟩
  | cons y xs ih =>
      cases xs with
      | nil =>
          obtain ⟨first, rest, hsplit⟩ :=
            List.exists_cons_of_ne_nil (List.splitOnP_ne_nil sep [y])
          exact ⟨first, rest, rest, by simpa [squeeze], hsplit, rfl⟩
      | cons z xs =>
          obtain ⟨first, rest, rest', hsqueezed, hplain, hfilter⟩ := ih
          by_cases hboth : y = x ∧ z = x
          · obtain ⟨rfl, rfl⟩ := hboth
            have hfirst : first = [] := by
              rw [List.splitOnP_cons_eq_if_modifyHead, if_pos hx] at hplain
              exact (List.cons.inj hplain).1.symm
            refine ⟨first, rest, first :: rest', ?_, ?_, ?_⟩
            · simpa [squeeze] using hsqueezed
            · rw [List.splitOnP_cons_eq_if_modifyHead, if_pos hx, hplain,
                hfirst]
            · simpa [hfirst] using hfilter
          · have hstep : squeeze x (y :: z :: xs) =
                y :: squeeze x (z :: xs) := by simp [squeeze, hboth]
            rw [hstep, List.splitOnP_cons_eq_if_modifyHead,
              List.splitOnP_cons_eq_if_modifyHead y, hsqueezed, hplain]
            by_cases hsep : sep y = true
            · exact ⟨[], first :: rest, first :: rest', by simp [hsep],
                by simp [hsep], by simp [List.filter_cons, hfilter]⟩
            · exact ⟨y :: first, rest, rest', by simp [hsep], by simp [hsep],
                hfilter⟩

theorem fields_squeeze [DecidableEq α] (sep : α → Bool) {x : α}
    (hx : sep x = true) (xs : List α) :
    fields sep (squeeze x xs) = fields sep xs := by
  obtain ⟨first, rest, rest', hsqueezed, hplain, hfilter⟩ :=
    splitOnP_squeeze sep hx xs
  rw [fields, fields, hsqueezed, hplain, List.filter_cons, List.filter_cons,
    hfilter]

section Pattern

variable [DecidableEq α]

/-- What follows the last occurrence of `pat`, if there is one. -/
def afterLast (pat : List α) : List α → Option (List α)
  | [] => if pat = [] then some [] else none
  | x :: xs =>
      match afterLast pat xs with
      | some tail => some tail
      | none =>
          if pat <+: x :: xs then some ((x :: xs).drop pat.length) else none

theorem afterLast_eq_none_iff (pat xs : List α) :
    afterLast pat xs = none ↔ ¬ pat <:+: xs := by
  induction xs with
  | nil => by_cases hpat : pat = [] <;> simp [afterLast, hpat]
  | cons x xs ih =>
      rw [List.infix_cons_iff]
      cases hrest : afterLast pat xs with
      | some tail =>
          have hpart : pat <:+: xs := by
            by_contra hno
            rw [ih.2 hno] at hrest
            cases hrest
          simp [afterLast, hrest, hpart]
      | none =>
          have hno := ih.1 hrest
          by_cases hpre : pat <+: x :: xs <;>
            simp [afterLast, hrest, hpre, hno]

theorem afterLast_followsLast {pat xs tail : List α}
    (h : afterLast pat xs = some tail) : FollowsLast pat xs tail := by
  induction xs with
  | nil =>
      by_cases hpat : pat = []
      · simp only [afterLast, hpat, ↓reduceIte, Option.some.injEq] at h
        refine ⟨[], by simp [hpat, ← h], ?_⟩
        intro before' tail' heq
        have hlen := congrArg List.length heq
        simp only [List.length_nil, List.length_append] at hlen ⊢
        omega
      · simp [afterLast, hpat] at h
  | cons x xs ih =>
      cases hrest : afterLast pat xs with
      | some rest =>
          simp only [afterLast, hrest, Option.some.injEq] at h
          subst h
          obtain ⟨before, heq, hlast⟩ := ih hrest
          refine ⟨x :: before, by simp [heq], ?_⟩
          intro before' tail' heq'
          cases before' with
          | nil => exact Nat.zero_le _
          | cons y before' =>
              simp only [List.cons_append, List.cons.injEq] at heq'
              exact Nat.succ_le_succ (hlast before' tail' heq'.2)
      | none =>
          have hno := (afterLast_eq_none_iff pat xs).1 hrest
          by_cases hpre : pat <+: x :: xs
          · simp only [afterLast, hrest, hpre, ↓reduceIte,
              Option.some.injEq] at h
            subst h
            refine ⟨[], by simpa using (List.prefix_append_drop hpre), ?_⟩
            intro before' tail' heq'
            cases before' with
            | nil => exact Nat.le_refl _
            | cons y before' =>
                simp only [List.cons_append, List.cons.injEq] at heq'
                exact absurd ⟨before', tail', heq'.2.symm⟩ hno
          · simp [afterLast, hrest, hpre] at h

/-- The scan finds exactly the text after the last occurrence. -/
theorem afterLast_eq_some_iff (pat xs tail : List α) :
    afterLast pat xs = some tail ↔ FollowsLast pat xs tail := by
  constructor
  · exact afterLast_followsLast
  · intro h
    cases hscan : afterLast pat xs with
    | none =>
        obtain ⟨before, heq, _⟩ := h
        exact absurd ⟨before, tail, heq.symm⟩
          ((afterLast_eq_none_iff pat xs).1 hscan)
    | some tail' =>
        rw [h.unique (afterLast_followsLast hscan)]

/-- Erase every occurrence of `pat`, scanning from the left; the first
argument counts the elements of the current occurrence still to be dropped. -/
def eraseFrom (pat : List α) : Nat → List α → List α
  | _, [] => []
  | skip + 1, _ :: xs => eraseFrom pat skip xs
  | 0, x :: xs =>
      if pat ≠ [] ∧ pat <+: x :: xs then eraseFrom pat (pat.length - 1) xs
      else x :: eraseFrom pat 0 xs

def eraseAll (pat xs : List α) : List α :=
  eraseFrom pat 0 xs

theorem eraseFrom_append_sep {pat : List α} {x : α} (hx : x ∉ pat)
    (xs ys : List α) (skip : Nat) (hskip : skip ≤ xs.length) :
    eraseFrom pat skip (xs ++ x :: ys) =
      eraseFrom pat skip xs ++ x :: eraseFrom pat 0 ys := by
  induction xs generalizing skip with
  | nil =>
      obtain rfl : skip = 0 := Nat.le_zero.1 hskip
      have hno : ¬ (pat ≠ [] ∧ pat <+: x :: ys) := by
        rintro ⟨hne, hpre⟩
        exact hne (List.prefix_nil.1
          ((prefix_append_sep_iff hx [] ys).1 hpre))
      simp [eraseFrom, hno]
  | cons z xs ih =>
      cases skip with
      | succ skip =>
          simpa [eraseFrom] using ih skip (Nat.le_of_succ_le_succ hskip)
      | zero =>
          have hsame : pat <+: z :: (xs ++ x :: ys) ↔ pat <+: z :: xs :=
            prefix_append_sep_iff hx (z :: xs) ys
          by_cases hpre : pat ≠ [] ∧ pat <+: z :: xs
          · have hlen : pat.length - 1 ≤ xs.length := by
              have := hpre.2.length_le
              simp only [List.length_cons] at this
              omega
            simp [eraseFrom, hsame, hpre, ih _ hlen]
          · simp [eraseFrom, hsame, hpre, ih 0 (Nat.zero_le _)]

/-- Erasure works inside the fields of a text when no separator occurs in the
pattern. -/
theorem eraseAll_append_sep {pat : List α} {x : α} (hx : x ∉ pat)
    (xs ys : List α) :
    eraseAll pat (xs ++ x :: ys) = eraseAll pat xs ++ x :: eraseAll pat ys :=
  eraseFrom_append_sep hx xs ys 0 (Nat.zero_le _)

theorem eraseAll_intercalate {pat : List α} {x : α} (hx : x ∉ pat)
    (lists : List (List α)) :
    eraseAll pat ([x].intercalate lists) =
      [x].intercalate (lists.map (eraseAll pat)) := by
  induction lists with
  | nil => rfl
  | cons head tail ih =>
      cases tail with
      | nil => simp
      | cons next rest =>
          have hsplit := eraseAll_append_sep hx head
            ([x].intercalate (next :: rest))
          rw [List.intercalate_cons_cons, List.append_assoc,
            List.singleton_append, hsplit, ih]
          simp [List.intercalate_cons_cons]

theorem mem_eraseFrom {pat xs : List α} {skip : Nat} {x : α}
    (h : x ∈ eraseFrom pat skip xs) : x ∈ xs := by
  induction xs generalizing skip with
  | nil => cases skip <;> simp [eraseFrom] at h
  | cons z xs ih =>
      cases skip with
      | succ skip => exact List.mem_cons_of_mem z (ih h)
      | zero =>
          by_cases hpre : pat ≠ [] ∧ pat <+: z :: xs
          · rw [eraseFrom, if_pos hpre] at h
            exact List.mem_cons_of_mem z (ih h)
          · rw [eraseFrom, if_neg hpre, List.mem_cons] at h
            rcases h with rfl | h
            · exact List.mem_cons_self
            · exact List.mem_cons_of_mem z (ih h)

theorem eraseAll_of_not_isInfix {pat xs : List α} (h : ¬ pat <:+: xs) :
    eraseAll pat xs = xs := by
  rw [eraseAll]
  induction xs with
  | nil => rfl
  | cons x xs ih =>
      rw [List.infix_cons_iff, not_or] at h
      have hno : ¬ (pat ≠ [] ∧ pat <+: x :: xs) := fun hpre => h.1 hpre.2
      simp [eraseFrom, hno, ih h.2]

theorem eraseFrom_length_of_le (pat : List α) (xs : List α) :
    eraseFrom pat xs.length xs = [] := by
  induction xs with
  | nil => rfl
  | cons x xs ih => exact ih

theorem eraseAll_self {pat : List α} : eraseAll pat pat = [] := by
  cases pat with
  | nil => rfl
  | cons p pat =>
      simpa [eraseAll, eraseFrom] using eraseFrom_length_of_le (p :: pat) pat

end Pattern

section Rows

variable {β : Type*} {κ : Type*} {xs : List α} {key : α → κ}
  {shownKey : β → κ} {f g : α → Option β}

/-- Where each row shows the key of its member and the keys differ, a row
that is found at all is found at its own member. -/
theorem eq_some_of_filterMap_subset (hkeys : (xs.map key).Nodup)
    (hf : ∀ x ∈ xs, ∀ row, f x = some row → shownKey row = key x)
    (hg : ∀ x ∈ xs, ∀ row, g x = some row → shownKey row = key x)
    (hrows : xs.filterMap f ⊆ xs.filterMap g) {x : α} (hx : x ∈ xs) {row : β}
    (hrow : f x = some row) : g x = some row := by
  have hmem := hrows (List.mem_filterMap.2 ⟨x, hx, hrow⟩)
  obtain ⟨y, hy, hother⟩ := List.mem_filterMap.1 hmem
  have hsame : key y = key x := by
    rw [← hg y hy row hother, ← hf x hx row hrow]
  rwa [← List.inj_on_of_nodup_map hkeys hy hx hsame]

/-- Two ways of giving each member at most one row give the same rows, in any
order, exactly if they agree on every member. -/
theorem filterMap_perm_iff (hkeys : (xs.map key).Nodup)
    (hf : ∀ x ∈ xs, ∀ row, f x = some row → shownKey row = key x)
    (hg : ∀ x ∈ xs, ∀ row, g x = some row → shownKey row = key x) :
    (xs.filterMap f).Perm (xs.filterMap g) ↔ ∀ x ∈ xs, f x = g x := by
  constructor
  · intro hperm x hx
    apply Option.ext
    intro row
    exact ⟨eq_some_of_filterMap_subset hkeys hf hg hperm.subset hx,
      eq_some_of_filterMap_subset hkeys hg hf hperm.symm.subset hx⟩
  · intro h
    rw [List.filterMap_congr h]

end Rows

end Bodhi
