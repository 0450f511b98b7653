/-
The members of a list that have a property: the ring they form, with the one
after a member and the one before it, around the ends of the list, and the
list with the first of them brought to the front.
-/
import Mathlib.GroupTheory.Perm.List
import Mathlib.Data.List.TakeWhile

namespace Bodhi

universe u

variable {α : Type u}

/-- The last member of a list with a property. -/
def lastThat (p : α → Bool) (xs : List α) : Option α :=
  (xs.filter p).getLast?

theorem lastThat_eq_some {p : α → Bool} {xs : List α} {x : α}
    (h : lastThat p xs = some x) : x ∈ xs ∧ p x :=
  List.mem_filter.1 (List.mem_of_getLast? h)

theorem lastThat_cons (p : α → Bool) (x : α) (xs : List α) :
    lastThat p (x :: xs) =
      (lastThat p xs).or (if p x then some x else none) := by
  unfold lastThat
  by_cases hx : p x
  · rw [List.filter_cons_of_pos hx, List.getLast?_cons, if_pos hx]
    cases (xs.filter p).getLast? <;> rfl
  · rw [List.filter_cons_of_neg hx, if_neg hx, Option.or_none]

theorem lastThat_map (p : α → Bool) (f : α → α) (xs : List α) :
    lastThat p (xs.map f) = (lastThat (p ∘ f) xs).map f := by
  rw [lastThat, lastThat, List.filter_map, List.getLast?_map]

section Front

variable [BEq α] [LawfulBEq α]

/-- The first member with the property comes to the front. -/
def bringFront (p : α → Bool) (xs : List α) : List α :=
  match xs.find? p with
  | some x => x :: xs.erase x
  | none => xs

theorem find?_erase_of_neg {p : α → Bool} {x : α} (hx : ¬ p x)
    (xs : List α) : (xs.erase x).find? p = xs.find? p := by
  induction xs with
  | nil => rfl
  | cons y ys ih =>
      by_cases hy : y = x
      · rw [hy, List.erase_cons_head, List.find?_cons_of_neg hx]
      · rw [List.erase_cons_tail (by simpa using hy), List.find?_cons,
          List.find?_cons, ih]

/-- The first member with one property, once the first with another has come
to the front. -/
theorem find?_bringFront (p q : α → Bool) (xs : List α) :
    (bringFront p xs).find? q = ((xs.find? p).filter q).or (xs.find? q) := by
  unfold bringFront
  cases xs.find? p with
  | none => rfl
  | some x =>
      by_cases hx : q x
      · simp [Option.filter, hx]
      · simp [Option.filter, hx, find?_erase_of_neg hx]

end Front

section Neighbour

variable [DecidableEq α]

/-- The next member with the property after `x`, or the one before it, around
the ends. -/
def neighbour (p : α → Bool) (dir : Int) (xs : List α) (x : α) : Option α :=
  let before := xs.takeWhile (· != x)
  let rest := xs.dropWhile (· != x)
  if dir > 0 then (rest.tail.find? p).or (xs.find? p)
  else (lastThat p before).or (lastThat p rest)

theorem neighbour_eq_some {p : α → Bool} {dir : Int} {xs : List α} {x y : α}
    (h : neighbour p dir xs x = some y) : y ∈ xs ∧ p y := by
  have hrest : xs.dropWhile (· != x) ⊆ xs := (List.dropWhile_suffix _).subset
  simp only [neighbour] at h
  split at h
  · rcases Option.or_eq_some_iff.1 h with hy | ⟨_, hy⟩
    · have hmem := List.mem_of_mem_tail (List.mem_of_find?_eq_some hy)
      exact ⟨hrest hmem, List.find?_some hy⟩
    · exact ⟨List.mem_of_find?_eq_some hy, List.find?_some hy⟩
  · rcases Option.or_eq_some_iff.1 h with hy | ⟨_, hy⟩
    · have hlast := lastThat_eq_some hy
      exact ⟨(List.takeWhile_prefix _).subset hlast.1, hlast.2⟩
    · have hlast := lastThat_eq_some hy
      exact ⟨hrest hlast.1, hlast.2⟩

/-- The parts of a list before and after a member. -/
theorem exists_split {xs : List α} {x : α} (hx : x ∈ xs) :
    ∃ before after, xs = before ++ x :: after ∧
      xs.takeWhile (· != x) = before ∧
      xs.dropWhile (· != x) = x :: after := by
  obtain ⟨before, after, rfl, hnot⟩ := List.eq_append_cons_of_mem hx
  have hbefore : ∀ y ∈ before, (y != x) = true := by
    intro y hy
    exact bne_iff_ne.2 fun heq => hnot (heq ▸ hy)
  refine ⟨before, after, rfl, ?_, ?_⟩
  · rw [List.takeWhile_append_of_pos hbefore, List.takeWhile_cons_of_neg
      (by simp), List.append_nil]
  · rw [List.dropWhile_append_of_pos hbefore, List.dropWhile_cons_of_neg
      (by simp)]

/-- Renaming the members renames the neighbour. -/
theorem neighbour_map (p : α → Bool) (dir : Int) (σ : Equiv.Perm α)
    (xs : List α) (x : α) :
    neighbour p dir (xs.map σ) (σ x) =
      (neighbour (p ∘ σ) dir xs x).map σ := by
  have hne : ((· != σ x) ∘ σ) = (· != x) := by
    funext y
    change (σ y != σ x) = (y != x)
    rw [Bool.eq_iff_iff, bne_iff_ne, bne_iff_ne, σ.injective.ne_iff]
  unfold neighbour
  dsimp only
  rw [List.takeWhile_map, List.dropWhile_map, hne]
  split
  · rw [← List.map_tail, List.find?_map, List.find?_map, Option.map_or]
  · rw [lastThat_map, lastThat_map, Option.map_or]

theorem formPerm_eq_of_getElem? {xs : List α} (hxs : xs.Nodup) {i : Nat}
    {x y : α} (hx : xs[i]? = some x)
    (hy : xs[(i + 1) % xs.length]? = some y) : xs.formPerm x = y := by
  obtain ⟨hi, rfl⟩ := List.getElem?_eq_some_iff.1 hx
  obtain ⟨_, rfl⟩ := List.getElem?_eq_some_iff.1 hy
  exact List.formPerm_apply_getElem xs hxs i hi

/-- Which way a direction leads around the ring. -/
def heading (dir : Int) : Int := if dir > 0 then 1 else -1

section Split

variable {ring before after : List α} {x : α} (hring : ring.Nodup)
  (hsplit : ring = before ++ x :: after)

include hring hsplit

theorem formPerm_next :
    after.head?.or ring.head? = some (ring.formPerm x) := by
  have hx : ring[before.length]? = some x := by
    rw [hsplit, List.getElem?_append_right (Nat.le_refl _), Nat.sub_self]
    rfl
  have hlen : ring.length = before.length + 1 + after.length := by
    rw [hsplit, List.length_append, List.length_cons]
    omega
  cases hafter : after with
  | nil =>
      have hpos : 0 < ring.length := by omega
      have hfirst : ring[0]? = some (ring.get ⟨0, hpos⟩) :=
        List.getElem?_eq_getElem hpos
      have hwrap : (before.length + 1) % ring.length = 0 := by
        rw [hlen, hafter, List.length_nil, Nat.add_zero, Nat.mod_self]
      have hnext := formPerm_eq_of_getElem? hring hx
        (by rw [hwrap]; exact hfirst)
      rw [hnext, List.head?_nil, Option.none_or, List.head?_eq_getElem?,
        hfirst]
  | cons y rest =>
      have hy : ring[before.length + 1]? = some y := by
        rw [hsplit, hafter, List.getElem?_append_right (Nat.le_succ _)]
        simp
      have hlt : before.length + 1 < ring.length := by
        rw [hlen, hafter, List.length_cons]
        omega
      rw [formPerm_eq_of_getElem? hring hx
        ((Nat.mod_eq_of_lt hlt).symm ▸ hy)]
      rfl

theorem formPerm_previous :
    before.getLast?.or (x :: after).getLast? =
      some ((ring.formPerm)⁻¹ x) := by
  cases before using List.reverseRecOn with
  | nil =>
      rcases List.eq_nil_or_concat ring with hnil | ⟨front, y, hfront⟩
      · rw [hnil] at hsplit
        cases hsplit
      · rw [List.concat_eq_append] at hfront
        have hnext := formPerm_next hring hfront
        have hx : ring.formPerm y = x := by
          rw [hsplit] at hnext ⊢
          exact (Option.some.inj hnext).symm
        have hlast : (x :: after).getLast? = some y := by
          rw [← List.nil_append (x :: after), ← hsplit, hfront]
          simp
        rw [List.getLast?_nil, Option.none_or, hlast, ← hx]
        simp
  | append_singleton front y =>
      have hx : ring.formPerm y = x := by
        have hback : ring = front ++ y :: x :: after := by simp [hsplit]
        have hnext := formPerm_next hring hback
        exact (Option.some.inj hnext).symm
      rw [List.getLast?_append, ← hx]
      simp

end Split

/-- Fewer steps than there are members lead from one member to any other. -/
theorem exists_formPerm_pow_eq {ring : List α} (hring : ring.Nodup)
    {x y : α} (hx : x ∈ ring) (hy : y ∈ ring) :
    ∃ n < ring.length, (ring.formPerm ^ n) x = y := by
  obtain ⟨i, hi, rfl⟩ := List.getElem_of_mem hx
  obtain ⟨j, hj, rfl⟩ := List.getElem_of_mem hy
  have hpos : 0 < ring.length := Nat.zero_lt_of_lt hi
  have hwrap : (i + (j + (ring.length - i)) % ring.length) % ring.length = j := by
    have hsum : i + (j + (ring.length - i)) = j + ring.length := by omega
    rw [Nat.add_mod_mod, hsum, Nat.add_mod_right, Nat.mod_eq_of_lt hj]
  refine ⟨(j + (ring.length - i)) % ring.length, Nat.mod_lt _ hpos, ?_⟩
  rw [List.formPerm_pow_apply_getElem ring hring _ i hi]
  simp only [hwrap]

/-- The neighbour is the image under the cycle of the members with the
property, or under its inverse. -/
theorem neighbour_eq_formPerm {p : α → Bool} (dir : Int) {xs : List α}
    (hxs : xs.Nodup) {x : α} (hx : x ∈ xs) (hp : p x) :
    neighbour p dir xs x =
      some (((xs.filter p).formPerm ^ heading dir) x) := by
  obtain ⟨before, after, hsplit, hbefore, hafter⟩ := exists_split hx
  have hfilter : xs.filter p = before.filter p ++ x :: after.filter p := by
    rw [hsplit, List.filter_append, List.filter_cons_of_pos hp]
  have hring : (xs.filter p).Nodup := hxs.filter p
  simp only [neighbour, hbefore, hafter, heading]
  split
  · rw [zpow_one, ← formPerm_next hring hfilter, List.head?_filter,
      List.head?_filter, List.tail_cons]
  · rw [zpow_neg_one, ← formPerm_previous hring hfilter, lastThat, lastThat,
      List.filter_cons_of_pos hp]

end Neighbour

end Bodhi
