/-
Steps that may give no state.  One judgement says of such a step that what it
gives satisfies a postcondition, and that under a condition it gives something;
its rules follow the ways in which steps are put together.
-/
import Mathlib.Data.List.Basic

namespace Bodhi

variable {α β ι : Type*} {safe : Prop}

/-- What the step gives satisfies `Q`; under `safe` it gives something. -/
structure Yields (safe : Prop) (Q : α → Prop) (step : Option α) : Prop where
  holds : ∀ a, step = some a → Q a
  isSome : safe → step.isSome

theorem yields_some {Q : α → Prop} {a : α} (h : Q a) :
    Yields safe Q (some a) :=
  ⟨fun _ heq => Option.some.inj heq ▸ h, fun _ => rfl⟩

/-- A step that fails is one that `safe` excludes. -/
theorem yields_none (Q : α → Prop) (h : ¬safe) : Yields safe Q none :=
  ⟨fun _ heq => (Option.some_ne_none _ heq.symm).elim, fun hs => absurd hs h⟩

theorem Yields.mono {P Q : α → Prop} {step : Option α} (h : Yields safe P step)
    (hPQ : ∀ a, P a → Q a) : Yields safe Q step :=
  ⟨fun a ha => hPQ a (h.holds a ha), h.isSome⟩

/-- One step after another. -/
theorem Yields.bind {P : α → Prop} {Q : β → Prop} {step : Option α}
    {f : α → Option β} (h : Yields safe P step)
    (hf : ∀ a, P a → Yields safe Q (f a)) : Yields safe Q (step.bind f) := by
  cases step with
  | none => exact yields_none Q fun hs => absurd (h.isSome hs) Bool.false_ne_true
  | some a => exact hf a (h.holds a rfl)

theorem Yields.map {P : α → Prop} {Q : β → Prop} {step : Option α} {f : α → β}
    (h : Yields safe P step) (hf : ∀ a, P a → Q (f a)) :
    Yields safe Q (step.map f) := by
  rw [Option.map_eq_bind]
  exact h.bind fun a ha => yields_some (hf a ha)

theorem yields_ite {Q : α → Prop} {c : Prop} [Decidable c] {a b : Option α}
    (ha : c → Yields safe Q a) (hb : ¬c → Yields safe Q b) :
    Yields safe Q (if c then a else b) := by
  split
  · next hc => exact ha hc
  · next hc => exact hb hc

/-- An invariant that every round keeps holds after the whole loop. -/
theorem yields_foldlM {I : α → Prop} {f : α → ι → Option α} (xs : List ι)
    (hf : ∀ a, ∀ x ∈ xs, I a → Yields safe I (f a x)) {a : α} (h : I a) :
    Yields safe I (xs.foldlM f a) := by
  induction xs generalizing a with
  | nil => exact yields_some h
  | cons x xs ih =>
      have hfirst := hf a x List.mem_cons_self h
      rw [List.foldlM_cons]
      exact hfirst.bind fun b hb =>
        ih (fun c y hy => hf c y (List.mem_cons_of_mem x hy)) hb

/-- Over a range the invariant may count the rounds. -/
theorem yields_range {I : ℕ → α → Prop} {f : α → ℕ → Option α} {n : ℕ}
    (hf : ∀ i < n, ∀ a, I i a → Yields safe (I (i + 1)) (f a i)) {a : α}
    (h : I 0 a) : Yields safe (I n) ((List.range n).foldlM f a) := by
  induction n with
  | zero => exact yields_some h
  | succ n ih =>
      have hbefore := ih fun i hi => hf i (Nat.lt_succ_of_lt hi)
      rw [List.range_succ, List.foldlM_append]
      refine hbefore.bind fun b hb => ?_
      rw [List.foldlM_cons]
      exact (hf n (Nat.lt_succ_self n) b hb).bind fun _ hc => yields_some hc

end Bodhi
