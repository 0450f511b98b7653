/-
Machines that take one event after another.  A run is a list of events; the
rules below carry a fact about one step to every state of a run, and turn an
exact condition on one step into an exact condition on whole runs.
-/
import Mathlib.Data.List.Basic

namespace Bodhi

universe u v

/-- A state machine: the state each event leads to. -/
structure Machine (State : Type u) (Event : Type v) where
  next : State → Event → State

namespace Machine

variable {State : Type u} {Event : Type v} (M : Machine State Event)

/-- The state after a run. -/
def after (state : State) (events : List Event) : State :=
  events.foldl M.next state

/-- `P` holds in every state of the run, the first and the last included. -/
def Always (P : State → Prop) : State → List Event → Prop
  | state, [] => P state
  | state, event :: rest => P state ∧ Always P (M.next state event) rest

/-- `G` holds of every step of the run: of the event and of the state it is
taken in. -/
def Throughout (G : State → Event → Prop) : State → List Event → Prop
  | _, [] => True
  | state, event :: rest =>
      G state event ∧ Throughout G (M.next state event) rest

@[simp] theorem after_nil (state : State) : M.after state [] = state := rfl

@[simp] theorem after_cons (state : State) (event : Event)
    (rest : List Event) :
    M.after state (event :: rest) = M.after (M.next state event) rest := rfl

theorem after_append (state : State) (first last : List Event) :
    M.after state (first ++ last) = M.after (M.after state first) last := by
  simp [after]

instance decidableThroughout {G : State → Event → Prop}
    [∀ state event, Decidable (G state event)] :
    ∀ (state : State) (events : List Event),
      Decidable (M.Throughout G state events)
  | _, [] => isTrue trivial
  | state, event :: rest =>
      have : Decidable (M.Throughout G (M.next state event) rest) :=
        decidableThroughout (M.next state event) rest
      inferInstanceAs (Decidable (G state event ∧
        M.Throughout G (M.next state event) rest))

variable {M}

theorem Always.head {P : State → Prop} {state : State} {events : List Event}
    (h : M.Always P state events) : P state := by
  cases events with
  | nil => exact h
  | cons event rest => exact h.1

theorem Always.last {P : State → Prop} {state : State} {events : List Event}
    (h : M.Always P state events) : P (M.after state events) := by
  induction events generalizing state with
  | nil => exact h
  | cons event rest ih => exact ih h.2

theorem Always.mono {P Q : State → Prop} (hPQ : ∀ state, P state → Q state)
    {state : State} {events : List Event} (h : M.Always P state events) :
    M.Always Q state events := by
  induction events generalizing state with
  | nil => exact hPQ state h
  | cons event rest ih => exact ⟨hPQ state h.1, ih h.2⟩

/-- The induction that a safety theorem rests on: what each guarded step keeps
holds along every run whose steps meet the guard. -/
theorem invariant_throughout {I : State → Prop} {G : State → Event → Prop}
    (hstep : ∀ state event, I state → G state event → I (M.next state event))
    {state : State} {events : List Event} (hstart : I state)
    (hguard : M.Throughout G state events) : M.Always I state events := by
  induction events generalizing state with
  | nil => exact hstart
  | cons event rest ih =>
      have hnext := hstep state event hstart hguard.1
      exact ⟨hstart, ih hnext hguard.2⟩

/-- What every step keeps holds along every run. -/
theorem invariant_always {I : State → Prop}
    (hstep : ∀ state event, I state → I (M.next state event))
    {state : State} (hstart : I state) (events : List Event) :
    M.Always I state events := by
  induction events generalizing state with
  | nil => exact hstart
  | cons event rest ih =>
      have hnext := hstep state event hstart
      exact ⟨hstart, ih hnext⟩

/-- Exact conditions compose.  If, from every state with the invariant `I` and
the property `P`, a step keeps `P` exactly when its guard holds, then `P` holds
in every state of a run exactly when every step meets its guard. -/
theorem always_iff_throughout {I P : State → Prop} {G : State → Event → Prop}
    (hinv : ∀ state event, I state → P state → I (M.next state event))
    (hstep : ∀ state event, I state → P state →
      (P (M.next state event) ↔ G state event))
    {state : State} {events : List Event} (hI : I state) (hP : P state) :
    M.Always P state events ↔ M.Throughout G state events := by
  induction events generalizing state with
  | nil => exact ⟨fun _ => trivial, fun _ => hP⟩
  | cons event rest ih =>
      have hone := hstep state event hI hP
      have hnext := hinv state event hI hP
      constructor
      · intro h
        have hP' := h.2.head
        exact ⟨hone.1 hP', (ih hnext hP').1 h.2⟩
      · intro h
        have hP' := hone.2 h.1
        exact ⟨hP, (ih hnext hP').2 h.2⟩

/-- The same where the steps of the run are known to meet `H`, and only such
steps keep the invariant. -/
theorem always_iff_throughout_of_guard {I P : State → Prop}
    {G H : State → Event → Prop}
    (hinv : ∀ state event, I state → H state event →
      I (M.next state event))
    (hstep : ∀ state event, I state → H state event → P state →
      (P (M.next state event) ↔ G state event))
    {state : State} {events : List Event} (hI : I state) (hP : P state)
    (hguard : M.Throughout H state events) :
    M.Always P state events ↔ M.Throughout G state events := by
  induction events generalizing state with
  | nil => exact ⟨fun _ => trivial, fun _ => hP⟩
  | cons event rest ih =>
      have hone := hstep state event hI hguard.1 hP
      have hnext := hinv state event hI hguard.1
      constructor
      · intro h
        have hP' := h.2.head
        exact ⟨hone.1 hP', (ih hnext hP' hguard.2).1 h.2⟩
      · intro h
        have hP' := hone.2 h.1
        exact ⟨hP, (ih hnext hP' hguard.2).2 h.2⟩

/-- Two machines that every event keeps related are related after every run:
one of them simulates the other. -/
theorem after_related {State' : Type*} {N : Machine State' Event}
    {R : State → State' → Prop}
    (hstep : ∀ state state' event, R state state' →
      R (M.next state event) (N.next state' event))
    {state : State} {state' : State'} (h : R state state')
    (events : List Event) :
    R (M.after state events) (N.after state' events) := by
  induction events generalizing state state' with
  | nil => exact h
  | cons event rest ih => exact ih (hstep state state' event h)

/-- Step properties that agree agree over runs. -/
theorem throughout_congr {F G : State → Event → Prop}
    (hstep : ∀ state event, F state event ↔ G state event)
    (state : State) (events : List Event) :
    M.Throughout F state events ↔ M.Throughout G state events := by
  induction events generalizing state with
  | nil => exact Iff.rfl
  | cons event rest ih => exact and_congr (hstep state event) (ih _)

end Machine

end Bodhi
