/-
Scripts under `set -e`: a command lets the script go on or ends it, and the
command list of an EXIT trap runs on the state in which the script ends.
-/
import Mathlib.Logic.Basic

namespace Bodhi

universe u

/-- The state after a part of a script, and whether the script goes on. -/
structure Flow (σ : Type u) where
  state : σ
  goesOn : Bool

/-- A part of a script. -/
abbrev Script (σ : Type u) : Type u :=
  σ → Flow σ

namespace Script

variable {σ : Type u}

/-- A command that changes the state and succeeds. -/
def effect (change : σ → σ) : Script σ :=
  fun state => ⟨change state, true⟩

def pass : Script σ :=
  effect id

def exit : Script σ :=
  fun state => ⟨state, false⟩

/-- The second part runs if the first one lets the script go on. -/
def andThen (first last : Script σ) : Script σ :=
  fun state =>
    if (first state).goesOn then last (first state).state else first state

/-- A test whose failure is an error of the script. -/
def require (test : σ → Bool) : Script σ :=
  fun state => ⟨state, test state⟩

/-- The handlers of signals that arrive during a command run before its exit
status is looked at. -/
def during (command handlers : Script σ) : Script σ :=
  fun state =>
    let handled := handlers (command state).state
    ⟨handled.state, (command state).goesOn && handled.goesOn⟩

/-- A script with a command list for its exit; nothing runs after it. -/
def onExit (body : Script σ) (trap : σ → σ) : Script σ :=
  fun state => ⟨trap (body state).state, false⟩

/-- A part of a script that leads from states with `I` to states with `I`,
however it ends. -/
def Keeps (I : σ → Prop) (script : Script σ) : Prop :=
  ∀ state, I state → I (script state).state

variable {I : σ → Prop} {first last : Script σ}

theorem andThen_goesOn {state : σ} (h : (first state).goesOn = true) :
    first.andThen last state = last (first state).state :=
  if_pos h

theorem andThen_exits {state : σ} (h : (first state).goesOn = false) :
    first.andThen last state = first state := by
  rw [andThen, h]
  exact if_neg Bool.false_ne_true

@[simp] theorem require_state (test : σ → Bool) (state : σ) :
    (require test state).state = state := rfl

@[simp] theorem require_goesOn (test : σ → Bool) (state : σ) :
    (require test state).goesOn = test state := rfl

theorem require_andThen {test : σ → Bool} {state : σ} (h : test state = true) :
    (require test).andThen last state = last state :=
  andThen_goesOn h

theorem require_andThen_exits {test : σ → Bool} {state : σ}
    (h : test state = false) :
    ((require test).andThen last state).state = state := by
  rw [andThen_exits h, require_state]

@[simp] theorem during_state (command handlers : Script σ) (state : σ) :
    (command.during handlers state).state =
      (handlers (command state).state).state := rfl

@[simp] theorem during_goesOn (command handlers : Script σ) (state : σ) :
    (command.during handlers state).goesOn =
      ((command state).goesOn && (handlers (command state).state).goesOn) :=
  rfl

@[simp] theorem onExit_state (body : Script σ) (trap : σ → σ) (state : σ) :
    (body.onExit trap state).state = trap (body state).state := rfl

theorem keeps_effect {change : σ → σ} (h : ∀ state, I state → I (change state)) :
    Keeps I (effect change) :=
  h

theorem keeps_require (test : σ → Bool) : Keeps I (require test) :=
  fun _ h => h

theorem keeps_exit : Keeps I (exit : Script σ) :=
  fun _ h => h

/-- The rule of sequencing. -/
theorem keeps_andThen (hfirst : Keeps I first) (hlast : Keeps I last) :
    Keeps I (first.andThen last) := by
  intro state h
  by_cases hgo : (first state).goesOn = true
  · rw [andThen_goesOn hgo]
    exact hlast _ (hfirst _ h)
  · rw [andThen_exits (Bool.not_eq_true _ ▸ hgo)]
    exact hfirst _ h

theorem keeps_during {command handlers : Script σ} (hcommand : Keeps I command)
    (hhandlers : Keeps I handlers) : Keeps I (command.during handlers) :=
  fun _ h => hhandlers _ (hcommand _ h)

/-- The rule of the EXIT trap. -/
theorem keeps_onExit {body : Script σ} {trap : σ → σ} (hbody : Keeps I body)
    (htrap : ∀ state, I state → I (trap state)) :
    Keeps I (body.onExit trap) :=
  fun _ h => htrap _ (hbody _ h)

end Script

end Bodhi
