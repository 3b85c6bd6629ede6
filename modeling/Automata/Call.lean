import Automata.Error

/-!
# Calls that change something in place

A call on an automaton under construction changes it in place, and nothing is undone where it
fails: what was changed up to there stays changed. That a failing call changes nothing is
therefore due to the order of its parts, which look at everything before they change
something.
-/

namespace Automata

/-- A call that changes something in place and may fail. -/
abbrev Call (σ α : Type) : Type := EStateM Error σ α

namespace Call

variable {σ : Type} {call : Call σ Unit} {change : σ → Except Error σ} {value changed : σ}
variable {error : Error}

/-- What is there after a call, no matter whether it has succeeded or failed. -/
def after (call : Call σ Unit) (value : σ) : σ :=
  match call.run value with
  | .ok _ value => value
  | .error _ value => value

/-- Fails with the error unless the value passes a test. -/
def require (test : σ → Bool) (error : Error) : Call σ Unit := do
  unless test (← get) do throw error

/-- The call makes a change where it is possible. Where it is not possible, the call fails for
the reason that the change gives, and everything is as before. -/
def Makes (call : Call σ Unit) (change : σ → Except Error σ) : Prop :=
  ∀ value, call.run value = match change value with
    | .ok changed => .ok () changed
    | .error error => .error error value

/-- After a call that succeeds its change is made. -/
theorem Makes.after_of_ok (h : call.Makes change) (hok : change value = .ok changed) :
    call.after value = changed := by
  rw [after, h value, hok]

/-- After a call that fails everything is as before. -/
theorem Makes.after_of_error (h : call.Makes change) (herror : change value = .error error) :
    call.after value = value := by
  rw [after, h value, herror]

/-- A call that always succeeds makes its change. -/
theorem makes_of_run_eq (call : Call σ Unit) {next : σ → σ}
    (h : ∀ value, call.run value = .ok () (next value)) :
    call.Makes fun value => .ok (next value) := h

/-- Another call that always succeeds may follow a call that fails in time. -/
theorem Makes.then {later : Call σ Unit} {next : σ → σ} (h : call.Makes change)
    (hlater : ∀ value, later.run value = .ok () (next value)) :
    Makes (do call; later : Call σ Unit) fun value => (change value).map next := by
  intro value
  rw [EStateM.run_bind, h value]
  dsimp only
  cases change value with
  | ok changed => exact hlater changed
  | error error => rfl

/-- A test may come before a call that fails in time. -/
theorem Makes.require (h : call.Makes change) (test : σ → Bool) (error : Error) :
    Makes (do Call.require test error; call : Call σ Unit) fun value =>
      if test value then change value else .error error := by
  intro value
  have hrun := h value
  cases htest : test value with
  | false =>
    simp [Call.require, htest]
  | true =>
    simp [Call.require, htest, hrun]

/-- What a call makes may be said in another way. -/
theorem Makes.congr {other : σ → Except Error σ} (h : call.Makes change)
    (hsame : ∀ value, change value = other value) : call.Makes other :=
  funext hsame ▸ h

end Call

end Automata
