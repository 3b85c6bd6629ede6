import Automata.Dfa.Basic
import Automata.Event
import Automata.Label

/-!
# Runs of a deterministic automaton

A run goes from state to state. A character outside the alphabet rejects the input, except
an `e` where the flags let it end the run. Where the move on a character of the alphabet
is missing, the run fails.
-/

namespace Automata.Dfa

/-- How a run ends. -/
inductive Run where
  /-- A character outside the alphabet was met. -/
  | rejected
  /-- The move from a state on a character of the alphabet was missing. -/
  | stuck (state : String) (symbol : Char)
  /-- The whole input was read. -/
  | finished (state : String)
  /-- An `e` outside the alphabet ended the run. -/
  | cut (state : String)
  deriving DecidableEq

/-- The run from a state. -/
def runFrom (dfa : Dfa) (state : String) : List Char → Run
  | [] => .finished state
  | symbol :: rest =>
    if symbol ∈ dfa.alphabet then
      match dfa.target state symbol with
      | some target => dfa.runFrom target rest
      | none => .stuck state symbol
    else if symbol = epsilonMark ∧ dfa.flags.epsilonShortcut = true then .cut state
    else .rejected

/-- The run from the start, if there is one. -/
def run (dfa : Dfa) (input : String) : Except Error Run :=
  match dfa.start with
  | some start => .ok (dfa.runFrom start input.toList)
  | none => .error .noStartState

/-- Whether a run accepts: the state in which it ends is final. -/
def verdict (dfa : Dfa) : Run → Except Error Bool
  | .rejected => .ok false
  | .stuck state symbol => .error (.missingTransition state symbol)
  | .finished state | .cut state => .ok (dfa.isFinal state)

/-- Whether the automaton accepts an input. -/
def accepts (dfa : Dfa) (input : String) : Except Error Bool := do
  dfa.verdict (← dfa.run input)

/-- What is reported while an input is run. -/
def runEvents (dfa : Dfa) (input : String) : List Event :=
  match dfa.run input with
  | .ok (.cut state) => [.stateRunCut state]
  | _ => []

end Automata.Dfa
