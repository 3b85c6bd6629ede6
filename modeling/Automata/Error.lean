import Automata.Text.Quoted
import Automata.Text.Style

/-!
# What can go wrong with an automaton

Building, running and converting an automaton fail for six reasons. Each reason holds what
its message names.
-/

namespace Automata

open Text

/-- Why building, running or converting an automaton failed. -/
inductive Error where
  /-- No state has this name. -/
  | unknownState (name : String)
  /-- The empty name belongs to the dead state of a conversion. -/
  | emptyStateName
  | noStartState
  /-- A deterministic run found no way on from this state. -/
  | missingTransition (state : String) (symbol : Char)
  /-- A conversion found this many subsets where at most `max` were allowed. -/
  | subsetLimitExceeded (states max : Nat)
  /-- Two subsets of a conversion would get this name. -/
  | ambiguousSubsetName (name : String)
  deriving DecidableEq

/-- The message for a reader. -/
def Error.message (style : Style) : Error → String
  | .unknownState name =>
    style.tag "001" ++ " state " ++ style.paint .yellow name ++ " is not defined"
  | .emptyStateName => style.tag "002" ++ " the empty name is reserved for the dead state"
  | .noStartState => style.tag "003" ++ " the automaton has no start state"
  | .missingTransition state symbol =>
    style.tag "004" ++ " no transition from " ++ style.paint .yellow state ++ " on " ++
      quoteChar symbol ++ ": the transition function is not total"
  | .subsetLimitExceeded states max =>
    style.tag "005" ++ " subset construction discovered " ++ toString states ++
      " states, over the limit of " ++ toString max
  | .ambiguousSubsetName name =>
    style.tag "006" ++ " distinct state subsets share the canonical name " ++ quote name

end Automata
