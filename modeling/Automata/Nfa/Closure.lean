import Automata.Discovery
import Automata.Nfa.Basic

/-!
# Closures

The closure of a state holds the states that can be reached from it without reading
anything, the state itself first, in the order in which a breadth-first search finds
them. A search over the states of an automaton expands each state at most once, so as
many steps as there are states suffice.
-/

namespace Automata.Nfa

/-- The states reached from a state without reading anything, nearest first. -/
def closure (nfa : Nfa) (name : String) : List String :=
  (Discovery.expandFirst (fun source => nfa.targets source .epsilon) nfa.states.length
    (Discovery.single name)).toList

/-- The closure of a state that has to be there. -/
def findClosure (nfa : Nfa) (name : String) : Except Error (List String) :=
  if nfa.hasState name then .ok (nfa.closure name) else .error (.unknownState name)

end Automata.Nfa
