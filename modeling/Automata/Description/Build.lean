import Automata.Description.Basic
import Automata.Dfa.Printer
import Automata.Event
import Automata.Nfa.Printer

/-!
# Automata of descriptions

Both kinds of automaton are built in the same order: the final states, the start, the
further states and the edges. Read as a nondeterministic automaton, an edge on `e` reads
nothing.
-/

namespace Automata.Description

/-- The additions that make the deterministic automaton. -/
def dfaAdditions (description : Description) : List Dfa.Addition :=
  description.finals.map .final ++ [.start description.start] ++
    description.states.map .state ++
    description.edges.map fun edge =>
      .edge edge.source.toString edge.symbol edge.target.toString

/-- The additions that make the nondeterministic automaton. -/
def nfaAdditions (description : Description) : List Nfa.Addition :=
  description.finals.map .final ++ [.start description.start] ++
    description.states.map .state ++
    description.edges.map fun edge =>
      .edge edge.source.toString edge.symbol edge.target.toString

/-- The description as a deterministic automaton. -/
def toDfa (description : Description) (flags : Flags) : Except Error Dfa :=
  (description.dfaAdditions.foldlM Dfa.add { flags }).mapError .automaton

/-- The description as a nondeterministic automaton. -/
def toNfa (description : Description) (flags : Flags) : Except Error Nfa :=
  (description.nfaAdditions.foldlM Nfa.add { flags }).mapError .automaton

/-- What is reported while the deterministic automaton is built. -/
def dfaEvents (description : Description) (flags : Flags) : List Event :=
  match description.toDfa flags with
  | .ok dfa => [.deterministicDescribed dfa.render]
  | .error _ => []

/-- What is reported while the nondeterministic automaton is built. -/
def nfaEvents (description : Description) (flags : Flags) : List Event :=
  match description.toNfa flags with
  | .ok nfa => [.nondeterministicDescribed nfa.render]
  | .error _ => []

end Automata.Description
