import Automata.Nfa.Basic
import Automata.Table

/-!
# Nondeterministic automata as text

Each cell lists the targets in braces. A last column, headed by the mark for the empty
label, is there when some edge reads nothing.
-/

namespace Automata.Nfa

/-- The labels that head the columns. -/
def columns (nfa : Nfa) : List Label :=
  nfa.alphabet.map Label.char ++ if nfa.hasEpsilonEdge then [Label.epsilon] else []

/-- The targets of a state's edges with a label, as a cell. -/
def State.cell (state : State) (label : Label) : String :=
  "\x7b" ++ String.intercalate "," (state.targets label) ++ "\x7d"

/-- The parts of the automaton, ready to be written. -/
def table (nfa : Nfa) : Table where
  alphabet := nfa.alphabet
  columns := nfa.columns.map Label.mark
  rows := nfa.states.map fun state => (state.name, nfa.columns.map state.cell)
  start := nfa.start
  finals := nfa.finals

/-- The automaton as text. -/
def render (nfa : Nfa) : String := nfa.table.render

end Automata.Nfa
