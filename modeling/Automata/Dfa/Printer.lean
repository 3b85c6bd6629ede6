import Automata.Dfa.Basic
import Automata.Table

/-!
# Deterministic automata as text

Each cell names the target of a move, or is a dash where there is none.
-/

namespace Automata.Dfa

/-- The parts of the automaton, ready to be written. -/
def table (dfa : Dfa) : Table where
  alphabet := dfa.alphabet
  columns := dfa.alphabet
  rows := dfa.states.map fun state =>
    (state.name, dfa.alphabet.map fun symbol => (state.target symbol).getD "-")
  start := dfa.start
  finals := dfa.finals

/-- The automaton as text. -/
def render (dfa : Dfa) : String := dfa.table.render

end Automata.Dfa
