import Automata.Nfa.Copy

/-!
# Building automata from smaller ones

The parts of a pattern become automata, and these are put together by edges that read
nothing. Putting two automata together makes a new one with the states and edges of both;
a repetition extends the automaton it is made of.
-/

namespace Automata.Nfa

/-- The start, which has to be there. -/
def requireStart (nfa : Nfa) : Except Error String :=
  match nfa.start with
  | some start => .ok start
  | none => .error .noStartState

/-- Adds final states one after the other. -/
def addFinals (nfa : Nfa) (names : List String) : Except Error Nfa :=
  names.foldlM addFinal nfa

/-- Adds edges that read nothing, from several states to one. -/
def addEpsilonEdges (nfa : Nfa) (sources : List String) (target : String) : Except Error Nfa :=
  sources.foldlM (fun nfa source => nfa.addEdge source .epsilon target) nfa

/-- The automaton of the empty word: one state. -/
def ofBlank (name : String) : Except Error Nfa := do
  let nfa ← ({} : Nfa).addFinal name
  nfa.addStart name

/-- The automaton of one symbol: two states and an edge. -/
def ofSymbol (start : String) (symbol : Char) (final : String) : Except Error Nfa := do
  let nfa ← ({} : Nfa).addFinal final
  let nfa ← nfa.addStart start
  nfa.addEdge start (.ofChar symbol) final

/-- The automaton of a choice: a new start leads to both starts. -/
def alternate (lower upper : Nfa) (start : String) : Except Error Nfa := do
  let nfa ← ({} : Nfa).addFinals (lower.finals ++ upper.finals)
  let nfa ← nfa.addStart start
  let nfa ← nfa.addStates (lower.names ++ upper.names)
  let nfa ← nfa.addEdge start .epsilon (← lower.requireStart)
  let nfa ← nfa.addEdge start .epsilon (← upper.requireStart)
  let nfa ← nfa.addEdgesOf lower
  nfa.addEdgesOf upper

/-- The automaton of a sequence: the final states of the left part, which are final no
more, lead to the start of the right part. -/
def append (left right : Nfa) : Except Error Nfa := do
  let nfa ← ({} : Nfa).addFinals right.finals
  let nfa ← nfa.addStart (← left.requireStart)
  let nfa ← nfa.addStates (right.names ++ left.names)
  let nfa ← nfa.addEpsilonEdges left.finals (← right.requireStart)
  let nfa ← nfa.addEdgesOf right
  nfa.addEdgesOf left

/-- The automaton of a repetition: the final states lead back to the old start, and so
does a new start, which is final too. -/
def star (nfa : Nfa) (start : String) : Except Error Nfa := do
  let inner ← nfa.requireStart
  let nfa ← nfa.addEpsilonEdges nfa.finals inner
  let nfa ← nfa.addState start
  let nfa ← nfa.addEdge start .epsilon inner
  let nfa ← nfa.addStart start
  nfa.addFinal start

end Automata.Nfa
