import Automata.Call
import Automata.Distinct
import Automata.Flags
import Automata.Label

/-!
# Nondeterministic automata

States are known by their names. An automaton is built by adding states and edges one
after the other; the states, the alphabet, the final states and the targets of an edge
keep the order in which they were first added. An edge joins states that are already
there, and an edge with a character puts the character into the alphabet.
-/

namespace Automata

/-- A state with its outgoing edges. -/
structure Nfa.State where
  name : String
  /-- Whether the state is among the final states of its automaton. -/
  isFinal : Bool := false
  /-- Labels and targets, each pair once, in the order of addition. -/
  edges : List (Label × String) := []
  deriving DecidableEq

/-- A nondeterministic automaton with edges that may read nothing. -/
structure Nfa where
  states : List Nfa.State := []
  alphabet : List Char := []
  start : Option String := none
  finals : List String := []
  flags : Flags := {}
  deriving DecidableEq

/-- The targets of a state's edges with the given label. -/
def Nfa.State.targets (state : Nfa.State) (label : Label) : List String :=
  state.edges.filterMap fun edge => if edge.1 = label then some edge.2 else none

/-- The state, made final. -/
def Nfa.State.makeFinal (state : Nfa.State) : Nfa.State := { state with isFinal := true }

/-- The state with one more edge. -/
def Nfa.State.addEdge (state : Nfa.State) (label : Label) (target : String) : Nfa.State :=
  { state with edges := addLast state.edges (label, target) }

namespace Nfa

/-- The names of the states, in order. -/
def names (nfa : Nfa) : List String := nfa.states.map (·.name)

/-- The state with the given name. -/
def find? (nfa : Nfa) (name : String) : Option State :=
  nfa.states.find? fun state => state.name == name

/-- The place of a state among the states, counted from zero. -/
def position (nfa : Nfa) (name : String) : Nat :=
  nfa.states.findIdx fun state => state.name == name

/-- Whether there is a state with the given name. -/
def hasState (nfa : Nfa) (name : String) : Bool :=
  nfa.states.any fun state => state.name == name

/-- The test for a state looks it up among the names. -/
theorem hasState_iff {nfa : Nfa} {name : String} : nfa.hasState name = true ↔ name ∈ nfa.names := by
  simp [hasState, names, List.any_eq_true]

/-- The targets of the edges from the named state with the given label. -/
def targets (nfa : Nfa) (name : String) (label : Label) : List String :=
  match nfa.find? name with
  | some state => state.targets label
  | none => []

/-- Whether some edge reads nothing. -/
def hasEpsilonEdge (nfa : Nfa) : Bool :=
  nfa.states.any fun state => state.edges.any fun edge => edge.1.isEpsilon

/-- The automaton with a change made to the named state. -/
def modifyState (nfa : Nfa) (name : String) (change : State → State) : Nfa :=
  { nfa with
    states := nfa.states.map fun state => if state.name = name then change state else state }

/-- Adds a state, unless one of that name is already there. -/
def addState (nfa : Nfa) (name : String) : Except Error Nfa :=
  if name = "" then .error .emptyStateName
  else if nfa.hasState name then .ok nfa
  else .ok { nfa with states := nfa.states ++ [{ name }] }

/-- Makes the named state the start, and adds it if need be. -/
def addStart (nfa : Nfa) (name : String) : Except Error Nfa :=
  (nfa.addState name).map fun nfa => { nfa with start := some name }

/-- Makes the named state final, and adds it if need be. -/
def addFinal (nfa : Nfa) (name : String) : Except Error Nfa :=
  (nfa.addState name).map fun nfa =>
    { nfa.modifyState name State.makeFinal with finals := addLast nfa.finals name }

/-- The alphabet once an edge with the label is there. -/
def extendAlphabet (alphabet : List Char) : Label → List Char
  | .epsilon => alphabet
  | .char c => addLast alphabet c

/-- Adds an edge between two states that are there. -/
def addEdge (nfa : Nfa) (source : String) (label : Label) (target : String) :
    Except Error Nfa :=
  if !nfa.hasState source then .error (.unknownState source)
  else if !nfa.hasState target then .error (.unknownState target)
  else
    let nfa := { nfa with alphabet := extendAlphabet nfa.alphabet label }
    .ok (nfa.modifyState source fun state => state.addEdge label target)

/-- The targets of the edges from a state that a character denotes. -/
def successors (nfa : Nfa) (name : String) (symbol : Char) : Except Error (List String) :=
  if nfa.hasState name then .ok (nfa.targets name (.ofChar symbol))
  else .error (.unknownState name)

/-- One addition to an automaton under construction. -/
inductive Addition where
  | start (name : String)
  | state (name : String)
  | final (name : String)
  /-- An edge with the label that the symbol denotes. -/
  | edge (source : String) (symbol : Char) (target : String)
  | epsilonEdge (source target : String)
  deriving DecidableEq

/-- Makes one addition. -/
def add (nfa : Nfa) : Addition → Except Error Nfa
  | .start name => nfa.addStart name
  | .state name => nfa.addState name
  | .final name => nfa.addFinal name
  | .edge source symbol target => nfa.addEdge source (.ofChar symbol) target
  | .epsilonEdge source target => nfa.addEdge source .epsilon target

/-! ### Additions in place -/

/-- Adds a state in place, unless one of that name is already there. -/
def pushState (name : String) : Call Nfa Unit := do
  Call.require (fun _ => name != "") .emptyStateName
  modify fun nfa =>
    if nfa.hasState name then nfa else { nfa with states := nfa.states ++ [{ name }] }

/-- Makes the named state the start. -/
def setStart (name : String) : Call Nfa Unit := modify fun nfa => { nfa with start := some name }

/-- Makes the named state final, in the list of final states and then in the state itself. -/
def markFinal (name : String) : Call Nfa Unit := do
  modify fun nfa => { nfa with finals := addLast nfa.finals name }
  modify fun nfa => nfa.modifyState name State.makeFinal

/-- Fails if there is no state of the given name. -/
def requireState (name : String) : Call Nfa Unit :=
  Call.require (fun nfa => nfa.hasState name) (.unknownState name)

/-- Records an edge, and its character in the alphabet. -/
def pushEdge (source : String) (label : Label) (target : String) : Call Nfa Unit := do
  modify fun nfa => nfa.modifyState source fun state => state.addEdge label target
  modify fun nfa => { nfa with alphabet := extendAlphabet nfa.alphabet label }

/-- Records an edge once both of its ends are found. -/
def callEdge (source : String) (label : Label) (target : String) : Call Nfa Unit := do
  requireState source
  requireState target
  pushEdge source label target

/-- The addition as a call that is carried out in place. -/
def Addition.call : Addition → Call Nfa Unit
  | .start name => do pushState name; setStart name
  | .state name => pushState name
  | .final name => do pushState name; markFinal name
  | .edge source symbol target => callEdge source (.ofChar symbol) target
  | .epsilonEdge source target => callEdge source .epsilon target

/-- The automaton after the call for an addition, whether it succeeds or fails. -/
def tryAdd (nfa : Nfa) (addition : Addition) : Nfa := addition.call.after nfa

/-- The automaton that a sequence of additions makes out of nothing. -/
def ofAdditions (flags : Flags) (additions : List Addition) : Nfa :=
  additions.foldl tryAdd { flags }

/-- An automaton is built when some sequence of additions makes it. -/
def Built (nfa : Nfa) : Prop := ∃ flags additions, nfa = ofAdditions flags additions

end Nfa

end Automata
