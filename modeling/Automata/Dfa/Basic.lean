import Automata.Call
import Automata.Distinct
import Automata.Flags

/-!
# Deterministic automata

From each state at most one move leads on for each symbol; a move recorded later replaces
an earlier one for the same state and symbol. The letter `e` is a symbol like any other
here. States, alphabet and final states keep the order in which they were first added.
-/

namespace Automata

/-- A state with its moves. -/
structure Dfa.State where
  name : String
  /-- Symbols and targets, each symbol at most once. -/
  moves : List (Char × String) := []
  deriving DecidableEq

/-- A deterministic automaton, in which moves may be missing. -/
structure Dfa where
  states : List Dfa.State := []
  alphabet : List Char := []
  start : Option String := none
  finals : List String := []
  flags : Flags := {}
  deriving DecidableEq

/-- The target of a state's move on a symbol. -/
def Dfa.State.target (state : Dfa.State) (symbol : Char) : Option String :=
  state.moves.lookup symbol

/-- The state with its move on a symbol set, whatever it was before. -/
def Dfa.State.setMove (state : Dfa.State) (symbol : Char) (target : String) : Dfa.State :=
  { state with moves := (symbol, target) :: state.moves.filter fun move => move.1 != symbol }

namespace Dfa

/-- The names of the states, in order. -/
def names (dfa : Dfa) : List String := dfa.states.map (·.name)

/-- The state with the given name. -/
def find? (dfa : Dfa) (name : String) : Option State :=
  dfa.states.find? fun state => state.name == name

/-- Whether there is a state with the given name. -/
def hasState (dfa : Dfa) (name : String) : Bool :=
  dfa.states.any fun state => state.name == name

/-- The test for a state looks it up among the names. -/
theorem hasState_iff {dfa : Dfa} {name : String} : dfa.hasState name = true ↔ name ∈ dfa.names := by
  simp [hasState, names, List.any_eq_true]

/-- The target of the move from the named state on a symbol. -/
def target (dfa : Dfa) (name : String) (symbol : Char) : Option String :=
  (dfa.find? name).bind fun state => state.target symbol

/-- Whether the named state is final. -/
def isFinal (dfa : Dfa) (name : String) : Bool := dfa.finals.contains name

/-- Whether every state has a move on every symbol of the alphabet. -/
def isTotal (dfa : Dfa) : Bool :=
  dfa.states.all fun state => dfa.alphabet.all fun symbol => (state.target symbol).isSome

/-- Adds a state, unless one of that name is already there. -/
def addState (dfa : Dfa) (name : String) : Except Error Dfa :=
  if name = "" then .error .emptyStateName
  else if dfa.hasState name then .ok dfa
  else .ok { dfa with states := dfa.states ++ [{ name }] }

/-- Makes the named state the start, and adds it if need be. -/
def addStart (dfa : Dfa) (name : String) : Except Error Dfa :=
  (dfa.addState name).map fun dfa => { dfa with start := some name }

/-- Makes the named state final, and adds it if need be. -/
def addFinal (dfa : Dfa) (name : String) : Except Error Dfa :=
  (dfa.addState name).map fun dfa => { dfa with finals := addLast dfa.finals name }

/-- Sets the move from a state on a symbol. Both states must be there. -/
def addEdge (dfa : Dfa) (source : String) (symbol : Char) (target : String) :
    Except Error Dfa :=
  if !dfa.hasState source then .error (.unknownState source)
  else if !dfa.hasState target then .error (.unknownState target)
  else .ok { dfa with
    states := dfa.states.map fun state =>
      if state.name = source then state.setMove symbol target else state
    alphabet := addLast dfa.alphabet symbol }

/-- One addition to an automaton under construction. -/
inductive Addition where
  | start (name : String)
  | state (name : String)
  | final (name : String)
  | edge (source : String) (symbol : Char) (target : String)
  deriving DecidableEq

/-- Makes one addition. -/
def add (dfa : Dfa) : Addition → Except Error Dfa
  | .start name => dfa.addStart name
  | .state name => dfa.addState name
  | .final name => dfa.addFinal name
  | .edge source symbol target => dfa.addEdge source symbol target

/-! ### Additions in place -/

/-- Fails if the name is empty. -/
def requireName (name : String) : Call Dfa Unit :=
  Call.require (fun _ => name != "") .emptyStateName

/-- Adds a state in place, unless one of that name is already there. -/
def pushState (name : String) : Call Dfa Unit :=
  modify fun dfa =>
    if dfa.hasState name then dfa else { dfa with states := dfa.states ++ [{ name }] }

/-- Makes the named state the start. -/
def setStart (name : String) : Call Dfa Unit := modify fun dfa => { dfa with start := some name }

/-- Makes the named state final. -/
def markFinal (name : String) : Call Dfa Unit :=
  modify fun dfa => { dfa with finals := addLast dfa.finals name }

/-- Fails if there is no state of the given name. -/
def requireState (name : String) : Call Dfa Unit :=
  Call.require (fun dfa => dfa.hasState name) (.unknownState name)

/-- Sets a move, and records its symbol in the alphabet. -/
def pushMove (source : String) (symbol : Char) (target : String) : Call Dfa Unit := do
  modify fun dfa => { dfa with
    states := dfa.states.map fun state =>
      if state.name = source then state.setMove symbol target else state }
  modify fun dfa => { dfa with alphabet := addLast dfa.alphabet symbol }

/-- The addition as a call that is carried out in place. -/
def Addition.call : Addition → Call Dfa Unit
  | .start name => do requireName name; pushState name; setStart name
  | .state name => do requireName name; pushState name
  | .final name => do requireName name; pushState name; markFinal name
  | .edge source symbol target => do
    requireState source
    requireState target
    pushMove source symbol target

/-- The automaton after the call for an addition, whether it succeeds or fails. -/
def tryAdd (dfa : Dfa) (addition : Addition) : Dfa := addition.call.after dfa

/-- The automaton that a sequence of additions makes out of nothing. -/
def ofAdditions (flags : Flags) (additions : List Addition) : Dfa :=
  additions.foldl tryAdd { flags }

/-- An automaton is built when some sequence of additions makes it. -/
def Built (dfa : Dfa) : Prop := ∃ flags additions, dfa = ofAdditions flags additions

end Dfa

end Automata
