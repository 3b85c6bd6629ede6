import Automata.Dfa.Basic
import Automata.Discovery
import Std.Data.HashMap.Lemmas

/-!
# Drafts of deterministic automata

An automaton is laid out by pushing states and moves one after the other. In its draft a state
is known by its place among the names, in the order in which these were pushed, and final
states, the start and both ends of a move are places. Pushing a name that is there already finds its
place.
-/

namespace Automata.Dfa

/-- Where a move begins: at the place of a state, with a symbol. -/
structure Departure where
  place : Nat
  symbol : Char
  deriving DecidableEq

/-- Departures are scattered by the place and the number of the symbol. -/
instance : Hashable Departure where
  hash departure := mixHash (hash departure.place) (hash departure.symbol.toNat)

/-- A deterministic automaton while it is laid out. -/
structure Draft where
  flags : Flags
  names : Discovery String := .empty
  alphabet : List Char := []
  /-- The places to which moves lead. -/
  moves : Std.HashMap Departure Nat := {}
  start : Option Nat := none
  finals : Discovery Nat := .empty

namespace Draft

/-- The place of the named state, which is pushed if it is not there yet. -/
def pushState (draft : Draft) (name : String) : Nat × Draft :=
  match draft.names.place? name with
  | some place => (place, draft)
  | none => (draft.names.size, { draft with names := draft.names.insert name })

/-- Pushes states one after the other, and gives their places. -/
def pushStates (draft : Draft) : List String → List Nat × Draft
  | [] => ([], draft)
  | name :: names =>
    let (place, draft) := draft.pushState name
    let (places, draft) := draft.pushStates names
    (place :: places, draft)

/-- Makes the state at a place final. -/
def markFinal (draft : Draft) (place : Nat) : Draft :=
  { draft with finals := draft.finals.insert place }

/-- Makes the state at a place the start. -/
def setStart (draft : Draft) (place : Nat) : Draft := { draft with start := some place }

/-- Pushes a move between two places, and its symbol. -/
def pushMove (draft : Draft) (source : Nat) (symbol : Char) (target : Nat) : Draft :=
  { draft with
    moves := draft.moves.insert ⟨source, symbol⟩ target
    alphabet := addLast draft.alphabet symbol }

/-- The name of the state at a place. -/
def nameAt (draft : Draft) (place : Nat) : String := draft.names.items.getD place ""

/-- The moves from the state at a place, with the names of the states to which they lead. -/
def movesAt (draft : Draft) (place : Nat) : List (Char × String) :=
  draft.alphabet.filterMap fun symbol =>
    draft.moves[Departure.mk place symbol]?.map fun target => (symbol, draft.nameAt target)

/-- The automaton that was laid out. -/
def toDfa (draft : Draft) : Dfa where
  states := draft.names.toList.mapIdx fun place name => { name, moves := draft.movesAt place }
  alphabet := draft.alphabet
  start := draft.start.map draft.nameAt
  finals := draft.finals.toList.map draft.nameAt
  flags := draft.flags

end Draft

end Automata.Dfa
