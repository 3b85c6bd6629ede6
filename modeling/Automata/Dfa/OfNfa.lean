import Automata.Dfa.Draft
import Automata.Event
import Automata.Nfa.SubsetName

/-!
# Deterministic automata from nondeterministic ones

Each subset that the search discovers becomes a state. The final ones are laid out first, then
the start, and then the others, each in order of discovery; the moves follow, subset by subset.
A subset is final when it has a final member or, where the flags say so, when the name of a
final state occurs in its name. Subsets that share a name cannot be told apart, so they make
the conversion fail.
-/

namespace Automata.Nfa

/-- A subset as a state to be: its name, whether it is final, and the places of its
successors among the subsets in the order of the alphabet. -/
structure SubsetRow where
  name : String
  isFinal : Bool
  successors : List Nat
  deriving DecidableEq

/-- Whether a subset of the given name is final. -/
def isFinalSubset (nfa : Nfa) (subset : Nat) (name : String) : Bool :=
  if nfa.flags.substringFinality then
    nfa.finals.any fun final => occursIn final.toList name.toList
  else nfa.finals.any fun final => subset.testBit (nfa.position final)

/-- The rows of subsets, in the order given. -/
def subsetRows (nfa : Nfa) (subsets : List Nat) : List SubsetRow :=
  let sorted := nfa.sortedNames
  let tables := nfa.reachTables
  let known := Discovery.empty.insertAll subsets
  subsets.map fun subset =>
    let name := subsetName sorted subset
    { name
      isFinal := nfa.isFinalSubset subset name
      successors := (nextSubsets tables subset).map fun next => (known.place? next).getD 0 }

/-- The first name in the rows that an earlier row has too. -/
def ambiguousName (rows : List SubsetRow) : Option String :=
  firstRepeated {} (rows.map (·.name))

/-- Pushes the state of a row and makes it final, if the row is. -/
def pushFinal (draft : Dfa.Draft) (row : SubsetRow) : Dfa.Draft :=
  if row.isFinal then
    let (place, draft) := draft.pushState row.name
    draft.markFinal place
  else draft

/-- Pushes the state of the first row and makes it the start. -/
def pushStart (draft : Dfa.Draft) : List SubsetRow → Dfa.Draft
  | [] => draft
  | row :: _ =>
    let (place, draft) := draft.pushState row.name
    draft.setStart place

/-- Pushes the states of all rows, and gives their places. -/
def pushRows (flags : Flags) (rows : List SubsetRow) : List Nat × Dfa.Draft :=
  (pushStart (rows.foldl pushFinal { flags }) rows).pushStates (rows.map (·.name))

/-- Pushes the moves of a row, whose state is at the place. -/
def pushMoves (alphabet : List Char) (places : Array Nat) (draft : Dfa.Draft) (source : Nat)
    (row : SubsetRow) : Dfa.Draft :=
  (alphabet.zip row.successors).foldl
    (fun draft move => draft.pushMove source move.1 (places.getD move.2 0)) draft

/-- Lays out the rows, of which the first is the start. -/
def layOut (nfa : Nfa) (rows : List SubsetRow) : Dfa.Draft :=
  let (places, draft) := pushRows nfa.flags rows
  let table := places.toArray
  (places.zip rows).foldl
    (fun draft placed => pushMoves nfa.alphabet table draft placed.1 placed.2) draft

/-- The equivalent deterministic automaton, if at most `limit` subsets are needed. -/
def toDfaWithin (nfa : Nfa) (limit : Nat) : Except Error Dfa := do
  let rows := nfa.subsetRows (← nfa.subsets limit)
  match ambiguousName rows with
  | some name => throw (.ambiguousSubsetName name)
  | none => return (nfa.layOut rows).toDfa

/-- The equivalent deterministic automaton. -/
def toDfa (nfa : Nfa) : Except Error Dfa := nfa.toDfaWithin maxSubsets

/-- What is reported while an automaton is converted: how many subsets were found and,
when their names differ, each of them. -/
def conversionEvents (nfa : Nfa) (limit : Nat) : List Event :=
  match nfa.subsets limit with
  | .error _ => []
  | .ok subsets =>
    let rows := nfa.subsetRows subsets
    let names := (rows.map (·.name)).toArray
    .subsetsFound subsets.length nfa.states.length ::
      if (ambiguousName rows).isSome then []
      else rows.map fun row =>
        .subsetConverted row.name row.isFinal (row.successors.map fun next => names.getD next "")

end Automata.Nfa
