import Automata.Nfa.Subset
import Std.Data.TreeSet.Basic

/-!
# Names of subsets

A subset of states is named by the names of its members, sorted by code points and
written one after the other without a separator. Names of several characters can make
two subsets share a name; the empty subset has the empty name.
-/

namespace Automata.Nfa

/-- Puts a name into a sorted list, with the position that belongs to it. -/
def insertSorted (entry : String × Nat) : List (String × Nat) → List (String × Nat)
  | [] => [entry]
  | other :: rest =>
    if (compare entry.1 other.1).isLE then entry :: other :: rest
    else other :: insertSorted entry rest

/-- The names of the states with their positions, sorted by name. -/
def sortedNames (nfa : Nfa) : List (String × Nat) :=
  nfa.names.zipIdx.foldr insertSorted []

/-- The name of a subset, from the sorted names of all states. -/
def subsetName (sorted : List (String × Nat)) (subset : Nat) : String :=
  String.join (sorted.filterMap fun entry =>
    if subset.testBit entry.2 then some entry.1 else none)

/-- The first name that repeats one before it or one of those seen already. -/
def firstRepeated (seen : Std.TreeSet String) : List String → Option String
  | [] => none
  | name :: rest =>
    if seen.contains name then some name else firstRepeated (seen.insert name) rest

/-- Whether a text occurs in another. -/
def occursIn (text : List Char) : List Char → Bool
  | [] => text.isEmpty
  | c :: rest => text.isPrefixOf (c :: rest) || occursIn text rest

end Automata.Nfa
