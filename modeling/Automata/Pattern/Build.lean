import Automata.Nfa.Fragment
import Automata.Pattern.Basic

/-!
# Automata of trees

The automaton of a tree is built from the automata of its parts, the left part before the
right one and the inner parts before the whole. The states are numbered in the order in which
this needs new ones.
-/

namespace Automata.Pattern

/-- The automaton of a part of a pattern. -/
structure Construction where
  nfa : Nfa
  /-- The number of the next new state. -/
  next : Nat
  deriving DecidableEq

/-- Builds the automaton of a pattern, whose first new state gets the given number. -/
def build : Pattern → Nat → Except Automata.Error Construction
  | .blank, number => do
    let nfa ← Nfa.ofBlank (stateName number)
    return { nfa, next := number + 1 }
  | .literal c, number => do
    let nfa ← Nfa.ofSymbol (stateName number) c (stateName (number + 1))
    return { nfa, next := number + 2 }
  | .append left right, number => do
    let left ← left.build number
    let right ← right.build left.next
    let nfa ← left.nfa.append right.nfa
    return { nfa, next := right.next }
  | .choice lower upper, number => do
    let lower ← lower.build number
    let upper ← upper.build lower.next
    let nfa ← lower.nfa.alternate upper.nfa (stateName upper.next)
    return { nfa, next := upper.next + 1 }
  | .star inner, number => do
    let inner ← inner.build number
    let nfa ← inner.nfa.star (stateName inner.next)
    return { nfa, next := inner.next + 1 }

end Automata.Pattern
