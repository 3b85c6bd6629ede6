/-!
# Flags of an automaton

Two choices belong to an automaton and pass to what it is converted to. As a number, the
first is bit 1 and the second bit 2; other bits mean nothing.
-/

namespace Automata

/-- The choices that belong to an automaton. -/
structure Flags where
  /-- An `e` outside the alphabet ends a run, which is then judged where it stands. -/
  epsilonShortcut : Bool := true
  /-- A converted state is final when the name of a final state occurs in its name. -/
  substringFinality : Bool := false
  deriving DecidableEq

/-- The flags that a number denotes. -/
def Flags.ofBits (bits : Nat) : Flags where
  epsilonShortcut := bits.testBit 1
  substringFinality := bits.testBit 2

/-- The number that denotes the flags. -/
def Flags.toBits (flags : Flags) : Nat :=
  (if flags.epsilonShortcut then 2 else 0) + if flags.substringFinality then 4 else 0

end Automata
