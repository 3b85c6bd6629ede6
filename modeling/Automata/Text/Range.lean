/-!
# Ranges of code points

The character classes of this library are given by tables of inclusive ranges.
-/

namespace Automata.Text

/-- Whether the code point of a character lies in one of the inclusive ranges. -/
def inRanges (ranges : List (Nat × Nat)) (c : Char) : Bool :=
  ranges.any fun range => range.1 ≤ c.toNat && c.toNat ≤ range.2

end Automata.Text
