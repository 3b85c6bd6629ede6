/-!
# Edge labels

An edge of a nondeterministic automaton carries a character or nothing at all. Written
down, the empty label is the letter `e`, in patterns, in descriptions and in tables; so
an edge that carries the letter itself cannot be written.
-/

namespace Automata

/-- The letter that stands for the empty label, and for the empty text in test inputs. -/
def epsilonMark : Char := 'e'

/-- What an edge reads: nothing, or one character. -/
inductive Label where
  | epsilon
  | char (c : Char)
  deriving DecidableEq

/-- The label that a character denotes. -/
def Label.ofChar (c : Char) : Label :=
  if c = epsilonMark then .epsilon else .char c

/-- The character that a label is written as. -/
def Label.mark : Label → Char
  | .epsilon => epsilonMark
  | .char c => c

/-- Whether a label reads nothing. -/
def Label.isEpsilon : Label → Bool
  | .epsilon => true
  | .char _ => false

/-- Only a character other than the mark denotes a label that reads it. -/
theorem Label.char_eq_ofChar_iff {c d : Char} :
    Label.char c = .ofChar d ↔ c = d ∧ c ≠ epsilonMark := by
  unfold Label.ofChar
  split
  · next hmark => simp [hmark]
  · next hmark =>
    rw [Label.char.injEq]
    exact ⟨fun hsame => ⟨hsame, hsame ▸ hmark⟩, fun hsame => hsame.1⟩

end Automata
