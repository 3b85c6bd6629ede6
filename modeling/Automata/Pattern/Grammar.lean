import Automata.Pattern.Basic

/-!
# The grammar of patterns

The grammar has three kinds of text: a choice is made of terms separated by bars, a term
is a row of factors, and a factor is an ordinary character or a choice in parentheses,
with any number of stars after it. It bounds how deep parentheses nest. Bars and rows
associate to the left.
-/

namespace Automata.Pattern

/-- The kinds of text in a pattern. -/
inductive Part where
  | choice
  | term
  | factor
  deriving DecidableEq

/-- `Derives part depth text pattern` says that a text of this kind, with parentheses nested
at most `depth` deep, has the pattern as its tree. -/
inductive Derives : Part → Nat → List Char → Pattern → Prop where
  | ofTerm {depth : Nat} {text : List Char} {pattern : Pattern}
      (term : Derives .term depth text pattern) : Derives .choice depth text pattern
  | bar {depth : Nat} {before after : List Char} {lower upper : Pattern}
      (left : Derives .choice depth before lower) (right : Derives .term depth after upper) :
      Derives .choice depth (before ++ '|' :: after) (.choice lower upper)
  | blank {depth : Nat} : Derives .term depth [] .blank
  | ofFactor {depth : Nat} {text : List Char} {pattern : Pattern}
      (factor : Derives .factor depth text pattern) : Derives .term depth text pattern
  | row {depth : Nat} {before after : List Char} {first second : Pattern}
      (left : Derives .term depth before first) (nonempty : before ≠ [])
      (right : Derives .factor depth after second) :
      Derives .term depth (before ++ after) (.append first second)
  | literal {depth : Nat} {c : Char} (ordinary : isOperator c = false) :
      Derives .factor depth [c] (.literal c)
  | group {depth : Nat} {text : List Char} {pattern : Pattern}
      (inner : Derives .choice depth text pattern) :
      Derives .factor (depth + 1) ('(' :: text ++ [')']) pattern
  | star {depth : Nat} {text : List Char} {pattern : Pattern}
      (inner : Derives .factor depth text pattern) :
      Derives .factor depth (text ++ ['*']) (.star pattern)

/-- No factor is empty. -/
theorem Derives.factor_ne_nil {depth : Nat} {text : List Char} {pattern : Pattern}
    (h : Derives .factor depth text pattern) : text ≠ [] := by
  cases h <;> simp

end Automata.Pattern
