import Automata.Label
import Automata.Pattern.Basic

/-!
# The words of a pattern

What a pattern denotes does not depend on how it is compiled: a character denotes itself,
the letter `e` and a blank term denote the empty word, and sequences, choices and
repetitions denote what their names say.
-/

namespace Automata.Pattern

/-- `Denotes pattern word` says that the word belongs to the pattern. -/
inductive Denotes : Pattern → List Char → Prop where
  | blank : Denotes .blank []
  | mark : Denotes (.literal epsilonMark) []
  | literal {c : Char} (ordinary : c ≠ epsilonMark) : Denotes (.literal c) [c]
  | append {left right : Pattern} {first second : List Char}
      (hfirst : Denotes left first) (hsecond : Denotes right second) :
      Denotes (.append left right) (first ++ second)
  | lower {lower upper : Pattern} {word : List Char} (hword : Denotes lower word) :
      Denotes (.choice lower upper) word
  | upper {lower upper : Pattern} {word : List Char} (hword : Denotes upper word) :
      Denotes (.choice lower upper) word
  | none {inner : Pattern} : Denotes (.star inner) []
  | more {inner : Pattern} {first rest : List Char}
      (hfirst : Denotes inner first) (hrest : Denotes (.star inner) rest) :
      Denotes (.star inner) (first ++ rest)

variable {left right inner : Pattern} {word : List Char} {c : Char}

/-- A blank denotes the empty word alone. -/
theorem denotes_blank_iff : Denotes .blank word ↔ word = [] :=
  ⟨fun h => by cases h; rfl, fun h => h ▸ .blank⟩

/-- A literal denotes its character, and the mark denotes the empty word. -/
theorem denotes_literal_iff :
    Denotes (.literal c) word ↔ word = if c = epsilonMark then [] else [c] := by
  constructor
  · intro h
    cases h with
    | mark => simp
    | literal ordinary => simp [ordinary]
  · rintro rfl
    split
    · next h => exact h ▸ .mark
    · next h => exact .literal h

/-- What stands in a row denotes words of its parts in a row. -/
theorem denotes_append_iff :
    Denotes (.append left right) word ↔
      ∃ first second, word = first ++ second ∧ Denotes left first ∧ Denotes right second := by
  constructor
  · intro h
    cases h with
    | append hfirst hsecond => exact ⟨_, _, rfl, hfirst, hsecond⟩
  · rintro ⟨first, second, rfl, hfirst, hsecond⟩
    exact .append hfirst hsecond

/-- A choice denotes the words of both sides. -/
theorem denotes_choice_iff :
    Denotes (.choice left right) word ↔ Denotes left word ∨ Denotes right word := by
  constructor
  · intro h
    cases h with
    | lower hword => exact Or.inl hword
    | upper hword => exact Or.inr hword
  · exact fun h => h.elim .lower .upper

end Automata.Pattern
