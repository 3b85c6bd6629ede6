import Automata.Pattern.Basic
import Automata.Pattern.Error

/-!
# Reading the tree of a pattern

A reader that makes no automaton goes through a pattern from left to right, one character in
each step. For the whole pattern and for each group that is still open, it keeps the
alternatives and factors that are complete. The last factor is kept apart as long as a star
may follow it; it joins its term when anything else does.
-/

namespace Automata.Pattern

/-- The tree of two parts, of which the first may be missing. -/
def joinBy (node : Pattern → Pattern → Pattern) (left : Option Pattern) (right : Pattern) :
    Pattern :=
  match left with
  | some left => node left right
  | none => right

/-- What is complete of a group that is still open. -/
structure Group where
  /-- The alternatives before the last bar. -/
  choices : Option Pattern := none
  /-- The factors since the last bar, without the last one. -/
  term : Option Pattern := none
  /-- The last factor, to which a star would apply. -/
  factor : Option Pattern := none
  deriving DecidableEq

namespace Group

/-- The group once its last factor has joined the term. -/
def settle (group : Group) : Group :=
  match group.factor with
  | some factor =>
    { group with term := some (joinBy .append group.term factor), factor := none }
  | none => group

/-- The group with one more factor. -/
def addFactor (group : Group) (factor : Pattern) : Group :=
  { group.settle with factor := some factor }

/-- The tree of the whole group when it ends here. -/
def close (group : Group) : Pattern :=
  joinBy .choice group.choices (group.settle.term.getD .blank)

/-- The group after a bar. -/
def nextChoice (group : Group) : Group := { choices := some group.close }

end Group

/-- Why and where a reading failed. -/
structure Misreading where
  fault : Fault
  /-- The characters from the one at fault on. -/
  rest : List Char
  deriving DecidableEq

/-- Reads on inside a group, which stands in other open groups, the innermost first. -/
def parseIn (outer : List Group) (group : Group) : List Char → Except Misreading Pattern
  | [] =>
    match outer with
    | [] => .ok group.close
    | _ :: _ => .error ⟨.unexpectedEnd (some ')'), []⟩
  | c :: rest =>
    match c with
    | '(' =>
      if outer.length = maxNesting then .error ⟨.tooDeep maxNesting, c :: rest⟩
      else parseIn (group.settle :: outer) {} rest
    | ')' =>
      match outer with
      | [] => .error ⟨.unbalanced, c :: rest⟩
      | enclosing :: outer => parseIn outer (enclosing.addFactor group.close) rest
    | '|' => parseIn outer group.nextChoice rest
    | '*' =>
      match group.factor with
      | some factor => parseIn outer { group with factor := some (.star factor) } rest
      | none => .error ⟨.dangling '*', c :: rest⟩
    | _ => parseIn outer (group.addFactor (.literal c)) rest

/-- The tree of a pattern. -/
def parse (text : List Char) : Except Misreading Pattern := parseIn [] {} text

end Automata.Pattern
