import Automata.Event
import Automata.Nfa.Closure

/-!
# Runs of a nondeterministic automaton

A run follows all ways through the automaton at once. It keeps the states that are active,
closed under edges that read nothing, in the order in which they were reached. The input
is accepted when a final state is active at the end. A character outside the alphabet
rejects the input, except an `e` where the flags let it end the run.
-/

namespace Automata.Nfa

/-- Adds the closure of a target to the states reached, unless the target is among them
and so its closure is too. -/
def visit (nfa : Nfa) (reached : List String) (target : String) : List String :=
  if target ∈ reached then reached else addAllLast reached (nfa.closure target)

/-- The states that are active after a character. -/
def step (nfa : Nfa) (active : List String) (symbol : Char) : List String :=
  (active.flatMap fun source => nfa.targets source (.char symbol)).foldl nfa.visit []

/-- How a run ends. -/
inductive Run where
  /-- The input cannot be accepted any more. -/
  | rejected
  /-- The whole input was read. -/
  | finished (active : List String)
  /-- An `e` outside the alphabet ended the run. -/
  | cut (active : List String)
  deriving DecidableEq

/-- The run from the given active states. -/
def runFrom (nfa : Nfa) (active : List String) : List Char → Run
  | [] => .finished active
  | symbol :: rest =>
    if symbol ∈ nfa.alphabet then
      let reached := nfa.step active symbol
      if reached.isEmpty then .rejected else nfa.runFrom reached rest
    else if symbol = epsilonMark ∧ nfa.flags.epsilonShortcut = true then .cut active
    else .rejected

/-- The run from the start, if there is one. -/
def run (nfa : Nfa) (input : String) : Except Error Run :=
  match nfa.start with
  | some start => .ok (nfa.runFrom (nfa.closure start) input.toList)
  | none => .error .noStartState

/-- Whether a run accepts: a final state is active where it ends. -/
def verdict (nfa : Nfa) : Run → Bool
  | .rejected => false
  | .finished active | .cut active => active.any fun state => nfa.finals.contains state

/-- Whether the automaton accepts an input. -/
def accepts (nfa : Nfa) (input : String) : Except Error Bool :=
  (nfa.run input).map nfa.verdict

/-- What is reported while an input is run. -/
def runEvents (nfa : Nfa) (input : String) : List Event :=
  match nfa.run input with
  | .ok (.cut active) => [.setRunCut (active.map nfa.position)]
  | _ => []

end Automata.Nfa
