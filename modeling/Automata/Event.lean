import Automata.Text.Quoted

/-!
# What the library reports while it works

Building a pattern's automaton, running an input, converting an automaton and reading a
description each report what they did. A report is a value, so an operation and its
reports can be computed side by side, and its wording is fixed here alone.
-/

namespace Automata

open Text

/-- How detailed a report is. -/
inductive Level where
  | trace
  | debug
  deriving DecidableEq

/-- The written form of a level. -/
def Level.name : Level → String
  | .trace => "TRACE"
  | .debug => "DEBUG"

/-- Something that happened while the library worked. -/
inductive Event where
  /-- A character of a pattern became an edge. -/
  | literalBuilt (start : String) (symbol : Char) (final : String)
  /-- The final states of the left part were joined to the start of the right part. -/
  | partsJoined (finals : List String) (start : String)
  /-- A new start was put before two alternatives. -/
  | alternativesJoined (start lower upper : String)
  /-- A new start was put before a repeated part. -/
  | repetitionBuilt (start inner : String)
  /-- A whole pattern was compiled. -/
  | patternCompiled (pattern : String) (states : Nat) (alphabet : List Char)
  /-- All subsets that a conversion needs were found. -/
  | subsetsFound (subsets states : Nat)
  /-- A subset became a deterministic state. -/
  | subsetConverted (name : String) (isFinal : Bool) (targets : List String)
  /-- A run over sets of states, given by their positions, was ended by an `e`. -/
  | setRunCut (positions : List Nat)
  /-- A run over single states was ended by an `e`. -/
  | stateRunCut (state : String)
  /-- A description was read as a deterministic automaton. -/
  | deterministicDescribed (table : String)
  /-- A description was read as a nondeterministic automaton. -/
  | nondeterministicDescribed (table : String)
  deriving DecidableEq

/-- How detailed an event is: each step of a construction and each cut run is a trace,
each finished construction is for debugging. -/
def Event.level : Event → Level
  | .literalBuilt .. | .partsJoined .. | .alternativesJoined .. | .repetitionBuilt ..
  | .subsetConverted .. | .setRunCut .. | .stateRunCut .. => .trace
  | .patternCompiled .. | .subsetsFound .. | .deterministicDescribed ..
  | .nondeterministicDescribed .. => .debug

/-- The report for a reader. -/
def Event.message : Event → String
  | .literalBuilt start symbol final => start ++ " -" ++ symbol.toString ++ "-> " ++ final
  | .partsJoined finals start =>
    "\x7b" ++ String.intercalate "," finals ++ "\x7d -e-> " ++ start
  | .alternativesJoined start lower upper => start ++ " -e-> " ++ lower ++ " | " ++ upper
  | .repetitionBuilt start inner => start ++ " -e-> " ++ inner ++ " (star)"
  | .patternCompiled pattern states alphabet =>
    "compiled " ++ quote pattern ++ " into an NFA with " ++ toString states ++
      " states over " ++ braced (alphabet.map quoteChar)
  | .subsetsFound subsets states =>
    "subset construction: " ++ toString subsets ++ " subsets reachable from q0 over " ++
      toString states ++ " NFA states"
  | .subsetConverted name isFinal targets =>
    quote name ++ " final=" ++ toString isFinal ++ " on " ++ bracketed (targets.map quote)
  | .setRunCut positions => "'e' ends the run in " ++ braced (positions.map toString)
  | .stateRunCut state => "'e' ends the run in " ++ state
  | .deterministicDescribed table => "described DFA:\n" ++ table
  | .nondeterministicDescribed table => "described NFA:\n" ++ table

end Automata
