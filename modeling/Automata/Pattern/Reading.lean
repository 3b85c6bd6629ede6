import Automata.Event
import Automata.Pattern.Error

/-!
# Reading a pattern character by character

A compiler keeps its place in a pattern twice. An iterator has the characters to come, and may
have to take one from the text before it can show it; a count says how many were taken from the
start. What an error shows as read is counted off from the start of the pattern, and what it
shows as the rest is what a copy of the iterator still gives. Nothing is put back where an
operation fails: the compiler stays in the state that it had come to.
-/

namespace Automata.Pattern

/-- Iterators over characters that can show the next one before they give it. Looking takes
no character away from what is to come, and a copy gives what the iterator itself would. -/
class Lookahead (ι : Type) where
  /-- The iterator before the first of the characters. -/
  ofChars : List Char → ι
  /-- What a copy of the iterator gives. -/
  remaining : ι → List Char
  /-- Shows the next character. -/
  peek : ι → Option Char × ι
  /-- Gives the next character. -/
  next : ι → Option Char × ι
  remaining_ofChars : ∀ text, remaining (ofChars text) = text
  peek_fst : ∀ iterator, (peek iterator).1 = (remaining iterator).head?
  remaining_peek : ∀ iterator, remaining (peek iterator).2 = remaining iterator
  next_fst : ∀ iterator, (next iterator).1 = (remaining iterator).head?
  remaining_next : ∀ iterator, remaining (next iterator).2 = (remaining iterator).tail

/-- An iterator with a buffer for the characters that it has shown and not yet given. -/
structure Buffered where
  buffer : List Char := []
  source : List Char
  deriving DecidableEq

namespace Buffered

/-- Shows the next character, which goes into the buffer if it is not there yet. -/
def peek : Buffered → Option Char × Buffered
  | ⟨c :: buffer, source⟩ => (some c, ⟨c :: buffer, source⟩)
  | ⟨[], c :: source⟩ => (some c, ⟨[c], source⟩)
  | ⟨[], []⟩ => (none, ⟨[], []⟩)

/-- Gives the next character, from the buffer if there is one. -/
def next : Buffered → Option Char × Buffered
  | ⟨c :: buffer, source⟩ => (some c, ⟨buffer, source⟩)
  | ⟨[], c :: source⟩ => (some c, ⟨[], source⟩)
  | ⟨[], []⟩ => (none, ⟨[], []⟩)

/-- The buffer holds what comes next, and the source what comes behind it. -/
instance : Lookahead Buffered where
  ofChars text := { source := text }
  remaining iterator := iterator.buffer ++ iterator.source
  peek := peek
  next := next
  remaining_ofChars _ := rfl
  peek_fst | ⟨_ :: _, _⟩ | ⟨[], _ :: _⟩ | ⟨[], []⟩ => rfl
  remaining_peek | ⟨_ :: _, _⟩ | ⟨[], _ :: _⟩ | ⟨[], []⟩ => rfl
  next_fst | ⟨_ :: _, _⟩ | ⟨[], _ :: _⟩ | ⟨[], []⟩ => rfl
  remaining_next | ⟨_ :: _, _⟩ | ⟨[], _ :: _⟩ | ⟨[], []⟩ => rfl

end Buffered

/-- What a pattern is compiled with. -/
structure Compiler (ι : Type) where
  /-- The whole pattern. -/
  text : String
  /-- The characters to come. -/
  iterator : ι
  /-- How many characters were taken. -/
  consumed : Nat := 0
  /-- The number of the next new state. -/
  nextState : Nat := 0
  /-- What was done, in order. -/
  events : List Event := []

/-- Something that a compiler does. It may fail, and either way changes the compiler. -/
abbrev Work (ι α : Type) : Type := EStateM Error (Compiler ι) α

variable {ι : Type} [Lookahead ι] {α : Type}

namespace Compiler

/-- The compiler before the first character of a pattern. -/
def start (text : String) : Compiler ι := { text, iterator := Lookahead.ofChars text.toList }

/-- The characters that were taken, counted off from the start of the pattern. -/
def read (compiler : Compiler ι) : List Char := compiler.text.toList.take compiler.consumed

/-- The characters to come. -/
def rest (compiler : Compiler ι) : List Char := Lookahead.remaining compiler.iterator

end Compiler

/-! ### Single operations -/

/-- Fails at the place to which the compiler has come. -/
def fail (fault : Fault) : Work ι α := do
  let compiler ← get
  throw (.misread fault { read := compiler.read, rest := compiler.rest })

/-- Fails at the end of the pattern, of which nothing is left to show. -/
def failAtEnd (expected : Option Char) : Work ι α := do
  let compiler ← get
  throw (.misread (.unexpectedEnd expected) { read := compiler.read, rest := [] })

/-- The next character, if there is one. -/
def look : Work ι (Option Char) :=
  modifyGet fun compiler =>
    let (found, iterator) := Lookahead.peek compiler.iterator
    (found, { compiler with iterator })

/-- Takes the next character and counts it. -/
def advance : Work ι Unit :=
  modify fun compiler =>
    { compiler with
      iterator := (Lookahead.next compiler.iterator).2
      consumed := compiler.consumed + 1 }

/-- Whether there are characters to come. -/
def hasNext : Work ι Bool := do
  return (← look).isSome

/-- The next character, which there has to be. -/
def peek : Work ι Char := do
  match ← look with
  | some c => return c
  | none => failAtEnd none

/-- Takes the next character, which has to be the one given. -/
def expect (wanted : Char) : Work ι Char := do
  match ← look with
  | some c =>
    if c = wanted then
      advance
      return wanted
    else fail (.expected wanted)
  | none => failAtEnd (some wanted)

/-- Takes the next character, which there has to be. -/
def next : Work ι Char := do
  let c ← peek
  expect c

/-! ### Steps -/

/-- A step of someone who reads a pattern. -/
inductive Step where
  | peek
  | next
  | expect (wanted : Char)
  | hasNext
  deriving DecidableEq

/-- What a step tells when it succeeds. -/
inductive Answer where
  /-- The next character, which is still to come. -/
  | seen (c : Char)
  /-- The character that was next, past which the step has moved. -/
  | taken (c : Char)
  /-- Whether there are characters to come. -/
  | more (found : Bool)
  deriving DecidableEq

/-- Makes one step. -/
def Step.work : Step → Work ι Answer
  | .peek => return .seen (← Pattern.peek)
  | .next => return .taken (← Pattern.next)
  | .expect wanted => return .taken (← Pattern.expect wanted)
  | .hasNext => return .more (← Pattern.hasNext)

/-- What a compiler's work comes to, and the compiler behind it. -/
def Compiler.run (compiler : Compiler ι) (work : Work ι α) : Except Error α × Compiler ι :=
  match EStateM.run work compiler with
  | .ok a after => (.ok a, after)
  | .error error after => (.error error, after)

/-- Makes steps one after the other, also behind such as fail. -/
def Compiler.performAll (compiler : Compiler ι) :
    List Step → List (Except Error Answer) × Compiler ι
  | [] => ([], compiler)
  | step :: steps =>
    let (answer, after) := compiler.run step.work
    let (answers, last) := after.performAll steps
    (answer :: answers, last)

end Automata.Pattern
