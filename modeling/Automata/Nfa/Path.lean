import Automata.Nfa.Basic

/-!
# Paths and the words that they read

A path leads from state to state along edges, and reads the characters on them in order.
An automaton reads a word when a path that reads it leads from the start to a final state.
A path can be cut wherever its word can.
-/

namespace Automata.Nfa

/-- `Path nfa p word q` says that a path from `p` to `q` reads the word. -/
inductive Path (nfa : Nfa) : String → List Char → String → Prop where
  | refl (state : String) : Path nfa state [] state
  | epsilon {source next target : String} {word : List Char}
      (edge : next ∈ nfa.targets source .epsilon) (rest : Path nfa next word target) :
      Path nfa source word target
  | char {source next target : String} {symbol : Char} {word : List Char}
      (edge : next ∈ nfa.targets source (.char symbol)) (rest : Path nfa next word target) :
      Path nfa source (symbol :: word) target

/-- A word is read by an automaton when a path from the start to a final state reads it. -/
def Reads (nfa : Nfa) (word : List Char) : Prop :=
  ∃ start final, nfa.start = some start ∧ final ∈ nfa.finals ∧ nfa.Path start word final

variable {nfa : Nfa} {source middle target : String} {first second : List Char}

/-- Paths that meet form a path. -/
theorem Path.append (left : nfa.Path source first middle) (right : nfa.Path middle second target) :
    nfa.Path source (first ++ second) target := by
  induction left with
  | refl _ => exact right
  | epsilon edge _ ih => exact .epsilon edge (ih right)
  | char edge _ ih => exact .char edge (ih right)

/-- A path can be cut wherever its word can. -/
theorem Path.exists_of_append (path : nfa.Path source (first ++ second) target) :
    ∃ middle, nfa.Path source first middle ∧ nfa.Path middle second target := by
  generalize hword : first ++ second = word at path
  induction path generalizing first with
  | refl state =>
    obtain ⟨rfl, rfl⟩ := List.append_eq_nil_iff.mp hword
    exact ⟨state, .refl state, .refl state⟩
  | epsilon edge _ ih =>
    obtain ⟨middle, hfirst, hsecond⟩ := ih hword
    exact ⟨middle, .epsilon edge hfirst, hsecond⟩
  | @char source next _ symbol word edge rest ih =>
    cases first with
    | nil =>
      rw [List.nil_append] at hword
      subst hword
      exact ⟨source, .refl source, .char edge rest⟩
    | cons c first =>
      obtain ⟨rfl, htail⟩ := List.cons_eq_cons.mp hword
      obtain ⟨middle, hfirst, hsecond⟩ := ih htail
      exact ⟨middle, .char edge hfirst, hsecond⟩

/-- Paths over a word in two parts are pairs of paths that meet. -/
theorem path_append_iff :
    nfa.Path source (first ++ second) target ↔
      ∃ middle, nfa.Path source first middle ∧ nfa.Path middle second target :=
  ⟨Path.exists_of_append, fun ⟨_, left, right⟩ => left.append right⟩

end Automata.Nfa
