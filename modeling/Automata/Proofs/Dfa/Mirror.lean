import Automata.Proofs.Dfa.Run
import Automata.Proofs.Nfa.Run

/-!
# Nondeterministic automata that mirror deterministic ones

A nondeterministic automaton can have just the moves of a deterministic one as its edges.
Then a path leads where the moves lead, so at most one state is reached over a word. Where a
move is missing nothing is reached any more: the deterministic automaton fails on an input
that the other one rejects, and on all other inputs they give one verdict.
-/

namespace Automata

open Nfa

/-- The edges of the nondeterministic automaton are the moves of the deterministic one, and
otherwise they have the same parts. -/
structure Dfa.Mirrors (dfa : Dfa) (nfa : Nfa) : Prop where
  alphabet_eq : nfa.alphabet = dfa.alphabet
  flags_eq : nfa.flags = dfa.flags
  start_eq : nfa.start = dfa.start
  finals_eq : nfa.finals = dfa.finals
  targets_char : ∀ source symbol,
    nfa.targets source (.char symbol) = (dfa.target source symbol).toList
  targets_epsilon : ∀ source, nfa.targets source .epsilon = []

namespace Dfa.Mirrors

variable {dfa : Dfa} {nfa : Nfa} {source target start : String} {word : List Char}

/-- Paths lead where the moves lead. -/
theorem path_iff (h : dfa.Mirrors nfa) :
    nfa.Path source word target ↔ dfa.follow source word = some target := by
  constructor
  · intro hpath
    induction hpath with
    | refl => rfl
    | @epsilon source next _ _ edge _ _ =>
      rw [h.targets_epsilon] at edge
      simp at edge
    | char edge _ ih =>
      rw [h.targets_char, Option.mem_toList] at edge
      rw [follow_cons, edge]
      exact ih
  · intro hfollow
    induction word generalizing source with
    | nil =>
      obtain rfl := Option.some.inj hfollow
      exact .refl source
    | cons symbol word ih =>
      rw [follow_cons] at hfollow
      obtain ⟨next, hmove, hrest⟩ := Option.bind_eq_some_iff.mp hfollow
      refine .char ?_ (ih hrest)
      rw [h.targets_char, hmove]
      simp

/-- The one state that is reached over a word is that to which the moves lead. -/
theorem mem_reached_iff (h : dfa.Mirrors nfa) :
    target ∈ nfa.reached word ↔ dfa.stateAfter word = some target := by
  have hpaths : target ∈ nfa.reached word ↔
      ∃ start, nfa.start = some start ∧ nfa.Path start word target := Iff.rfl
  simp only [hpaths, h.start_eq, h.path_iff, stateAfter, Option.bind_eq_some_iff]

/-- Where the moves over what is read of an input lead on, both automata give the same verdict,
and where one is missing, the deterministic one fails and the other rejects the input. -/
theorem accepts_cases (h : dfa.Mirrors nfa) (hnfa : nfa.WellFormed)
    (hstart : dfa.start = some start) (input : String) :
    (∃ verdict, dfa.accepts input = .ok verdict ∧ nfa.accepts input = .ok verdict) ∨
    ∃ state symbol, dfa.accepts input = .error (.missingTransition state symbol) ∧
      nfa.accepts input = .ok false := by
  obtain ⟨verdict, hrun, hverdict⟩ := hnfa.accepts_eq (h.start_eq.trans hstart) input
  simp only [h.alphabet_eq, h.flags_eq, h.finals_eq, h.mem_reached_iff] at hverdict
  cases hafter : dfa.stateAfter (readable dfa.alphabet input.toList) with
  | some last =>
    left
    obtain ⟨verdict', hrun', hverdict'⟩ := Dfa.accepts_eq hafter
    have hfinal : dfa.isFinal last = true ↔
        ∃ final ∈ dfa.finals, dfa.stateAfter (readable dfa.alphabet input.toList) = some final := by
      simp [isFinal, hafter]
    rw [hfinal, ← hverdict, ← Bool.eq_iff_iff] at hverdict'
    exact ⟨verdict', hrun', hverdict' ▸ hrun⟩
  | none =>
    -- Nothing is reached over what is read, so no final state is.
    right
    obtain ⟨state, symbol, hstuck⟩ := accepts_stuck hstart hafter
    have hrejected : verdict = false := by
      rw [← Bool.not_eq_true, hverdict]
      simp [hafter]
    exact ⟨state, symbol, hstuck, hrejected ▸ hrun⟩

end Dfa.Mirrors

end Automata
