import Automata.Proofs.Nfa.Run
import Automata.Proofs.Pattern.Productions

/-!
# Compiled patterns accept their words

The automaton of a pattern reads the words of the pattern, and its runs stop at the first
mark. A character that no word of the pattern has makes a run reject. So the automaton says
of every input whether what stands before the first mark is a word of the pattern.
-/

namespace Automata.Pattern

/-- On a text that the grammar derives, compiling builds the automaton of the tree. -/
theorem Derives.exists_compile {text : String} {pattern : Pattern}
    (h : Derives .choice maxNesting text.toList pattern) :
    ∃ built, compile text = .ok built.nfa ∧ Represents pattern 0 built := by
  rcases compileWith_cases Buffered text with
    ⟨pattern', built, hok, hparse, hbuild⟩ | ⟨fault, place, _, _, hparse⟩
  · obtain rfl : pattern = pattern' := Except.ok.inj (h.parse_eq.symm.trans hparse)
    exact ⟨built, hok, represents_of_build hbuild⟩
  · exact absurd (h.parse_eq.symm.trans hparse) (by simp)

/-- The automaton of a pattern gives a verdict on every input, according to what stands
before the first mark. -/
theorem Represents.accepts_eq {pattern : Pattern} {number : Nat} {built : Construction}
    (h : Represents pattern number built) (input : String) :
    ∃ verdict, built.nfa.accepts input = .ok verdict ∧
      (verdict = true ↔ Denotes pattern (beforeMark input.toList)) := by
  obtain ⟨start, hstart⟩ := h.exists_start
  obtain ⟨verdict, haccepts, hverdict⟩ := h.wellFormed.accepts_eq hstart input
  have hshortcut : built.nfa.flags.epsilonShortcut = true := by rw [h.flags_eq]
  have hmark := h.wellFormed.mark_not_mem
  have hwords : ∀ word, built.nfa.Reads word ↔ Denotes pattern word := by
    intro word
    exact iff_of_eq (congrArg (word ∈ ·) h.language_eq)
  refine ⟨verdict, haccepts, ?_⟩
  rw [hverdict, ← Nfa.reads_iff, hwords, judged_iff hmark hshortcut]
  constructor
  · rintro ⟨hreadable, hdenotes⟩
    exact hreadable ▸ hdenotes
  · intro hdenotes
    obtain ⟨_, _, _, _, hpath⟩ := (hwords _).mpr hdenotes
    have hreadable := readable_eq_beforeMark hmark (h.wellFormed.mem_alphabet_of_path hpath)
    exact ⟨hreadable, hreadable ▸ hdenotes⟩

/-- Every text that the grammar derives compiles, and the automaton accepts an input when
what stands before its first mark is a word of the pattern, and rejects it otherwise. -/
theorem compile_accepts_words {text : String} {pattern : Pattern}
    (h : Derives .choice maxNesting text.toList pattern) :
    ∃ nfa, compile text = .ok nfa ∧ ∀ input : String, ∃ verdict,
      nfa.accepts input = .ok verdict ∧
        (verdict = true ↔ Denotes pattern (beforeMark input.toList)) := by
  obtain ⟨built, hcompile, hbuilt⟩ := h.exists_compile
  exact ⟨built.nfa, hcompile, hbuilt.accepts_eq⟩

/-- A pattern with a star and a group in a choice, taken apart and compiled. -/
theorem compile_accepts_words_of_choice :
    Derives .choice maxNesting "a*|(b)".toList (.choice (.star (.literal 'a')) (.literal 'b')) ∧
      ∃ nfa, compile "a*|(b)" = .ok nfa ∧ ∀ input : String, ∃ verdict,
        nfa.accepts input = .ok verdict ∧ (verdict = true ↔
          Denotes (.choice (.star (.literal 'a')) (.literal 'b')) (beforeMark input.toList)) := by
  have ha : Derives .factor maxNesting (['a'] ++ ['*']) (.star (.literal 'a')) :=
    .star (.literal (by decide))
  have hb : Derives .factor maxNesting ('(' :: ['b'] ++ [')']) (.literal 'b') :=
    .group (.ofTerm (.ofFactor (.literal (by decide))))
  have hderives : Derives .choice maxNesting "a*|(b)".toList
      (.choice (.star (.literal 'a')) (.literal 'b')) :=
    .bar (.ofTerm (.ofFactor ha)) (.ofFactor hb)
  exact ⟨hderives, compile_accepts_words hderives⟩

end Automata.Pattern
