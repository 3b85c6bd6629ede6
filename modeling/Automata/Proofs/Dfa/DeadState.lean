import Automata.Proofs.Dfa.Determinized
import Automata.Proofs.Nfa.Trim

/-!
# The dead state of a conversion

In an automaton without useless states, whatever is reached leads on to a final state. Converted,
the only state from which no word leads to a final one is therefore the state that stands for
nothing reached, the one with the empty name. It is entered just when what was read cannot be
completed to an input that is accepted.
-/

namespace Automata.Nfa

variable {nfa : Nfa} {dfa : Dfa} {name : String} {word more : List Char}

/-- Where every state is of use, what is reached leads on to a final state, over a word on the
alphabet. -/
theorem Trim.exists_reached_iff (h : nfa.Trim) (hnfa : nfa.WellFormed) :
    (∃ name, name ∈ nfa.reached word) ↔
      ∃ more, nfa.Over more ∧ ∃ final ∈ nfa.finals, final ∈ nfa.reached (word ++ more) := by
  constructor
  · rintro ⟨name, hname⟩
    obtain ⟨final, hfinal, more, hpath⟩ := h.productive name (hnfa.reached_mem hname)
    obtain ⟨start, hstart, hbefore⟩ := hname
    exact ⟨more, hnfa.mem_alphabet_of_path hpath, final, hfinal, start, hstart,
      hbefore.append hpath⟩
  · rintro ⟨more, _, final, _, hreached⟩
    exact exists_reached_of_append hreached

/-- The state after a word is not the dead state just when the word leads on to a final state. -/
theorem Determinizes.ne_empty_iff (h : nfa.Determinizes dfa) (hnfa : nfa.WellFormed)
    (htrim : nfa.Trim) (hword : nfa.Over word) (hafter : dfa.stateAfter word = some name) :
    name ≠ "" ↔
      ∃ more, nfa.Over more ∧ ∃ final ∈ nfa.finals, final ∈ nfa.reached (word ++ more) := by
  have hempty := h.reached_eq_empty_iff hnfa hword
  rw [hafter, Option.some.injEq] at hempty
  rw [← htrim.exists_reached_iff hnfa, ne_eq, hempty]
  exact Set.nonempty_iff_ne_empty.symm

/-- Following a word from the state after another leads to a final state just when both words
together lead to one. -/
theorem Determinizes.follow_isFinal_iff (h : nfa.Determinizes dfa)
    (hflags : nfa.flags.substringFinality = false) (hword : nfa.Over word) (hmore : nfa.Over more)
    (hafter : dfa.stateAfter word = some name) :
    (∃ last, dfa.follow name more = some last ∧ dfa.isFinal last = true) ↔
      ∃ final ∈ nfa.finals, final ∈ nfa.reached (word ++ more) := by
  have hover : nfa.Over (word ++ more) := by
    intro c hc
    exact (List.mem_append.mp hc).elim (hword c) (hmore c)
  obtain ⟨last, _, hlast, _⟩ := h.stateAfter _ hover
  have hfinal := h.isFinal_iff _ last hover hlast
  rw [hflags, if_neg Bool.false_ne_true] at hfinal
  rw [Dfa.stateAfter_append, hafter, Option.bind_some] at hlast
  simp [hlast, hfinal]

/-- From each state but the dead one some word leads to a final state, and from that one none
does. -/
theorem Determinizes.ne_empty_iff_exists_follow (h : nfa.Determinizes dfa) (hnfa : nfa.WellFormed)
    (htrim : nfa.Trim) (hflags : nfa.flags.substringFinality = false) (hname : name ∈ dfa.names) :
    name ≠ "" ↔ ∃ more, nfa.Over more ∧
      ∃ last, dfa.follow name more = some last ∧ dfa.isFinal last = true := by
  obtain ⟨word, hword, hafter⟩ := h.exists_word name hname
  rw [h.ne_empty_iff hnfa htrim hword hafter]
  refine exists_congr fun more => and_congr_right fun hmore => ?_
  exact (h.follow_isFinal_iff hflags hword hmore hafter).symm

/-- After a word on the alphabet, an input is accepted when the rest is judged and what is read
of it leads on to a final state. -/
theorem WellFormed.accepts_append_iff (h : nfa.WellFormed) {start : String}
    (hstart : nfa.start = some start) (hword : nfa.Over word) :
    nfa.accepts (String.ofList (word ++ more)) = .ok true ↔ Judged nfa.alphabet nfa.flags more ∧
      ∃ final ∈ nfa.finals, final ∈ nfa.reached (word ++ readable nfa.alphabet more) := by
  obtain ⟨verdict, hrun, hverdict⟩ := h.accepts_eq hstart (String.ofList (word ++ more))
  rw [String.toList_ofList, judged_append hword, readable_append hword] at hverdict
  rw [hrun, Except.ok.injEq, hverdict]

/-- The dead state is entered when nothing that follows can make the input accepted, and any
other state when something on the alphabet can. -/
theorem Determinizes.accepts_append (h : nfa.Determinizes dfa) (hnfa : nfa.WellFormed)
    (htrim : nfa.Trim) (hflags : nfa.flags.substringFinality = false) (hword : nfa.Over word)
    (hafter : dfa.stateAfter word = some name) :
    (name ≠ "" → ∃ more, nfa.Over more ∧ dfa.accepts (String.ofList (word ++ more)) = .ok true) ∧
      ∀ more, dfa.accepts (String.ofList (word ++ more)) = .ok true → name ≠ "" := by
  obtain ⟨start, _, hstart⟩ := htrim.exists_start
  have haccepts : ∀ input, dfa.accepts input = nfa.accepts input := by
    intro input
    obtain ⟨verdict, hdfa, hrun⟩ := h.accepts_eq hnfa hstart hflags input
    exact hdfa.trans hrun.symm
  simp only [haccepts, hnfa.accepts_append_iff hstart hword, h.ne_empty_iff hnfa htrim hword hafter]
  constructor
  · rintro ⟨more, hmore, hfinal⟩
    refine ⟨more, hmore, judged_of_mem hmore, ?_⟩
    rw [readable_eq_self hmore]
    exact hfinal
  · rintro more ⟨_, hfinal⟩
    exact ⟨readable nfa.alphabet more, fun _ => mem_of_mem_readable, hfinal⟩

end Automata.Nfa
