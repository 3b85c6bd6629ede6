import Automata.Proofs.Dfa.DeadState
import Automata.Proofs.Pattern.Assembly
import Automata.Proofs.Pattern.Productions

/-!
# Compiled patterns have no useless states

The smallest automata have none, and the combinations keep it so. Therefore the conversion of a
compiled pattern has one trap at most, its dead state.
-/

namespace Automata.Pattern

variable {pattern : Pattern} {number next : Nat} {nfa : Nfa}

/-- However a pattern is put together, each of its states is of use. -/
theorem Assembled.trim (h : Assembled pattern number next nfa) : nfa.Trim := by
  induction h with
  | blank view =>
    exact Nfa.trim_of_single_state (congrArg Nfa.View.names view)
      (congrArg Nfa.View.start view) (congrArg Nfa.View.finals view)
  | @literal c number nfa view =>
    have hedge : stateName (number + 1) ∈ nfa.targets (stateName number) (.ofChar c) := by
      have htargets : nfa.targets = _ := congrArg Nfa.View.targets view
      simp [htargets]
    exact Nfa.trim_of_single_edge (congrArg Nfa.View.names view)
      (congrArg Nfa.View.start view) (congrArg Nfa.View.finals view) hedge
  | append _ _ sequence ihLeft ihRight => exact sequence.trim ihLeft ihRight
  | choice _ _ alternation ihLower ihUpper => exact alternation.trim ihLower ihUpper
  | star _ repetition ih => exact repetition.trim ih

/-- Every state of a compiled pattern is reached from the start and leads to a final state. In
its conversion every state but the dead one leads to a final state over a word on the alphabet,
and the dead one does not: what was read can be completed to an input that is accepted just when
it does not lead to the dead state. -/
theorem compile_no_useless_states {text : String} (h : compile text = .ok nfa) :
    (∃ start, nfa.start = some start ∧ ∀ name ∈ nfa.names, (∃ word, nfa.Path start word name) ∧
      ∃ final ∈ nfa.finals, ∃ word, nfa.Path name word final) ∧
    ∀ limit dfa, nfa.toDfaWithin limit = .ok dfa →
      (∀ name ∈ dfa.names, name ≠ "" ↔ ∃ word, nfa.Over word ∧
        ∃ last, dfa.follow name word = some last ∧ dfa.isFinal last = true) ∧
      ∀ word, nfa.Over word → ∃ name ∈ dfa.names, dfa.stateAfter word = some name ∧
        (name ≠ "" ↔
          ∃ more, nfa.Over more ∧ dfa.accepts (String.ofList (word ++ more)) = .ok true) ∧
        ∀ more, dfa.accepts (String.ofList (word ++ more)) = .ok true → name ≠ "" := by
  obtain ⟨pattern, built, hbuilt, rfl⟩ := exists_build_of_compile h
  have htrim := (assembled_of_build hbuilt).trim
  obtain ⟨built', hbuilt', hrepresents⟩ := exists_build pattern 0
  obtain rfl : built = built' := Except.ok.inj (hbuilt.symm.trans hbuilt')
  have hnfa := hrepresents.wellFormed
  have hflags : built.nfa.flags.substringFinality = false := by rw [hrepresents.flags_eq]
  constructor
  · obtain ⟨start, _, hstart⟩ := htrim.exists_start
    refine ⟨start, hstart, fun name hname => ⟨?_, htrim.productive name hname⟩⟩
    obtain ⟨word, other, hother, hpath⟩ := htrim.accessible name hname
    obtain rfl : start = other := Option.some.inj (hstart.symm.trans hother)
    exact ⟨word, hpath⟩
  · intro limit dfa hok
    have hdfa := hnfa.determinizes hok
    refine ⟨fun name hname => hdfa.ne_empty_iff_exists_follow hnfa htrim hflags hname, ?_⟩
    intro word hword
    obtain ⟨name, hname, hafter, _⟩ := hdfa.stateAfter word hword
    obtain ⟨hcompleted, hdead⟩ := hdfa.accepts_append hnfa htrim hflags hword hafter
    exact ⟨name, hname, hafter, ⟨hcompleted, fun ⟨more, _, hrun⟩ => hdead more hrun⟩, hdead⟩

/-- After a `b` nothing more can be accepted, so the conversion has a dead state. -/
theorem compile_no_useless_states_of_choice :
    ∃ nfa dfa, compile "a*|(b)" = .ok nfa ∧ nfa.toDfaWithin 10 = .ok dfa ∧
      (∃ start, nfa.start = some start ∧ ∀ name ∈ nfa.names, ∃ word, nfa.Path start word name) ∧
      "" ∈ dfa.names ∧ ¬ ∃ word, nfa.Over word ∧
        ∃ last, dfa.follow "" word = some last ∧ dfa.isFinal last = true := by
  obtain ⟨nfa, hnfa, dfa, hdfa, hmem⟩ : ∃ nfa, compile "a*|(b)" = .ok nfa ∧
      ∃ dfa, nfa.toDfaWithin 10 = .ok dfa ∧ "" ∈ dfa.names :=
    ⟨_, compile_of_parse rfl rfl, _, rfl, by decide⟩
  obtain ⟨⟨start, hstart, huseful⟩, hconverted⟩ := compile_no_useless_states hnfa
  obtain ⟨hdead, _⟩ := hconverted 10 dfa hdfa
  refine ⟨nfa, dfa, hnfa, hdfa, ⟨start, hstart, fun name hname => (huseful name hname).1⟩, hmem, ?_⟩
  exact fun hfinal => (hdead "" hmem).mpr hfinal rfl

end Automata.Pattern
