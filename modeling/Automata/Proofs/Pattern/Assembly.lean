import Automata.Proofs.Pattern.Build

/-!
# How automata of patterns are put together

Building follows the tree of a pattern, and each node of the tree makes one of the smallest
automata or one of the three combinations. Stated as a relation between the pattern and its
automaton, this allows to argue by induction on how an automaton was put together, without
another look at how it was built.
-/

namespace Automata.Pattern

variable {pattern : Pattern} {number next : Nat} {nfa : Nfa} {built : Construction}

/-- The automaton is put together as the pattern says, with states from the first number up to
the second. -/
inductive Assembled : Pattern → Nat → Nat → Nfa → Prop where
  | blank {number : Nat} {nfa : Nfa}
      (view : nfa.view = {
        names := [stateName number]
        start := some (stateName number)
        finals := [stateName number]
        flags := {}
        targets := fun _ _ => [] }) :
      Assembled .blank number (number + 1) nfa
  | literal {c : Char} {number : Nat} {nfa : Nfa}
      (view : nfa.view = {
        names := [stateName (number + 1), stateName number]
        start := some (stateName number)
        finals := [stateName (number + 1)]
        flags := {}
        targets := fun source label =>
          if source = stateName number ∧ label = .ofChar c then [stateName (number + 1)]
          else [] }) :
      Assembled (.literal c) number (number + 2) nfa
  | append {left right : Pattern} {number middle next : Nat} {part part' nfa : Nfa}
      (first : Assembled left number middle part) (second : Assembled right middle next part')
      (sequence : Nfa.Sequence part part' nfa) :
      Assembled (.append left right) number next nfa
  | choice {lower upper : Pattern} {number middle next : Nat} {part part' nfa : Nfa}
      (first : Assembled lower number middle part) (second : Assembled upper middle next part')
      (alternation : Nfa.Alternation part part' (stateName next) nfa) :
      Assembled (.choice lower upper) number (next + 1) nfa
  | star {inner : Pattern} {number next : Nat} {part nfa : Nfa}
      (first : Assembled inner number next part)
      (repetition : Nfa.Repetition part (stateName next) nfa) :
      Assembled (.star inner) number (next + 1) nfa

/-- What is built for a pattern is put together as the pattern says. -/
theorem assembled_of_build (h : pattern.build number = .ok built) :
    Assembled pattern number built.next built.nfa := by
  induction pattern generalizing number built with
  | blank =>
    obtain ⟨nfa, hnfa, _, hview⟩ := Nfa.exists_ofBlank (stateName_ne_empty number)
    simp only [build, hnfa, bind, Except.bind, pure, Except.pure, Except.ok.injEq] at h
    subst h
    exact .blank hview
  | literal c =>
    have hne : stateName number ≠ stateName (number + 1) := by
      intro hsame
      have := stateName_injective hsame
      omega
    obtain ⟨nfa, hnfa, _, hview⟩ := Nfa.exists_ofSymbol (stateName_ne_empty number)
      (stateName_ne_empty (number + 1)) hne c
    simp only [build, hnfa, bind, Except.bind, pure, Except.pure, Except.ok.injEq] at h
    subst h
    exact .literal hview
  | append left right ihLeft ihRight =>
    obtain ⟨first, hfirst, hleft⟩ := exists_build left number
    obtain ⟨second, hsecond, hright⟩ := exists_build right first.next
    obtain ⟨entry, hentry⟩ := hleft.exists_start
    obtain ⟨entry', hentry'⟩ := hright.exists_start
    obtain ⟨nfa, hnfa, _, _, hsequence⟩ :=
      Nfa.exists_append hleft.wellFormed hright.wellFormed hentry hentry'
    simp only [build, hfirst, hsecond, hnfa, bind, Except.bind,
      pure, Except.pure, Except.ok.injEq] at h
    subst h
    have hfirst' := ihLeft hfirst
    have hsecond' := ihRight hsecond
    exact .append hfirst' hsecond' hsequence
  | choice lower upper ihLower ihUpper =>
    obtain ⟨first, hfirst, hlower⟩ := exists_build lower number
    obtain ⟨second, hsecond, hupper⟩ := exists_build upper first.next
    obtain ⟨entry, hentry⟩ := hlower.exists_start
    obtain ⟨entry', hentry'⟩ := hupper.exists_start
    obtain ⟨nfa, hnfa, _, _, halternation⟩ :=
      Nfa.exists_alternate hlower.wellFormed hupper.wellFormed hentry hentry'
        (stateName_ne_empty second.next)
    simp only [build, hfirst, hsecond, hnfa, bind, Except.bind, pure, Except.pure, Except.ok.injEq] at h
    subst h
    exact .choice (ihLower hfirst) (ihUpper hsecond) halternation
  | star inner ih =>
    obtain ⟨first, hfirst, hinner⟩ := exists_build inner number
    obtain ⟨entry, hentry⟩ := hinner.exists_start
    obtain ⟨nfa, hnfa, _, _, hrepetition⟩ :=
      Nfa.exists_star hinner.wellFormed hentry (stateName_ne_empty first.next)
    simp only [build, hfirst, hnfa, bind, Except.bind, pure, Except.pure, Except.ok.injEq] at h
    subst h
    exact .star (ih hfirst) hrepetition

end Automata.Pattern
