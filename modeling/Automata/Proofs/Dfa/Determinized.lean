import Automata.Proofs.Dfa.OfNfa

/-!
# What determinized automata look like and answer

A determinized automaton has a move from every state on every symbol, so its runs never
fail, and where final subsets are those with a final member it gives the verdicts of the
automaton that it was made from. Its states stand for different sets of states. The one
with the empty name, if there is one, stands for none: it is not final and never left.
-/

namespace Automata.Nfa

variable {nfa : Nfa} {dfa : Dfa} {limit : Nat} {name start : String} {symbol : Char}
variable {word word' : List Char}

/-- Words that reach the same states lead to the same state. -/
theorem Determinizes.stateAfter_eq_iff (h : nfa.Determinizes dfa) (hword : nfa.Over word)
    (hword' : nfa.Over word') :
    dfa.stateAfter word = dfa.stateAfter word' ↔ nfa.reached word = nfa.reached word' := by
  constructor
  · exact h.separates word word' hword hword'
  · intro hsame
    obtain ⟨name, _, hafter, hjoins⟩ := h.stateAfter word hword
    obtain ⟨name', _, hafter', hjoins'⟩ := h.stateAfter word' hword'
    rw [hafter, hafter', hjoins.unique (hsame ▸ hjoins')]

/-- From a state after a word, a move on each symbol leads to the state after one symbol
more. -/
theorem Determinizes.exists_target (h : nfa.Determinizes dfa) (hword : nfa.Over word)
    (hname : dfa.stateAfter word = some name) (hsymbol : symbol ∈ nfa.alphabet) :
    ∃ next, dfa.target name symbol = some next ∧ dfa.stateAfter (word ++ [symbol]) = some next := by
  obtain ⟨next, _, hnext, _⟩ := h.stateAfter _ (over_concat.mpr ⟨hword, hsymbol⟩)
  have hmove := hnext
  rw [Dfa.stateAfter_concat, hname, Option.bind_some] at hmove
  exact ⟨next, hmove, hnext⟩

/-- Every state has a move on every symbol. -/
theorem Determinizes.isTotal (h : nfa.Determinizes dfa) : dfa.isTotal = true := by
  refine (Dfa.isTotal_iff h.names_nodup).mpr fun name hname symbol hsymbol => ?_
  obtain ⟨word, hword, hafter⟩ := h.exists_word name hname
  obtain ⟨next, hmove, _⟩ := h.exists_target hword hafter (h.alphabet_eq ▸ hsymbol)
  exact ⟨next, hmove⟩

/-- The state with the empty name stands for no states at all. -/
theorem Determinizes.reached_eq_empty_iff (h : nfa.Determinizes dfa) (hnfa : nfa.WellFormed)
    (hword : nfa.Over word) : dfa.stateAfter word = some "" ↔ nfa.reached word = ∅ := by
  obtain ⟨name, _, hafter, hjoins⟩ := h.stateAfter word hword
  have hnames : ∀ name ∈ nfa.reached word, name ≠ "" :=
    fun name hname => hnfa.names_ne_empty name (hnfa.reached_mem hname)
  rw [hafter, Option.some.injEq]
  exact hjoins.eq_empty_iff hnames

/-- The empty name is that of the empty set, so it is there when some word reaches nothing. -/
theorem Determinizes.empty_mem_names_iff (h : nfa.Determinizes dfa) (hnfa : nfa.WellFormed) :
    "" ∈ dfa.names ↔ ∃ word, nfa.Over word ∧ nfa.reached word = ∅ := by
  constructor
  · intro hmem
    obtain ⟨word, hword, hafter⟩ := h.exists_word "" hmem
    exact ⟨word, hword, (h.reached_eq_empty_iff hnfa hword).mp hafter⟩
  · rintro ⟨word, hword, hnone⟩
    obtain ⟨name, hname, hafter, _⟩ := h.stateAfter word hword
    rw [(h.reached_eq_empty_iff hnfa hword).mpr hnone, Option.some.injEq] at hafter
    exact hafter ▸ hname

/-- The state with the empty name is not final, whichever states are. -/
theorem Determinizes.isFinal_empty (h : nfa.Determinizes dfa) (hnfa : nfa.WellFormed)
    (hmem : "" ∈ dfa.names) : dfa.isFinal "" = false := by
  obtain ⟨word, hword, hafter⟩ := h.exists_word "" hmem
  have hnone := (h.reached_eq_empty_iff hnfa hword).mp hafter
  rw [← Bool.not_eq_true, h.isFinal_iff word "" hword hafter]
  split
  · rintro ⟨final, hfinal, hoccurs⟩
    rw [String.toList_empty, occursIn_iff, List.infix_nil,
      String.toList_eq_nil_iff] at hoccurs
    exact hnfa.names_ne_empty final (hnfa.finals_mem final hfinal) hoccurs
  · simp [hnone]

/-- The state with the empty name is never left. -/
theorem Determinizes.target_empty (h : nfa.Determinizes dfa) (hnfa : nfa.WellFormed)
    (hmem : "" ∈ dfa.names) (hsymbol : symbol ∈ nfa.alphabet) :
    dfa.target "" symbol = some "" := by
  obtain ⟨word, hword, hafter⟩ := h.exists_word "" hmem
  have hnone := (h.reached_eq_empty_iff hnfa hword).mp hafter
  have hstill : nfa.reached (word ++ [symbol]) = ∅ := by
    refine Set.eq_empty_of_forall_notMem fun name hname => ?_
    obtain ⟨state, hstate⟩ := exists_reached_of_append hname
    simp [hnone] at hstate
  obtain ⟨next, hmove, hnext⟩ := h.exists_target hword hafter hsymbol
  have hover : nfa.Over (word ++ [symbol]) := over_concat.mpr ⟨hword, hsymbol⟩
  rw [hmove, ← hnext, (h.reached_eq_empty_iff hnfa hover).mpr hstill]

/-- Where final subsets are those with a final member, a determinized automaton answers
every input as the automaton that it was made from, with a verdict. -/
theorem Determinizes.accepts_eq (h : nfa.Determinizes dfa) (hnfa : nfa.WellFormed)
    (hstart : nfa.start = some start) (hflags : nfa.flags.substringFinality = false)
    (input : String) :
    ∃ verdict, dfa.accepts input = .ok verdict ∧ nfa.accepts input = .ok verdict := by
  have hover : nfa.Over (readable nfa.alphabet input.toList) := fun _ => mem_of_mem_readable
  obtain ⟨name, _, hafter, _⟩ := h.stateAfter _ hover
  have hfinal := h.isFinal_iff _ name hover hafter
  rw [hflags, if_neg Bool.false_ne_true] at hfinal
  obtain ⟨verdict, hdfa, hverdict⟩ := Dfa.accepts_eq (h.alphabet_eq ▸ hafter)
  obtain ⟨verdict', hrun, hverdict'⟩ := hnfa.accepts_eq hstart input
  rw [h.alphabet_eq, h.flags_eq, hfinal, ← hverdict', ← Bool.eq_iff_iff] at hverdict
  exact ⟨verdict, hdfa, hverdict ▸ hrun⟩

/-- A conversion that succeeds answers every input like the automaton that was converted, where
final subsets are those with a final member. -/
theorem WellFormed.accepts_converted (h : nfa.WellFormed)
    (hflags : nfa.flags.substringFinality = false) (hok : nfa.toDfaWithin limit = .ok dfa)
    (input : String) :
    ∃ verdict, dfa.accepts input = .ok verdict ∧ nfa.accepts input = .ok verdict := by
  obtain ⟨subsets, hsubsets, _, _⟩ := toDfaWithin_eq_ok_iff_layOut.mp hok
  obtain ⟨start, hstart⟩ := exists_start_of_subsets hsubsets
  exact (h.determinizes hok).accepts_eq h hstart hflags input

/-! ### Conversions -/

/-- A conversion that succeeds keeps the verdict on every input, if final subsets are those
with a final member. -/
theorem accepts_of_toDfaWithin (h : nfa.Built) (hflags : nfa.flags.substringFinality = false)
    (hok : nfa.toDfaWithin limit = .ok dfa) (input : String) :
    dfa.accepts input = nfa.accepts input ∧ ∃ verdict, dfa.accepts input = .ok verdict := by
  obtain ⟨subsets, hsubsets, _, _⟩ := toDfaWithin_eq_ok_iff_layOut.mp hok
  obtain ⟨start, hstart⟩ := exists_start_of_subsets hsubsets
  have hdeterminizes := h.wellFormed.determinizes hok
  obtain ⟨verdict, hdfa, hnfa⟩ := hdeterminizes.accepts_eq h.wellFormed hstart hflags input
  exact ⟨hdfa.trans hnfa.symm, verdict, hdfa⟩

/-- The three sets of the cycle are enough to answer every input. -/
theorem accepts_of_toDfaWithin_cycle :
    cycle.Built ∧ cycle.flags.substringFinality = false ∧ ∃ dfa, cycle.toDfaWithin 3 = .ok dfa ∧
      ∀ input : String, dfa.accepts input = cycle.accepts input ∧
        ∃ verdict, dfa.accepts input = .ok verdict := by
  have hbuilt : cycle.Built := ⟨_, _, rfl⟩
  have hflags : cycle.flags.substringFinality = false := by decide
  obtain ⟨dfa, hok⟩ : ∃ dfa, cycle.toDfaWithin 3 = .ok dfa := ⟨_, rfl⟩
  exact ⟨hbuilt, hflags, dfa, hok, accepts_of_toDfaWithin hbuilt hflags hok⟩

/-- A conversion that succeeds keeps the alphabet and leaves no move out. Its state after a
word on the alphabet is named after the states that the word reaches, so that each state is
the one of some word, and words lead to the same state when they reach the same states. The
state with the empty name is there when some word reaches no state, and it is a trap. -/
theorem shape_of_toDfaWithin (h : nfa.Built) (hok : nfa.toDfaWithin limit = .ok dfa) :
    dfa.alphabet = nfa.alphabet ∧ dfa.isTotal = true ∧ dfa.names.Nodup ∧
      (∀ word, nfa.Over word → ∃ name ∈ dfa.names,
        dfa.stateAfter word = some name ∧ Joins (nfa.reached word) name) ∧
      (∀ name ∈ dfa.names, ∃ word, nfa.Over word ∧ dfa.stateAfter word = some name) ∧
      (∀ word word', nfa.Over word → nfa.Over word' →
        (dfa.stateAfter word = dfa.stateAfter word' ↔ nfa.reached word = nfa.reached word')) ∧
      ("" ∈ dfa.names ↔ ∃ word, nfa.Over word ∧ nfa.reached word = ∅) ∧
      ("" ∈ dfa.names →
        dfa.isFinal "" = false ∧ ∀ symbol ∈ dfa.alphabet, dfa.target "" symbol = some "") := by
  have hnfa := h.wellFormed
  have hdfa := hnfa.determinizes hok
  refine ⟨hdfa.alphabet_eq, hdfa.isTotal, hdfa.names_nodup, fun _ => hdfa.stateAfter _,
    hdfa.exists_word, fun _ _ => hdfa.stateAfter_eq_iff, hdfa.empty_mem_names_iff hnfa, ?_⟩
  intro hmem
  refine ⟨hdfa.isFinal_empty hnfa hmem, ?_⟩
  intro symbol hsymbol
  exact hdfa.target_empty hnfa hmem (hdfa.alphabet_eq ▸ hsymbol)

/-- The cycle has words that reach nothing, so its conversion has the trap. -/
theorem shape_of_toDfaWithin_cycle :
    cycle.Built ∧ ∃ dfa, cycle.toDfaWithin 3 = .ok dfa ∧ dfa.alphabet = cycle.alphabet ∧
      dfa.isTotal = true ∧ (∃ word, cycle.Over word ∧ cycle.reached word = ∅) ∧
      dfa.isFinal "" = false ∧ ∀ symbol ∈ dfa.alphabet, dfa.target "" symbol = some "" := by
  have hbuilt : cycle.Built := ⟨_, _, rfl⟩
  obtain ⟨dfa, hok, hmem⟩ : ∃ dfa, cycle.toDfaWithin 3 = .ok dfa ∧ "" ∈ dfa.names :=
    ⟨_, rfl, by decide⟩
  obtain ⟨halphabet, htotal, _, _, _, _, hempty, htrap⟩ := shape_of_toDfaWithin hbuilt hok
  exact ⟨hbuilt, dfa, hok, halphabet, htotal, hempty.mp hmem, htrap hmem⟩

end Automata.Nfa
