import Automata.Proofs.Dfa.Determinized
import Automata.Proofs.Dfa.Outcome
import Automata.Proofs.Nfa.Order

/-!
# Conversions and the order of additions

A conversion numbers and discovers its subsets in the order of the additions, but it names them
by the sorted names of their members. Automata with the same parts reach the same sets over
words, so their conversions end alike, and on success the state after each word has the same
name. So they too have the same parts.
-/

namespace Automata

/-- The errors are of one kind, whatever they name. -/
inductive Error.SameKind : Error → Error → Prop where
  | unknownState (name name' : String) : SameKind (.unknownState name) (.unknownState name')
  | emptyStateName : SameKind .emptyStateName .emptyStateName
  | noStartState : SameKind .noStartState .noStartState
  | missingTransition (state state' : String) (symbol symbol' : Char) :
      SameKind (.missingTransition state symbol) (.missingTransition state' symbol')
  | subsetLimitExceeded (states states' max max' : Nat) :
      SameKind (.subsetLimitExceeded states max) (.subsetLimitExceeded states' max')
  | ambiguousSubsetName (name name' : String) :
      SameKind (.ambiguousSubsetName name) (.ambiguousSubsetName name')

/-- The automata have the same parts, which may be listed in different orders. -/
structure Dfa.SameParts (dfa other : Dfa) : Prop where
  mem_names : ∀ name, name ∈ dfa.names ↔ name ∈ other.names
  start_eq : dfa.start = other.start
  mem_finals : ∀ name, name ∈ dfa.finals ↔ name ∈ other.finals
  mem_alphabet : ∀ symbol, symbol ∈ dfa.alphabet ↔ symbol ∈ other.alphabet
  target_eq : ∀ name symbol, dfa.target name symbol = other.target name symbol
  flags_eq : dfa.flags = other.flags

namespace Nfa

variable {nfa other : Nfa} {dfa dfa' : Dfa} {limit : Nat} {name next : String} {symbol : Char}
variable {word : List Char}

/-! ### What lies outside a conversion -/

/-- The final states of a conversion are states of it. -/
theorem WellFormed.finals_mem_of_toDfaWithin (h : nfa.WellFormed)
    (hok : nfa.toDfaWithin limit = .ok dfa) :
    ∀ final ∈ dfa.finals, final ∈ dfa.names := by
  obtain ⟨subsets, _, _, rfl⟩ := h.toDfaWithin_eq_ok_iff.mp hok
  intro final hfinal
  rw [(perm_names_dfaOfRows nfa _).mem_iff]
  obtain ⟨row, hrow, rfl⟩ := List.mem_map.mp hfinal
  exact List.mem_map_of_mem (List.mem_of_mem_filter hrow)

/-- A conversion has moves between its states on its symbols only. -/
theorem WellFormed.mem_of_target_of_toDfaWithin (h : nfa.WellFormed)
    (hok : nfa.toDfaWithin limit = .ok dfa) (hmove : dfa.target name symbol = some next) :
    name ∈ dfa.names ∧ symbol ∈ nfa.alphabet := by
  obtain ⟨subsets, _, _, rfl⟩ := h.toDfaWithin_eq_ok_iff.mp hok
  obtain ⟨state, hstate, htarget⟩ := Option.bind_eq_some_iff.mp hmove
  have hmem := List.mem_of_find?_eq_some hstate
  have hname : state.name = name := by
    simpa using List.find?_some hstate
  refine ⟨hname ▸ List.mem_map_of_mem hmem, ?_⟩
  obtain ⟨row, _, rfl⟩ := List.mem_map.mp hmem
  obtain ⟨before, after, hzip, _⟩ := List.lookup_eq_some_iff.mp htarget
  have hpair : (symbol, next) ∈ nfa.alphabet.zip row.targets := by
    have hsplit : nfa.alphabet.zip row.targets = before ++ (symbol, next) :: after := hzip
    simp [hsplit]
  exact (List.of_mem_zip hpair).1

/-! ### Converted automata -/

namespace SameParts

section Converted

variable (h : nfa.SameParts other) (hnfa : nfa.WellFormed) (hother : other.WellFormed)
  (hok : nfa.toDfaWithin limit = .ok dfa) (hok' : other.toDfaWithin limit = .ok dfa')

include h hnfa hother hok hok'

/-- The state after each word has the same name. -/
theorem stateAfter_eq (hword : nfa.Over word) : dfa.stateAfter word = dfa'.stateAfter word := by
  have hword' : other.Over word := (h.over_iff hnfa hother).mp hword
  obtain ⟨name, _, hafter, hjoins⟩ := (hnfa.determinizes hok).stateAfter word hword
  obtain ⟨name', _, hafter', hjoins'⟩ := (hother.determinizes hok').stateAfter word hword'
  rw [h.reached_eq] at hjoins
  rw [hafter, hafter', hjoins.unique hjoins']

/-- Each state of one conversion is the state of the other after some word. -/
theorem exists_word (hname : name ∈ dfa.names) :
    ∃ word, nfa.Over word ∧ other.Over word ∧ dfa.stateAfter word = some name ∧
      dfa'.stateAfter word = some name := by
  obtain ⟨word, hword, hafter⟩ := (hnfa.determinizes hok).exists_word name hname
  refine ⟨word, hword, (h.over_iff hnfa hother).mp hword, hafter, ?_⟩
  rw [← h.stateAfter_eq hnfa hother hok hok' hword, hafter]

/-- What is a state of one conversion is one of the other. -/
theorem mem_names_converted (hname : name ∈ dfa.names) : name ∈ dfa'.names := by
  obtain ⟨word, _, hword', _, hafter'⟩ := h.exists_word hnfa hother hok hok' hname
  obtain ⟨name', hmem, hsame, _⟩ := (hother.determinizes hok').stateAfter word hword'
  rw [hafter', Option.some.injEq] at hsame
  exact hsame ▸ hmem

/-- What is final in one conversion is final in the other. -/
theorem mem_finals_converted (hname : name ∈ dfa.finals) : name ∈ dfa'.finals := by
  have hmem := hnfa.finals_mem_of_toDfaWithin hok name hname
  obtain ⟨word, hword, hword', hafter, hafter'⟩ := h.exists_word hnfa hother hok hok' hmem
  have hfinal := (hnfa.determinizes hok).isFinal_iff word name hword hafter
  have hfinal' := (hother.determinizes hok').isFinal_iff word name hword' hafter'
  simp only [h.flags_eq, h.mem_finals, h.reached_eq] at hfinal
  rw [← hfinal', Dfa.isFinal, Dfa.isFinal, List.contains_iff_mem, List.contains_iff_mem] at hfinal
  exact hfinal.mp hname

/-- The moves of one conversion are moves of the other. -/
theorem target_converted (hmove : dfa.target name symbol = some next) :
    dfa'.target name symbol = some next := by
  obtain ⟨hmem, hsymbol⟩ := hnfa.mem_of_target_of_toDfaWithin hok hmove
  obtain ⟨word, hword, hword', hafter, hafter'⟩ := h.exists_word hnfa hother hok hok' hmem
  have hsymbol' := (h.mem_alphabet hnfa hother symbol).mp hsymbol
  obtain ⟨next', hmove', hafter''⟩ :=
    (hother.determinizes hok').exists_target hword' hafter' hsymbol'
  have hmore := h.stateAfter_eq hnfa hother hok hok' (over_concat.mpr ⟨hword, hsymbol⟩)
  rw [Dfa.stateAfter_concat, hafter, Option.bind_some, hmove, hafter'', Option.some.injEq] at hmore
  rw [hmove', hmore]

/-- Conversions of automata with the same parts have the same parts. -/
theorem converted : dfa.SameParts dfa' where
  mem_names _ := ⟨h.mem_names_converted hnfa hother hok hok',
    h.symm.mem_names_converted hother hnfa hok' hok⟩
  start_eq := by
    have hnothing : nfa.Over [] := by simp [Over]
    have hstart := h.stateAfter_eq hnfa hother hok hok' hnothing
    rwa [Dfa.stateAfter_nil, Dfa.stateAfter_nil] at hstart
  mem_finals _ := ⟨h.mem_finals_converted hnfa hother hok hok',
    h.symm.mem_finals_converted hother hnfa hok' hok⟩
  mem_alphabet symbol := by
    rw [(hnfa.determinizes hok).alphabet_eq, (hother.determinizes hok').alphabet_eq]
    exact h.mem_alphabet hnfa hother symbol
  target_eq name symbol := by
    refine Option.ext fun next => ?_
    exact ⟨h.target_converted hnfa hother hok hok',
      h.symm.target_converted hother hnfa hok' hok⟩
  flags_eq := by
    rw [(hnfa.determinizes hok).flags_eq, (hother.determinizes hok').flags_eq, h.flags_eq]

end Converted

/-! ### How conversions end -/

/-- Sets share a name with each other however the automaton was built. -/
theorem sharesName_iff (h : nfa.SameParts other) (hnfa : nfa.WellFormed)
    (hother : other.WellFormed) : nfa.SharesName name ↔ other.SharesName name := by
  simp only [SharesName, h.reachedSets_eq hnfa hother]

/-- Conversions of automata with the same parts end alike. -/
theorem toDfaWithin_cases (h : nfa.SameParts other) (hnfa : nfa.WellFormed)
    (hother : other.WellFormed) (limit : Nat) :
    (∃ error error', nfa.toDfaWithin limit = .error error ∧
      other.toDfaWithin limit = .error error' ∧ error.SameKind error') ∨
    ∃ dfa dfa', nfa.toDfaWithin limit = .ok dfa ∧ other.toDfaWithin limit = .ok dfa' := by
  have hsets := h.reachedSets_eq hnfa hother
  cases hstart : nfa.start with
  | none =>
    have hstart' : other.start = none := h.start_eq.symm.trans hstart
    exact Or.inl ⟨_, _, toDfaWithin_no_start hstart, toDfaWithin_no_start hstart', .noStartState⟩
  | some start =>
    have hstart' : other.start = some start := h.start_eq.symm.trans hstart
    -- Both conversions look at the same sets, so what ends one ends the other.
    rcases hnfa.toDfaWithin_cases hstart limit with
      ⟨hmany, count, _, _, hend⟩ | ⟨hfew, name, hshared, hend⟩ | ⟨hfew, hnone, dfa, _, hend⟩
    · rw [hsets] at hmany
      rcases hother.toDfaWithin_cases hstart' limit with
        ⟨_, count', _, _, hend'⟩ | ⟨hfew', _⟩ | ⟨hfew', _⟩
      · exact Or.inl ⟨_, _, hend, hend', .subsetLimitExceeded ..⟩
      · omega
      · omega
    · rw [hsets] at hfew
      rcases hother.toDfaWithin_cases hstart' limit with
        ⟨hmany', _⟩ | ⟨_, name', _, hend'⟩ | ⟨_, hnone', _⟩
      · omega
      · exact Or.inl ⟨_, _, hend, hend', .ambiguousSubsetName ..⟩
      · exact absurd ⟨name, (h.sharesName_iff hnfa hother).mp hshared⟩ hnone'
    · rw [hsets] at hfew
      rcases hother.toDfaWithin_cases hstart' limit with
        ⟨hmany', _⟩ | ⟨_, name', hshared', _⟩ | ⟨_, _, dfa', _, hend'⟩
      · omega
      · exact absurd ⟨name', (h.sharesName_iff hnfa hother).mpr hshared'⟩ hnone
      · exact Or.inr ⟨dfa, dfa', hend, hend'⟩

end SameParts

/-- Built automata with the same parts accept the same inputs, whatever the order of the
additions that built them. Under one limit their conversions both succeed, with the same parts
again, or both fail with errors of one kind. -/
theorem order_of_additions_irrelevant (h : nfa.Built) (h' : other.Built)
    (hsame : nfa.SameParts other) :
    (∀ input, nfa.accepts input = other.accepts input) ∧
    ∀ limit,
      ((∃ dfa, nfa.toDfaWithin limit = .ok dfa) ↔ ∃ dfa, other.toDfaWithin limit = .ok dfa) ∧
      (∀ error error', nfa.toDfaWithin limit = .error error →
        other.toDfaWithin limit = .error error' → error.SameKind error') ∧
      ∀ dfa dfa', nfa.toDfaWithin limit = .ok dfa → other.toDfaWithin limit = .ok dfa' →
        dfa.SameParts dfa' := by
  have hnfa := h.wellFormed
  have hother := h'.wellFormed
  refine ⟨hsame.accepts_eq hnfa hother, fun limit => ⟨?_, ?_, ?_⟩⟩
  · rcases hsame.toDfaWithin_cases hnfa hother limit with
      ⟨error, error', hend, hend', _⟩ | ⟨dfa, dfa', hend, hend'⟩
    · simp [hend, hend']
    · simp [hend, hend']
  · intro error error' herror herror'
    rcases hsame.toDfaWithin_cases hnfa hother limit with
      ⟨error, error', hend, hend', hkind⟩ | ⟨dfa, dfa', hend, hend'⟩
    · rw [hend, Except.error.injEq] at herror
      rw [hend', Except.error.injEq] at herror'
      exact herror ▸ herror' ▸ hkind
    · simp [hend] at herror
  · exact fun dfa dfa' hok hok' => hsame.converted hnfa hother hok hok'

/-- The additions of `cycle` in another order. -/
def cycleReordered : Nfa :=
  ofAdditions {} [.final "q", .start "p", .epsilonEdge "q" "p", .edge "q" 'b' "q",
    .edge "p" 'a' "q"]

/-- The lists of the automaton go the other way, and the conversion finds the same states. -/
theorem order_of_additions_irrelevant_cycle :
    cycle.Built ∧ cycleReordered.Built ∧ cycle.SameParts cycleReordered ∧
      cycle.names ≠ cycleReordered.names ∧ cycle.alphabet ≠ cycleReordered.alphabet ∧
      (∀ input, cycle.accepts input = cycleReordered.accepts input) ∧
      ∃ dfa dfa', cycle.toDfaWithin 3 = .ok dfa ∧ cycleReordered.toDfaWithin 3 = .ok dfa' ∧
        dfa.SameParts dfa' := by
  have hbuilt : cycle.Built := ⟨_, _, rfl⟩
  have hbuilt' : cycleReordered.Built := ⟨_, _, rfl⟩
  have hsame : cycle.SameParts cycleReordered :=
    sameParts_of_perm {} (by decide) rfl rfl rfl
  obtain ⟨dfa, dfa', hok, hok'⟩ : ∃ dfa dfa', cycle.toDfaWithin 3 = .ok dfa ∧
      cycleReordered.toDfaWithin 3 = .ok dfa' := ⟨_, _, rfl, rfl⟩
  obtain ⟨haccepts, hconverts⟩ := order_of_additions_irrelevant hbuilt hbuilt' hsame
  obtain ⟨_, _, hconverted⟩ := hconverts 3
  exact ⟨hbuilt, hbuilt', hsame, by decide, by decide, haccepts, dfa, dfa', hok, hok',
    hconverted dfa dfa' hok hok'⟩

end Nfa

end Automata
