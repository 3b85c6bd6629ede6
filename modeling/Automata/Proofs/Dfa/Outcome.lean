import Automata.Proofs.Dfa.OfNfa

/-!
# How a conversion ends

Whether a conversion succeeds depends on the sets of states that are reached over words on
the alphabet: on how many there are, and on whether two of them share a name. It fails for
want of a start before it looks at the sets, for their number before it looks at their
names, and otherwise only for a name that is shared.
-/

namespace Automata.Nfa

variable {nfa : Nfa} {dfa : Dfa} {limit larger : Nat} {name start : String}
variable {subsets : List Nat}

/-- Two sets that are reached over words share the name. -/
def SharesName (nfa : Nfa) (name : String) : Prop :=
  ∃ states ∈ nfa.reachedSets, ∃ states' ∈ nfa.reachedSets,
    states ≠ states' ∧ Joins states name ∧ Joins states' name

/-- No set shares its name when the names of the subsets that are needed differ. -/
theorem WellFormed.not_sharesName (h : nfa.WellFormed) (hlists : nfa.ListsSubsets subsets)
    (hstart : nfa.start = some start) (hnodup : (subsets.map nfa.nameOf).Nodup) :
    ¬ nfa.SharesName name := by
  rintro ⟨_, ⟨word, hword, rfl⟩, _, ⟨word', hword', rfl⟩, hne, hjoins, hjoins'⟩
  obtain ⟨subset, _, hsubset⟩ := h.exists_encodes hstart hword
  obtain ⟨other, _, hother⟩ := h.exists_encodes hstart hword'
  have hsame : nfa.nameOf subset = nfa.nameOf other :=
    ((h.joins_nameOf hsubset).unique hjoins).trans (hjoins'.unique (h.joins_nameOf hother))
  have heq : subset = other := List.inj_on_of_nodup_map hnodup
    ((hlists.mem_iff subset).mpr ⟨word, hword, hsubset⟩)
    ((hlists.mem_iff other).mpr ⟨word', hword', hother⟩) hsame
  subst heq
  apply hne
  rw [← h.members_eq hsubset, h.members_eq hother]

/-- A name that repeats among the subsets that are needed is shared. -/
theorem WellFormed.sharesName_of_repeated (h : nfa.WellFormed) (hlists : nfa.ListsSubsets subsets)
    (hrepeated : firstRepeated {} (subsets.map nfa.nameOf) = some name) : nfa.SharesName name := by
  obtain ⟨before, after, hsplit, hplace⟩ := exists_of_firstRepeated hrepeated
  have hbefore : name ∈ before := hplace.resolve_right (by simp)
  obtain ⟨first, rest, rfl, rfl, hrest⟩ := List.map_eq_append_iff.mp hsplit
  obtain ⟨other, last, rfl, hname, rfl⟩ := List.map_eq_cons_iff.mp hrest
  obtain ⟨subset, hsubset, hname'⟩ := List.mem_map.mp hbefore
  have hdiffer : subset ≠ other := by
    rintro rfl
    have hdisjoint := (List.nodup_append.mp hlists.nodup).2.2
    exact hdisjoint subset hsubset subset (by simp) rfl
  obtain ⟨word, hword, hencodes⟩ := (hlists.mem_iff subset).mp (by simp [hsubset])
  obtain ⟨word', hword', hencodes'⟩ := (hlists.mem_iff other).mp (by simp)
  refine ⟨_, ⟨word, hword, rfl⟩, _, ⟨word', hword', rfl⟩, ?_, ?_, ?_⟩
  · intro hsame
    exact hdiffer (hencodes.unique (hsame ▸ hencodes'))
  · exact hname' ▸ h.joins_nameOf hencodes
  · exact hname ▸ h.joins_nameOf hencodes'

/-- With a start, a conversion ends in one of three ways. -/
theorem WellFormed.toDfaWithin_cases (h : nfa.WellFormed) (hstart : nfa.start = some start)
    (limit : Nat) :
    (limit < nfa.reachedSets.ncard ∧ ∃ count, limit < count ∧
      count ≤ max limit 1 + nfa.alphabet.length ∧
      nfa.toDfaWithin limit = .error (.subsetLimitExceeded count limit)) ∨
    (nfa.reachedSets.ncard ≤ limit ∧ ∃ name, nfa.SharesName name ∧
      nfa.toDfaWithin limit = .error (.ambiguousSubsetName name)) ∨
    (nfa.reachedSets.ncard ≤ limit ∧ (¬ ∃ name, nfa.SharesName name) ∧ ∃ dfa,
      dfa.states.length = nfa.reachedSets.ncard ∧ nfa.toDfaWithin limit = .ok dfa) := by
  cases hsubsets : nfa.subsets limit with
  | error error =>
    left
    obtain ⟨count, rfl, hlt, hle, hncard⟩ := h.subsets_error hstart hsubsets
    refine ⟨by omega, count, hlt, hle, ?_⟩
    simp [toDfaWithin, hsubsets, bind, Except.bind]
  | ok subsets =>
    right
    obtain ⟨hle, hlists⟩ := h.subsets_ok hsubsets
    have hlength := hlists.length_eq h hstart
    cases hrepeated : firstRepeated {} (subsets.map nfa.nameOf) with
    | some name =>
      left
      refine ⟨by omega, name, h.sharesName_of_repeated hlists hrepeated, ?_⟩
      simp [toDfaWithin, hsubsets, bind, Except.bind, ambiguousName, names_subsetRows, hrepeated,
        throw, throwThe, MonadExceptOf.throw]
    | none =>
      right
      have hnodup := (firstRepeated_eq_none_iff.mp hrepeated).1
      refine ⟨by omega, ?_, nfa.dfaOfRows (nfa.namedRows subsets), ?_, ?_⟩
      · rintro ⟨name, hshares⟩
        exact h.not_sharesName hlists hstart hnodup hshares
      · rw [length_states_dfaOfRows, namedRows, List.length_map, hlength]
      · exact h.toDfaWithin_eq_ok_iff.mpr ⟨subsets, hsubsets, hnodup, rfl⟩

/-- A conversion that succeeds within a limit gives the same within any larger one. -/
theorem toDfaWithin_mono (hlarger : limit ≤ larger) (hok : nfa.toDfaWithin limit = .ok dfa) :
    nfa.toDfaWithin larger = .ok dfa := by
  obtain ⟨subsets, hsubsets, hrest⟩ := toDfaWithin_eq_ok_iff_layOut.mp hok
  exact toDfaWithin_eq_ok_iff_layOut.mpr ⟨subsets, subsets_mono hlarger hsubsets, hrest⟩

/-- Without a start the conversion does not begin. -/
theorem toDfaWithin_no_start (h : nfa.start = none) :
    nfa.toDfaWithin limit = .error .noStartState := by
  simp [toDfaWithin, subsets_no_start h, bind, Except.bind]

/-- A conversion fails for want of a start, else when there are more sets than allowed,
else when two sets share a name, and else it succeeds with one state for each set. It
stops one row past the limit at the latest, names a name that is shared, and has the same
outcome within every larger limit once it succeeds. -/
theorem outcome_of_toDfaWithin (h : nfa.Built) (limit : Nat) :
    (nfa.toDfaWithin limit = .error .noStartState ↔ nfa.start = none) ∧
    (nfa.start ≠ none →
      ((∃ count most, nfa.toDfaWithin limit = .error (.subsetLimitExceeded count most)) ↔
        limit < nfa.reachedSets.ncard) ∧
      ((∃ name, nfa.toDfaWithin limit = .error (.ambiguousSubsetName name)) ↔
        nfa.reachedSets.ncard ≤ limit ∧ ∃ name, nfa.SharesName name) ∧
      ((∃ dfa, nfa.toDfaWithin limit = .ok dfa) ↔
        nfa.reachedSets.ncard ≤ limit ∧ ¬ ∃ name, nfa.SharesName name)) ∧
    (∀ count most, nfa.toDfaWithin limit = .error (.subsetLimitExceeded count most) →
      most = limit ∧ limit < count ∧ count ≤ max limit 1 + nfa.alphabet.length) ∧
    (∀ name, nfa.toDfaWithin limit = .error (.ambiguousSubsetName name) → nfa.SharesName name) ∧
    (∀ dfa, nfa.toDfaWithin limit = .ok dfa → dfa.states.length = nfa.reachedSets.ncard ∧
      ∀ larger, limit ≤ larger → nfa.toDfaWithin larger = .ok dfa) := by
  cases hstart : nfa.start with
  | none =>
    have hnone : nfa.toDfaWithin limit = .error .noStartState := toDfaWithin_no_start hstart
    simp [hnone]
  | some start =>
    rcases h.wellFormed.toDfaWithin_cases hstart limit with
      ⟨hmany, count, hlt, hle, hend⟩ | ⟨hfew, name, hshares, hend⟩ | ⟨hfew, hnone, dfa, hsize, hend⟩
    · have hnot : ¬ nfa.reachedSets.ncard ≤ limit := by omega
      refine ⟨by simp [hend], fun _ => ⟨?_, ?_, ?_⟩, ?_, by simp [hend], by simp [hend]⟩
      · simp [hend, hmany]
      · simp [hend, hnot]
      · simp [hend, hnot]
      · intro count' most hsame
        rw [hend, Except.error.injEq, Error.subsetLimitExceeded.injEq] at hsame
        obtain ⟨rfl, rfl⟩ := hsame
        exact ⟨rfl, hlt, hle⟩
    · have hnot : ¬ limit < nfa.reachedSets.ncard := by omega
      have hsome : ∃ name, nfa.SharesName name := ⟨name, hshares⟩
      refine ⟨by simp [hend], fun _ => ⟨?_, ?_, ?_⟩, by simp [hend], ?_, by simp [hend]⟩
      · simp [hend, hnot]
      · simp [hend, hfew, hsome]
      · simp [hend, hsome]
      · intro name' hsame
        rw [hend, Except.error.injEq, Error.ambiguousSubsetName.injEq] at hsame
        exact hsame ▸ hshares
    · have hnot : ¬ limit < nfa.reachedSets.ncard := by omega
      refine ⟨by simp [hend], fun _ => ⟨?_, ?_, ?_⟩, by simp [hend], by simp [hend], ?_⟩
      · simp [hend, hnot]
      · simp [hend, hnone]
      · simp [hend, hfew, hnone]
      · intro dfa' hsame
        rw [hend, Except.ok.injEq] at hsame
        subst hsame
        exact ⟨hsize, fun larger hlarger => toDfaWithin_mono hlarger hend⟩

/-- The cycle reaches three sets, which differ in their names, so any limit from three on will do.
-/
theorem outcome_of_toDfaWithin_cycle :
    cycle.Built ∧ cycle.reachedSets.ncard = 3 ∧ (¬ ∃ name, cycle.SharesName name) ∧
      ∃ dfa, cycle.toDfaWithin 3 = .ok dfa ∧ cycle.toDfaWithin 100 = .ok dfa := by
  have hbuilt : cycle.Built := ⟨_, _, rfl⟩
  have hstart : cycle.start ≠ none := by decide
  obtain ⟨dfa, hok, hsize⟩ : ∃ dfa, cycle.toDfaWithin 3 = .ok dfa ∧ dfa.states.length = 3 :=
    ⟨_, rfl, by decide⟩
  obtain ⟨_, hends, _, _, hresult⟩ := outcome_of_toDfaWithin hbuilt 3
  obtain ⟨_, hnone⟩ := (hends hstart).2.2.mp ⟨dfa, hok⟩
  obtain ⟨hstates, hlarger⟩ := hresult dfa hok
  exact ⟨hbuilt, hstates.symm.trans hsize, hnone, dfa, hok, hlarger 100 (by decide)⟩

end Automata.Nfa
