import Automata.Proofs.FirstWord
import Automata.Proofs.Dfa.OfNfa

/-!
# The order of the states of a conversion

The search for subsets takes the symbols in the order of the alphabet, so it discovers the subsets
in the order of the first words that lead to them. Laid out, the final ones come first and the
others after them. Both parts keep the order of discovery, so both stand in the order of the first
words that lead to their states.
-/

namespace Automata

variable {nfa : Nfa} {dfa : Dfa} {subsets : List Nat} {subset limit : Nat} {start : String}
variable {word : List Char}

/-- The moves over the word lead from the start to the state. -/
def Dfa.LeadsTo (dfa : Dfa) (name : String) (word : List Char) : Prop :=
  dfa.stateAfter word = some name

namespace Nfa

/-- The successors over the word lead from the first subset to the subset. -/
def LeadsTo (nfa : Nfa) (start : String) : Nat → List Char → Prop :=
  Discovery.LeadsTo nfa.successor (nfa.subsetOf (nfa.closure start))

/-- A word leads to the subset that encodes what the word reaches. -/
theorem WellFormed.leadsTo_iff (h : nfa.WellFormed) (hstart : nfa.start = some start) :
    nfa.LeadsTo start subset word ↔ nfa.Encodes subset (nfa.reached word) := by
  have hencodes : nfa.Encodes (word.foldl nfa.successor (nfa.subsetOf (nfa.closure start)))
      (nfa.reached word) := by
    induction word using List.reverseRecOn with
    | nil => exact h.encodes_first hstart
    | append_singleton word symbol ih =>
      rw [List.foldl_concat]
      exact h.encodes_successor ih symbol
  constructor
  · rintro rfl
    exact hencodes
  · exact hencodes.unique

/-- The subsets are discovered in the order of the first words that lead to them. -/
theorem pairwise_subsets (hstart : nfa.start = some start)
    (hok : nfa.subsets limit = .ok subsets) :
    subsets.Pairwise (Before nfa.alphabet (nfa.LeadsTo start)) := by
  obtain ⟨_, found, _, rfl, _, hordered⟩ := subsets_induction hstart
    (Discovery.wordOrdered_single nfa.alphabet nfa.successor _)
    (fun _ _ _ hsearch hsubset => nextSubsets_eq ▸ hsearch.insertAll hsubset) hok
  exact hordered.ordered

/-! ### States in the order of their access words -/

section Rows

variable (h : nfa.WellFormed) (hstart : nfa.start = some start)
  (hlists : nfa.ListsSubsets subsets) (hnodup : (subsets.map nfa.nameOf).Nodup)

include h hstart hlists hnodup

/-- The words that lead to the state of a subset are those that lead to the subset. -/
theorem WellFormed.leadsTo_nameOf_iff (hsubset : subset ∈ subsets) (hword : nfa.Over word) :
    (nfa.dfaOfRows (nfa.namedRows subsets)).LeadsTo (nfa.nameOf subset) word ↔
      nfa.LeadsTo start subset word := by
  obtain ⟨other, hother, hencodes, hafter⟩ := h.stateAfter_dfaOfRows hlists hnodup hword
  rw [h.leadsTo_iff hstart, Dfa.LeadsTo, hafter, Option.some.injEq]
  constructor
  · intro hname
    rwa [← List.inj_on_of_nodup_map hnodup hother hsubset hname]
  · intro hencodes'
    rw [hencodes.unique hencodes']

/-- In the rows, states stand in the order in which their subsets are discovered. -/
theorem WellFormed.pairwise_rows
    (hordered : subsets.Pairwise (Before nfa.alphabet (nfa.LeadsTo start))) :
    (nfa.namedRows subsets).Pairwise fun row other =>
      Before nfa.alphabet (nfa.dfaOfRows (nfa.namedRows subsets)).LeadsTo row.name other.name := by
  rw [namedRows, List.pairwise_map, ← namedRows]
  refine hordered.imp_of_mem ?_
  rintro subset subset' hsubset hsubset' ⟨word, other, hword, hother, hbefore⟩
  have hsame {subset : Nat} (hsubset : subset ∈ subsets) (word : List Char)
      (hword : ∀ c ∈ word, c ∈ nfa.alphabet) :=
    (h.leadsTo_nameOf_iff hstart hlists hnodup hsubset hword).symm
  exact ⟨word, other, hword.congr (hsame hsubset), hother.congr (hsame hsubset'), hbefore⟩

end Rows

/-- Laid out, the names of the final rows come first and those of the others after them. -/
theorem names_dfaOfRows (nfa : Nfa) (rows : List NamedRow) :
    (nfa.dfaOfRows rows).names =
      (nfa.dfaOfRows rows).finals ++ (rows.filter (!·.isFinal)).map (·.name) := by
  simp only [Dfa.names, dfaOfRows, List.map_append, List.map_map]
  rfl

/-- Each state of a conversion has an access word, the first word on the alphabet that leads to
it. The final states come first, in the order of their access words, and are listed as final in
this order; the other states come after them, in the order of theirs. -/
theorem layout_of_toDfaWithin (h : nfa.Built) (hok : nfa.toDfaWithin limit = .ok dfa) :
    (∀ name ∈ dfa.names, ∃! word, FirstWord nfa.alphabet (dfa.LeadsTo name) word) ∧
    ∃ others, dfa.names = dfa.finals ++ others ∧
      (∀ name ∈ dfa.finals, dfa.isFinal name = true) ∧
      (∀ name ∈ others, dfa.isFinal name = false) ∧
      dfa.finals.Pairwise (Before nfa.alphabet dfa.LeadsTo) ∧
      others.Pairwise (Before nfa.alphabet dfa.LeadsTo) := by
  have hnfa := h.wellFormed
  have hwords : ∀ name ∈ dfa.names, ∃ word, nfa.Over word ∧ dfa.LeadsTo name word :=
    (hnfa.determinizes hok).exists_word
  obtain ⟨subsets, hsubsets, hnodup, rfl⟩ := hnfa.toDfaWithin_eq_ok_iff.mp hok
  obtain ⟨start, hstart⟩ := exists_start_of_subsets hsubsets
  have hrows := names_namedRows nfa subsets ▸ hnodup
  have hordered := hnfa.pairwise_rows hstart (hnfa.subsets_ok hsubsets).2 hnodup
    (pairwise_subsets hstart hsubsets)
  refine ⟨?_, _, names_dfaOfRows nfa _, ?_, ?_, ?_, ?_⟩
  · intro name hname
    obtain ⟨word, hword, hleads⟩ := hwords name hname
    obtain ⟨first, hfirst⟩ := exists_firstWord hword hleads
    exact ⟨first, hfirst, fun other hother => hother.unique hfirst⟩
  · intro name hname
    exact List.contains_iff_mem.mpr hname
  · intro name hname
    obtain ⟨row, hrow, rfl⟩ := List.mem_map.mp hname
    obtain ⟨hmem, hfinal⟩ := List.mem_filter.mp hrow
    rw [isFinal_dfaOfRows hrows hmem]
    simpa using hfinal
  · exact List.pairwise_map.mpr (hordered.filter _)
  · exact List.pairwise_map.mpr (hordered.filter _)

/-- Two ways lead from the start, the first of them with the symbol `b`, which the alphabet has
first. -/
def forked : Nfa :=
  ofAdditions {} [.start "p", .final "q", .state "r", .final "s", .edge "p" 'b' "q",
    .edge "p" 'a' "r", .edge "r" 'b' "s"]

/-- The final states come first, though `s` is found last, and the empty set comes behind `r`. -/
theorem layout_of_toDfaWithin_forked :
    forked.Built ∧ ∃ dfa, forked.toDfaWithin 5 = .ok dfa ∧
      dfa.names = ["q", "s", "p", "r", ""] ∧ dfa.finals = ["q", "s"] ∧
      dfa.finals.Pairwise (Before forked.alphabet dfa.LeadsTo) ∧
      ["p", "r", ""].Pairwise (Before forked.alphabet dfa.LeadsTo) := by
  have hbuilt : forked.Built := ⟨_, _, rfl⟩
  obtain ⟨dfa, hok, hnames, hfinals⟩ : ∃ dfa, forked.toDfaWithin 5 = .ok dfa ∧
      dfa.names = ["q", "s", "p", "r", ""] ∧ dfa.finals = ["q", "s"] :=
    ⟨_, rfl, by decide, by decide⟩
  obtain ⟨_, others, hsplit, _, _, hordered, hothers⟩ := layout_of_toDfaWithin hbuilt hok
  obtain rfl : ["p", "r", ""] = others := by simpa [hnames, hfinals] using hsplit
  exact ⟨hbuilt, dfa, hok, hnames, hfinals, hordered, hothers⟩

end Nfa

end Automata
