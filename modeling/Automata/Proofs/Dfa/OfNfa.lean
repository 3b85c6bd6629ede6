import Automata.Dfa.Lemmas
import Automata.Proofs.Dfa.Draft
import Automata.Proofs.Dfa.Run
import Automata.Proofs.Nfa.SubsetName

/-!
# Conversion determinizes

A conversion makes a row of each subset that it needs. When no two rows share a name, the
state that a row becomes is found by its name, and its moves lead to the rows of the
successors. So the state after a word on the alphabet is named after the states that the
word reaches. From this follow the shape of the converted automaton and that it answers
every input as the automaton that it was converted from.
-/

namespace Automata.Nfa

variable {nfa : Nfa} {dfa : Dfa} {rows : List NamedRow} {row : NamedRow}
variable {subsets : List Nat} {subset limit larger : Nat} {name : String} {symbol : Char}
variable {word word' : List Char}

/-! ### Rows -/

/-- The name of the state that a subset becomes. -/
def nameOf (nfa : Nfa) (subset : Nat) : String := subsetName nfa.sortedNames subset

/-- The names of the rows are those of the subsets. -/
theorem names_subsetRows (nfa : Nfa) (subsets : List Nat) :
    (nfa.subsetRows subsets).map (·.name) = subsets.map nfa.nameOf := by
  rw [subsetRows, List.map_map]
  rfl

/-- A conversion succeeds when the subsets are found within the limit and their names
differ, and then it lays out their rows. -/
theorem toDfaWithin_eq_ok_iff_layOut : nfa.toDfaWithin limit = .ok dfa ↔
    ∃ subsets, nfa.subsets limit = .ok subsets ∧ (subsets.map nfa.nameOf).Nodup ∧
      (nfa.layOut (nfa.subsetRows subsets)).toDfa = dfa := by
  cases hsubsets : nfa.subsets limit with
  | error error => simp [toDfaWithin, hsubsets, bind, Except.bind]
  | ok subsets =>
    have hrepeated : firstRepeated {} (subsets.map nfa.nameOf) = none ↔
        (subsets.map nfa.nameOf).Nodup := by
      simp [firstRepeated_eq_none_iff]
    simp only [toDfaWithin, hsubsets, bind, Except.bind, ambiguousName, names_subsetRows]
    split
    · next hname =>
      rw [hname] at hrepeated
      simp [← hrepeated, throw, throwThe, MonadExceptOf.throw]
    · next hname => simp [hrepeated.mp hname, pure, Except.pure]

/-- The row of one subset, with the names of its successors. -/
def namedRow (nfa : Nfa) (subset : Nat) : NamedRow where
  name := nfa.nameOf subset
  isFinal := nfa.isFinalSubset subset (nfa.nameOf subset)
  targets := nfa.alphabet.map fun symbol => nfa.nameOf (nfa.successor subset symbol)

/-- The rows of subsets, with the names of their successors. -/
def namedRows (nfa : Nfa) (subsets : List Nat) : List NamedRow := subsets.map nfa.namedRow

/-- The rows of listed subsets are among the rows. -/
theorem namedRow_mem (h : subset ∈ subsets) : nfa.namedRow subset ∈ nfa.namedRows subsets :=
  List.mem_map_of_mem h

/-- The names of the rows are those of the subsets. -/
theorem names_namedRows (nfa : Nfa) (subsets : List Nat) :
    (nfa.namedRows subsets).map (·.name) = subsets.map nfa.nameOf := by
  rw [namedRows, List.map_map]
  rfl

section Successors

variable (hnodup : subsets.Nodup)
  (hclosed : ∀ subset ∈ subsets, ∀ symbol ∈ nfa.alphabet, nfa.successor subset symbol ∈ subsets)

include hnodup

/-- A subset that is listed stands at the place that is found for it. -/
theorem getElem?_place (hsubset : subset ∈ subsets) :
    subsets[((Discovery.empty.insertAll subsets).place? subset).getD 0]? = some subset := by
  have hlist : (Discovery.empty.insertAll subsets).toList = subsets := by
    rw [Discovery.toList_insertAll, Discovery.toList_empty, addAllLast_eq_append_filter hnodup]
    simp
  obtain ⟨place, hplace⟩ := List.getElem?_of_mem hsubset
  rw [Discovery.place?_eq_some_iff.mpr (hlist.symm ▸ hplace)]
  exact hplace

/-- The name at the place of a subset is that of its row. -/
theorem getD_names_subsetRows (hsubset : subset ∈ subsets) :
    ((nfa.subsetRows subsets).map (·.name)).getD
      (((Discovery.empty.insertAll subsets).place? subset).getD 0) "" = nfa.nameOf subset := by
  rw [names_subsetRows, List.getD_eq_getElem?_getD, List.getElem?_map,
    getElem?_place hnodup hsubset]
  rfl

include hclosed

/-- The successors of a row are as many as there are symbols, and they are rows. -/
theorem successors_subsetRows {row : SubsetRow} (hrow : row ∈ nfa.subsetRows subsets) :
    row.successors.length = nfa.alphabet.length ∧
      ∀ next ∈ row.successors, next < (nfa.subsetRows subsets).length := by
  obtain ⟨subset, hsubset, rfl⟩ := List.mem_map.mp hrow
  constructor
  · simp [nextSubsets_eq]
  · intro next hnext
    rw [nextSubsets_eq, List.map_map] at hnext
    obtain ⟨symbol, hsymbol, rfl⟩ := List.mem_map.mp hnext
    have hplace := getElem?_place hnodup (hclosed subset hsubset symbol hsymbol)
    rw [subsetRows, List.length_map]
    exact (List.getElem?_eq_some_iff.mp hplace).1

/-- The successors of the rows are named after their subsets. -/
theorem named_subsetRows :
    (nfa.subsetRows subsets).map (·.named (nfa.subsetRows subsets)) = nfa.namedRows subsets := by
  have hmap : ∀ rows, (nfa.subsetRows subsets).map (·.named rows) = subsets.map fun subset =>
      { name := nfa.nameOf subset
        isFinal := nfa.isFinalSubset subset (nfa.nameOf subset)
        targets := nfa.alphabet.map fun symbol =>
          let place := (Discovery.empty.insertAll subsets).place? (nfa.successor subset symbol)
          (rows.map (·.name)).getD (place.getD 0) "" } := by
    intro rows
    simp only [subsetRows, SubsetRow.named, nextSubsets_eq, List.map_map, Function.comp_def]
    rfl
  rw [hmap]
  refine List.map_congr_left fun subset hsubset => ?_
  refine congrArg (NamedRow.mk _ _) (List.map_congr_left fun symbol hsymbol => ?_)
  exact getD_names_subsetRows hnodup (hclosed subset hsubset symbol hsymbol)

end Successors

/-- The rows of the subsets that are needed are laid out as the automaton of the rows in which
the successors are named. -/
theorem WellFormed.toDfa_layOut (h : nfa.WellFormed) (hlists : nfa.ListsSubsets subsets)
    (hnodup : (subsets.map nfa.nameOf).Nodup) :
    (nfa.layOut (nfa.subsetRows subsets)).toDfa = nfa.dfaOfRows (nfa.namedRows subsets) := by
  have hclosed : ∀ subset ∈ subsets, ∀ symbol ∈ nfa.alphabet,
      nfa.successor subset symbol ∈ subsets := by
    intro subset hsubset symbol hsymbol
    obtain ⟨word, hword, hencodes⟩ := (hlists.mem_iff subset).mp hsubset
    refine (hlists.mem_iff _).mpr ⟨word ++ [symbol], over_concat.mpr ⟨hword, hsymbol⟩, ?_⟩
    exact h.encodes_successor hencodes symbol
  have hrows := names_subsetRows nfa subsets ▸ hnodup
  have hsuccessors := fun row (hrow : row ∈ nfa.subsetRows subsets) =>
    successors_subsetRows hlists.nodup hclosed hrow
  obtain ⟨first, hfirst, -⟩ := hlists.head
  have hsome : nfa.subsetRows subsets ≠ [] := by
    cases subsets with
    | nil => simp at hfirst
    | cons => simp [subsetRows]
  obtain ⟨places, hlaid⟩ := laidOut_layOut hrows h.alphabet_nodup hsome
    fun row hrow => (hsuccessors row hrow).1
  rw [hlaid.toDfa_eq hrows h.alphabet_nodup fun row hrow => (hsuccessors row hrow).2,
    named_subsetRows hlists.nodup hclosed]

/-- A conversion succeeds when the subsets are found within the limit and their names
differ. -/
theorem WellFormed.toDfaWithin_eq_ok_iff (h : nfa.WellFormed) : nfa.toDfaWithin limit = .ok dfa ↔
    ∃ subsets, nfa.subsets limit = .ok subsets ∧ (subsets.map nfa.nameOf).Nodup ∧
      nfa.dfaOfRows (nfa.namedRows subsets) = dfa := by
  rw [toDfaWithin_eq_ok_iff_layOut]
  refine exists_congr fun subsets => and_congr_right fun hsubsets => ?_
  refine and_congr_right fun hnodup => ?_
  rw [h.toDfa_layOut (h.subsets_ok hsubsets).2 hnodup]

/-! ### The automaton of rows -/

/-- The states are the rows, in another order. -/
theorem perm_names_dfaOfRows (nfa : Nfa) (rows : List NamedRow) :
    (nfa.dfaOfRows rows).names.Perm (rows.map (·.name)) := by
  simp only [Dfa.names, dfaOfRows, List.map_map]
  exact (List.filter_append_perm (·.isFinal) rows).map (·.name)

/-- There are as many states as rows. -/
theorem length_states_dfaOfRows : (nfa.dfaOfRows rows).states.length = rows.length := by
  simpa [Dfa.names] using (perm_names_dfaOfRows nfa rows).length_eq

/-- The moves of a state are those of its row. -/
theorem target_dfaOfRows (hnodup : (rows.map (·.name)).Nodup) (hrow : row ∈ rows) :
    (nfa.dfaOfRows rows).target row.name symbol = (nfa.alphabet.zip row.targets).lookup symbol := by
  have hstates := (perm_names_dfaOfRows nfa rows).nodup_iff.mpr hnodup
  have hmem : ({ name := row.name, moves := nfa.alphabet.zip row.targets } : Dfa.State) ∈
      (nfa.dfaOfRows rows).states := by
    refine List.mem_map.mpr ⟨row, ?_, rfl⟩
    exact (List.filter_append_perm (·.isFinal) rows).mem_iff.mpr hrow
  exact Dfa.target_name hstates hmem symbol

/-- Where the targets go with the symbols, the move on a symbol leads to its target. -/
theorem lookup_zip_map {alphabet : List Char} {next : Char → String} (h : symbol ∈ alphabet) :
    (alphabet.zip (alphabet.map next)).lookup symbol = some (next symbol) := by
  induction alphabet with
  | nil => simp at h
  | cons first alphabet ih =>
    by_cases hfirst : symbol = first
    · simp [hfirst]
    · have hrest : symbol ∈ alphabet := (List.mem_cons.mp h).resolve_left hfirst
      have hne : (symbol == first) = false := by simpa using hfirst
      simpa [List.lookup_cons, hne] using ih hrest

/-- A state is final when its row is. -/
theorem isFinal_dfaOfRows (hnodup : (rows.map (·.name)).Nodup) (hrow : row ∈ rows) :
    (nfa.dfaOfRows rows).isFinal row.name = row.isFinal := by
  rw [Bool.eq_iff_iff]
  simp only [Dfa.isFinal, dfaOfRows, List.contains_eq_mem, List.mem_map, List.mem_filter,
    decide_eq_true_eq]
  constructor
  · rintro ⟨other, ⟨hother, hfinal⟩, hname⟩
    rwa [← List.inj_on_of_nodup_map hnodup hother hrow hname]
  · intro hfinal
    exact ⟨row, ⟨hrow, hfinal⟩, rfl⟩

/-! ### The converted automaton -/

/-- The automaton is deterministic, and its state after a word on the alphabet stands for
the states that the word reaches. -/
structure Determinizes (nfa : Nfa) (dfa : Dfa) : Prop where
  alphabet_eq : dfa.alphabet = nfa.alphabet
  flags_eq : dfa.flags = nfa.flags
  names_nodup : dfa.names.Nodup
  exists_word : ∀ name ∈ dfa.names, ∃ word, nfa.Over word ∧ dfa.stateAfter word = some name
  stateAfter : ∀ word, nfa.Over word →
    ∃ name ∈ dfa.names, dfa.stateAfter word = some name ∧ Joins (nfa.reached word) name
  /-- Where words lead to the same state, they reach the same states. -/
  separates : ∀ word word', nfa.Over word → nfa.Over word' →
    dfa.stateAfter word = dfa.stateAfter word' → nfa.reached word = nfa.reached word'
  isFinal_iff : ∀ word name, nfa.Over word → dfa.stateAfter word = some name →
    (dfa.isFinal name = true ↔
      if nfa.flags.substringFinality then
        ∃ final ∈ nfa.finals, occursIn final.toList name.toList = true
      else ∃ final ∈ nfa.finals, final ∈ nfa.reached word)

section Rows

variable (h : nfa.WellFormed) (hlists : nfa.ListsSubsets subsets)
  (hnodup : (subsets.map nfa.nameOf).Nodup)

include h

/-- The name of a subset joins the names of the states that it encodes. -/
theorem WellFormed.joins_nameOf (hsubset : nfa.Encodes subset (nfa.reached word)) :
    Joins (nfa.reached word) (nfa.nameOf subset) :=
  h.joins_subsetName hsubset fun _ => h.reached_mem

/-- A subset is final when it has a final member, or as its name says. -/
theorem WellFormed.isFinalSubset_iff (hsubset : nfa.Encodes subset (nfa.reached word)) :
    nfa.isFinalSubset subset name = true ↔
      if nfa.flags.substringFinality then
        ∃ final ∈ nfa.finals, occursIn final.toList name.toList = true
      else ∃ final ∈ nfa.finals, final ∈ nfa.reached word := by
  unfold isFinalSubset
  split
  · rw [List.any_eq_true]
  · rw [List.any_eq_true, ← h.members_eq hsubset]
    refine exists_congr fun final => and_congr_right fun hfinal => ?_
    exact ⟨fun hbit => ⟨h.finals_mem final hfinal, hbit⟩, fun hmember => hmember.2⟩

include hlists hnodup

/-- Following a word from the first row leads to the row of what the word reaches. -/
theorem WellFormed.stateAfter_dfaOfRows (hword : nfa.Over word) :
    ∃ subset ∈ subsets, nfa.Encodes subset (nfa.reached word) ∧
      (nfa.dfaOfRows (nfa.namedRows subsets)).stateAfter word = some (nfa.nameOf subset) := by
  have hrows := names_namedRows nfa subsets ▸ hnodup
  induction word using List.reverseRecOn with
  | nil =>
    obtain ⟨first, hfirst, hencodes⟩ := hlists.head
    refine ⟨first, List.mem_of_mem_head? hfirst, hencodes, ?_⟩
    rw [Dfa.stateAfter_nil, namedRows, dfaOfRows, List.head?_map, hfirst]
    rfl
  | append_singleton word symbol ih =>
    obtain ⟨hbefore, hsymbol⟩ := over_concat.mp hword
    obtain ⟨subset, hsubset, hencodes, hstate⟩ := ih hbefore
    have hnext := h.encodes_successor hencodes symbol
    refine ⟨nfa.successor subset symbol, (hlists.mem_iff _).mpr ⟨_, hword, hnext⟩, hnext, ?_⟩
    rw [Dfa.stateAfter_concat, hstate]
    exact (target_dfaOfRows hrows (namedRow_mem hsubset)).trans (lookup_zip_map hsymbol)

/-- The rows of the subsets that are needed determinize the automaton if their names
differ. -/
theorem WellFormed.determinizes_dfaOfRows :
    nfa.Determinizes (nfa.dfaOfRows (nfa.namedRows subsets)) := by
  have hperm := perm_names_dfaOfRows nfa (nfa.namedRows subsets)
  have hrows := names_namedRows nfa subsets ▸ hnodup
  have hstate := fun word (hword : nfa.Over word) =>
    h.stateAfter_dfaOfRows hlists hnodup hword
  rw [names_namedRows] at hperm
  constructor
  case alphabet_eq => rfl
  case flags_eq => rfl
  case names_nodup => exact hperm.nodup_iff.mpr hnodup
  case exists_word =>
    intro name hname
    obtain ⟨subset, hsubset, rfl⟩ := List.mem_map.mp (hperm.mem_iff.mp hname)
    obtain ⟨word, hword, hencodes⟩ := (hlists.mem_iff subset).mp hsubset
    obtain ⟨other, _, hother, hafter⟩ := hstate word hword
    exact ⟨word, hword, hother.unique hencodes ▸ hafter⟩
  case stateAfter =>
    intro word hword
    obtain ⟨subset, hsubset, hencodes, hafter⟩ := hstate word hword
    exact ⟨_, hperm.mem_iff.mpr (List.mem_map_of_mem hsubset), hafter, h.joins_nameOf hencodes⟩
  case separates =>
    intro word word' hword hword' hsame
    obtain ⟨subset, hsubset, hencodes, hafter⟩ := hstate word hword
    obtain ⟨other, hother, hencodes', hafter'⟩ := hstate word' hword'
    rw [hafter, hafter', Option.some.injEq] at hsame
    obtain rfl := List.inj_on_of_nodup_map hnodup hsubset hother hsame
    rw [← h.members_eq hencodes, h.members_eq hencodes']
  case isFinal_iff =>
    intro word name hword hname
    obtain ⟨subset, hsubset, hencodes, hafter⟩ := hstate word hword
    rw [hafter, Option.some.injEq] at hname
    subst hname
    rw [← h.isFinalSubset_iff hencodes]
    exact Bool.eq_iff_iff.mp (isFinal_dfaOfRows hrows (namedRow_mem hsubset))

end Rows

/-- What a conversion gives determinizes the automaton. -/
theorem WellFormed.determinizes (h : nfa.WellFormed) (hok : nfa.toDfaWithin limit = .ok dfa) :
    nfa.Determinizes dfa := by
  obtain ⟨subsets, hsubsets, hnodup, rfl⟩ := h.toDfaWithin_eq_ok_iff.mp hok
  exact h.determinizes_dfaOfRows (h.subsets_ok hsubsets).2 hnodup

end Automata.Nfa
