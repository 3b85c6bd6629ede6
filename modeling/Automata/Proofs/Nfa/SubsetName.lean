import Automata.Nfa.SubsetName
import Automata.Proofs.Nfa.Subset
import Mathlib.Data.List.Sort
import Mathlib.Data.String.Basic

/-!
# Names of subsets are sorted joins

The name of a subset is made of the names of its members, sorted and without separators.
The set determines its name, though different sets may share one. Names of states are not
empty, so only the empty set has the empty name.
-/

namespace Automata.Nfa

/-- The text is made of the names in the set, sorted and written one after the other. -/
def Joins (states : Set String) (text : String) : Prop :=
  ∃ names : List String, names.Pairwise (· < ·) ∧ (∀ name, name ∈ names ↔ name ∈ states) ∧
    text = String.join names

variable {nfa : Nfa} {states : Set String} {text text' name : String} {subset i : Nat}
variable {entry other : String × Nat} {sorted : List (String × Nat)}

/-- A set has one name. -/
theorem Joins.unique (h : Joins states text) (h' : Joins states text') : text = text' := by
  obtain ⟨names, hsorted, hmem, rfl⟩ := h
  obtain ⟨names', hsorted', hmem', rfl⟩ := h'
  have hsame : names = names' := by
    refine hsorted.eq_of_mem_iff hsorted' ?_
    intro name
    rw [hmem, hmem']
  rw [hsame]

/-- Of sets whose members have names, only the empty one has the empty name. -/
theorem Joins.eq_empty_iff (h : Joins states text) (hnames : ∀ name ∈ states, name ≠ "") :
    text = "" ↔ states = ∅ := by
  obtain ⟨names, _, hmem, rfl⟩ := h
  cases names with
  | nil =>
    have hnone : states = ∅ := by
      ext name
      simp [← hmem]
    simp [hnone]
  | cons first rest =>
    have hfirst : first ∈ states := (hmem first).mp (by simp)
    have hjoin : String.join (first :: rest) ≠ "" := by
      simp [String.join_cons, hnames first hfirst]
    have hsome : states ≠ ∅ := fun hempty => by simp [hempty] at hfirst
    exact iff_of_false hjoin hsome

/-! ### Sorting the names -/

/-- Inserting adds the entry and keeps the others. -/
theorem mem_insertSorted : other ∈ insertSorted entry sorted ↔ other = entry ∨ other ∈ sorted := by
  induction sorted with
  | nil => simp [insertSorted]
  | cons first rest ih =>
    unfold insertSorted
    split
    · simp
    · rw [List.mem_cons, List.mem_cons, ih]
      exact or_left_comm

/-- A new name goes behind the smaller names and before the larger ones. -/
theorem pairwise_insertSorted (h : sorted.Pairwise fun first second => first.1 < second.1)
    (hnew : ∀ other ∈ sorted, other.1 ≠ entry.1) :
    (insertSorted entry sorted).Pairwise fun first second => first.1 < second.1 := by
  induction sorted with
  | nil => simp [insertSorted]
  | cons first rest ih =>
    obtain ⟨hfirst, hrest⟩ := List.pairwise_cons.mp h
    have hne : first.1 ≠ entry.1 := hnew first (by simp)
    have hcompare : (compare entry.1 first.1).isLE = true ↔ entry.1 ≤ first.1 := by
      rw [Ordering.isLE_iff_ne_gt]
      exact compare_le_iff_le
    unfold insertSorted
    split
    · next hle =>
      have hlt : entry.1 < first.1 := lt_of_le_of_ne (hcompare.mp hle) hne.symm
      refine List.pairwise_cons.mpr ⟨?_, h⟩
      intro other hother
      rcases List.mem_cons.mp hother with rfl | hother
      · exact hlt
      · exact hlt.trans (hfirst other hother)
    · next hle =>
      have hlt : first.1 < entry.1 := lt_of_not_ge fun h => hle (hcompare.mpr h)
      refine List.pairwise_cons.mpr ⟨?_, ih hrest fun other hother => hnew other (by simp [hother])⟩
      intro other hother
      rcases mem_insertSorted.mp hother with rfl | hother
      · exact hlt
      · exact hfirst other hother

/-- Sorting keeps all entries and adds none. -/
theorem mem_foldr_insertSorted {entries : List (String × Nat)} :
    other ∈ entries.foldr insertSorted [] ↔ other ∈ entries := by
  induction entries with
  | nil => simp
  | cons entry entries ih => rw [List.foldr_cons, mem_insertSorted, ih, List.mem_cons]

/-- The sorted names are the names of the states with their positions. -/
theorem mem_sortedNames : (name, i) ∈ nfa.sortedNames ↔ nfa.names[i]? = some name := by
  rw [sortedNames, mem_foldr_insertSorted, List.mk_mem_zipIdx_iff_getElem?]

/-- No name occurs twice, so the sorted names increase. -/
theorem WellFormed.pairwise_sortedNames (h : nfa.WellFormed) :
    nfa.sortedNames.Pairwise fun first second => first.1 < second.1 := by
  have hdistinct : (nfa.names.zipIdx.map Prod.fst).Nodup := by
    rw [List.zipIdx_map_fst]
    exact h.names_nodup
  unfold sortedNames
  generalize nfa.names.zipIdx = entries at hdistinct
  induction entries with
  | nil => simp
  | cons entry entries ih =>
    obtain ⟨hentry, hrest⟩ := List.nodup_cons.mp hdistinct
    refine pairwise_insertSorted (ih hrest) ?_
    intro other hother hsame
    exact hentry (List.mem_map.mpr ⟨other, mem_foldr_insertSorted.mp hother, hsame⟩)

/-! ### Names of subsets -/

/-- The name of the number that encodes a set is made of the names in the set. -/
theorem WellFormed.joins_subsetName (h : nfa.WellFormed) (hsubset : nfa.Encodes subset states)
    (hstates : ∀ name ∈ states, name ∈ nfa.names) :
    Joins states (subsetName nfa.sortedNames subset) := by
  refine ⟨_, ?_, ?_, rfl⟩
  · refine h.pairwise_sortedNames.filterMap _ ?_
    intro first second hlt name hname name' hname'
    simp only [Option.ite_none_right_eq_some, Option.some.injEq] at hname hname'
    rwa [← hname.2, ← hname'.2]
  · intro name
    simp only [List.mem_filterMap, Option.ite_none_right_eq_some, Option.some.injEq, Prod.exists,
      mem_sortedNames]
    constructor
    · rintro ⟨_, i, hi, hbit, rfl⟩
      obtain ⟨state, hstate, hposition⟩ := (hsubset i).mp hbit
      have hsame := getElem?_position (hstates state hstate)
      rw [hposition, hi, Option.some.injEq] at hsame
      rwa [hsame]
    · intro hname
      exact ⟨name, nfa.position name, getElem?_position (hstates name hname),
        (hsubset _).mpr ⟨name, hname, rfl⟩, rfl⟩

/-! ### Names that occur in names -/

/-- A text occurs in another when it is a part of it without gaps. -/
theorem occursIn_iff {part whole : List Char} :
    occursIn part whole = true ↔ part <:+: whole := by
  induction whole with
  | nil => simp [occursIn]
  | cons c rest ih =>
    rw [occursIn, Bool.or_eq_true, List.isPrefixOf_iff_prefix, ih, List.infix_cons_iff]

/-- The name of a member occurs in the name of a set. -/
theorem Joins.occurs_of_mem (h : Joins states text) (hname : name ∈ states) :
    name.toList <:+: text.toList := by
  obtain ⟨names, _, hmem, rfl⟩ := h
  rw [String.toList_join, List.flatMap_def]
  exact List.infix_of_mem_flatten (List.mem_map_of_mem ((hmem name).mpr hname))

/-- Where the members have names of one character, no other name of one character occurs in the
name of the set. -/
theorem Joins.mem_of_occurs (h : Joins states text) (hstates : ∀ other ∈ states, other.length = 1)
    (hname : name.length = 1) (hpart : name.toList <:+: text.toList) : name ∈ states := by
  obtain ⟨names, _, hmem, rfl⟩ := h
  obtain ⟨c, hc⟩ := List.length_eq_one_iff.mp (String.length_toList.trans hname)
  rw [hc, List.singleton_infix_iff, String.toList_join, List.mem_flatMap] at hpart
  obtain ⟨other, hother, hin⟩ := hpart
  have hstate : other ∈ states := (hmem other).mp hother
  obtain ⟨d, hd⟩ :=
    List.length_eq_one_iff.mp (String.length_toList.trans (hstates other hstate))
  rw [hd, List.mem_singleton] at hin
  have hsame : name = other := String.toList_injective (by rw [hc, hd, hin])
  exact hsame ▸ hstate

/-! ### Names that repeat -/

variable {names : List String} {seen : Std.TreeSet String}

/-- Nothing repeats when the names are distinct and none was seen before. -/
theorem firstRepeated_eq_none_iff :
    firstRepeated seen names = none ↔ names.Nodup ∧ ∀ name ∈ names, seen.contains name = false := by
  induction names generalizing seen with
  | nil => simp [firstRepeated]
  | cons name names ih =>
    unfold firstRepeated
    split
    · next hseen => simp [hseen]
    · next hseen =>
      have hinsert : (∀ other ∈ names, (seen.insert name).contains other = false) ↔
          name ∉ names ∧ ∀ other ∈ names, seen.contains other = false := by
        simp only [Std.TreeSet.contains_insert, Bool.or_eq_false_iff, beq_eq_false_iff_ne, ne_eq,
          Std.LawfulEqOrd.compare_eq_iff_eq]
        constructor
        · intro hall
          exact ⟨fun hmem => (hall name hmem).1 rfl, fun other hother => (hall other hother).2⟩
        · rintro ⟨hname, hall⟩ other hother
          exact ⟨fun hsame => hname (hsame ▸ hother), hall other hother⟩
      rw [ih, hinsert, List.nodup_cons, List.forall_mem_cons]
      simp only [Bool.not_eq_true] at hseen
      simp only [hseen, true_and]
      exact and_left_comm.trans and_assoc.symm

/-- A name that repeats stands behind an equal one, or was seen before. -/
theorem exists_of_firstRepeated (h : firstRepeated seen names = some name) :
    ∃ before after, names = before ++ name :: after ∧
      (name ∈ before ∨ seen.contains name = true) := by
  induction names generalizing seen with
  | nil => simp [firstRepeated] at h
  | cons first names ih =>
    unfold firstRepeated at h
    split at h
    · next hseen =>
      obtain rfl := Option.some.inj h
      exact ⟨[], names, rfl, Or.inr hseen⟩
    · obtain ⟨before, after, rfl, hplace⟩ := ih h
      refine ⟨first :: before, after, rfl, ?_⟩
      rw [Std.TreeSet.contains_insert, Bool.or_eq_true, beq_iff_eq,
        Std.LawfulEqOrd.compare_eq_iff_eq] at hplace
      rcases hplace with hbefore | rfl | hseen
      · exact Or.inl (by simp [hbefore])
      · exact Or.inl (by simp)
      · exact Or.inr hseen

end Automata.Nfa
