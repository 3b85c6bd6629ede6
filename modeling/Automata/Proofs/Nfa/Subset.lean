import Automata.Nfa.Subset
import Automata.Proofs.Nfa.Run
import Mathlib.Data.Set.Card

/-!
# Subsets are the sets reached over words

A number encodes a set of states when its bits are their positions. The first subset of a
conversion encodes what is reached before anything is read, and the successor of a subset
on a symbol encodes what is reached over one symbol more. So the search discovers exactly
the sets that are reached over words on the alphabet, each of them once.
-/

namespace Automata.Nfa

variable {nfa : Nfa} {name other start : String} {symbol : Char} {word : List Char}
variable {subset subset' i : Nat} {states states' : Set String}

/-! ### Positions -/

/-- The name of a state stands at its position. -/
theorem getElem?_position (h : name ∈ nfa.names) : nfa.names[nfa.position name]? = some name := by
  have hlt : nfa.position name < nfa.states.length := by
    obtain ⟨state, hstate, rfl⟩ := List.mem_map.mp h
    exact List.findIdx_lt_length_of_exists ⟨state, hstate, by simp⟩
  have hfound : (nfa.states[nfa.position name]).name = name :=
    eq_of_beq (List.findIdx_getElem (w := hlt))
  rw [names, List.getElem?_map, List.getElem?_eq_getElem hlt, Option.map_some, hfound]

/-- Different states have different places. -/
theorem position_injective (hname : name ∈ nfa.names) (hother : other ∈ nfa.names)
    (h : nfa.position name = nfa.position other) : name = other := by
  have hsame := getElem?_position hname
  rw [h, getElem?_position hother] at hsame
  exact (Option.some.inj hsame).symm

/-! ### Numbers that encode sets -/

/-- The bits of the number are the positions of the states in the set. -/
def Encodes (nfa : Nfa) (subset : Nat) (states : Set String) : Prop :=
  ∀ i, subset.testBit i = true ↔ ∃ name ∈ states, nfa.position name = i

/-- The states at the bits of a number. -/
def members (nfa : Nfa) (subset : Nat) : Set String :=
  {name | name ∈ nfa.names ∧ subset.testBit (nfa.position name) = true}

/-- A set is encoded by one number alone. -/
theorem Encodes.unique (h : nfa.Encodes subset states) (h' : nfa.Encodes subset' states) :
    subset = subset' := by
  apply Nat.eq_of_testBit_eq
  intro i
  rw [Bool.eq_iff_iff, h i, h' i]

/-- A set of states is read off the number that encodes it. -/
theorem Encodes.members_eq (h : nfa.Encodes subset states)
    (hstates : ∀ name ∈ states, name ∈ nfa.names) : nfa.members subset = states := by
  ext name
  constructor
  · rintro ⟨hname, hbit⟩
    obtain ⟨other, hother, hposition⟩ := (h _).mp hbit
    rwa [← position_injective (hstates other hother) hname hposition]
  · intro hname
    exact ⟨hstates name hname, (h _).mpr ⟨name, hname, rfl⟩⟩

/-- Collecting positions sets the bits of the positions that are collected. -/
theorem testBit_subsetOf {names : List String} :
    (nfa.subsetOf names).testBit i = true ↔ ∃ name ∈ names, nfa.position name = i := by
  suffices h : ∀ base : Nat,
      (names.foldl (fun subset name => subset ||| 1 <<< nfa.position name) base).testBit i = true ↔
        base.testBit i = true ∨ ∃ name ∈ names, nfa.position name = i by
    simpa [subsetOf] using h 0
  induction names with
  | nil => simp
  | cons name names ih =>
    intro base
    have hbit : (base ||| 1 <<< nfa.position name).testBit i = true ↔
        base.testBit i = true ∨ nfa.position name = i := by
      simp [Nat.testBit_or, Nat.one_shiftLeft, Nat.testBit_two_pow]
    rw [List.foldl_cons, ih, hbit, or_assoc]
    simp

/-- What a state reaches on a symbol is collected from the closures of its targets. -/
theorem testBit_reachSubset {state : State} :
    (nfa.reachSubset state symbol).testBit i = true ↔
      ∃ target ∈ state.targets (.char symbol), ∃ name ∈ nfa.closure target,
        nfa.position name = i := by
  unfold reachSubset
  generalize state.targets (.char symbol) = targets
  suffices h : ∀ base : Nat,
      (targets.foldl (fun subset target => subset ||| nfa.subsetOf (nfa.closure target))
          base).testBit i = true ↔
        base.testBit i = true ∨
          ∃ target ∈ targets, ∃ name ∈ nfa.closure target, nfa.position name = i by
    simpa using h 0
  induction targets with
  | nil => simp
  | cons target targets ih =>
    intro base
    rw [List.foldl_cons, ih, Nat.testBit_or, Bool.or_eq_true, testBit_subsetOf, or_assoc]
    simp

/-! ### Successors -/

/-- The successor of a subset on a symbol. -/
def successor (nfa : Nfa) (subset : Nat) (symbol : Char) : Nat :=
  unionAt (nfa.states.map fun state => nfa.reachSubset state symbol) subset

/-- The successors of a subset are taken in the order of the alphabet. -/
theorem nextSubsets_eq :
    nextSubsets nfa.reachTables subset = nfa.alphabet.map (nfa.successor subset) := by
  rw [nextSubsets, reachTables, List.map_map]
  rfl

/-- The first subset encodes what is reached before anything is read. -/
theorem WellFormed.encodes_first (h : nfa.WellFormed) (hstart : nfa.start = some start) :
    nfa.Encodes (nfa.subsetOf (nfa.closure start)) (nfa.reached []) := by
  intro i
  rw [testBit_subsetOf]
  simp only [h.mem_reached_nil hstart]

/-- The successor of what is reached over a word encodes what is reached over one symbol
more. -/
theorem WellFormed.encodes_successor (h : nfa.WellFormed)
    (hsubset : nfa.Encodes subset (nfa.reached word)) (symbol : Char) :
    nfa.Encodes (nfa.successor subset symbol) (nfa.reached (word ++ [symbol])) := by
  intro i
  have hclosure : ∀ source, ∀ next ∈ nfa.targets source (.char symbol), ∀ name,
      name ∈ nfa.closure next ↔ nfa.Path next [] name :=
    fun source next hnext name => h.mem_closure (h.targets_mem source _ next hnext)
  simp only [successor, testBit_unionAt, List.getElem?_map, Option.map_eq_some_iff,
    mem_reached_concat]
  constructor
  · rintro ⟨k, hk, _, ⟨state, hstate, rfl⟩, hbit⟩
    obtain ⟨source, hsource, hposition⟩ := (hsubset k).mp hk
    have hname : state.name = source := by
      have hsame := getElem?_position (h.reached_mem hsource)
      rw [hposition, names, List.getElem?_map, hstate] at hsame
      exact Option.some.inj hsame
    obtain ⟨next, hnext, name, hclosed, hi⟩ := testBit_reachSubset.mp hbit
    rw [← h.targets_name (List.mem_of_getElem? hstate), hname] at hnext
    exact ⟨name, ⟨source, hsource, next, hnext, (hclosure _ _ hnext _).mp hclosed⟩, hi⟩
  · rintro ⟨name, ⟨source, hsource, next, hnext, hpath⟩, hi⟩
    have hposition := getElem?_position (h.reached_mem hsource)
    rw [names, List.getElem?_map, Option.map_eq_some_iff] at hposition
    obtain ⟨state, hstate, hname⟩ := hposition
    have hbit : subset.testBit (nfa.position source) = true :=
      (hsubset _).mpr ⟨source, hsource, rfl⟩
    refine ⟨nfa.position source, hbit, _, ⟨state, hstate, rfl⟩, ?_⟩
    refine testBit_reachSubset.mpr ⟨next, ?_, name, (hclosure _ _ hnext _).mpr hpath, hi⟩
    rwa [← h.targets_name (List.mem_of_getElem? hstate), hname]

/-! ### Subsets that are discovered -/

/-- A word whose characters are all symbols. -/
def Over (nfa : Nfa) (word : List Char) : Prop := ∀ c ∈ word, c ∈ nfa.alphabet

/-- The sets of states that are reached over words on the alphabet. -/
def reachedSets (nfa : Nfa) : Set (Set String) :=
  {states | ∃ word, nfa.Over word ∧ nfa.reached word = states}

/-- A word is on the alphabet when what comes before its last symbol is, and this symbol too. -/
theorem over_concat : nfa.Over (word ++ [symbol]) ↔ nfa.Over word ∧ symbol ∈ nfa.alphabet := by
  simp [Over, or_imp, forall_and]

/-- What a word reaches is read off the number that encodes it. -/
theorem WellFormed.members_eq (h : nfa.WellFormed)
    (hsubset : nfa.Encodes subset (nfa.reached word)) : nfa.members subset = nfa.reached word :=
  hsubset.members_eq fun _ => h.reached_mem

/-- The subset that encodes what is reached over a word is found by following the word. -/
theorem WellFormed.exists_encodes (h : nfa.WellFormed) (hstart : nfa.start = some start)
    (hword : nfa.Over word) :
    ∃ subset, Discovery.Reaches (nextSubsets nfa.reachTables)
      (nfa.subsetOf (nfa.closure start)) subset ∧ nfa.Encodes subset (nfa.reached word) := by
  induction word using List.reverseRecOn with
  | nil => exact ⟨_, .refl, h.encodes_first hstart⟩
  | append_singleton word symbol ih =>
    obtain ⟨hbefore, hsymbol⟩ := over_concat.mp hword
    obtain ⟨subset, hreach, hsubset⟩ := ih hbefore
    refine ⟨nfa.successor subset symbol, hreach.tail ?_, h.encodes_successor hsubset symbol⟩
    rw [nextSubsets_eq]
    exact List.mem_map_of_mem hsymbol

/-- Successors of the first subset encode what is reached over words. -/
theorem WellFormed.exists_word (h : nfa.WellFormed) (hstart : nfa.start = some start)
    (hreach : Discovery.Reaches (nextSubsets nfa.reachTables)
      (nfa.subsetOf (nfa.closure start)) subset) :
    ∃ word, nfa.Over word ∧ nfa.Encodes subset (nfa.reached word) := by
  induction hreach with
  | refl => exact ⟨[], by simp [Over], h.encodes_first hstart⟩
  | tail _ hnext ih =>
    obtain ⟨word, hword, hsubset⟩ := ih
    rw [nextSubsets_eq] at hnext
    obtain ⟨symbol, hsymbol, rfl⟩ := List.mem_map.mp hnext
    exact ⟨word ++ [symbol], over_concat.mpr ⟨hword, hsymbol⟩, h.encodes_successor hsubset symbol⟩

/-- A list of the subsets that a conversion needs, each once and the first one first. -/
structure ListsSubsets (nfa : Nfa) (subsets : List Nat) : Prop where
  nodup : subsets.Nodup
  head : ∃ first, subsets.head? = some first ∧ nfa.Encodes first (nfa.reached [])
  mem_iff : ∀ subset, subset ∈ subsets ↔
    ∃ word, nfa.Over word ∧ nfa.Encodes subset (nfa.reached word)

variable {subsets : List Nat} {limit larger : Nat}

/-- Without a start there is no first subset. -/
theorem subsets_no_start (h : nfa.start = none) : nfa.subsets limit = .error .noStartState := by
  simp [Nfa.subsets, h]

/-- When subsets are found there is a start. -/
theorem exists_start_of_subsets (hok : nfa.subsets limit = .ok subsets) :
    ∃ start, nfa.start = some start := by
  cases hstart : nfa.start with
  | none => simp [subsets_no_start hstart] at hok
  | some start => exact ⟨start, rfl⟩

/-- What expanding the next subset keeps holds of the search that lists the subsets, when it ends
within its limit. -/
theorem subsets_induction {P : Nat → Discovery Nat → Prop} (hstart : nfa.start = some start)
    (hbegin : P 0 (.single (nfa.subsetOf (nfa.closure start))))
    (hstep : ∀ position found subset, P position found → found.toList[position]? = some subset →
      P (position + 1) (found.insertAll (nextSubsets nfa.reachTables subset)))
    (hok : nfa.subsets limit = .ok subsets) :
    subsets.length ≤ limit ∧ ∃ found expanded, found.toList = subsets ∧
      found.size ≤ expanded ∧ P expanded found := by
  simp only [Nfa.subsets, hstart] at hok
  split at hok
  · next found hfound =>
    have hlist : found.toList = subsets := Except.ok.inj hok
    have hsize : (Discovery.single (nfa.subsetOf (nfa.closure start))).size = 1 := rfl
    obtain ⟨hle, expanded, hall, hend⟩ :=
      Discovery.explore_induction hbegin hstep (by omega) (Or.inr (by omega)) hfound
    exact ⟨by rwa [← hlist, Discovery.length_toList], found, expanded, hlist, hall, hend⟩
  · simp at hok

/-- A search that stays within its limit lists the subsets that are needed. -/
theorem WellFormed.subsets_ok (h : nfa.WellFormed) (hok : nfa.subsets limit = .ok subsets) :
    subsets.length ≤ limit ∧ nfa.ListsSubsets subsets := by
  obtain ⟨start, hstart⟩ := exists_start_of_subsets hok
  obtain ⟨hle, found, expanded, rfl, hall, hexpanded⟩ :=
    subsets_induction hstart (Discovery.expanded_single (nextSubsets nfa.reachTables) _)
      (fun _ _ _ hsearch hsubset => hsearch.insertAll hsubset) hok
  refine ⟨hle, found.nodup, ⟨_, hexpanded.head, h.encodes_first hstart⟩, fun subset => ?_⟩
  rw [hexpanded.mem_iff hall]
  constructor
  · exact h.exists_word hstart
  · rintro ⟨word, hword, hsubset⟩
    obtain ⟨other, hreach, hother⟩ := h.exists_encodes hstart hword
    rwa [hsubset.unique hother]

/-- A search that ends within its limit ends in the same way within any larger one. -/
theorem subsets_mono (hlarger : limit ≤ larger) (hok : nfa.subsets limit = .ok subsets) :
    nfa.subsets larger = .ok subsets := by
  obtain ⟨start, hstart⟩ := exists_start_of_subsets hok
  simp only [Nfa.subsets, hstart] at hok ⊢
  split at hok
  · next found hfound =>
    have hsize : (Discovery.single (nfa.subsetOf (nfa.closure start))).size = 1 := rfl
    rw [Discovery.explore_mono hlarger (by omega) (by omega) (Or.inr (by omega)) hfound]
    exact hok
  · simp at hok

/-! ### How many subsets there are -/

/-- There are finitely many sets to reach. -/
theorem WellFormed.finite_reachedSets (h : nfa.WellFormed) : nfa.reachedSets.Finite := by
  have hall : {name | name ∈ nfa.names}.Finite := nfa.names.finite_toSet
  refine hall.finite_subsets.subset ?_
  rintro _ ⟨word, _, rfl⟩ name hname
  exact h.reached_mem hname

/-- Different numbers in a list of reached subsets encode different sets. -/
theorem WellFormed.ncard_members (h : nfa.WellFormed) (hnodup : subsets.Nodup)
    (hreached : ∀ subset ∈ subsets, ∃ word, nfa.Encodes subset (nfa.reached word)) :
    (nfa.members '' {subset | subset ∈ subsets}).ncard = subsets.length := by
  have hinjective : Set.InjOn nfa.members {subset | subset ∈ subsets} := by
    intro subset hsubset other hother hsame
    obtain ⟨word, hword⟩ := hreached subset hsubset
    obtain ⟨word', hword'⟩ := hreached other hother
    rw [h.members_eq hword, h.members_eq hword'] at hsame
    exact hword.unique (hsame ▸ hword')
  have hfinset : {subset | subset ∈ subsets} = (subsets.toFinset : Set Nat) := by
    ext subset
    simp
  rw [hinjective.ncard_image, hfinset, Set.ncard_coe_finset,
    List.toFinset_card_of_nodup hnodup]

/-- A list of reached subsets is no longer than there are reached sets. -/
theorem WellFormed.length_le_ncard (h : nfa.WellFormed) (hnodup : subsets.Nodup)
    (hreached : ∀ subset ∈ subsets, ∃ word, nfa.Over word ∧
      nfa.Encodes subset (nfa.reached word)) :
    subsets.length ≤ nfa.reachedSets.ncard := by
  rw [← h.ncard_members hnodup fun subset hsubset =>
    (hreached subset hsubset).imp fun _ hword => hword.2]
  refine Set.ncard_le_ncard ?_ h.finite_reachedSets
  rintro _ ⟨subset, hsubset, rfl⟩
  obtain ⟨word, hover, hword⟩ := hreached subset hsubset
  exact ⟨word, hover, (h.members_eq hword).symm⟩

/-- The subsets that a conversion needs are as many as the reached sets. -/
theorem ListsSubsets.length_eq (hlists : nfa.ListsSubsets subsets) (h : nfa.WellFormed)
    (hstart : nfa.start = some start) : subsets.length = nfa.reachedSets.ncard := by
  rw [← h.ncard_members hlists.nodup fun subset hsubset =>
    ((hlists.mem_iff subset).mp hsubset).imp fun _ hword => hword.2]
  congr 1
  ext states
  constructor
  · rintro ⟨subset, hsubset, rfl⟩
    obtain ⟨word, hover, hword⟩ := (hlists.mem_iff subset).mp hsubset
    exact ⟨word, hover, (h.members_eq hword).symm⟩
  · rintro ⟨word, hover, rfl⟩
    obtain ⟨subset, _, hsubset⟩ := h.exists_encodes hstart hover
    exact ⟨subset, (hlists.mem_iff subset).mpr ⟨word, hover, hsubset⟩, h.members_eq hsubset⟩

/-- A search that gives up has found more sets than it may, and at most one row too many. -/
theorem WellFormed.subsets_error (h : nfa.WellFormed) (hstart : nfa.start = some start)
    {error : Error} (herror : nfa.subsets limit = .error error) :
    ∃ count, error = .subsetLimitExceeded count limit ∧ limit < count ∧
      count ≤ max limit 1 + nfa.alphabet.length ∧ count ≤ nfa.reachedSets.ncard := by
  simp only [Nfa.subsets, hstart] at herror
  split at herror
  · simp at herror
  · next count hcount =>
    have hwidth : ∀ subset, (nextSubsets nfa.reachTables subset).length ≤ nfa.alphabet.length := by
      intro subset
      simp [nextSubsets_eq]
    have hbegin := Discovery.expanded_single (nextSubsets nfa.reachTables)
      (nfa.subsetOf (nfa.closure start))
    have hsize : (Discovery.single (nfa.subsetOf (nfa.closure start))).size = 1 := rfl
    obtain ⟨hlt, hle, more, hmore, hreached⟩ :=
      Discovery.explore_error hwidth hbegin (by omega) hcount
    refine ⟨count, (Except.error.inj herror).symm, hlt, hle, ?_⟩
    rw [← hmore, ← Discovery.length_toList]
    exact h.length_le_ncard more.nodup fun subset hsubset =>
      h.exists_word hstart (hreached subset hsubset)

end Automata.Nfa
