import Automata.Proofs.Dfa.Order

/-!
# Final by name and final by membership

Which subsets a conversion needs, what they are called and where their moves lead does not
depend on the flags. Only whether a subset is final does. The name of a final member occurs in
the name of its subset, so a subset that is final by membership is final by name. The converse
needs names that cannot run into one another, such as those of a single character.
-/

namespace Automata

/-! ### Automata that differ in what is final -/

/-- The other automaton has the same states and moves, and what is final in the first is final
in it. -/
structure Dfa.Loosens (dfa loose : Dfa) : Prop where
  mem_names : ∀ name, name ∈ dfa.names ↔ name ∈ loose.names
  start_eq : dfa.start = loose.start
  alphabet_eq : dfa.alphabet = loose.alphabet
  target_eq : ∀ name symbol, dfa.target name symbol = loose.target name symbol
  shortcut_eq : dfa.flags.epsilonShortcut = loose.flags.epsilonShortcut
  isFinal_of : ∀ name, dfa.isFinal name = true → loose.isFinal name = true

namespace Dfa.Loosens

variable {dfa loose : Dfa} {input : String}

/-- Runs follow moves alone, so they end in the same states. -/
theorem runFrom_eq (h : dfa.Loosens loose) (state : String) (input : List Char) :
    dfa.runFrom state input = loose.runFrom state input := by
  induction input generalizing state with
  | nil => rfl
  | cons symbol rest ih =>
    simp only [runFrom, h.alphabet_eq, h.target_eq, h.shortcut_eq]
    split
    · cases loose.target state symbol with
      | none => rfl
      | some next => exact ih next
    · rfl

/-- From the start as well, runs end in the same states. -/
theorem run_eq (h : dfa.Loosens loose) (input : String) : dfa.run input = loose.run input := by
  simp only [run, h.start_eq, h.runFrom_eq]

/-- What is accepted stays accepted. -/
theorem accepts_of (h : dfa.Loosens loose) (haccepts : dfa.accepts input = .ok true) :
    loose.accepts input = .ok true := by
  unfold accepts at haccepts ⊢
  rw [← h.run_eq]
  cases hrun : dfa.run input with
  | error error => simp [hrun, bind, Except.bind] at haccepts
  | ok run =>
    have hverdict : dfa.verdict run = .ok true := by rwa [hrun] at haccepts
    cases run with
    | rejected => simp [verdict] at hverdict
    | stuck state symbol => simp [verdict] at hverdict
    | finished state | cut state =>
      have hfinal : dfa.isFinal state = true := Except.ok.inj hverdict
      exact congrArg Except.ok (h.isFinal_of state hfinal)

/-- Where nothing more is final, nothing else is accepted and nothing else fails. -/
theorem accepts_eq (h : dfa.Loosens loose) (hfinals : dfa.finals = loose.finals)
    (input : String) : dfa.accepts input = loose.accepts input := by
  have hverdict : dfa.verdict = loose.verdict := by
    funext run
    cases run <;> simp [verdict, isFinal, hfinals]
  rw [accepts, accepts, h.run_eq, hverdict]

end Dfa.Loosens

namespace Nfa

variable {nfa : Nfa} {dfa : Dfa} {flags flags' : Flags} {addition : Addition}
variable {additions : List Addition} {subsets : List Nat} {subset limit : Nat}
variable {name : String} {symbol : Char} {word : List Char} {error : Error}

/-! ### Other flags -/

/-- The automaton with other flags. -/
def withFlags (nfa : Nfa) (flags : Flags) : Nfa := { nfa with flags }

/-- Adding a state does not look at the flags. -/
theorem addState_withFlags (nfa : Nfa) (flags : Flags) (name : String) :
    (nfa.withFlags flags).addState name = (nfa.addState name).map (withFlags · flags) := by
  by_cases hname : name = ""
  · rw [hname]
    rfl
  · rw [addState_eq hname, addState_eq hname]
    have hsame : (nfa.withFlags flags).hasState name = nfa.hasState name := rfl
    rw [hsame]
    split <;> rfl

/-- Adding an edge does not look at the flags. -/
theorem addEdge_withFlags (nfa : Nfa) (flags : Flags) (source : String) (label : Label)
    (target : String) : (nfa.withFlags flags).addEdge source label target =
      (nfa.addEdge source label target).map (withFlags · flags) := by
  have hnames : (nfa.withFlags flags).names = nfa.names := rfl
  by_cases hsource : source ∈ nfa.names
  · by_cases htarget : target ∈ nfa.names
    · rw [addEdge_eq hsource htarget, addEdge_eq (hnames ▸ hsource) (hnames ▸ htarget)]
      rfl
    · rw [addEdge_unknown_target hsource htarget,
        addEdge_unknown_target (hnames ▸ hsource) (hnames ▸ htarget)]
      rfl
  · rw [addEdge_unknown_source hsource, addEdge_unknown_source (hnames ▸ hsource)]
    rfl

/-- No addition looks at the flags. -/
theorem tryAdd_withFlags (nfa : Nfa) (flags : Flags) (addition : Addition) :
    (nfa.withFlags flags).tryAdd addition = (nfa.tryAdd addition).withFlags flags := by
  have hadd : (nfa.withFlags flags).add addition =
      (nfa.add addition).map (withFlags · flags) := by
    cases addition with
    | start name =>
      simp only [add, addStart, addState_withFlags]
      cases nfa.addState name <;> rfl
    | state name => exact addState_withFlags nfa flags name
    | final name =>
      simp only [add, addFinal, addState_withFlags]
      cases nfa.addState name <;> rfl
    | edge source symbol target => exact addEdge_withFlags nfa flags source _ target
    | epsilonEdge source target => exact addEdge_withFlags nfa flags source _ target
  cases hend : nfa.add addition with
  | ok extended => rw [tryAdd_of_ok hend, tryAdd_of_ok (hadd.trans (congrArg _ hend))]
  | error error => rw [tryAdd_of_error hend, tryAdd_of_error (hadd.trans (congrArg _ hend))]

/-- Additions make the same automaton under any flags, up to these. -/
theorem ofAdditions_withFlags (flags flags' : Flags) (additions : List Addition) :
    (ofAdditions flags additions).withFlags flags' = ofAdditions flags' additions := by
  -- The additions start from nothing, but after the first of them from something else.
  have hfold : ∀ nfa : Nfa, (additions.foldl tryAdd nfa).withFlags flags' =
      additions.foldl tryAdd (nfa.withFlags flags') := by
    induction additions with
    | nil => exact fun _ => rfl
    | cons addition additions ih =>
      intro nfa
      rw [List.foldl_cons, List.foldl_cons, tryAdd_withFlags]
      exact ih (nfa.tryAdd addition)
  exact hfold { flags }

/-- No addition changes the flags. -/
theorem flags_ofAdditions (flags : Flags) (additions : List Addition) :
    (ofAdditions flags additions).flags = flags :=
  congrArg Nfa.flags (ofAdditions_withFlags flags flags additions).symm

/-! ### What does not depend on the flags -/

/-- The subsets that become states, if they are few enough and their names differ. -/
def namedSubsets (nfa : Nfa) (limit : Nat) : Except Error (List Nat) := do
  let subsets ← nfa.subsets limit
  match firstRepeated {} (subsets.map nfa.nameOf) with
  | some name => throw (.ambiguousSubsetName name)
  | none => return subsets

/-- A conversion lays out the named subsets, and fails when they cannot be had. -/
theorem toDfaWithin_eq_map (nfa : Nfa) (limit : Nat) :
    nfa.toDfaWithin limit =
      (nfa.namedSubsets limit).map fun subsets =>
        (nfa.layOut (nfa.subsetRows subsets)).toDfa := by
  cases hsubsets : nfa.subsets limit with
  | error error => simp [toDfaWithin, namedSubsets, hsubsets, bind, Except.bind, Except.map]
  | ok subsets =>
    simp only [toDfaWithin, namedSubsets, hsubsets, bind, Except.bind, ambiguousName,
      names_subsetRows]
    cases firstRepeated {} (subsets.map nfa.nameOf) <;> rfl

/-- A conversion fails as the search for the named subsets does. -/
theorem toDfaWithin_eq_error_iff :
    nfa.toDfaWithin limit = .error error ↔ nfa.namedSubsets limit = .error error := by
  rw [toDfaWithin_eq_map]
  cases nfa.namedSubsets limit <;> simp [Except.map]

/-! ### Final by name -/

/-- The automaton with final subsets told by their names. -/
def loosened (nfa : Nfa) : Nfa := nfa.withFlags { nfa.flags with substringFinality := true }

/-- The flags have no part in whether an automaton is well-formed. -/
theorem WellFormed.loosened (h : nfa.WellFormed) : nfa.loosened.WellFormed where
  names_nodup := h.names_nodup
  names_ne_empty := h.names_ne_empty
  start_mem := h.start_mem
  finals_nodup := h.finals_nodup
  finals_mem := h.finals_mem
  tags := h.tags
  targets_nodup := h.targets_nodup
  targets_mem := h.targets_mem
  alphabet_nodup := h.alphabet_nodup
  mark_not_mem := h.mark_not_mem
  mem_alphabet := h.mem_alphabet

/-- The same subsets are needed, and they have the same names. -/
theorem namedSubsets_loosened (nfa : Nfa) (limit : Nat) :
    nfa.loosened.namedSubsets limit = nfa.namedSubsets limit := rfl

/-- The rows of a subset differ at most in whether it is final. -/
theorem namedRow_loosened (nfa : Nfa) (subset : Nat) :
    nfa.loosened.namedRow subset =
      { nfa.namedRow subset with
        isFinal := nfa.finals.any fun final =>
          occursIn final.toList (nfa.nameOf subset).toList } := rfl

section Loosened

variable (h : nfa.WellFormed) (hflags : nfa.flags.substringFinality = false)

include h hflags

/-- A subset with a final member is final by its name. -/
theorem WellFormed.isFinal_loosened_of (hsubset : nfa.Encodes subset (nfa.reached word))
    (hfinal : (nfa.namedRow subset).isFinal = true) :
    (nfa.loosened.namedRow subset).isFinal = true := by
  have hmember := (h.isFinalSubset_iff hsubset).mp hfinal
  rw [hflags, if_neg Bool.false_ne_true] at hmember
  obtain ⟨final, hmem, hreached⟩ := hmember
  have hpart := (h.joins_nameOf hsubset).occurs_of_mem hreached
  exact List.any_eq_true.mpr ⟨final, hmem, occursIn_iff.mpr hpart⟩

/-- Where all names have one character, a subset that is final by its name has a final
member. -/
theorem WellFormed.namedRow_loosened_eq (hsubset : nfa.Encodes subset (nfa.reached word))
    (hnames : ∀ name ∈ nfa.names, name.length = 1) :
    nfa.loosened.namedRow subset = nfa.namedRow subset := by
  have hfinal : (nfa.loosened.namedRow subset).isFinal = (nfa.namedRow subset).isFinal := by
    rw [Bool.eq_iff_iff]
    refine ⟨?_, h.isFinal_loosened_of hflags hsubset⟩
    intro hloose
    obtain ⟨final, hmem, hoccurs⟩ := List.any_eq_true.mp hloose
    have hreached : final ∈ nfa.reached word :=
      (h.joins_nameOf hsubset).mem_of_occurs (fun name hname => hnames name (h.reached_mem hname))
        (hnames final (h.finals_mem final hmem)) (occursIn_iff.mp hoccurs)
    refine (h.isFinalSubset_iff hsubset).mpr ?_
    rw [hflags, if_neg Bool.false_ne_true]
    exact ⟨final, hmem, hreached⟩
  rw [namedRow_loosened]
  exact congrArg (fun final => { nfa.namedRow subset with isFinal := final }) hfinal

variable (hlists : nfa.ListsSubsets subsets)

include hlists

/-- Laid out, the subsets have the same names and moves, and what has a final member is
final. -/
theorem WellFormed.loosens_dfaOfRows (hnodup : (subsets.map nfa.nameOf).Nodup) :
    (nfa.dfaOfRows (nfa.namedRows subsets)).Loosens
      (nfa.loosened.dfaOfRows (nfa.loosened.namedRows subsets)) := by
  have hperm := perm_names_dfaOfRows nfa (nfa.namedRows subsets)
  have hperm' := perm_names_dfaOfRows nfa.loosened (nfa.loosened.namedRows subsets)
  have hrows := names_namedRows nfa subsets ▸ hnodup
  have hrows' : ((nfa.loosened.namedRows subsets).map (·.name)).Nodup :=
    names_namedRows nfa.loosened subsets ▸ hnodup
  rw [names_namedRows] at hperm hperm'
  constructor
  case mem_names =>
    intro name
    rw [hperm.mem_iff, hperm'.mem_iff]
    rfl
  case start_eq =>
    simp only [dfaOfRows, namedRows, List.head?_map, Option.map_map]
    rfl
  case alphabet_eq => rfl
  case target_eq =>
    intro name symbol
    -- A name that no row has is no state of either, so nothing leads on from it.
    by_cases hname : name ∈ subsets.map nfa.nameOf
    · obtain ⟨subset, hsubset, rfl⟩ := List.mem_map.mp hname
      have hmove : (nfa.dfaOfRows (nfa.namedRows subsets)).target (nfa.nameOf subset) symbol =
          (nfa.alphabet.zip (nfa.namedRow subset).targets).lookup symbol :=
        target_dfaOfRows hrows (namedRow_mem hsubset)
      rw [hmove]
      exact (target_dfaOfRows hrows' (namedRow_mem hsubset)).symm
    · rw [Dfa.target_of_not_mem fun hmem => hname (hperm.mem_iff.mp hmem),
        Dfa.target_of_not_mem fun hmem => hname (hperm'.mem_iff.mp hmem)]
  case shortcut_eq => rfl
  case isFinal_of =>
    intro name hfinal
    simp only [Dfa.isFinal, dfaOfRows, namedRows, List.contains_iff_mem, List.mem_map,
      List.mem_filter] at hfinal ⊢
    obtain ⟨_, ⟨⟨subset, hsubset, rfl⟩, hmember⟩, rfl⟩ := hfinal
    obtain ⟨word, _, hencodes⟩ := (hlists.mem_iff subset).mp hsubset
    exact ⟨_, ⟨⟨subset, hsubset, rfl⟩, h.isFinal_loosened_of hflags hencodes hmember⟩, rfl⟩

/-- Where all names have one character, the subsets are laid out in the same way. -/
theorem WellFormed.namedRows_loosened (hnames : ∀ name ∈ nfa.names, name.length = 1) :
    nfa.loosened.namedRows subsets = nfa.namedRows subsets := by
  rw [namedRows, namedRows]
  refine List.map_congr_left fun subset hsubset => ?_
  obtain ⟨word, _, hencodes⟩ := (hlists.mem_iff subset).mp hsubset
  exact h.namedRow_loosened_eq hflags hencodes hnames

end Loosened

/-- A conversion in which subsets are told by name ends like one that looks at members, and on
success it loosens what that one gives. -/
theorem WellFormed.toDfaWithin_loosened (h : nfa.WellFormed)
    (hflags : nfa.flags.substringFinality = false) (limit : Nat) :
    (∃ error, nfa.toDfaWithin limit = .error error ∧
      nfa.loosened.toDfaWithin limit = .error error) ∨
    ∃ dfa loose, nfa.toDfaWithin limit = .ok dfa ∧ nfa.loosened.toDfaWithin limit = .ok loose ∧
      dfa.Loosens loose ∧
      ((∀ name ∈ nfa.names, name.length = 1) →
        dfa.names = loose.names ∧ dfa.finals = loose.finals) := by
  cases hend : nfa.toDfaWithin limit with
  | error error =>
    have hnamed : nfa.namedSubsets limit = .error error := toDfaWithin_eq_error_iff.mp hend
    exact Or.inl ⟨error, rfl,
      toDfaWithin_eq_error_iff.mpr ((namedSubsets_loosened nfa limit).trans hnamed)⟩
  | ok dfa =>
    obtain ⟨subsets, hsubsets, hnodup, rfl⟩ := h.toDfaWithin_eq_ok_iff.mp hend
    have hlists := (h.subsets_ok hsubsets).2
    refine Or.inr ⟨_, nfa.loosened.dfaOfRows (nfa.loosened.namedRows subsets), rfl,
      h.loosened.toDfaWithin_eq_ok_iff.mpr ⟨subsets, hsubsets, hnodup, rfl⟩,
      h.loosens_dfaOfRows hflags hlists hnodup, ?_⟩
    intro hnames
    rw [h.namedRows_loosened hflags hlists hnames]
    exact ⟨rfl, rfl⟩

/-- The state with the empty name is not final in a conversion. -/
theorem WellFormed.isFinal_empty (h : nfa.WellFormed) (hok : nfa.toDfaWithin limit = .ok dfa) :
    dfa.isFinal "" = false := by
  by_cases hmem : "" ∈ dfa.names
  · exact (h.determinizes hok).isFinal_empty h hmem
  · rw [Dfa.isFinal, ← Bool.not_eq_true, List.contains_iff_mem]
    exact fun hfinal => hmem (h.finals_mem_of_toDfaWithin hok "" hfinal)

/-- Whether subsets are final by membership or by name changes nothing about how a conversion
ends, nor about the states, the start and the moves that it gives. What is final by membership
is final by name, so all that is accepted stays accepted, and the state with the empty name is
final in neither way. Where all states have names of one character, both ways give the same
states in the same order, the same final states and the same answers. -/
theorem finality_by_name (flags : Flags) (additions : List Addition) (limit : Nat) :
    let byMember := ofAdditions { flags with substringFinality := false } additions
    let byName := ofAdditions { flags with substringFinality := true } additions
    ((∃ dfa, byMember.toDfaWithin limit = .ok dfa) ↔
      ∃ dfa, byName.toDfaWithin limit = .ok dfa) ∧
    (∀ error, byMember.toDfaWithin limit = .error error ↔
      byName.toDfaWithin limit = .error error) ∧
    ∀ dfa loose, byMember.toDfaWithin limit = .ok dfa → byName.toDfaWithin limit = .ok loose →
      (∀ name, name ∈ dfa.names ↔ name ∈ loose.names) ∧ dfa.start = loose.start ∧
      (∀ name symbol, dfa.target name symbol = loose.target name symbol) ∧
      (∀ name, dfa.isFinal name = true → loose.isFinal name = true) ∧
      (∀ input, dfa.accepts input = .ok true → loose.accepts input = .ok true) ∧
      dfa.isFinal "" = false ∧ loose.isFinal "" = false ∧
      ((∀ name ∈ byMember.names, name.length = 1) →
        dfa.names = loose.names ∧ dfa.finals = loose.finals ∧
          ∀ input, dfa.accepts input = loose.accepts input) := by
  intro byMember byName
  have hbyMember : byMember.WellFormed := Built.wellFormed ⟨_, _, rfl⟩
  have hbyName : byName.WellFormed := Built.wellFormed ⟨_, _, rfl⟩
  have hkeeps : byMember.flags = { flags with substringFinality := false } :=
    flags_ofAdditions _ additions
  have hloosened : byName = byMember.loosened := by
    rw [loosened, hkeeps, ofAdditions_withFlags]
  have hflags : byMember.flags.substringFinality = false := by rw [hkeeps]
  rcases hbyMember.toDfaWithin_loosened hflags limit with
    ⟨error, hend, hend'⟩ | ⟨dfa, loose, hend, hend', hloosens, hsingle⟩
  · rw [← hloosened] at hend'
    simp [hend, hend']
  · rw [← hloosened] at hend'
    refine ⟨by simp [hend, hend'], by simp [hend, hend'], ?_⟩
    intro dfa' loose' hok hok'
    obtain rfl : dfa = dfa' := Except.ok.inj (hend.symm.trans hok)
    obtain rfl : loose = loose' := Except.ok.inj (hend'.symm.trans hok')
    refine ⟨hloosens.mem_names, hloosens.start_eq, hloosens.target_eq, hloosens.isFinal_of,
      fun input => hloosens.accepts_of, hbyMember.isFinal_empty hend, hbyName.isFinal_empty hend',
      ?_⟩
    intro hnames
    obtain ⟨hsame, hfinals⟩ := hsingle hnames
    exact ⟨hsame, hfinals, hloosens.accepts_eq hfinals⟩

/-- A state that is not final, though its name holds that of a final state. -/
def longerNames : List Addition := [.start "x1", .final "1", .edge "x1" 'a' "1"]

/-- Told by name, the start becomes final and so comes first. -/
theorem finality_by_name_longerNames :
    ∃ dfa loose, (ofAdditions {} longerNames).toDfaWithin 3 = .ok dfa ∧
      (ofAdditions { substringFinality := true } longerNames).toDfaWithin 3 = .ok loose ∧
      dfa.names = ["1", "x1", ""] ∧ loose.names = ["x1", "1", ""] ∧
      dfa.accepts "" = .ok false ∧ loose.accepts "" = .ok true ∧
      (∀ name symbol, dfa.target name symbol = loose.target name symbol) ∧
      (∀ input, dfa.accepts input = .ok true → loose.accepts input = .ok true) ∧
      loose.isFinal "" = false := by
  obtain ⟨dfa, hok, hnames, hstart⟩ : ∃ dfa, (ofAdditions {} longerNames).toDfaWithin 3 = .ok dfa ∧
      dfa.names = ["1", "x1", ""] ∧ dfa.accepts "" = .ok false := ⟨_, rfl, by decide, rfl⟩
  obtain ⟨loose, hok', hnames', hstart'⟩ : ∃ loose,
      (ofAdditions { substringFinality := true } longerNames).toDfaWithin 3 = .ok loose ∧
      loose.names = ["x1", "1", ""] ∧ loose.accepts "" = .ok true := ⟨_, rfl, by decide, rfl⟩
  obtain ⟨_, _, hboth⟩ := finality_by_name {} longerNames 3
  obtain ⟨_, _, hmoves, _, haccepts, _, hempty, _⟩ := hboth dfa loose hok hok'
  exact ⟨dfa, loose, hok, hok', hnames, hnames', hstart, hstart', hmoves, haccepts, hempty⟩

end Nfa

end Automata
