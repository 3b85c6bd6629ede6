import Automata.Nfa.Lemmas

/-!
# Well-formed nondeterministic automata

Additions keep the parts of an automaton consistent with each other. Whatever sequence of
additions built an automaton, its names are distinct and not empty, its start, its final
states and the ends of its edges are states, and its alphabet holds exactly the characters
that its edges read, of which the mark is none.
-/

namespace Automata.Nfa

/-- The parts of the automaton are consistent with each other. -/
structure WellFormed (nfa : Nfa) : Prop where
  names_nodup : nfa.names.Nodup
  names_ne_empty : ∀ name ∈ nfa.names, name ≠ ""
  start_mem : ∀ start, nfa.start = some start → start ∈ nfa.names
  finals_nodup : nfa.finals.Nodup
  finals_mem : ∀ final ∈ nfa.finals, final ∈ nfa.names
  /-- A state is tagged final when it is among the final states. -/
  tags : ∀ state ∈ nfa.states, (state.isFinal = true ↔ state.name ∈ nfa.finals)
  targets_nodup : ∀ source label, (nfa.targets source label).Nodup
  targets_mem : ∀ source label, ∀ target ∈ nfa.targets source label, target ∈ nfa.names
  alphabet_nodup : nfa.alphabet.Nodup
  mark_not_mem : epsilonMark ∉ nfa.alphabet
  mem_alphabet : ∀ c, c ∈ nfa.alphabet ↔ ∃ source target, target ∈ nfa.targets source (.char c)

variable {nfa extended : Nfa} {name source target : String} {label : Label}

/-- Only states have targets. -/
theorem source_mem_names (h : target ∈ nfa.targets source label) : source ∈ nfa.names := by
  unfold targets at h
  cases hfound : nfa.find? source with
  | none => simp [hfound] at h
  | some state =>
    have hstate : state ∈ nfa.states := List.mem_of_find?_eq_some hfound
    have hname : state.name = source := name_of_find?_eq_some hfound
    exact List.mem_map.mpr ⟨state, hstate, hname⟩

/-- What a state without a name of its own in the automaton leads to. -/
theorem targets_of_not_mem (h : source ∉ nfa.names) (label : Label) :
    nfa.targets source label = [] := by
  cases htargets : nfa.targets source label with
  | nil => rfl
  | cons target rest =>
    have hmem : target ∈ nfa.targets source label := by simp [htargets]
    exact absurd (source_mem_names hmem) h

/-- A state is found by its name. -/
theorem WellFormed.find?_name (h : nfa.WellFormed) {state : State} (hstate : state ∈ nfa.states) :
    nfa.find? state.name = some state :=
  find?_key h.names_nodup hstate

/-- The targets of a state are found by its name. -/
theorem WellFormed.targets_name (h : nfa.WellFormed) {state : State} (hstate : state ∈ nfa.states)
    (label : Label) : nfa.targets state.name label = state.targets label := by
  simp [targets, h.find?_name hstate]

/-- The empty automaton is consistent. -/
theorem wellFormed_empty (flags : Flags) : ({ flags } : Nfa).WellFormed where
  names_nodup := by simp [names]
  names_ne_empty := by simp [names]
  start_mem := by simp
  finals_nodup := by simp
  finals_mem := by simp
  tags := by simp
  targets_nodup := by simp [targets, find?]
  targets_mem := by simp [targets, find?]
  alphabet_nodup := by simp
  mark_not_mem := by simp
  mem_alphabet := by simp [targets, find?]

/-! ### One addition -/

/-- No state without a name can be added. -/
theorem ne_empty_of_addState (h : nfa.addState name = .ok extended) : name ≠ "" := by
  rintro rfl
  simp [addState_empty] at h

/-- More states without edges keep the automaton consistent. -/
theorem WellFormed.moreStates (h : nfa.WellFormed)
    (htargets : ∀ source label, extended.targets source label = nfa.targets source label)
    (hkeeps : extended.alphabet = nfa.alphabet ∧ extended.start = nfa.start ∧
      extended.finals = nfa.finals ∧ extended.flags = nfa.flags)
    (hnodup : extended.names.Nodup) (hnonempty : ∀ name ∈ extended.names, name ≠ "")
    (hold : ∀ name ∈ nfa.names, name ∈ extended.names)
    (hstates : ∀ state ∈ extended.states,
      state ∈ nfa.states ∨ ∃ name, name ∉ nfa.names ∧ state = { name }) :
    extended.WellFormed := by
  obtain ⟨halphabet, hstart, hfinals, _⟩ := hkeeps
  constructor
  case names_nodup => exact hnodup
  case names_ne_empty => exact hnonempty
  case start_mem =>
    intro start hsome
    exact hold start (h.start_mem start (hstart ▸ hsome))
  case finals_nodup => exact hfinals ▸ h.finals_nodup
  case finals_mem =>
    intro final hfinal
    exact hold final (h.finals_mem final (hfinals ▸ hfinal))
  case tags =>
    intro state hstate
    rw [hfinals]
    rcases hstates state hstate with hstate | ⟨name, hmissing, rfl⟩
    · exact h.tags state hstate
    · have hnot : name ∉ nfa.finals := fun hfinal => hmissing (h.finals_mem name hfinal)
      simp [hnot]
  case targets_nodup =>
    intro source label
    rw [htargets]
    exact h.targets_nodup source label
  case targets_mem =>
    intro source label target htarget
    rw [htargets] at htarget
    exact hold target (h.targets_mem source label target htarget)
  case alphabet_nodup => exact halphabet ▸ h.alphabet_nodup
  case mark_not_mem => exact halphabet ▸ h.mark_not_mem
  case mem_alphabet =>
    intro c
    simp only [halphabet, htargets]
    exact h.mem_alphabet c

/-- The states once one more was added, if it was missing. -/
theorem mem_states_addState (h : nfa.addState name = .ok extended) {state : State}
    (hstate : state ∈ extended.states) :
    state ∈ nfa.states ∨ ∃ added, added ∉ nfa.names ∧ state = { name := added } := by
  rw [addState_eq (ne_empty_of_addState h), Except.ok.injEq] at h
  subst h
  split at hstate
  · exact Or.inl hstate
  · next hmissing =>
    rcases List.mem_append.mp hstate with hold | hnew
    · exact Or.inl hold
    · exact Or.inr ⟨name, fun hmem => hmissing (hasState_iff.mpr hmem), List.mem_singleton.mp hnew⟩

/-- Adding a state keeps an automaton consistent. -/
theorem WellFormed.addState (h : nfa.WellFormed) (hadd : nfa.addState name = .ok extended) :
    extended.WellFormed := by
  have hnames := names_addState hadd
  apply h.moreStates (targets_addState hadd) (addState_keeps hadd)
  · rw [hnames]
    exact nodup_addLast h.names_nodup name
  · intro other hother
    rw [hnames] at hother
    rcases mem_addLast.mp hother with hother | rfl
    · exact h.names_ne_empty other hother
    · exact ne_empty_of_addState hadd
  · intro other hother
    rw [hnames]
    exact mem_addLast.mpr (Or.inl hother)
  · exact fun state hstate => mem_states_addState hadd hstate

/-- Adding a start keeps an automaton consistent. -/
theorem WellFormed.addStart (h : nfa.WellFormed) (hadd : nfa.addStart name = .ok extended) :
    extended.WellFormed := by
  have hnames := names_addStart hadd
  obtain ⟨added, hadded, rfl⟩ := exists_addState_of_addStart hadd
  refine { h.addState hadded with start_mem := ?_ }
  intro start hsome
  have hstart : name = start := Option.some.inj hsome
  rw [hnames, ← hstart]
  exact mem_addLast.mpr (Or.inr rfl)

/-- The states once one was made final: the named one, tagged, and the others as they were. -/
theorem mem_states_makeFinal {state : State}
    (h : state ∈ (nfa.modifyState name State.makeFinal).states) :
    (state.name = name ∧ state.isFinal = true) ∨ (state.name ≠ name ∧ state ∈ nfa.states) := by
  obtain ⟨old, hold, rfl⟩ := List.mem_map.mp h
  by_cases hname : old.name = name
  · left
    rw [if_pos hname]
    exact ⟨hname, rfl⟩
  · right
    rw [if_neg hname]
    exact ⟨hname, hold⟩

/-- Adding a final state keeps an automaton consistent. -/
theorem WellFormed.addFinal (h : nfa.WellFormed) (hadd : nfa.addFinal name = .ok extended) :
    extended.WellFormed := by
  have hnames := names_addFinal hadd
  have htargets := targets_addFinal hadd
  obtain ⟨added, hadded, rfl⟩ := exists_addState_of_addFinal hadd
  have hwf := h.addState hadded
  have hfinals : added.finals = nfa.finals := (addState_keeps hadded).2.2.1
  have hsame := names_addState hadded
  constructor
  case names_nodup =>
    rw [hnames]
    exact nodup_addLast h.names_nodup name
  case names_ne_empty =>
    intro other hother
    rw [hnames, ← hsame] at hother
    exact hwf.names_ne_empty other hother
  case start_mem =>
    intro start hsome
    rw [hnames, ← hsame]
    exact hwf.start_mem start hsome
  case finals_nodup => exact nodup_addLast h.finals_nodup name
  case finals_mem =>
    intro final hfinal
    rw [hnames]
    rcases mem_addLast.mp hfinal with hfinal | rfl
    · exact mem_addLast.mpr (Or.inl (h.finals_mem final hfinal))
    · exact mem_addLast.mpr (Or.inr rfl)
  case tags =>
    intro state hstate
    rcases mem_states_makeFinal hstate with ⟨hname, htag⟩ | ⟨hname, hold⟩
    · simp [hname, htag]
    · simpa [hname, hfinals] using hwf.tags state hold
  case targets_nodup =>
    intro source label
    rw [htargets]
    exact h.targets_nodup source label
  case targets_mem =>
    intro source label target htarget
    rw [htargets] at htarget
    rw [hnames]
    exact mem_addLast.mpr (Or.inl (h.targets_mem source label target htarget))
  case alphabet_nodup => exact hwf.alphabet_nodup
  case mark_not_mem => exact hwf.mark_not_mem
  case mem_alphabet =>
    intro c
    simp only [htargets]
    have halphabet : added.alphabet = nfa.alphabet := (addState_keeps hadded).1
    have hmem := h.mem_alphabet c
    rwa [← halphabet] at hmem

/-- Another edge changes neither the names nor the tags of the states. -/
theorem exists_state_of_addEdge (h : nfa.addEdge source label target = .ok extended)
    {state : State} (hstate : state ∈ extended.states) :
    ∃ old ∈ nfa.states, state.name = old.name ∧ state.isFinal = old.isFinal := by
  obtain ⟨hsource, htarget⟩ := addEdge_mem h
  rw [addEdge_eq hsource htarget, Except.ok.injEq] at h
  subst h
  obtain ⟨old, hold, rfl⟩ := List.mem_map.mp hstate
  refine ⟨old, hold, ?_⟩
  split <;> exact ⟨rfl, rfl⟩

/-- Apart from the edges and the alphabet, adding an edge changes nothing. -/
theorem addEdge_keeps (h : nfa.addEdge source label target = .ok extended) :
    extended.start = nfa.start ∧ extended.finals = nfa.finals ∧ extended.flags = nfa.flags := by
  obtain ⟨hsource, htarget⟩ := addEdge_mem h
  rw [addEdge_eq hsource htarget, Except.ok.injEq] at h
  subst h
  exact ⟨rfl, rfl, rfl⟩

/-- A label puts its character into the alphabet, and nothing else comes in. -/
theorem mem_extendAlphabet {alphabet : List Char} {c : Char} :
    c ∈ extendAlphabet alphabet label ↔ c ∈ alphabet ∨ label = .char c := by
  cases label with
  | epsilon => simp [extendAlphabet]
  | char d => simp [extendAlphabet, eq_comm]

/-- No character comes in twice with a label. -/
theorem nodup_extendAlphabet {alphabet : List Char} (h : alphabet.Nodup) (label : Label) :
    (extendAlphabet alphabet label).Nodup := by
  cases label with
  | epsilon => exact h
  | char c => exact nodup_addLast h c

/-- The targets after adding an edge are the old ones and, in its place, the new one. -/
theorem mem_targets_addEdge (h : nfa.addEdge source label target = .ok extended)
    {other reached : String} {read : Label} :
    reached ∈ extended.targets other read ↔
      reached ∈ nfa.targets other read ∨ other = source ∧ read = label ∧ reached = target := by
  rw [targets_addEdge h]
  split
  · next hplace => simp [hplace]
  · next hplace =>
    constructor
    · exact Or.inl
    · rintro (hold | ⟨hother, hread, _⟩)
      · exact hold
      · exact absurd ⟨hother, hread⟩ hplace

/-- An edge whose label can be written keeps the automaton consistent. -/
theorem WellFormed.addEdge (h : nfa.WellFormed) (hlabel : label ≠ .char epsilonMark)
    (hadd : nfa.addEdge source label target = .ok extended) : extended.WellFormed := by
  have hnames := names_addEdge hadd
  have halphabet := alphabet_addEdge hadd
  obtain ⟨hstart, hfinals, _⟩ := addEdge_keeps hadd
  constructor
  case names_nodup => exact hnames ▸ h.names_nodup
  case names_ne_empty => exact hnames ▸ h.names_ne_empty
  case start_mem =>
    intro start hsome
    rw [hnames]
    exact h.start_mem start (hstart ▸ hsome)
  case finals_nodup => exact hfinals ▸ h.finals_nodup
  case finals_mem =>
    intro final hfinal
    rw [hnames]
    exact h.finals_mem final (hfinals ▸ hfinal)
  case tags =>
    intro state hstate
    obtain ⟨old, hold, hname, htag⟩ := exists_state_of_addEdge hadd hstate
    rw [hname, htag, hfinals]
    exact h.tags old hold
  case targets_nodup =>
    intro other read
    rw [targets_addEdge hadd]
    split
    · exact nodup_addLast (h.targets_nodup other read) target
    · exact h.targets_nodup other read
  case targets_mem =>
    intro other read reached hreached
    rw [hnames]
    rcases (mem_targets_addEdge hadd).mp hreached with hold | ⟨_, _, rfl⟩
    · exact h.targets_mem other read reached hold
    · exact (addEdge_mem hadd).2
  case alphabet_nodup =>
    rw [halphabet]
    exact nodup_extendAlphabet h.alphabet_nodup label
  case mark_not_mem =>
    rw [halphabet]
    intro hmark
    rcases mem_extendAlphabet.mp hmark with hmark | hmark
    · exact h.mark_not_mem hmark
    · exact hlabel hmark
  case mem_alphabet =>
    intro c
    rw [halphabet, mem_extendAlphabet, h.mem_alphabet c]
    constructor
    · rintro (⟨other, reached, hedge⟩ | rfl)
      · exact ⟨other, reached, (mem_targets_addEdge hadd).mpr (Or.inl hedge)⟩
      · exact ⟨source, target, (mem_targets_addEdge hadd).mpr (Or.inr ⟨rfl, rfl, rfl⟩)⟩
    · rintro ⟨other, reached, hedge⟩
      rcases (mem_targets_addEdge hadd).mp hedge with hold | ⟨_, hread, _⟩
      · exact Or.inl ⟨other, reached, hold⟩
      · exact Or.inr hread.symm

/-- No character is read as an edge that reads the mark. -/
theorem ofChar_ne_char_mark (c : Char) : Label.ofChar c ≠ .char epsilonMark := by
  unfold Label.ofChar
  split
  · simp
  · next hc => simpa using hc

/-- Every addition that succeeds keeps an automaton consistent. -/
theorem WellFormed.add (h : nfa.WellFormed) {addition : Addition}
    (hadd : nfa.add addition = .ok extended) : extended.WellFormed := by
  cases addition with
  | start name => exact h.addStart hadd
  | state name => exact h.addState hadd
  | final name => exact h.addFinal hadd
  | edge source symbol target => exact h.addEdge (ofChar_ne_char_mark symbol) hadd
  | epsilonEdge source target => exact h.addEdge (by simp) hadd

/-! ### All additions -/

/-- An addition keeps an automaton consistent, whether it is made or not. -/
theorem WellFormed.tryAdd (h : nfa.WellFormed) (addition : Addition) :
    (nfa.tryAdd addition).WellFormed := by
  cases hadd : nfa.add addition with
  | ok extended =>
    rw [tryAdd_of_ok hadd]
    exact h.add hadd
  | error error =>
    rw [tryAdd_of_error hadd]
    exact h

/-- What additions build is consistent, whether each of them succeeds or fails. -/
theorem Built.wellFormed (h : nfa.Built) : nfa.WellFormed := by
  obtain ⟨flags, additions, rfl⟩ := h
  unfold ofAdditions
  generalize hbase : ({ flags } : Nfa) = base
  have hwf : base.WellFormed := hbase ▸ wellFormed_empty flags
  clear hbase
  induction additions generalizing base with
  | nil => exact hwf
  | cons addition additions ih => exact ih (base.tryAdd addition) (hwf.tryAdd addition)

end Automata.Nfa
