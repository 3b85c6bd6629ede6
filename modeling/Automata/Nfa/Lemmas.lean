import Automata.Nfa.Basic

/-!
# What additions do to an automaton

Names, targets, alphabet, start and final states are all that can be seen of a
nondeterministic automaton. For each addition that succeeds, these lemmas say what it does
to them.
-/

namespace Automata.Nfa

variable {nfa extended : Nfa} {name other source target : String} {label : Label}

/-! ### Looking at one state -/

/-- A state that is found has the name that was looked for. -/
theorem name_of_find?_eq_some {state : State} (h : nfa.find? name = some state) :
    state.name = name := by
  simpa using List.find?_some h

/-- A change to the named state shows when that state is looked up, and nowhere else. -/
theorem find?_modifyState {change : State → State}
    (hname : ∀ state, (change state).name = state.name) :
    (nfa.modifyState name change).find? other =
      (nfa.find? other).map fun state => if other = name then change state else state := by
  have hkeep : ((fun state : State => state.name == other) ∘
      fun state => if state.name = name then change state else state) =
        fun state => state.name == other := by
    funext state
    simp only [Function.comp]
    split <;> simp [hname]
  simp only [find?, modifyState, List.find?_map, hkeep]
  refine Option.map_congr fun state hfound => ?_
  have hstate : state.name = other := by
    simpa using List.find?_some hfound
  rw [hstate]

/-- A change that keeps the name of a state keeps all names. -/
@[simp] theorem names_modifyState {change : State → State}
    (hname : ∀ state, (change state).name = state.name) :
    (nfa.modifyState name change).names = nfa.names := by
  simp only [names, modifyState, List.map_map]
  refine List.map_congr_left fun state _ => ?_
  simp only [Function.comp]
  split <;> simp [hname]

/-- A change that keeps names and edges moves no targets. -/
theorem targets_modifyState {change : State → State}
    (hname : ∀ state, (change state).name = state.name)
    (hedges : ∀ state, (change state).edges = state.edges) (other : String) (label : Label) :
    (nfa.modifyState name change).targets other label = nfa.targets other label := by
  simp only [targets, find?_modifyState hname]
  cases nfa.find? other with
  | none => rfl
  | some state =>
    simp only [Option.map_some]
    split <;> simp [State.targets, hedges]

/-! ### Adding a state -/

/-- There is no state with the empty name. -/
theorem addState_empty : nfa.addState "" = .error .emptyStateName := rfl

/-- A state with a name can always be added. -/
theorem addState_eq (h : name ≠ "") :
    nfa.addState name =
      .ok (if nfa.hasState name then nfa
        else { nfa with states := nfa.states ++ [{ name }] }) := by
  unfold addState
  rw [if_neg h]
  split <;> rfl

/-- Apart from the states, adding one changes nothing. -/
theorem addState_keeps (h : nfa.addState name = .ok extended) :
    extended.alphabet = nfa.alphabet ∧ extended.start = nfa.start ∧
      extended.finals = nfa.finals ∧ extended.flags = nfa.flags := by
  by_cases hempty : name = ""
  · simp [addState, hempty] at h
  · rw [addState_eq hempty, Except.ok.injEq] at h
    subst h
    split <;> exact ⟨rfl, rfl, rfl, rfl⟩

/-- A state that is added comes last among the names, unless it is there. -/
theorem names_addState (h : nfa.addState name = .ok extended) :
    extended.names = addLast nfa.names name := by
  by_cases hempty : name = ""
  · simp [addState, hempty] at h
  · rw [addState_eq hempty, Except.ok.injEq] at h
    subst h
    split
    · next hmem => exact (addLast_of_mem (hasState_iff.mp hmem)).symm
    · next hmem =>
      rw [addLast_of_not_mem fun hin => hmem (hasState_iff.mpr hin)]
      simp [names]

/-- Looking up finds a new state bare, and any other state as before. -/
theorem find?_addState (h : nfa.addState name = .ok extended) (other : String) :
    extended.find? other =
      if nfa.hasState name = false ∧ other = name then some { name } else nfa.find? other := by
  by_cases hempty : name = ""
  · simp [addState, hempty] at h
  · rw [addState_eq hempty, Except.ok.injEq] at h
    subst h
    by_cases hmem : nfa.hasState name = true
    · simp [hmem]
    · have hnone : nfa.find? name = none := by
        simpa [find?, hasState] using hmem
      simp only [hmem]
      by_cases hother : other = name
      · subst hother
        simp only [find?] at hnone ⊢
        simp [List.find?_append, hnone]
      · have hne : ¬ name = other := fun e => hother e.symm
        simp [find?, List.find?_append, hother, hne]

/-- A new state has no edges, so no targets change. -/
theorem targets_addState (h : nfa.addState name = .ok extended) (other : String)
    (label : Label) : extended.targets other label = nfa.targets other label := by
  simp only [targets, find?_addState h]
  by_cases hnew : nfa.hasState name = false ∧ other = name
  · obtain ⟨hmem, rfl⟩ := hnew
    have hnone : nfa.find? other = none := by
      simpa [find?, hasState] using hmem
    simp [hmem, hnone, State.targets]
  · rw [if_neg hnew]

/-! ### Making a state the start or final -/

/-- Adding a start is adding a state and then naming it. -/
theorem exists_addState_of_addStart (h : nfa.addStart name = .ok extended) :
    ∃ added, nfa.addState name = .ok added ∧ extended = { added with start := some name } := by
  cases hadd : nfa.addState name with
  | error e => simp [addStart, hadd, Except.map] at h
  | ok added =>
    simp only [addStart, hadd, Except.map, Except.ok.injEq] at h
    exact ⟨added, rfl, h.symm⟩

/-- The start is the state that was added as start. -/
theorem start_addStart (h : nfa.addStart name = .ok extended) : extended.start = some name := by
  obtain ⟨added, _, rfl⟩ := exists_addState_of_addStart h
  rfl

/-- A start that is added comes last among the names, unless it is there. -/
theorem names_addStart (h : nfa.addStart name = .ok extended) :
    extended.names = addLast nfa.names name := by
  obtain ⟨added, hadded, rfl⟩ := exists_addState_of_addStart h
  have hnames := names_addState hadded
  exact hnames

/-- Making a state the start moves no targets. -/
theorem targets_addStart (h : nfa.addStart name = .ok extended) (other : String)
    (label : Label) : extended.targets other label = nfa.targets other label := by
  obtain ⟨added, hadded, rfl⟩ := exists_addState_of_addStart h
  have htargets := targets_addState hadded
  exact htargets other label

/-- Adding a final state is adding a state, and then making it final and listing it. -/
theorem exists_addState_of_addFinal (h : nfa.addFinal name = .ok extended) :
    ∃ added, nfa.addState name = .ok added ∧
      extended =
        { added.modifyState name State.makeFinal with finals := addLast nfa.finals name } := by
  cases hadd : nfa.addState name with
  | error e => simp [addFinal, hadd, Except.map] at h
  | ok added =>
    simp only [addFinal, hadd, Except.map, Except.ok.injEq] at h
    refine ⟨added, rfl, h.symm.trans ?_⟩
    rw [← (addState_keeps hadd).2.2.1]

/-- A final state comes last among the final ones, unless it is there. -/
theorem finals_addFinal (h : nfa.addFinal name = .ok extended) :
    extended.finals = addLast nfa.finals name := by
  obtain ⟨added, _, rfl⟩ := exists_addState_of_addFinal h
  rfl

/-- A final state that is added comes last among the names, unless it is there. -/
theorem names_addFinal (h : nfa.addFinal name = .ok extended) :
    extended.names = addLast nfa.names name := by
  obtain ⟨added, hadded, rfl⟩ := exists_addState_of_addFinal h
  have hkeep : ∀ state : State, state.makeFinal.name = state.name := fun _ => rfl
  exact (names_modifyState hkeep).trans (names_addState hadded)

/-- Making a state final moves no targets. -/
theorem targets_addFinal (h : nfa.addFinal name = .ok extended) (other : String)
    (label : Label) : extended.targets other label = nfa.targets other label := by
  obtain ⟨added, hadded, rfl⟩ := exists_addState_of_addFinal h
  have hname : ∀ state : State, state.makeFinal.name = state.name := fun _ => rfl
  have hedges : ∀ state : State, state.makeFinal.edges = state.edges := fun _ => rfl
  exact (targets_modifyState hname hedges other label).trans (targets_addState hadded other label)

/-! ### Adding an edge -/

/-- The source of an edge is looked up first. -/
theorem addEdge_unknown_source (h : source ∉ nfa.names) :
    nfa.addEdge source label target = .error (.unknownState source) := by
  have hmem : nfa.hasState source = false := by
    simpa using mt hasState_iff.mp h
  simp [addEdge, hmem]

/-- The target of an edge is looked up once the source is found. -/
theorem addEdge_unknown_target (hsource : source ∈ nfa.names) (h : target ∉ nfa.names) :
    nfa.addEdge source label target = .error (.unknownState target) := by
  have hmem : nfa.hasState target = false := by
    simpa using mt hasState_iff.mp h
  simp [addEdge, hmem, hasState_iff.mpr hsource]

/-- Edges between states that are there can always be added. -/
theorem addEdge_eq (hsource : source ∈ nfa.names) (htarget : target ∈ nfa.names) :
    nfa.addEdge source label target =
      .ok (({ nfa with alphabet := extendAlphabet nfa.alphabet label } : Nfa).modifyState source
        fun state => state.addEdge label target) := by
  simp [addEdge, hasState_iff.mpr hsource, hasState_iff.mpr htarget]

/-- An edge that was added joins two states. -/
theorem addEdge_mem (h : nfa.addEdge source label target = .ok extended) :
    source ∈ nfa.names ∧ target ∈ nfa.names := by
  by_cases hsource : source ∈ nfa.names
  · by_cases htarget : target ∈ nfa.names
    · exact ⟨hsource, htarget⟩
    · simp [addEdge_unknown_target hsource htarget] at h
  · simp [addEdge_unknown_source hsource] at h

/-- An edge adds no state. -/
theorem names_addEdge (h : nfa.addEdge source label target = .ok extended) :
    extended.names = nfa.names := by
  obtain ⟨hsource, htarget⟩ := addEdge_mem h
  rw [addEdge_eq hsource htarget, Except.ok.injEq] at h
  subst h
  exact names_modifyState fun _ => rfl

/-- An edge puts its character into the alphabet, if it has one. -/
theorem alphabet_addEdge (h : nfa.addEdge source label target = .ok extended) :
    extended.alphabet = extendAlphabet nfa.alphabet label := by
  obtain ⟨hsource, htarget⟩ := addEdge_mem h
  rw [addEdge_eq hsource htarget, Except.ok.injEq] at h
  subst h
  rfl

/-- The targets of a state once one more edge leaves it. -/
theorem State.targets_addEdge (state : State) (added : Label) (target : String)
    (label : Label) :
    (state.addEdge added target).targets label =
      if label = added then addLast (state.targets label) target else state.targets label := by
  have hmem : (added, target) ∈ state.edges ↔ target ∈ state.targets added := by
    simp [State.targets, List.mem_filterMap]
  by_cases hin : (added, target) ∈ state.edges
  · have hsame : state.addEdge added target = state := by
      rw [State.addEdge, addLast_of_mem hin]
    rw [hsame]
    split
    · next hlabel =>
      subst hlabel
      exact (addLast_of_mem (hmem.mp hin)).symm
    · rfl
  · rw [State.addEdge, addLast_of_not_mem hin]
    split
    · next hlabel =>
      subst hlabel
      rw [addLast_of_not_mem fun h => hin (hmem.mpr h)]
      simp [State.targets, List.filterMap_append]
    · next hlabel =>
      have hne : ¬ added = label := fun e => hlabel e.symm
      simp [State.targets, List.filterMap_append, hne]

/-- A new edge adds one target in one place. -/
theorem targets_addEdge (h : nfa.addEdge source label target = .ok extended)
    (other : String) (read : Label) :
    extended.targets other read =
      if other = source ∧ read = label then addLast (nfa.targets other read) target
      else nfa.targets other read := by
  obtain ⟨hsource, htarget⟩ := addEdge_mem h
  rw [addEdge_eq hsource htarget, Except.ok.injEq] at h
  subst h
  have hsame : ({ nfa with alphabet := extendAlphabet nfa.alphabet label } : Nfa).find? other =
      nfa.find? other := rfl
  have hname : ∀ state : State, (state.addEdge label target).name = state.name := fun _ => rfl
  simp only [targets]
  rw [find?_modifyState hname, hsame]
  cases hother : nfa.find? other with
  | none =>
    have hne : ¬ other = source := by
      rintro rfl
      have hmem : nfa.hasState other = false := by
        simpa [find?, hasState] using hother
      exact absurd (hasState_iff.mpr hsource) (by simp [hmem])
    simp [hne]
  | some state =>
    by_cases heq : other = source
    · simp [heq, State.targets_addEdge]
    · simp [heq]

/-! ### Additions in place -/

/-- The state is added in place, unless its name is empty. -/
theorem makes_pushState (name : String) : (pushState name).Makes fun nfa => nfa.addState name := by
  have hpush := Call.makes_of_run_eq (modify fun nfa : Nfa =>
    if nfa.hasState name then nfa else { nfa with states := nfa.states ++ [{ name }] })
    fun _ => rfl
  refine (hpush.require (fun _ => name != "") .emptyStateName).congr fun nfa => ?_
  by_cases hempty : name = ""
  · simp [hempty, addState_empty]
  · simp [hempty, addState_eq hempty]

/-- The edge is recorded in place, unless one of its ends is missing. -/
theorem makes_callEdge (source : String) (label : Label) (target : String) :
    (callEdge source label target).Makes fun nfa => nfa.addEdge source label target := by
  have hpush := Call.makes_of_run_eq (pushEdge source label target) fun _ => rfl
  have hchecked := (hpush.require (fun nfa => nfa.hasState target) (.unknownState target)).require
    (fun nfa => nfa.hasState source) (.unknownState source)
  refine hchecked.congr fun nfa => ?_
  rw [addEdge]
  cases nfa.hasState source <;> cases nfa.hasState target <;> rfl

/-- The call for an addition makes it in place. Where it fails nothing has been changed before. -/
theorem makes_call (addition : Addition) : addition.call.Makes fun nfa => nfa.add addition := by
  cases addition with
  | start name => exact (makes_pushState name).then fun _ => rfl
  | state name => exact makes_pushState name
  | final name => exact (makes_pushState name).then fun _ => rfl
  | edge source symbol target => exact makes_callEdge source (.ofChar symbol) target
  | epsilonEdge source target => exact makes_callEdge source .epsilon target

variable {addition : Addition}

/-- After an addition that is possible it has been made. -/
theorem tryAdd_of_ok (h : nfa.add addition = .ok extended) : nfa.tryAdd addition = extended :=
  (makes_call addition).after_of_ok h

/-- After an addition that is not possible the automaton is what it was. -/
theorem tryAdd_of_error {error : Error} (h : nfa.add addition = .error error) :
    nfa.tryAdd addition = nfa :=
  (makes_call addition).after_of_error h

end Automata.Nfa
