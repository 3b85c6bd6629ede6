import Automata.Dfa.Basic

/-!
# What additions do to a deterministic automaton

Names and moves are what can be seen of the states. For the additions that succeed, these
lemmas say what happens to them: a state is added at the end without moves, and an edge
sets one move and leaves the others alone. Where names are distinct, the moves of each state
are found by its name.
-/

namespace Automata.Dfa

variable {dfa extended : Dfa} {name source target : String} {symbol : Char}

/-! ### Moves of one state -/

/-- Taking away the moves on one symbol leaves those on the others. -/
theorem lookup_filter_ne {moves : List (Char × String)} {read : Char} (h : read ≠ symbol) :
    (moves.filter fun move => move.1 != symbol).lookup read = moves.lookup read := by
  induction moves with
  | nil => rfl
  | cons move moves ih =>
    obtain ⟨letter, goal⟩ := move
    by_cases hletter : letter = symbol
    · subst hletter
      have hne : (read == letter) = false := by simpa using h
      simpa [List.lookup_cons, hne] using ih
    · simp [hletter, List.lookup_cons, ih]

/-- Setting a move sets that move alone. -/
theorem State.target_setMove (state : State) (symbol read : Char) (target : String) :
    (state.setMove symbol target).target read =
      if read = symbol then some target else state.target read := by
  simp only [State.target, State.setMove, List.lookup_cons]
  by_cases hread : read = symbol
  · simp [hread]
  · have hne : (read == symbol) = false := by simpa using hread
    simp [hne, hread, lookup_filter_ne hread]

/-! ### Adding a state -/

/-- A state with a name can always be added. -/
theorem addState_eq (h : name ≠ "") :
    dfa.addState name =
      .ok (if dfa.hasState name then dfa
        else { dfa with states := dfa.states ++ [{ name }] }) := by
  unfold addState
  rw [if_neg h]
  split <;> rfl

/-- A state that is added comes last among the names, unless it is there. -/
theorem names_addState (h : dfa.addState name = .ok extended) :
    extended.names = addLast dfa.names name := by
  by_cases hempty : name = ""
  · simp [addState, hempty] at h
  · rw [addState_eq hempty, Except.ok.injEq] at h
    subst h
    split
    · next hmem => exact (addLast_of_mem (hasState_iff.mp hmem)).symm
    · next hmem =>
      rw [addLast_of_not_mem fun hin => hmem (hasState_iff.mpr hin)]
      simp [names]

/-- Apart from the states, adding one changes nothing. -/
theorem addState_keeps (h : dfa.addState name = .ok extended) :
    extended.alphabet = dfa.alphabet ∧ extended.start = dfa.start ∧
      extended.finals = dfa.finals ∧ extended.flags = dfa.flags := by
  by_cases hempty : name = ""
  · simp [addState, hempty] at h
  · rw [addState_eq hempty, Except.ok.injEq] at h
    subst h
    split <;> exact ⟨rfl, rfl, rfl, rfl⟩

/-- A new state has no moves, so no targets change. -/
theorem target_addState (h : dfa.addState name = .ok extended) (other : String)
    (symbol : Char) : extended.target other symbol = dfa.target other symbol := by
  by_cases hempty : name = ""
  · simp [addState, hempty] at h
  · rw [addState_eq hempty, Except.ok.injEq] at h
    subst h
    split
    · rfl
    · simp only [target, find?, List.find?_append]
      cases hold : dfa.states.find? fun state => state.name == other with
      | some state => rfl
      | none =>
        by_cases hother : name = other
        · simp [hother, State.target]
        · simp [hother]

/-! ### Making a state the start or final -/

/-- Adding a start is adding a state and then naming it. -/
theorem exists_addState_of_addStart (h : dfa.addStart name = .ok extended) :
    ∃ added, dfa.addState name = .ok added ∧ extended = { added with start := some name } := by
  cases hadd : dfa.addState name with
  | error e => simp [addStart, hadd, Except.map] at h
  | ok added =>
    simp only [addStart, hadd, Except.map, Except.ok.injEq] at h
    exact ⟨added, rfl, h.symm⟩

/-- Adding a final state is adding a state and then listing it as final. -/
theorem exists_addState_of_addFinal (h : dfa.addFinal name = .ok extended) :
    ∃ added, dfa.addState name = .ok added ∧
      extended = { added with finals := addLast dfa.finals name } := by
  cases hadd : dfa.addState name with
  | error e => simp [addFinal, hadd, Except.map] at h
  | ok added =>
    simp only [addFinal, hadd, Except.map, Except.ok.injEq] at h
    refine ⟨added, rfl, h.symm.trans ?_⟩
    rw [← (addState_keeps hadd).2.2.1]

/-! ### Setting a move -/

/-- The source of an edge is looked up first. -/
theorem addEdge_unknown_source (h : source ∉ dfa.names) :
    dfa.addEdge source symbol target = .error (.unknownState source) := by
  have hmem : dfa.hasState source = false := by
    simpa using mt hasState_iff.mp h
  simp [addEdge, hmem]

/-- The target of an edge is looked up once the source is found. -/
theorem addEdge_unknown_target (hsource : source ∈ dfa.names) (h : target ∉ dfa.names) :
    dfa.addEdge source symbol target = .error (.unknownState target) := by
  have hmem : dfa.hasState target = false := by
    simpa using mt hasState_iff.mp h
  simp [addEdge, hmem, hasState_iff.mpr hsource]

/-- Moves between states that are there can always be set. -/
theorem addEdge_eq (hsource : source ∈ dfa.names) (htarget : target ∈ dfa.names) :
    dfa.addEdge source symbol target =
      .ok { dfa with
        states := dfa.states.map fun state =>
          if state.name = source then state.setMove symbol target else state
        alphabet := addLast dfa.alphabet symbol } := by
  simp [addEdge, hasState_iff.mpr hsource, hasState_iff.mpr htarget]

/-- An edge that was added joins two states. -/
theorem addEdge_mem (h : dfa.addEdge source symbol target = .ok extended) :
    source ∈ dfa.names ∧ target ∈ dfa.names := by
  unfold addEdge at h
  split at h
  · simp at h
  · next hsource =>
    split at h
    · simp at h
    · next htarget =>
      exact ⟨hasState_iff.mp (by simpa using hsource), hasState_iff.mp (by simpa using htarget)⟩

/-- An edge adds no state. -/
theorem names_addEdge (h : dfa.addEdge source symbol target = .ok extended) :
    extended.names = dfa.names := by
  obtain ⟨hsource, htarget⟩ := addEdge_mem h
  rw [addEdge_eq hsource htarget, Except.ok.injEq] at h
  subst h
  simp only [names, List.map_map]
  refine List.map_congr_left fun state _ => ?_
  simp only [Function.comp]
  split <;> rfl

/-- Apart from the moves and the alphabet, setting a move changes nothing. -/
theorem addEdge_keeps (h : dfa.addEdge source symbol target = .ok extended) :
    extended.alphabet = addLast dfa.alphabet symbol ∧ extended.start = dfa.start ∧
      extended.finals = dfa.finals ∧ extended.flags = dfa.flags := by
  obtain ⟨hsource, htarget⟩ := addEdge_mem h
  rw [addEdge_eq hsource htarget, Except.ok.injEq] at h
  subst h
  exact ⟨rfl, rfl, rfl, rfl⟩

/-- The last move set on a state and symbol is the one that counts. -/
theorem target_addEdge (h : dfa.addEdge source symbol target = .ok extended)
    (other : String) (read : Char) :
    extended.target other read =
      if other = source ∧ read = symbol then some target else dfa.target other read := by
  obtain ⟨hsource, htarget⟩ := addEdge_mem h
  rw [addEdge_eq hsource htarget, Except.ok.injEq] at h
  subst h
  have hkeep : ((fun state : State => state.name == other) ∘ fun state =>
      if state.name = source then state.setMove symbol target else state) =
        fun state => state.name == other := by
    funext state
    simp only [Function.comp]
    split <;> rfl
  have hfound : dfa.hasState source = true := hasState_iff.mpr hsource
  simp only [Dfa.target, find?, List.find?_map, hkeep]
  cases hother : dfa.states.find? fun state => state.name == other with
  | none =>
    have hne : ¬ other = source := by
      rintro rfl
      have hmissing : dfa.hasState other = false := by
        simpa [hasState] using hother
      simp [hmissing] at hfound
    simp [hne]
  | some state =>
    have hname : state.name = other := by
      simpa using List.find?_some hother
    by_cases heq : other = source
    · simp [hname, heq, State.target_setMove]
    · simp [hname, heq]

/-! ### States found by their names -/

/-- Where names are distinct, the moves of a state are found by its name. -/
theorem target_name (h : dfa.names.Nodup) {state : State} (hstate : state ∈ dfa.states)
    (symbol : Char) : dfa.target state.name symbol = state.target symbol := by
  have hfound : dfa.find? state.name = some state := find?_key h hstate
  rw [target, hfound, Option.bind_some]

/-- What is no state has no moves. -/
theorem target_of_not_mem (h : name ∉ dfa.names) (symbol : Char) :
    dfa.target name symbol = none := by
  have hnone : dfa.find? name = none := by
    refine List.find?_eq_none.mpr fun state hstate hsame => h ?_
    exact List.mem_map.mpr ⟨state, hstate, beq_iff_eq.mp hsame⟩
  rw [target, hnone, Option.bind_none]

/-- Where names are distinct, nothing is left out when each state has a move on each symbol. -/
theorem isTotal_iff (h : dfa.names.Nodup) :
    dfa.isTotal = true ↔
      ∀ name ∈ dfa.names, ∀ symbol ∈ dfa.alphabet, ∃ next, dfa.target name symbol = some next := by
  simp only [isTotal, List.all_eq_true, names, List.forall_mem_map]
  constructor
  · intro hall state hstate symbol hsymbol
    rw [target_name h hstate]
    exact Option.isSome_iff_exists.mp (hall state hstate symbol hsymbol)
  · intro hall state hstate symbol hsymbol
    rw [← target_name h hstate]
    exact Option.isSome_iff_exists.mpr (hall state hstate symbol hsymbol)

/-! ### Additions in place -/

/-- What follows on the check of a name is done unless the name is empty. -/
theorem makes_requireName {later : Call Dfa Unit} {next : Dfa → Dfa} (name : String)
    (hlater : ∀ dfa, later.run dfa = .ok () (next dfa)) :
    Call.Makes (do requireName name; later) fun dfa =>
      if name = "" then .error .emptyStateName else .ok (next dfa) := by
  refine ((Call.makes_of_run_eq later hlater).require (fun _ => name != "")
    .emptyStateName).congr fun dfa => ?_
  by_cases hempty : name = "" <;> simp [hempty]

/-- What follows on adding a state is done unless the name is empty. -/
theorem map_addState (next : Dfa → Dfa) : (dfa.addState name).map next =
    if name = "" then .error .emptyStateName
    else .ok (next (if dfa.hasState name then dfa
      else { dfa with states := dfa.states ++ [{ name }] })) := by
  by_cases hempty : name = ""
  · simp [addState, hempty, Except.map]
  · simp [addState_eq hempty, hempty, Except.map]

/-- The call for an addition makes it in place. Where it fails nothing has been changed before. -/
theorem makes_call (addition : Addition) : addition.call.Makes fun dfa => dfa.add addition := by
  cases addition with
  | start name =>
    refine (makes_requireName name fun _ => rfl).congr fun dfa => ?_
    rw [add, addStart, map_addState]
  | state name =>
    refine (makes_requireName name fun _ => rfl).congr fun dfa => ?_
    by_cases hempty : name = ""
    · simp [add, addState, hempty]
    · simp [add, addState_eq hempty, hempty]
  | final name =>
    refine (makes_requireName name fun _ => rfl).congr fun dfa => ?_
    rw [add, addFinal, map_addState]
  | edge source symbol target =>
    have hpush := Call.makes_of_run_eq (pushMove source symbol target) fun _ => rfl
    have hchecked := (hpush.require (fun dfa => dfa.hasState target) (.unknownState target)).require
      (fun dfa => dfa.hasState source) (.unknownState source)
    refine hchecked.congr fun dfa => ?_
    rw [add, addEdge]
    cases dfa.hasState source <;> cases dfa.hasState target <;> rfl

variable {addition : Addition}

/-- After an addition that is possible it has been made. -/
theorem tryAdd_of_ok (h : dfa.add addition = .ok extended) : dfa.tryAdd addition = extended :=
  (makes_call addition).after_of_ok h

/-- After an addition that is not possible the automaton is what it was. -/
theorem tryAdd_of_error {error : Error} (h : dfa.add addition = .error error) :
    dfa.tryAdd addition = dfa :=
  (makes_call addition).after_of_error h

end Automata.Dfa
