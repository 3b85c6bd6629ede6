import Automata.Proofs.Nfa.Copy

/-!
# Copying edges one at a time

All edges of an automaton are copied at once, through an index of the states by name. This is
what adding them one after the other comes to, also in its failures: state by state, the
characters of the alphabet in order, and last the edges that read nothing. No edge is left out,
for in a built automaton an edge reads a character of the alphabet or nothing. What is there
already stays in its place, whatever the states of the two automata are numbered.
-/

namespace Automata.Nfa

variable {nfa other extended : Nfa}

/-- The edges of an automaton with the states that they leave, in the order of copying. -/
def edgesBySource (nfa : Nfa) : List (String × Label × String) :=
  nfa.states.flatMap fun state =>
    (state.edgesOver nfa.alphabet).map fun edge => (state.name, edge)

/-- Adds edges one after the other, until one cannot be added. -/
def addEdges (nfa : Nfa) (edges : List (String × Label × String)) : Except Error Nfa :=
  edges.foldlM (fun nfa edge => nfa.addEdge edge.1 edge.2.1 edge.2.2) nfa

/-! ### Adding edges one after the other -/

section OneByOne

variable {edges : List (String × Label × String)}

/-- The names that edges mention, the source of an edge before its target. -/
def namesIn (edges : List (String × Label × String)) : List String :=
  edges.flatMap fun edge => [edge.1, edge.2.2]

/-- The automaton with more edges, wherever they lead. -/
def withEdges (nfa : Nfa) (edges : List (String × Label × String)) : Nfa :=
  { nfa with
    states := nfa.states.map fun state =>
      { state with edges := addAllLast state.edges (valuesAt edges state.name) }
    alphabet := (edges.map (·.2.1)).foldl extendAlphabet nfa.alphabet }

/-- Without edges to record nothing changes. -/
theorem withEdges_nil : nfa.withEdges [] = nfa := by
  simp [withEdges, valuesAt, addAllLast]

/-- Edges are recorded one after the other. -/
theorem withEdges_cons (nfa : Nfa) (edge : String × Label × String)
    (edges : List (String × Label × String)) :
    nfa.withEdges (edge :: edges) = (nfa.withEdges [edge]).withEdges edges := by
  have hstate : ∀ state : State,
      addAllLast (addAllLast state.edges (valuesAt [edge] state.name))
        (valuesAt edges state.name) =
          addAllLast state.edges (valuesAt (edge :: edges) state.name) := by
    intro state
    by_cases hsource : edge.1 = state.name <;> simp [valuesAt, addAllLast, hsource]
  simp [withEdges, hstate]

/-- More edges leave the names as they are. -/
theorem hasState_withEdges (name : String) :
    (nfa.withEdges edges).hasState name = nfa.hasState name := by
  simp [withEdges, hasState, List.any_map, Function.comp_def]

/-- An edge between known states is added to the edges of its source. -/
theorem addEdge_eq_withEdges {source target : String} {label : Label}
    (hsource : nfa.hasState source = true) (htarget : nfa.hasState target = true) :
    nfa.addEdge source label target = .ok (nfa.withEdges [(source, label, target)]) := by
  have hstate : ∀ state : State,
      (if state.name = source then state.addEdge label target else state) =
        { state with
          edges := addAllLast state.edges (valuesAt [(source, label, target)] state.name) } := by
    intro state
    by_cases hname : state.name = source
    · simp [hname, valuesAt, addAllLast, State.addEdge]
    · have hne : ¬ source = state.name := fun heq => hname heq.symm
      simp [hname, hne, valuesAt, addAllLast]
  rw [addEdge_eq (hasState_iff.mp hsource) (hasState_iff.mp htarget)]
  simp [withEdges, modifyState, hstate]

/-- Adding edges fails at the first name that is unknown, and else adds them all. -/
theorem addEdges_eq (nfa : Nfa) (edges : List (String × Label × String)) :
    nfa.addEdges edges =
      match (namesIn edges).find? fun name => !nfa.hasState name with
      | some name => .error (.unknownState name)
      | none => .ok (nfa.withEdges edges) := by
  induction edges generalizing nfa with
  | nil => simp [addEdges, namesIn, withEdges_nil, pure, Except.pure]
  | cons edge edges ih =>
    obtain ⟨source, label, target⟩ := edge
    have hstep : nfa.addEdges ((source, label, target) :: edges) =
        (nfa.addEdge source label target).bind fun nfa => nfa.addEdges edges := rfl
    have hnames : namesIn ((source, label, target) :: edges) =
        source :: target :: namesIn edges := rfl
    rw [hstep, hnames]
    cases hsource : nfa.hasState source with
    | false => simp [addEdge, hsource, Except.bind]
    | true =>
      cases htarget : nfa.hasState target with
      | false => simp [addEdge, hsource, htarget, Except.bind]
      | true =>
        -- The first edge adds no name, so what is unknown then is unknown at the outset.
        rw [addEdge_eq_withEdges hsource htarget, withEdges_cons nfa _ edges]
        simp [Except.bind, ih, hasState_withEdges, hsource, htarget]

end OneByOne

/-! ### Copying at once -/

/-- The ends of the edges are the same in whatever order these are listed. -/
theorem namesIn_edgesBySource : namesIn other.edgesBySource = other.edgeEnds := by
  simp [namesIn, edgesBySource, edgeEnds, List.flatMap_assoc, List.flatMap_map]

/-- Listed by source, the edges have the labels in the order in which they are copied. -/
theorem map_label_edgesBySource : other.edgesBySource.map (·.2.1) = other.edgeLabels := by
  simp [edgesBySource, edgeLabels, List.map_flatMap, Function.comp_def]

/-- A state takes over the edges that leave its name. -/
theorem copyEdges_eq (h : other.names.Nodup) (state : State) :
    other.copyEdges state =
      { state with
        edges := addAllLast state.edges (valuesAt other.edgesBySource state.name) } := by
  rw [edgesBySource, valuesAt_flatMap h]
  unfold copyEdges find?
  cases other.states.find? fun copied => copied.name == state.name with
  | some copied => rfl
  | none => rfl

/-- Copying all edges at once is adding them one after the other. -/
theorem addEdgesOf_eq_addEdges (h : other.names.Nodup) :
    nfa.addEdgesOf other = nfa.addEdges other.edgesBySource := by
  have hcontains : (fun name => !nfa.byName.contains name) = fun name => !nfa.hasState name := by
    funext name
    congr 1
    rw [Bool.eq_iff_iff, contains_byName, hasState_iff]
  have hstates : nfa.states.map other.copyEdges = nfa.states.map fun state =>
      { state with edges := addAllLast state.edges (valuesAt other.edgesBySource state.name) } :=
    List.map_congr_left fun state _ => copyEdges_eq h state
  rw [addEdges_eq, namesIn_edgesBySource, withEdges, map_label_edgesBySource, ← hstates]
  simp only [addEdgesOf, hcontains, getElem?_byName]
  rfl

/-! ### What is new in the alphabet -/

/-- Labels put new characters behind those of the alphabet. -/
theorem prefix_foldl_extendAlphabet (alphabet : List Char) (labels : List Label) :
    alphabet <+: labels.foldl extendAlphabet alphabet := by
  induction labels generalizing alphabet with
  | nil => exact List.prefix_refl alphabet
  | cons label labels ih =>
    refine List.IsPrefix.trans ?_ (ih (extendAlphabet alphabet label))
    cases label with
    | epsilon => exact List.prefix_refl alphabet
    | char c => exact prefix_addLast alphabet c

/-- The characters that were not there come last, each of them once. -/
theorem WellFormed.alphabet_addEdgesOf (h : nfa.WellFormed) (hother : other.WellFormed)
    (hnames : ∀ name ∈ other.names, name ∈ nfa.names)
    (hadd : nfa.addEdgesOf other = .ok extended) :
    ∃ added, extended.alphabet = nfa.alphabet ++ added ∧
      added.Perm (other.alphabet.filter fun c => c ∉ nfa.alphabet) := by
  have hextended := WellFormed.addEdgesOf hother hnames hadd h
  have hmem := fun c => mem_alphabet_addEdgesOf hother hnames hadd (c := c)
  have hprefix : nfa.alphabet <+: extended.alphabet := by
    rw [hother.addEdgesOf_eq hnames, Except.ok.injEq] at hadd
    subst hadd
    exact prefix_foldl_extendAlphabet nfa.alphabet other.edgeLabels
  obtain ⟨added, heq⟩ := hprefix
  have hnodup := hextended.alphabet_nodup
  rw [← heq, List.nodup_append] at hnodup
  obtain ⟨-, hadded, hapart⟩ := hnodup
  refine ⟨added, heq.symm, ?_⟩
  rw [List.perm_ext_iff_of_nodup hadded (hother.alphabet_nodup.filter _)]
  intro c
  have hc := hmem c
  rw [← heq, List.mem_append] at hc
  have hold : c ∈ added → c ∉ nfa.alphabet := fun hnew hin => hapart c hin c hnew rfl
  rw [List.mem_filter, decide_eq_true_eq]
  constructor
  · exact fun hnew => ⟨(hc.mp (Or.inr hnew)).resolve_left (hold hnew), hold hnew⟩
  · rintro ⟨hin, hnot⟩
    exact (hc.mpr (Or.inr hin)).resolve_left hnot

/-! ### The whole copy -/

/-- Where a built automaton has all states of another one, it can take over the edges of the
other, which is adding them one after the other. By name, its edges are then those of the two,
with what it had in its places; the characters that it lacked stand at the end of its alphabet;
and its states, start, final states and flags are what they were. -/
theorem addEdgesOf_exact (hnfa : nfa.Built) (hother : other.Built)
    (hnames : ∀ name ∈ other.names, name ∈ nfa.names) :
    ∃ extended, nfa.addEdgesOf other = .ok extended ∧
      nfa.addEdges other.edgesBySource = .ok extended ∧
      (∀ source label target, target ∈ extended.targets source label ↔
        target ∈ nfa.targets source label ∨ target ∈ other.targets source label) ∧
      (∀ source label, nfa.targets source label <+: extended.targets source label) ∧
      (∀ source label, (extended.targets source label).Nodup) ∧
      (∃ added, extended.alphabet = nfa.alphabet ++ added ∧
        added.Perm (other.alphabet.filter fun c => c ∉ nfa.alphabet)) ∧
      (∀ c, c ∈ extended.alphabet ↔ c ∈ nfa.alphabet ∨ c ∈ other.alphabet) ∧
      (extended.states.map fun state => (state.name, state.isFinal)) =
        (nfa.states.map fun state => (state.name, state.isFinal)) ∧
      extended.start = nfa.start ∧ extended.finals = nfa.finals ∧
      extended.flags = nfa.flags := by
  have hwf := hnfa.wellFormed
  have hwf' := hother.wellFormed
  have hadd := hwf'.addEdgesOf_eq hnames
  refine ⟨_, hadd, ?_, ?_, ?_, ?_, ?_, ?_, ?_, rfl, rfl, rfl⟩
  · rw [← addEdgesOf_eq_addEdges hwf'.names_nodup]
    exact hadd
  · intro source label target
    exact mem_targets_addEdgesOf hwf' hnames hadd
  · intro source label
    rw [targets_addEdgesOf hwf' hnames hadd]
    exact prefix_addAllLast _ _
  · exact (WellFormed.addEdgesOf hwf' hnames hadd hwf).targets_nodup
  · exact hwf.alphabet_addEdgesOf hwf' hnames hadd
  · exact fun c => mem_alphabet_addEdgesOf hwf' hnames hadd
  · simp [Function.comp_def]

/-- An automaton with one edge that reads and one that reads nothing. -/
def chain : Nfa :=
  .ofAdditions {} [.start "p", .final "q", .state "r", .edge "p" 'x' "q", .epsilonEdge "q" "r"]

/-- Some of its states the other way round, with edges back and forth. -/
def chainReversed : Nfa :=
  .ofAdditions {} [.start "q", .final "p", .edge "p" 'y' "q", .edge "q" 'z' "p", .edge "p" 'x' "p",
    .edge "p" 'x' "q", .epsilonEdge "q" "p"]

/-- The target that both have keeps its place, and new characters come in the order of copying. -/
theorem addEdgesOf_exact_chain :
    chain.Built ∧ chainReversed.Built ∧ (∀ name ∈ chainReversed.names, name ∈ chain.names) ∧
      ∃ extended, chain.addEdgesOf chainReversed = .ok extended ∧
        (∀ source label target, target ∈ extended.targets source label ↔
          target ∈ chain.targets source label ∨ target ∈ chainReversed.targets source label) ∧
        chainReversed.targets "p" (.char 'x') = ["p", "q"] ∧
        extended.targets "p" (.char 'x') = ["q", "p"] ∧
        extended.targets "q" .epsilon = ["r", "p"] ∧
        chainReversed.alphabet = ['y', 'z', 'x'] ∧ extended.alphabet = ['x', 'z', 'y'] := by
  have hbuilt : chain.Built := ⟨_, _, rfl⟩
  have hbuilt' : chainReversed.Built := ⟨_, _, rfl⟩
  have hnames : ∀ name ∈ chainReversed.names, name ∈ chain.names := by decide
  obtain ⟨extended, hadd, hsteps, hedges, _⟩ := addEdgesOf_exact hbuilt hbuilt' hnames
  have hresult : chain.addEdges chainReversed.edgesBySource =
      .ok (chain.withEdges chainReversed.edgesBySource) := by decide
  obtain rfl := Except.ok.inj (hsteps.symm.trans hresult)
  exact ⟨hbuilt, hbuilt', hnames, _, hadd, hedges, by decide, by decide, by decide, by decide,
    by decide⟩

end Automata.Nfa
