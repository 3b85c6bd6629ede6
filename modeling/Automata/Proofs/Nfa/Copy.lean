import Automata.Nfa.Copy
import Automata.Proofs.Nfa.WellFormed
import Mathlib.Data.List.Nodup

/-!
# What copying does to an automaton

Copying the states of another automaton adds their names at the end, without edges. Copying
its edges adds their targets and characters at the end, and changes nothing else. Both keep
the automaton consistent.
-/

namespace Automata.Nfa

variable {nfa other extended : Nfa} {source target : String} {label : Label}

/-! ### Copying states -/

section States

variable {added : List String}

/-- A fresh name is not known already. -/
theorem not_contains_of_mem_freshNames {known : Std.TreeSet String} {name : String}
    (h : name ∈ freshNames known added) : known.contains name = false := by
  induction added generalizing known with
  | nil => simp [freshNames] at h
  | cons first rest ih =>
    unfold freshNames at h
    split at h
    · exact ih h
    · next hfirst =>
      rcases List.mem_cons.mp h with rfl | h
      · exact Bool.eq_false_iff.mpr hfirst
      · have hlater := ih h
        rw [Std.TreeSet.contains_insert, Bool.or_eq_false_iff] at hlater
        exact hlater.2

/-- States with names can always be added. -/
theorem addStates_eq (h : "" ∉ added) :
    nfa.addStates added = .ok { nfa with
      states := nfa.states ++
        (freshNames (Std.TreeSet.ofList nfa.names) added).map fun name => { name } } := by
  rw [addStates, if_neg h]

/-- States that were added have names. -/
theorem ne_empty_of_addStates (h : nfa.addStates added = .ok extended) : "" ∉ added := by
  intro hempty
  simp [addStates, hempty] at h

/-- Apart from the states, adding some changes nothing. -/
theorem addStates_keeps (h : nfa.addStates added = .ok extended) :
    extended.alphabet = nfa.alphabet ∧ extended.start = nfa.start ∧
      extended.finals = nfa.finals ∧ extended.flags = nfa.flags := by
  rw [addStates_eq (ne_empty_of_addStates h), Except.ok.injEq] at h
  subst h
  exact ⟨rfl, rfl, rfl, rfl⟩

/-- The states once more were added: those that were there, and blank ones. -/
theorem mem_states_addStates (h : nfa.addStates added = .ok extended) {state : State}
    (hstate : state ∈ extended.states) :
    state ∈ nfa.states ∨ ∃ name, name ∉ nfa.names ∧ state = { name } := by
  rw [addStates_eq (ne_empty_of_addStates h), Except.ok.injEq] at h
  subst h
  rcases List.mem_append.mp hstate with hold | hnew
  · exact Or.inl hold
  · obtain ⟨name, hfresh, rfl⟩ := List.mem_map.mp hnew
    have hunknown := not_contains_of_mem_freshNames hfresh
    refine Or.inr ⟨name, ?_, rfl⟩
    simpa [Std.TreeSet.contains_ofList] using hunknown

/-- New states have no edges, so no targets change. -/
theorem targets_addStates (h : nfa.addStates added = .ok extended) (source : String)
    (label : Label) : extended.targets source label = nfa.targets source label := by
  rw [addStates_eq (ne_empty_of_addStates h), Except.ok.injEq] at h
  subst h
  simp only [targets, find?, List.find?_append]
  cases hold : nfa.states.find? fun state => state.name == source with
  | some state => rfl
  | none =>
    simp only [Option.none_or]
    split
    · next state hnew =>
      obtain ⟨name, _, rfl⟩ := List.mem_map.mp (List.mem_of_find?_eq_some hnew)
      simp [State.targets]
    · rfl

/-- Adding states keeps an automaton consistent. -/
theorem WellFormed.addStates (h : nfa.WellFormed) (hadd : nfa.addStates added = .ok extended) :
    extended.WellFormed := by
  have hnames := names_addStates hadd
  apply h.moreStates (targets_addStates hadd) (addStates_keeps hadd)
  · rw [hnames]
    exact nodup_addAllLast h.names_nodup added
  · intro name hname
    rw [hnames] at hname
    rcases mem_addAllLast.mp hname with hname | hname
    · exact h.names_ne_empty name hname
    · rintro rfl
      exact ne_empty_of_addStates hadd hname
  · intro name hname
    rw [hnames]
    exact mem_addAllLast.mpr (Or.inl hname)
  · exact fun state hstate => mem_states_addStates hadd hstate

end States

/-! ### Copying edges -/

/-- What a state becomes when the edges of its namesake are copied to it. -/
def copyEdges (other : Nfa) (state : State) : State :=
  match other.find? state.name with
  | some copied => { state with edges := addAllLast state.edges (copied.edgesOver other.alphabet) }
  | none => state

/-- A state that is given edges keeps its name. -/
@[simp] theorem name_copyEdges (state : State) : (other.copyEdges state).name = state.name := by
  unfold copyEdges
  split <;> rfl

/-- A state that is given edges is final as before. -/
@[simp] theorem isFinal_copyEdges (state : State) :
    (other.copyEdges state).isFinal = state.isFinal := by
  unfold copyEdges
  split <;> rfl

/-- The second parts of the pairs with a key. -/
def valuesAt {α β : Type} [DecidableEq α] (pairs : List (α × β)) (key : α) : List β :=
  pairs.filterMap fun pair => if pair.1 = key then some pair.2 else none

/-- Among values listed item by item, each with the key of its item, those with a key are the
values of the item that is found by it. -/
theorem valuesAt_flatMap {ι α β : Type} [DecidableEq α] {items : List ι} {keyOf : ι → α}
    (h : (items.map keyOf).Nodup) (valuesOf : ι → List β) (key : α) :
    valuesAt (items.flatMap fun item => (valuesOf item).map fun value => (keyOf item, value)) key =
      match items.find? fun item => keyOf item == key with
      | some item => valuesOf item
      | none => [] := by
  induction items with
  | nil => rfl
  | cons first rest ih =>
    obtain ⟨hfirst, hrest⟩ := List.nodup_cons.mp h
    have hsplit : valuesAt ((first :: rest).flatMap fun item =>
        (valuesOf item).map fun value => (keyOf item, value)) key =
          (if keyOf first = key then valuesOf first else []) ++
            match rest.find? fun item => keyOf item == key with
            | some item => valuesOf item
            | none => [] := by
      rw [← ih hrest]
      by_cases hkey : keyOf first = key <;> simp [valuesAt, List.filterMap_map, hkey]
    rw [hsplit]
    by_cases hkey : keyOf first = key
    · subst hkey
      have hnone : (rest.find? fun item => keyOf item == keyOf first) = none := by
        rw [List.find?_eq_none]
        intro item hitem hsame
        exact hfirst (List.mem_map.mpr ⟨item, hitem, by simpa using hsame⟩)
      simp [hnone]
    · simp [hkey]

/-- The second parts of the edges that carry a label. -/
def targetsIn (edges : List (Label × String)) (label : Label) : List String :=
  edges.filterMap fun edge => if edge.1 = label then some edge.2 else none

/-- Adding edges to a state adds the targets of those with a label to the targets. -/
theorem State.targets_addEdges (state : State) (added : List (Label × String)) (label : Label) :
    ({ state with edges := addAllLast state.edges added } : State).targets label =
      addAllLast (state.targets label) (targetsIn added label) := by
  induction added generalizing state with
  | nil => rfl
  | cons edge added ih =>
    obtain ⟨read, target⟩ := edge
    have hstep := ih (state.addEdge read target)
    have hsame : addAllLast (state.addEdge read target).edges added =
        addAllLast state.edges ((read, target) :: added) := rfl
    rw [hsame, State.targets_addEdge] at hstep
    refine hstep.trans ?_
    by_cases hlabel : label = read
    · subst hlabel
      simp [targetsIn, addAllLast]
    · have hne : ¬ read = label := fun heq => hlabel heq.symm
      simp [targetsIn, hlabel, hne]

/-- Listing the targets of several labels, each with its label, keeps them apart. -/
theorem targetsIn_flatMap (state : State) {labels : List Label} (h : labels.Nodup)
    (label : Label) :
    targetsIn (labels.flatMap fun read => (state.targets read).map fun target => (read, target))
        label =
      if label ∈ labels then state.targets label else [] := by
  have hlabels : (labels.map id).Nodup := by rwa [List.map_id]
  refine (valuesAt_flatMap hlabels state.targets label).trans ?_
  split
  · next read hfound =>
    have hread : read = label := by simpa using List.find?_some hfound
    rw [if_pos (hread ▸ List.mem_of_find?_eq_some hfound), hread]
  · next hmissing =>
    refine (if_neg fun hlabel => ?_).symm
    simpa using List.find?_eq_none.mp hmissing label hlabel

/-- In a consistent automaton, a state's edges over the alphabet are all its edges. -/
theorem WellFormed.targetsIn_edgesOver (h : other.WellFormed) {state : State}
    (hstate : state ∈ other.states) (label : Label) :
    targetsIn (state.edgesOver other.alphabet) label = state.targets label := by
  have hlabels : (other.alphabet.map Label.char ++ [Label.epsilon]).Nodup := by
    refine List.nodup_append.mpr ⟨?_, by simp, by simp⟩
    exact h.alphabet_nodup.map fun _ _ hsame => Label.char.inj hsame
  rw [State.edgesOver, targetsIn_flatMap state hlabels]
  split
  · rfl
  · next hlabel =>
    cases htargets : state.targets label with
    | nil => rfl
    | cons target rest =>
      have htarget : target ∈ other.targets state.name label := by
        simp [h.targets_name hstate, htargets]
      cases label with
      | epsilon => simp at hlabel
      | char c =>
        have hc : c ∈ other.alphabet := (h.mem_alphabet c).mpr ⟨_, _, htarget⟩
        simp [hc] at hlabel

/-- Copying adds the targets of the namesake. -/
theorem WellFormed.targets_copyEdges (h : other.WellFormed) (state : State) (label : Label) :
    (other.copyEdges state).targets label =
      addAllLast (state.targets label) (other.targets state.name label) := by
  unfold copyEdges targets
  cases hfound : other.find? state.name with
  | none => rfl
  | some copied =>
    have hcopied : copied ∈ other.states := List.mem_of_find?_eq_some hfound
    simp only
    rw [State.targets_addEdges, h.targetsIn_edgesOver hcopied]

/-- The index by names holds the names of the states. -/
theorem contains_byName {name : String} : nfa.byName.contains name = true ↔ name ∈ nfa.names := by
  rw [Std.TreeMap.contains_eq_isSome_getElem?, getElem?_byName, find?, List.find?_isSome,
    ← hasState_iff, hasState, List.any_eq_true]

/-- The ends of an automaton's edges are among its states. -/
theorem WellFormed.mem_names_of_mem_edgeEnds (h : other.WellFormed) {name : String}
    (hname : name ∈ other.edgeEnds) : name ∈ other.names := by
  obtain ⟨state, hstate, hends⟩ := List.mem_flatMap.mp hname
  obtain ⟨⟨label, target⟩, hedge, hend⟩ := List.mem_flatMap.mp hends
  have hsource : state.name ∈ other.names := List.mem_map_of_mem hstate
  rcases List.mem_cons.mp hend with rfl | hend
  · exact hsource
  · have htarget : name = target := List.mem_singleton.mp hend
    subst htarget
    obtain ⟨read, _, hpair⟩ := List.mem_flatMap.mp hedge
    obtain ⟨reached, hreached, heq⟩ := List.mem_map.mp hpair
    obtain ⟨rfl, rfl⟩ := Prod.mk.inj heq
    rw [← h.targets_name hstate] at hreached
    exact h.targets_mem state.name read reached hreached

/-- The characters on an automaton's edges are those of its alphabet. -/
theorem WellFormed.mem_edgeLabels (h : other.WellFormed) {c : Char} :
    Label.char c ∈ other.edgeLabels ↔ c ∈ other.alphabet := by
  constructor
  · intro hlabel
    obtain ⟨state, hstate, hedges⟩ := List.mem_flatMap.mp hlabel
    obtain ⟨⟨label, target⟩, hedge, rfl⟩ := List.mem_map.mp hedges
    obtain ⟨read, hread, hpair⟩ := List.mem_flatMap.mp hedge
    obtain ⟨_, _, heq⟩ := List.mem_map.mp hpair
    obtain ⟨rfl, _⟩ := Prod.mk.inj heq
    simpa using hread
  · intro hc
    obtain ⟨source, target, htarget⟩ := (h.mem_alphabet c).mp hc
    obtain ⟨state, hstate, rfl⟩ := List.mem_map.mp (source_mem_names htarget)
    rw [h.targets_name hstate] at htarget
    refine List.mem_flatMap.mpr ⟨state, hstate, List.mem_map.mpr ⟨(.char c, target), ?_, rfl⟩⟩
    refine List.mem_flatMap.mpr ⟨.char c, ?_, List.mem_map.mpr ⟨target, htarget, rfl⟩⟩
    simp [hc]

/-- Labels put their characters into the alphabet, and nothing else comes in. -/
theorem mem_foldl_extendAlphabet {alphabet : List Char} {labels : List Label} {c : Char} :
    c ∈ labels.foldl extendAlphabet alphabet ↔ c ∈ alphabet ∨ Label.char c ∈ labels := by
  induction labels generalizing alphabet with
  | nil => simp
  | cons label labels ih =>
    rw [List.foldl_cons, ih, mem_extendAlphabet, List.mem_cons, or_assoc, eq_comm]

/-- No character comes in twice with labels. -/
theorem nodup_foldl_extendAlphabet {alphabet : List Char} (h : alphabet.Nodup)
    (labels : List Label) : (labels.foldl extendAlphabet alphabet).Nodup := by
  induction labels generalizing alphabet with
  | nil => exact h
  | cons label labels ih => exact ih (nodup_extendAlphabet h label)

/-- All edges of an automaton can be copied to one that has its states. -/
theorem WellFormed.addEdgesOf_eq (h : other.WellFormed)
    (hnames : ∀ name ∈ other.names, name ∈ nfa.names) :
    nfa.addEdgesOf other = .ok { nfa with
      states := nfa.states.map other.copyEdges
      alphabet := other.edgeLabels.foldl extendAlphabet nfa.alphabet } := by
  have hknown : (other.edgeEnds.find? fun name => !nfa.byName.contains name) = none := by
    rw [List.find?_eq_none]
    intro name hname
    have hin := contains_byName.mpr (hnames name (h.mem_names_of_mem_edgeEnds hname))
    simp [hin]
  simp only [addEdgesOf, hknown, getElem?_byName]
  rfl

section Edges

variable (hother : other.WellFormed) (hnames : ∀ name ∈ other.names, name ∈ nfa.names)
  (hadd : nfa.addEdgesOf other = .ok extended)

include hother hnames hadd

/-- Apart from the edges and the alphabet, copying edges changes nothing. -/
theorem addEdgesOf_keeps :
    extended.names = nfa.names ∧ extended.start = nfa.start ∧ extended.finals = nfa.finals ∧
      extended.flags = nfa.flags := by
  rw [hother.addEdgesOf_eq hnames, Except.ok.injEq] at hadd
  subst hadd
  refine ⟨?_, rfl, rfl, rfl⟩
  simp [names, Function.comp_def]

/-- Copying edges adds the targets of the other automaton after those that are there. -/
theorem targets_addEdgesOf (source : String) (label : Label) :
    extended.targets source label =
      addAllLast (nfa.targets source label) (other.targets source label) := by
  rw [hother.addEdgesOf_eq hnames, Except.ok.injEq] at hadd
  subst hadd
  have hkeep : ((fun state : State => state.name == source) ∘ other.copyEdges) =
      fun state => state.name == source := by
    funext state
    simp [Function.comp]
  have hfind : (nfa.states.map other.copyEdges).find? (fun state => state.name == source) =
      (nfa.find? source).map other.copyEdges := by
    rw [List.find?_map, hkeep, find?]
  simp only [targets, find?] at hfind ⊢
  rw [hfind]
  cases hfound : nfa.states.find? fun state => state.name == source with
  | none =>
    have hmissing : source ∉ other.names := by
      intro hmem
      obtain ⟨state, hstate, hname⟩ := List.mem_map.mp (hnames source hmem)
      simpa [hname] using List.find?_eq_none.mp hfound state hstate
    have hnone := targets_of_not_mem hmissing label
    simp only [targets, find?] at hnone
    simp [hnone, addAllLast]
  | some state =>
    have hname : state.name = source := by simpa using List.find?_some hfound
    have hcopied := hother.targets_copyEdges state label
    rw [hname] at hcopied
    exact hcopied

/-- Both the old edges and the copied ones are there, and no others. -/
theorem mem_targets_addEdgesOf {target : String} :
    target ∈ extended.targets source label ↔
      target ∈ nfa.targets source label ∨ target ∈ other.targets source label := by
  rw [targets_addEdgesOf hother hnames hadd, mem_addAllLast]

/-- Both alphabets are joined. -/
theorem mem_alphabet_addEdgesOf {c : Char} :
    c ∈ extended.alphabet ↔ c ∈ nfa.alphabet ∨ c ∈ other.alphabet := by
  rw [hother.addEdgesOf_eq hnames, Except.ok.injEq] at hadd
  subst hadd
  rw [mem_foldl_extendAlphabet, hother.mem_edgeLabels]

/-- Copying the edges of another consistent automaton keeps this one consistent. -/
theorem WellFormed.addEdgesOf (h : nfa.WellFormed) : extended.WellFormed := by
  obtain ⟨hsame, hstart, hfinals, _⟩ := addEdgesOf_keeps hother hnames hadd
  have htargets := targets_addEdgesOf hother hnames hadd
  constructor
  case names_nodup => exact hsame ▸ h.names_nodup
  case names_ne_empty => exact hsame ▸ h.names_ne_empty
  case start_mem =>
    intro start hsome
    rw [hsame]
    exact h.start_mem start (hstart ▸ hsome)
  case finals_nodup => exact hfinals ▸ h.finals_nodup
  case finals_mem =>
    intro final hfinal
    rw [hsame]
    exact h.finals_mem final (hfinals ▸ hfinal)
  case tags =>
    intro state hstate
    rw [hother.addEdgesOf_eq hnames, Except.ok.injEq] at hadd
    subst hadd
    obtain ⟨old, hold, rfl⟩ := List.mem_map.mp hstate
    rw [isFinal_copyEdges, name_copyEdges]
    exact h.tags old hold
  case targets_nodup =>
    intro source label
    rw [htargets]
    exact nodup_addAllLast (h.targets_nodup source label) _
  case targets_mem =>
    intro source label target htarget
    rw [hsame]
    rcases (mem_targets_addEdgesOf hother hnames hadd).mp htarget with hold | hnew
    · exact h.targets_mem source label target hold
    · exact hnames target (hother.targets_mem source label target hnew)
  case alphabet_nodup =>
    rw [hother.addEdgesOf_eq hnames, Except.ok.injEq] at hadd
    subst hadd
    exact nodup_foldl_extendAlphabet h.alphabet_nodup _
  case mark_not_mem =>
    rw [mem_alphabet_addEdgesOf hother hnames hadd]
    rintro (hmark | hmark)
    · exact h.mark_not_mem hmark
    · exact hother.mark_not_mem hmark
  case mem_alphabet =>
    intro c
    rw [mem_alphabet_addEdgesOf hother hnames hadd, h.mem_alphabet, hother.mem_alphabet]
    simp only [mem_targets_addEdgesOf hother hnames hadd]
    constructor
    · rintro (⟨source, target, hedge⟩ | ⟨source, target, hedge⟩)
      · exact ⟨source, target, Or.inl hedge⟩
      · exact ⟨source, target, Or.inr hedge⟩
    · rintro ⟨source, target, hedge | hedge⟩
      · exact Or.inl ⟨source, target, hedge⟩
      · exact Or.inr ⟨source, target, hedge⟩

end Edges

end Automata.Nfa
