import Automata.Nfa.Basic
import Std.Data.TreeMap.Lemmas
import Std.Data.TreeSet.Lemmas

/-!
# Copying states and edges

An automaton takes over many states or all edges of another one at once. The outcome is
that of adding them one after the other; an index of the states by name spares a search
through the states for each of them.
-/

namespace Automata.Nfa

/-- The states by name. -/
def byName (nfa : Nfa) : Std.TreeMap String State :=
  nfa.states.foldl (fun index state => index.insertIfNew state.name state) {}

/-- The index finds what a search through the states finds. -/
theorem getElem?_byName (nfa : Nfa) (name : String) : nfa.byName[name]? = nfa.find? name := by
  obtain ⟨states, alphabet, start, finals, flags⟩ := nfa
  simp only [byName, find?]
  suffices h : ∀ index : Std.TreeMap String State,
      (states.foldl (fun index state => index.insertIfNew state.name state) index)[name]? =
        (index[name]?).or (states.find? fun state => state.name == name) by
    rw [h]
    simp
  induction states with
  | nil => simp
  | cons state states ih =>
    intro index
    rw [List.foldl_cons, ih, Std.TreeMap.getElem?_insertIfNew, List.find?_cons]
    by_cases hname : state.name = name
    · subst hname
      cases hold : index[state.name]? with
      | some old =>
        have hin : state.name ∈ index := by
          rw [Std.TreeMap.mem_iff_isSome_getElem?, hold]
          rfl
        simp [hin]
      | none =>
        have hout : state.name ∉ index := by
          rw [Std.TreeMap.mem_iff_isSome_getElem?, hold]
          simp
        simp [hout]
    · have hcompare : compare state.name name ≠ .eq := fun h =>
        hname (Std.LawfulEqOrd.compare_eq_iff_eq.mp h)
      have hother : (state.name == name) = false := by simpa using hname
      simp [hother, hcompare]

/-- The names that are neither among those known nor repeat one before them. -/
def freshNames (known : Std.TreeSet String) : List String → List String
  | [] => []
  | name :: rest =>
    if known.contains name then freshNames known rest
    else name :: freshNames (known.insert name) rest

/-- Adding the fresh names at the end is adding all names one after the other. -/
theorem append_freshNames {names : List String} {known : Std.TreeSet String} {l : List String}
    (hknown : ∀ name, known.contains name = true ↔ name ∈ l) :
    l ++ freshNames known names = addAllLast l names := by
  induction names generalizing known l with
  | nil => simp [freshNames, addAllLast]
  | cons name names ih =>
    have hstep : addAllLast l (name :: names) = addAllLast (addLast l name) names := rfl
    unfold freshNames
    split
    · next hin =>
      rw [hstep, addLast_of_mem ((hknown name).mp hin)]
      exact ih hknown
    · next hout =>
      have hmem : name ∉ l := fun h => hout ((hknown name).mpr h)
      have hinsert : ∀ other, (known.insert name).contains other = true ↔ other ∈ l ++ [name] := by
        intro other
        rw [Std.TreeSet.contains_insert, Bool.or_eq_true, hknown, List.mem_append,
          List.mem_singleton, beq_iff_eq, Std.LawfulEqOrd.compare_eq_iff_eq]
        exact ⟨fun h => h.elim (fun e => Or.inr e.symm) Or.inl,
          fun h => h.elim Or.inr fun e => Or.inl e.symm⟩
      rw [hstep, addLast_of_not_mem hmem, ← ih hinsert]
      simp

/-- Adds states one after the other. -/
def addStates (nfa : Nfa) (names : List String) : Except Error Nfa :=
  if "" ∈ names then .error .emptyStateName
  else
    let known := Std.TreeSet.ofList nfa.names
    .ok { nfa with states := nfa.states ++ (freshNames known names).map fun name => { name } }

/-- States that are added come last among the names in order, but for those that are there. -/
theorem names_addStates {nfa extended : Nfa} {names : List String}
    (h : nfa.addStates names = .ok extended) : extended.names = addAllLast nfa.names names := by
  unfold addStates at h
  split at h
  · simp at h
  · simp only [Except.ok.injEq] at h
    subst h
    have hknown : ∀ name, (Std.TreeSet.ofList nfa.names).contains name = true ↔
        name ∈ nfa.names := fun name => by simp [Std.TreeSet.contains_ofList]
    rw [← append_freshNames hknown]
    have hname : ((·.name) ∘ fun name : String => ({ name } : State)) = id := rfl
    simp [Nfa.names, hname]

/-- A state's edges, first those with the characters of an alphabet in order and then those
that read nothing. -/
def State.edgesOver (alphabet : List Char) (state : State) : List (Label × String) :=
  (alphabet.map Label.char ++ [Label.epsilon]).flatMap fun label =>
    (state.targets label).map fun target => (label, target)

/-- The names of the states that edges join, sources before targets. -/
def edgeEnds (nfa : Nfa) : List String :=
  nfa.states.flatMap fun state =>
    (state.edgesOver nfa.alphabet).flatMap fun edge => [state.name, edge.2]

/-- The labels of all edges. -/
def edgeLabels (nfa : Nfa) : List Label :=
  nfa.states.flatMap fun state => (state.edgesOver nfa.alphabet).map (·.1)

/-- Adds every edge of another automaton, whose states must already be there. -/
def addEdgesOf (nfa other : Nfa) : Except Error Nfa :=
  let known := nfa.byName
  match other.edgeEnds.find? fun name => !known.contains name with
  | some name => .error (.unknownState name)
  | none =>
    let index := other.byName
    .ok { nfa with
      states := nfa.states.map fun state =>
        match index[state.name]? with
        | some copied =>
          { state with edges := addAllLast state.edges (copied.edgesOver other.alphabet) }
        | none => state
      alphabet := other.edgeLabels.foldl extendAlphabet nfa.alphabet }

end Automata.Nfa
