import Automata.Proofs.History
import Automata.Proofs.Nfa.WellFormed

/-!
# Nondeterministic automata hold what was granted

Each addition is a request, and it fails just when the request is refused. So an automaton
that additions build holds what was granted out of its history: its states, its final states,
its alphabet and the targets of each edge are what the granted requests name, each where it
was named first, and its start is the one named last.
-/

namespace Automata.Nfa

/-- The request that an addition makes. The mark requests the empty label. -/
def Addition.request : Addition → Request Label
  | .start name => .start name
  | .state name => .state name
  | .final name => .final name
  | .edge source symbol target => .edge source (.ofChar symbol) target
  | .epsilonEdge source target => .edge source .epsilon target

/-- The symbol of the edge that is requested, if it reads one. -/
def requestedSymbol? : Request Label → Option Char
  | .edge _ (.char symbol) _ => some symbol
  | _ => none

/-- The automaton holds what was granted, and nothing else. -/
structure Holds (flags : Flags) (nfa : Nfa) (granted : List (Request Label)) : Prop where
  names_eq : nfa.names = (granted.filterMap Request.name?).eraseDups
  start_eq : nfa.start = (granted.filterMap Request.start?).getLast?
  finals_eq : nfa.finals = (granted.filterMap Request.final?).eraseDups
  targets_eq : ∀ source label,
    nfa.targets source label = (granted.filterMap (Request.target? source label)).eraseDups
  alphabet_eq : nfa.alphabet = (granted.filterMap requestedSymbol?).eraseDups
  flags_eq : nfa.flags = flags

/-- What a request changes that is granted: each list gets what the request names at its end,
unless it is there. -/
structure Grants (nfa : Nfa) (request : Request Label) (extended : Nfa) : Prop where
  names_eq : extended.names = request.name?.elim nfa.names (addLast nfa.names)
  start_eq : extended.start = request.start?.or nfa.start
  finals_eq : extended.finals = request.final?.elim nfa.finals (addLast nfa.finals)
  targets_eq : ∀ source label, extended.targets source label =
    (request.target? source label).elim (nfa.targets source label)
      (addLast (nfa.targets source label))
  alphabet_eq : extended.alphabet =
    (requestedSymbol? request).elim nfa.alphabet (addLast nfa.alphabet)
  flags_eq : extended.flags = nfa.flags

variable {nfa extended : Nfa} {name source target : String} {label : Label} {flags : Flags}
variable {granted : List (Request Label)} {addition : Addition}

/-- At first nothing was granted, and nothing is there. -/
theorem holds_empty (flags : Flags) : Holds flags { flags } [] where
  names_eq := rfl
  start_eq := rfl
  finals_eq := rfl
  targets_eq _ _ := rfl
  alphabet_eq := rfl
  flags_eq := rfl

/-- What one more request grants is recorded behind what was granted before. -/
theorem Holds.concat {request : Request Label} (h : Holds flags nfa granted)
    (hgrants : Grants nfa request extended) : Holds flags extended (granted ++ [request]) where
  names_eq := by rw [eraseDups_filterMap_concat, ← h.names_eq, hgrants.names_eq]
  start_eq := by rw [getLast?_filterMap_concat, ← h.start_eq, hgrants.start_eq]
  finals_eq := by rw [eraseDups_filterMap_concat, ← h.finals_eq, hgrants.finals_eq]
  targets_eq source label := by
    rw [eraseDups_filterMap_concat, ← h.targets_eq, hgrants.targets_eq]
  alphabet_eq := by rw [eraseDups_filterMap_concat, ← h.alphabet_eq, hgrants.alphabet_eq]
  flags_eq := hgrants.flags_eq.trans h.flags_eq

/-! ### One addition -/

/-- Adding a state grants the request for it and no more. -/
theorem grants_of_addState (h : nfa.addState name = .ok extended) :
    Grants nfa (.state name) extended := by
  obtain ⟨halphabet, hstart, hfinals, hflags⟩ := addState_keeps h
  exact ⟨names_addState h, hstart, hfinals, targets_addState h, halphabet, hflags⟩

/-- Adding a start grants the request for it and no more. -/
theorem grants_of_addStart (h : nfa.addStart name = .ok extended) :
    Grants nfa (.start name) extended := by
  have hstart := start_addStart h
  obtain ⟨added, hadded, rfl⟩ := exists_addState_of_addStart h
  have hstate := grants_of_addState hadded
  exact { hstate with start_eq := hstart }

/-- Adding a final state grants the request for it and no more. -/
theorem grants_of_addFinal (h : nfa.addFinal name = .ok extended) :
    Grants nfa (.final name) extended := by
  have hnames := names_addFinal h
  have hfinals := finals_addFinal h
  have htargets := targets_addFinal h
  obtain ⟨added, hadded, rfl⟩ := exists_addState_of_addFinal h
  have hstate := grants_of_addState hadded
  exact { hstate with names_eq := hnames, finals_eq := hfinals, targets_eq := htargets }

/-- Adding an edge grants the request for it and no more. -/
theorem grants_of_addEdge (h : nfa.addEdge source label target = .ok extended) :
    Grants nfa (.edge source label target) extended := by
  obtain ⟨hstart, hfinals, hflags⟩ := addEdge_keeps h
  refine ⟨names_addEdge h, hstart, hfinals, ?_, ?_, hflags⟩
  · intro other read
    rw [targets_addEdge h]
    simp only [Request.target?, eq_comm (a := source), eq_comm (a := label)]
    split <;> rfl
  · rw [alphabet_addEdge h]
    cases label <;> rfl

/-- An addition that succeeds changes what its request changes. -/
theorem grants_of_add (h : nfa.add addition = .ok extended) :
    Grants nfa addition.request extended := by
  cases addition with
  | start name => exact grants_of_addStart h
  | state name => exact grants_of_addState h
  | final name => exact grants_of_addFinal h
  | edge source symbol target => exact grants_of_addEdge h
  | epsilonEdge source target => exact grants_of_addEdge h

/-! ### What is refused -/

/-- Only the empty name is refused as a state. -/
theorem addState_eq_error_iff {error : Error} :
    nfa.addState name = .error error ↔ (if name = "" then some .emptyStateName else none) =
      some error := by
  by_cases hname : name = ""
  · simp [hname, addState_empty]
  · simp [hname, addState_eq hname]

/-- An edge is refused for the end that was not granted, and first for the source. -/
theorem Holds.addEdge_eq_error_iff (h : Holds flags nfa granted) (error : Error) :
    nfa.addEdge source label target = .error error ↔
      (Request.edge source label target).refusal granted = some error :=
  Request.eq_error_iff_refusal_edge h.names_eq addEdge_unknown_source addEdge_unknown_target
    (fun hsource htarget => ⟨_, addEdge_eq hsource htarget⟩) error

/-- Nondeterministic automata obey the rule. -/
theorem obeys (flags : Flags) : Obeys add Addition.request (Holds flags) where
  error_iff h addition error := by
    cases addition with
    | start name => exact map_eq_error_iff.trans addState_eq_error_iff
    | state name => exact addState_eq_error_iff
    | final name => exact map_eq_error_iff.trans addState_eq_error_iff
    | edge source symbol target => exact h.addEdge_eq_error_iff error
    | epsilonEdge source target => exact h.addEdge_eq_error_iff error
  holds h _ _ hadd := h.concat (grants_of_add hadd)

/-! ### Whole histories -/

/-- An automaton that additions build holds what was granted. -/
theorem holds_ofAdditions (flags : Flags) (additions : List Addition) :
    Holds flags (ofAdditions flags additions)
      (Request.granted (additions.map Addition.request)) :=
  (obeys flags).holds_foldl tryAdd_of_ok tryAdd_of_error (holds_empty flags) additions

/-- After any additions, of which some failed, the next one fails when it is refused after those
that succeeded, and then it changes nothing. What the additions have made holds just what the
successful ones named, in order: each state, each final state, each symbol and each target of
an edge where it was named first, and the start that was named last. -/
theorem ofAdditions_holds_history (flags : Flags) (additions : List Addition) :
    let granted := Request.granted (additions.map Addition.request)
    let nfa := ofAdditions flags additions
    (∀ addition error, nfa.add addition = .error error ↔
      addition.request.refusal granted = some error) ∧
    (∀ addition error, nfa.add addition = .error error →
      ofAdditions flags (additions ++ [addition]) = nfa) ∧
    (∀ addition extended, nfa.add addition = .ok extended →
      ofAdditions flags (additions ++ [addition]) = extended) ∧
    nfa.names = (granted.filterMap Request.name?).eraseDups ∧
    nfa.start = (granted.filterMap Request.start?).getLast? ∧
    nfa.finals = (granted.filterMap Request.final?).eraseDups ∧
    (∀ state ∈ nfa.states, state.isFinal = true ↔ state.name ∈ nfa.finals) ∧
    (∀ source symbol, nfa.successors source symbol =
      if source ∈ nfa.names then
        .ok (granted.filterMap (Request.target? source (.ofChar symbol))).eraseDups
      else .error (.unknownState source)) ∧
    nfa.alphabet = (granted.filterMap requestedSymbol?).eraseDups ∧
    nfa.flags = flags := by
  intro granted nfa
  have hholds : Holds flags nfa granted := holds_ofAdditions flags additions
  have hbuilt : nfa.Built := ⟨flags, additions, rfl⟩
  have hnext : ∀ addition, ofAdditions flags (additions ++ [addition]) = nfa.tryAdd addition := by
    intro addition
    rw [ofAdditions, List.foldl_append]
    rfl
  refine ⟨(obeys flags).error_iff hholds, ?_, ?_, hholds.names_eq, hholds.start_eq,
    hholds.finals_eq, hbuilt.wellFormed.tags, ?_, hholds.alphabet_eq, hholds.flags_eq⟩
  · intro addition error herror
    rw [hnext, tryAdd_of_error herror]
  · intro addition extended hadd
    rw [hnext, tryAdd_of_ok hadd]
  · intro source symbol
    simp only [successors, hasState_iff, hholds.targets_eq]

end Automata.Nfa
