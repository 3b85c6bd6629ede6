import Automata.Dfa.Lemmas
import Automata.Proofs.History

/-!
# Deterministic automata hold what was granted

Additions to a deterministic automaton are requests too, and fail by the same rule. What it
holds is read off the granted requests in the same way, except that a move leads to the target
that was named last for its state and symbol.
-/

namespace Automata.Dfa

/-- The request that an addition makes. -/
def Addition.request : Addition → Request Char
  | .start name => .start name
  | .state name => .state name
  | .final name => .final name
  | .edge source symbol target => .edge source symbol target

/-- The automaton holds what was granted, and nothing else. -/
structure Holds (flags : Flags) (dfa : Dfa) (granted : List (Request Char)) : Prop where
  names_eq : dfa.names = (granted.filterMap Request.name?).eraseDups
  start_eq : dfa.start = (granted.filterMap Request.start?).getLast?
  finals_eq : dfa.finals = (granted.filterMap Request.final?).eraseDups
  target_eq : ∀ source symbol,
    dfa.target source symbol = (granted.filterMap (Request.target? source symbol)).getLast?
  alphabet_eq : dfa.alphabet = (granted.filterMap Request.label?).eraseDups
  flags_eq : dfa.flags = flags

/-- What a request changes that is granted: each list gets what the request names at its end,
unless it is there, and a move leads where the request says. -/
structure Grants (dfa : Dfa) (request : Request Char) (extended : Dfa) : Prop where
  names_eq : extended.names = request.name?.elim dfa.names (addLast dfa.names)
  start_eq : extended.start = request.start?.or dfa.start
  finals_eq : extended.finals = request.final?.elim dfa.finals (addLast dfa.finals)
  target_eq : ∀ source symbol, extended.target source symbol =
    (request.target? source symbol).or (dfa.target source symbol)
  alphabet_eq : extended.alphabet = request.label?.elim dfa.alphabet (addLast dfa.alphabet)
  flags_eq : extended.flags = dfa.flags

variable {dfa extended : Dfa} {name source target : String} {symbol : Char} {flags : Flags}
variable {granted : List (Request Char)} {addition : Addition}

/-- At first nothing was granted, and nothing is there. -/
theorem holds_empty (flags : Flags) : Holds flags { flags } [] where
  names_eq := rfl
  start_eq := rfl
  finals_eq := rfl
  target_eq _ _ := rfl
  alphabet_eq := rfl
  flags_eq := rfl

/-- What one more request grants is recorded behind what was granted before. -/
theorem Holds.concat {request : Request Char} (h : Holds flags dfa granted)
    (hgrants : Grants dfa request extended) : Holds flags extended (granted ++ [request]) where
  names_eq := by rw [eraseDups_filterMap_concat, ← h.names_eq, hgrants.names_eq]
  start_eq := by rw [getLast?_filterMap_concat, ← h.start_eq, hgrants.start_eq]
  finals_eq := by rw [eraseDups_filterMap_concat, ← h.finals_eq, hgrants.finals_eq]
  target_eq source symbol := by
    rw [getLast?_filterMap_concat, ← h.target_eq, hgrants.target_eq]
  alphabet_eq := by rw [eraseDups_filterMap_concat, ← h.alphabet_eq, hgrants.alphabet_eq]
  flags_eq := hgrants.flags_eq.trans h.flags_eq

/-! ### One addition -/

/-- Adding a state grants the request for it and no more. -/
theorem grants_of_addState (h : dfa.addState name = .ok extended) :
    Grants dfa (.state name) extended := by
  obtain ⟨halphabet, hstart, hfinals, hflags⟩ := addState_keeps h
  exact ⟨names_addState h, hstart, hfinals, target_addState h, halphabet, hflags⟩

/-- Adding a start grants the request for it and no more. -/
theorem grants_of_addStart (h : dfa.addStart name = .ok extended) :
    Grants dfa (.start name) extended := by
  obtain ⟨added, hadded, rfl⟩ := exists_addState_of_addStart h
  have hstate := grants_of_addState hadded
  exact { hstate with start_eq := rfl }

/-- Adding a final state grants the request for it and no more. -/
theorem grants_of_addFinal (h : dfa.addFinal name = .ok extended) :
    Grants dfa (.final name) extended := by
  obtain ⟨added, hadded, rfl⟩ := exists_addState_of_addFinal h
  have hstate := grants_of_addState hadded
  exact { hstate with finals_eq := rfl }

/-- Setting a move grants the request for it, and takes away what was set before. -/
theorem grants_of_addEdge (h : dfa.addEdge source symbol target = .ok extended) :
    Grants dfa (.edge source symbol target) extended := by
  obtain ⟨halphabet, hstart, hfinals, hflags⟩ := addEdge_keeps h
  refine ⟨names_addEdge h, hstart, hfinals, ?_, halphabet, hflags⟩
  intro other read
  rw [target_addEdge h]
  simp only [Request.target?, eq_comm (a := source), eq_comm (a := symbol)]
  split <;> rfl

/-- An addition that succeeds changes what its request changes. -/
theorem grants_of_add (h : dfa.add addition = .ok extended) :
    Grants dfa addition.request extended := by
  cases addition with
  | start name => exact grants_of_addStart h
  | state name => exact grants_of_addState h
  | final name => exact grants_of_addFinal h
  | edge source symbol target => exact grants_of_addEdge h

/-! ### What is refused -/

/-- Only the empty name is refused as a state. -/
theorem addState_eq_error_iff {error : Error} :
    dfa.addState name = .error error ↔ (if name = "" then some .emptyStateName else none) =
      some error := by
  by_cases hname : name = ""
  · simp [hname, addState]
  · simp [hname, addState_eq hname]

/-- A move is refused for the end that was not granted, and first for the source. -/
theorem Holds.addEdge_eq_error_iff (h : Holds flags dfa granted) (error : Error) :
    dfa.addEdge source symbol target = .error error ↔
      (Request.edge source symbol target).refusal granted = some error :=
  Request.eq_error_iff_refusal_edge h.names_eq addEdge_unknown_source addEdge_unknown_target
    (fun hsource htarget => ⟨_, addEdge_eq hsource htarget⟩) error

/-- Deterministic automata obey the rule. -/
theorem obeys (flags : Flags) : Obeys add Addition.request (Holds flags) where
  error_iff h addition error := by
    cases addition with
    | start name => exact map_eq_error_iff.trans addState_eq_error_iff
    | state name => exact addState_eq_error_iff
    | final name => exact map_eq_error_iff.trans addState_eq_error_iff
    | edge source symbol target => exact h.addEdge_eq_error_iff error
  holds h _ _ hadd := h.concat (grants_of_add hadd)

/-! ### Whole histories -/

/-- An automaton that additions build holds what was granted. -/
theorem holds_ofAdditions (flags : Flags) (additions : List Addition) :
    Holds flags (ofAdditions flags additions)
      (Request.granted (additions.map Addition.request)) :=
  (obeys flags).holds_foldl tryAdd_of_ok tryAdd_of_error (holds_empty flags) additions

/-- No name is there twice. -/
theorem Holds.names_nodup (h : Holds flags dfa granted) : dfa.names.Nodup := by
  rw [h.names_eq]
  exact nodup_eraseDups _

/-- A state is final when it was requested to be. -/
theorem Holds.isFinal_iff (h : Holds flags dfa granted) :
    dfa.isFinal name = true ↔ Request.final name ∈ granted := by
  rw [isFinal, List.contains_iff_mem, h.finals_eq, List.mem_eraseDups, List.mem_filterMap]
  constructor
  · rintro ⟨request, hrequest, hname⟩
    cases request <;> simp_all [Request.final?]
  · intro hrequest
    exact ⟨_, hrequest, rfl⟩

/-- After any additions, of which some failed, the next one fails when it is refused after those
that succeeded, and then it changes nothing. What the additions have made holds just what the
successful ones named, in order: each state, each final state and each symbol where it was named
first, and the start that was named last. The move from a state on a symbol leads to the target
that was named last for them, and the automaton is total when no such move is missing. -/
theorem ofAdditions_holds_last_moves (flags : Flags) (additions : List Addition) :
    let granted := Request.granted (additions.map Addition.request)
    let dfa := ofAdditions flags additions
    (∀ addition error, dfa.add addition = .error error ↔
      addition.request.refusal granted = some error) ∧
    (∀ addition error, dfa.add addition = .error error →
      ofAdditions flags (additions ++ [addition]) = dfa) ∧
    (∀ addition extended, dfa.add addition = .ok extended →
      ofAdditions flags (additions ++ [addition]) = extended) ∧
    dfa.names = (granted.filterMap Request.name?).eraseDups ∧
    dfa.finals = (granted.filterMap Request.final?).eraseDups ∧
    dfa.alphabet = (granted.filterMap Request.label?).eraseDups ∧
    dfa.start = (granted.filterMap Request.start?).getLast? ∧
    (∀ source symbol, dfa.target source symbol =
      (granted.filterMap (Request.target? source symbol)).getLast?) ∧
    (∀ name, dfa.isFinal name = true ↔ Request.final name ∈ granted) ∧
    (dfa.isTotal = true ↔ ∀ name ∈ dfa.names, ∀ symbol ∈ dfa.alphabet,
      ∃ next, dfa.target name symbol = some next) ∧
    dfa.flags = flags := by
  intro granted dfa
  have hholds : Holds flags dfa granted := holds_ofAdditions flags additions
  have hnext : ∀ addition, ofAdditions flags (additions ++ [addition]) = dfa.tryAdd addition := by
    intro addition
    rw [ofAdditions, List.foldl_append]
    rfl
  refine ⟨(obeys flags).error_iff hholds, ?_, ?_, hholds.names_eq, hholds.finals_eq,
    hholds.alphabet_eq, hholds.start_eq, hholds.target_eq, fun _ => hholds.isFinal_iff,
    isTotal_iff hholds.names_nodup, hholds.flags_eq⟩
  · intro addition error herror
    rw [hnext, tryAdd_of_error herror]
  · intro addition extended hadd
    rw [hnext, tryAdd_of_ok hadd]

end Automata.Dfa
