import Automata.Proofs.Description.Build
import Automata.Proofs.Description.Reader
import Automata.Proofs.Dfa.Determinized
import Automata.Proofs.Dfa.History
import Automata.Proofs.Dfa.Mirror
import Automata.Proofs.Nfa.History

/-!
# Both readings of a description

Read either way, a description requests the same states and edges in the same order, except
that an edge on `e` reads nothing when the reading is nondeterministic. So both readings fail
for the first end of an edge that is not declared, or both succeed with the same states. Where
no edge is on `e` and edges from one state on one symbol have one target, the nondeterministic
automaton mirrors the deterministic one.
-/

namespace Automata.Description

/-- The names on the first three lines. -/
def declared (description : Description) : List String :=
  description.finals ++ description.start :: description.states

/-- The states that an edge joins, its source first. -/
def Edge.ends (edge : Edge) : List String := [edge.source.toString, edge.target.toString]

/-- The first end of an edge that is not declared. -/
def firstUndeclared (description : Description) : Option String :=
  (description.edges.flatMap Edge.ends).find? fun name => decide (name ∉ description.declared)

/-- No edge is on `e`, and edges from one state on one symbol have one target. -/
structure Deterministic (description : Description) : Prop where
  no_mark : ∀ edge ∈ description.edges, edge.symbol ≠ epsilonMark
  one_target : ∀ edge ∈ description.edges, ∀ other ∈ description.edges,
    edge.source = other.source → edge.symbol = other.symbol → edge.target = other.target

/-! ### What is requested -/

/-- The request for an edge. -/
def Edge.request (edge : Edge) : Request Char :=
  .edge edge.source.toString edge.symbol edge.target.toString

/-- The requests for states. -/
def stateRequests (description : Description) : List (Request Char) :=
  description.finals.map .final ++ [.start description.start] ++ description.states.map .state

/-- All requests, with symbols for labels. -/
def requests (description : Description) : List (Request Char) :=
  description.stateRequests ++ description.edges.map Edge.request

variable {description : Description} {flags : Flags} {dfa : Dfa} {nfa : Nfa}
variable {request : Request Char} {source target : String} {symbol : Char}

/-- The additions of the deterministic reading ask for what the description says. -/
theorem map_request_dfaAdditions (description : Description) :
    description.dfaAdditions.map Dfa.Addition.request = description.requests := by
  simp only [dfaAdditions, requests, stateRequests, List.map_append, List.map_map]
  rfl

/-- The other reading asks for the same, with the mark read as the empty label. -/
theorem map_request_nfaAdditions (description : Description) :
    description.nfaAdditions.map Nfa.Addition.request =
      description.requests.map (Request.map Label.ofChar) := by
  simp only [nfaAdditions, requests, stateRequests, List.map_append, List.map_map]
  rfl

/-- The states that are requested are those declared. -/
theorem filterMap_name?_stateRequests (description : Description) :
    description.stateRequests.filterMap Request.name? = description.declared := by
  simp [stateRequests, declared, List.filterMap_map, Function.comp_def, Request.name?]

/-- One start is requested. -/
theorem filterMap_start?_requests (description : Description) :
    description.requests.filterMap Request.start? = [description.start] := by
  have hfinals : (description.finals.map .final).filterMap (Request.start? (L := Char)) = [] := by
    simp [Request.start?]
  have hstates : (description.states.map .state).filterMap (Request.start? (L := Char)) = [] := by
    simp [Request.start?]
  have hedges : (description.edges.map Edge.request).filterMap Request.start? = [] := by
    simp [Request.start?, Edge.request]
  simp only [requests, stateRequests, List.filterMap_append, hfinals, hstates, hedges]
  rfl

/-- The edges that are asked for are those of the description. -/
theorem mem_requests_edge : .edge source symbol target ∈ description.requests ↔
    ∃ edge ∈ description.edges,
      edge.source.toString = source ∧ edge.symbol = symbol ∧ edge.target.toString = target := by
  simp [requests, stateRequests, Edge.request]

/-- The first request that is refused is an edge with an end that is not declared. -/
theorem firstRefusal_requests (h : ∀ name ∈ description.declared, name ≠ "") :
    Request.firstRefusal [] description.requests =
      description.firstUndeclared.map .unknownState := by
  have hstates := filterMap_name?_stateRequests description
  have hnamed : ∀ request ∈ description.stateRequests,
      ∃ name, request.name? = some name ∧ name ≠ "" := by
    intro request hrequest
    obtain ⟨name, hname⟩ : ∃ name, request.name? = some name := by
      simp only [stateRequests, List.mem_append, List.mem_map, List.mem_singleton] at hrequest
      rcases hrequest with (⟨name, _, rfl⟩ | rfl) | ⟨name, _, rfl⟩ <;> exact ⟨_, rfl⟩
    refine ⟨name, hname, h name ?_⟩
    rw [← hstates]
    exact List.mem_filterMap.mpr ⟨request, hrequest, hname⟩
  have hnames : ∀ name, name ∈ description.declared ↔
      name ∈ ([] ++ description.stateRequests).filterMap Request.name? := by
    simp [hstates]
  have hedges : ∀ request ∈ description.edges.map Edge.request, request.name? = none := by
    simp [Edge.request, Request.name?]
  rw [requests, Request.firstRefusal_append, Request.firstRefusal_of_names hnamed,
    Option.none_or, Request.firstRefusal_of_edges hnames hedges, List.flatMap_map]
  rfl

/-! ### How both readings end -/

/-- The words of a description's lines are not empty. -/
theorem ne_empty_of_parse {text : String} (h : parse text = .ok description) :
    ∀ name ∈ description.declared, name ≠ "" := by
  have houtcome := outcome_parse text
  rw [h] at houtcome
  obtain ⟨_, describes⟩ := houtcome
  have hword : ∀ line name, name.toList ∈ runs line → name ≠ "" := by
    rintro line _ hrun rfl
    simp [runs] at hrun
  intro name hname
  simp only [declared, List.mem_append, List.mem_cons] at hname
  rcases hname with hname | rfl | hname
  · exact hword _ name (describes.finals ▸ List.mem_map_of_mem hname)
  · exact hword _ _ (describes.start ▸ List.mem_singleton_self _)
  · exact hword _ name (describes.states ▸ List.mem_map_of_mem hname)

section Ends

variable (h : ∀ name ∈ description.declared, name ≠ "") (flags : Flags)

include h

/-- Both readings fail for an end of an edge that is not declared. -/
theorem toDfa_of_undeclared {name : String} (hname : description.firstUndeclared = some name) :
    description.toDfa flags = .error (.automaton (.unknownState name)) := by
  have hrefusal := firstRefusal_requests h
  rw [hname, ← map_request_dfaAdditions] at hrefusal
  have hfold := (Dfa.obeys flags).foldlM_eq_error (Dfa.holds_empty flags) hrefusal
  rw [toDfa, hfold]
  rfl

/-- An edge with an undeclared end makes the reading fail. -/
theorem toNfa_of_undeclared {name : String} (hname : description.firstUndeclared = some name) :
    description.toNfa flags = .error (.automaton (.unknownState name)) := by
  have hrefusal := (Request.firstRefusal_map (f := Label.ofChar)).trans (firstRefusal_requests h)
  rw [hname, ← map_request_nfaAdditions] at hrefusal
  have hfold := (Nfa.obeys flags).foldlM_eq_error (Nfa.holds_empty flags) hrefusal
  rw [toNfa, hfold]
  rfl

/-- Where all ends are declared, both readings succeed with what is requested. -/
theorem exists_toDfa (hnone : description.firstUndeclared = none) :
    ∃ dfa, description.toDfa flags = .ok dfa ∧ dfa.Holds flags description.requests := by
  have hrequests := map_request_dfaAdditions description
  have hrefusal := firstRefusal_requests h
  rw [hnone, ← hrequests] at hrefusal
  obtain ⟨dfa, hfold, hholds⟩ := (Dfa.obeys flags).exists_foldlM (Dfa.holds_empty flags) hrefusal
  rw [hrequests] at hholds
  exact ⟨dfa, by rw [toDfa, hfold]; rfl, hholds⟩

/-- When all ends are declared, everything that was asked for is granted. -/
theorem exists_toNfa (hnone : description.firstUndeclared = none) :
    ∃ nfa, description.toNfa flags = .ok nfa ∧
      nfa.Holds flags (description.requests.map (Request.map Label.ofChar)) := by
  have hrequests := map_request_nfaAdditions description
  have hrefusal := (Request.firstRefusal_map (f := Label.ofChar)).trans (firstRefusal_requests h)
  rw [hnone, ← hrequests] at hrefusal
  obtain ⟨nfa, hfold, hholds⟩ := (Nfa.obeys flags).exists_foldlM (Nfa.holds_empty flags) hrefusal
  rw [hrequests] at hholds
  exact ⟨nfa, by rw [toNfa, hfold]; rfl, hholds⟩

end Ends

/-! ### Deterministic descriptions -/

/-- Where no edge is empty, the symbols are the labels. -/
theorem requestedSymbol?_map (request : Request Char) :
    Nfa.requestedSymbol? (request.map Label.char) = request.label? := by
  cases request <;> rfl

/-- Labels that read a character keep the targets apart as the characters do. -/
theorem target?_map_char (request : Request Char) :
    (request.map Label.char).target? source (.char symbol) = request.target? source symbol := by
  cases request <;> simp [Request.map, Request.target?]

/-- No target is reached by reading nothing where each label reads a character. -/
theorem target?_map_epsilon (request : Request Char) :
    (request.map Label.char).target? source .epsilon = none := by
  cases request <;> simp [Request.map, Request.target?]

/-- Without edges on the mark, each edge reads its symbol. -/
theorem Deterministic.map_requests (h : description.Deterministic) :
    description.requests.map (Request.map Label.ofChar) =
      description.requests.map (Request.map Label.char) := by
  refine List.map_congr_left fun request hrequest => ?_
  cases request with
  | start name | state name | final name => rfl
  | edge source symbol target =>
    obtain ⟨edge, hedge, _, rfl, _⟩ := mem_requests_edge.mp hrequest
    have hsymbol : Label.ofChar edge.symbol = .char edge.symbol := if_neg (h.no_mark edge hedge)
    simp only [Request.map, hsymbol]

/-- All edges from one state on one symbol that are requested have one target. -/
theorem Deterministic.target_eq (h : description.Deterministic) {other : String}
    (htarget : target ∈ description.requests.filterMap (Request.target? source symbol))
    (hother : other ∈ description.requests.filterMap (Request.target? source symbol)) :
    target = other := by
  have hedge : ∀ name, name ∈ description.requests.filterMap (Request.target? source symbol) →
      .edge source symbol name ∈ description.requests := by
    intro name hname
    obtain ⟨request, hrequest, hsome⟩ := List.mem_filterMap.mp hname
    cases request with
    | start | state | final => simp [Request.target?] at hsome
    | edge start label goal =>
      simp only [Request.target?, Option.ite_none_right_eq_some, Option.some.injEq] at hsome
      obtain ⟨⟨rfl, rfl⟩, rfl⟩ := hsome
      exact hrequest
  obtain ⟨edge, hmem, hsource, hsymbol, rfl⟩ := mem_requests_edge.mp (hedge target htarget)
  obtain ⟨edge', hmem', hsource', hsymbol', rfl⟩ := mem_requests_edge.mp (hedge other hother)
  have hsame : edge.source = edge'.source := by
    simpa using hsource.trans hsource'.symm
  rw [h.one_target edge hmem edge' hmem' hsame (hsymbol.trans hsymbol'.symm)]

/-- The nondeterministic automaton of a deterministic description mirrors the deterministic
one. -/
theorem Deterministic.mirrors (h : description.Deterministic)
    (hdfa : dfa.Holds flags description.requests)
    (hnfa : nfa.Holds flags (description.requests.map (Request.map Label.ofChar))) :
    dfa.Mirrors nfa := by
  rw [h.map_requests] at hnfa
  constructor
  case alphabet_eq =>
    simp [hnfa.alphabet_eq, hdfa.alphabet_eq, List.filterMap_map, requestedSymbol?_map]
  case flags_eq => exact hnfa.flags_eq.trans hdfa.flags_eq.symm
  case start_eq => simp [hnfa.start_eq, hdfa.start_eq, List.filterMap_map]
  case finals_eq => simp [hnfa.finals_eq, hdfa.finals_eq, List.filterMap_map]
  case targets_char =>
    intro source symbol
    -- The targets named first and last are the same, since all of them are.
    rw [hnfa.targets_eq, hdfa.target_eq, ← eraseDups_eq_toList_getLast?]
    · simp [List.filterMap_map, target?_map_char]
    · exact fun _ htarget _ hother => h.target_eq htarget hother
  case targets_epsilon =>
    intro source
    simp [hnfa.targets_eq, List.filterMap_map, target?_map_epsilon]

/-! ### Agreement -/

/-- The readings of a description that was parsed fail alike, for the first end of an edge that
is not declared. Otherwise they have the same states, start and final states. Those of a
deterministic description give the same verdicts, except that the nondeterministic one rejects
the inputs on which the other one fails for want of a move. If it can be converted, the
conversion answers like it, where final subsets are those with a final member. -/
theorem readings_agree {text : String} (h : parse text = .ok description) (flags : Flags) :
    (∀ error, description.toDfa flags = .error error ↔ description.toNfa flags = .error error) ∧
    (∀ error, description.toNfa flags = .error error ↔
      ∃ name, description.firstUndeclared = some name ∧ error = .automaton (.unknownState name)) ∧
    ∀ dfa nfa, description.toDfa flags = .ok dfa → description.toNfa flags = .ok nfa →
      dfa.names = nfa.names ∧ dfa.start = nfa.start ∧ dfa.finals = nfa.finals ∧
      (description.Deterministic → ∀ input,
        (∀ verdict, dfa.accepts input = .ok verdict → nfa.accepts input = .ok verdict) ∧
        ∀ error, dfa.accepts input = .error error →
          (∃ state symbol, error = .missingTransition state symbol) ∧
            nfa.accepts input = .ok false) ∧
      (flags.substringFinality = false → ∀ limit converted,
        nfa.toDfaWithin limit = .ok converted → ∀ input,
          converted.accepts input = nfa.accepts input) := by
  have hdeclared := ne_empty_of_parse h
  cases hfirst : description.firstUndeclared with
  | some name =>
    have hdfa := toDfa_of_undeclared hdeclared flags hfirst
    have hnfa := toNfa_of_undeclared hdeclared flags hfirst
    refine ⟨by simp [hdfa, hnfa], ?_, by simp [hdfa]⟩
    simp [hnfa, eq_comm]
  | none =>
    obtain ⟨dfa, hdfa, hdfaHolds⟩ := exists_toDfa hdeclared flags hfirst
    obtain ⟨nfa, hnfa, hnfaHolds⟩ := exists_toNfa hdeclared flags hfirst
    have hwf := wellFormed_of_toNfa hnfa
    refine ⟨by simp [hdfa, hnfa], by simp [hnfa], ?_⟩
    intro dfa' nfa' hdfa' hnfa'
    obtain rfl : dfa = dfa' := Except.ok.inj (hdfa.symm.trans hdfa')
    obtain rfl : nfa = nfa' := Except.ok.inj (hnfa.symm.trans hnfa')
    refine ⟨?_, ?_, ?_, fun hdeterministic input => ?_, fun hflags limit converted hok input => ?_⟩
    · simp [hdfaHolds.names_eq, hnfaHolds.names_eq, List.filterMap_map]
    · simp [hdfaHolds.start_eq, hnfaHolds.start_eq, List.filterMap_map]
    · simp [hdfaHolds.finals_eq, hnfaHolds.finals_eq, List.filterMap_map]
    · have hmirrors := hdeterministic.mirrors hdfaHolds hnfaHolds
      have hstart : dfa.start = some description.start := by
        rw [hdfaHolds.start_eq, filterMap_start?_requests]
        rfl
      rcases hmirrors.accepts_cases hwf hstart input with
        ⟨verdict, hdfaRun, hnfaRun⟩ | ⟨state, symbol, hdfaRun, hnfaRun⟩
      · simp [hdfaRun, hnfaRun]
      · simp [hdfaRun, hnfaRun]
    · rw [← hnfaHolds.flags_eq] at hflags
      obtain ⟨verdict, hconverted, hrun⟩ := hwf.accepts_converted hflags hok input
      exact hconverted.trans hrun.symm

/-- On its second symbol the start of this description has no move. -/
theorem readings_agree_missing_move :
    ∃ description dfa nfa, parse "b\na\n\na0b b1b\n" = .ok description ∧
      description.Deterministic ∧ description.toDfa {} = .ok dfa ∧ description.toNfa {} = .ok nfa ∧
      dfa.names = nfa.names ∧ dfa.accepts "1" = .error (.missingTransition "a" '1') ∧
      nfa.accepts "1" = .ok false := by
  obtain ⟨description, hparse, hdeterministic, dfa, nfa, hdfa, hnfa, hrun⟩ :
      ∃ description : Description, parse "b\na\n\na0b b1b\n" = .ok description ∧
        description.Deterministic ∧ ∃ dfa nfa, description.toDfa {} = .ok dfa ∧
          description.toNfa {} = .ok nfa ∧
          dfa.accepts "1" = .error (.missingTransition "a" '1') := by
    refine ⟨⟨["b"], "a", [], [⟨'a', '0', 'b'⟩, ⟨'b', '1', 'b'⟩], []⟩, ?_, ⟨?_, ?_⟩, _, _, rfl,
      rfl, rfl⟩
    · decide +kernel
    · decide
    · decide
  obtain ⟨_, _, hagree⟩ := readings_agree hparse {}
  obtain ⟨hnames, _, _, hverdicts, _⟩ := hagree dfa nfa hdfa hnfa
  exact ⟨description, dfa, nfa, hparse, hdeterministic, hdfa, hnfa, hnames, hrun,
    ((hverdicts hdeterministic "1").2 _ hrun).2⟩

end Automata.Description
