import Automata.Proofs.Nfa.Closure
import Automata.Proofs.Nfa.Combination
import Automata.Proofs.Nfa.History

/-!
# Extended automata accept no less

Additions other than of a start take nothing away. The extended automaton has the paths that
there were, and possibly more. Its alphabet may have grown, but not by the mark; so of an input
that was accepted it reads just as much, and accepts it still.
-/

namespace Automata.Nfa

variable {nfa middle extended : Nfa} {request : Request Label} {addition : Addition}
variable {additions : List Addition} {name : String}

/-- The extended automaton has all that the automaton has, and the same start and flags. -/
structure GrowsTo (nfa extended : Nfa) : Prop where
  names_subset : nfa.names ⊆ extended.names
  start_eq : extended.start = nfa.start
  finals_subset : nfa.finals ⊆ extended.finals
  edges : nfa.EdgesWithin extended
  alphabet_subset : nfa.alphabet ⊆ extended.alphabet
  flags_eq : extended.flags = nfa.flags

/-! ### Additions -/

/-- An automaton grows to itself. -/
theorem GrowsTo.refl (nfa : Nfa) : nfa.GrowsTo nfa where
  names_subset := List.Subset.refl _
  start_eq := rfl
  finals_subset := List.Subset.refl _
  edges _ _ _ hedge := hedge
  alphabet_subset := List.Subset.refl _
  flags_eq := rfl

/-- Growing twice is growing. -/
theorem GrowsTo.trans (h : nfa.GrowsTo middle) (h' : middle.GrowsTo extended) :
    nfa.GrowsTo extended where
  names_subset := List.Subset.trans h.names_subset h'.names_subset
  start_eq := h'.start_eq.trans h.start_eq
  finals_subset := List.Subset.trans h.finals_subset h'.finals_subset
  edges source label target hedge := h'.edges source label target (h.edges source label target hedge)
  alphabet_subset := List.Subset.trans h.alphabet_subset h'.alphabet_subset
  flags_eq := h'.flags_eq.trans h.flags_eq

/-- What is there stays there when something may be added. -/
theorem subset_elim_addLast {α : Type} [DecidableEq α] (l : List α) (added : Option α) :
    l ⊆ added.elim l (addLast l) := by
  intro a ha
  cases added with
  | none => exact ha
  | some b => exact mem_addLast.mpr (Or.inl ha)

/-- A request that is granted takes nothing away, if it does not name a start. -/
theorem Grants.growsTo (h : Grants nfa request extended) (hstart : request.start? = none) :
    nfa.GrowsTo extended where
  names_subset := h.names_eq ▸ subset_elim_addLast nfa.names request.name?
  start_eq := by rw [h.start_eq, hstart, Option.none_or]
  finals_subset := h.finals_eq ▸ subset_elim_addLast nfa.finals request.final?
  edges source label target hedge := by
    rw [h.targets_eq]
    exact subset_elim_addLast _ (request.target? source label) hedge
  alphabet_subset := h.alphabet_eq ▸ subset_elim_addLast nfa.alphabet (requestedSymbol? request)
  flags_eq := h.flags_eq

/-- Only a start asks for a start. -/
theorem start?_request (h : ∀ name, addition ≠ .start name) : addition.request.start? = none := by
  cases addition with
  | start name => exact absurd rfl (h name)
  | _ => rfl

/-- Any addition but that of a start makes an automaton grow, also one that fails. -/
theorem growsTo_tryAdd (h : ∀ name, addition ≠ .start name) :
    nfa.GrowsTo (nfa.tryAdd addition) := by
  cases hadd : nfa.add addition with
  | ok extended =>
    rw [tryAdd_of_ok hadd]
    exact (grants_of_add hadd).growsTo (start?_request h)
  | error error =>
    rw [tryAdd_of_error hadd]
    exact GrowsTo.refl nfa

/-- Any additions but that of a start make an automaton grow. -/
theorem growsTo_foldl_tryAdd
    (h : ∀ addition ∈ additions, ∀ name, addition ≠ .start name) :
    nfa.GrowsTo (additions.foldl tryAdd nfa) := by
  induction additions generalizing nfa with
  | nil => exact GrowsTo.refl nfa
  | cons addition additions ih =>
    have hfirst : nfa.GrowsTo (nfa.tryAdd addition) := growsTo_tryAdd (h addition (by simp))
    exact hfirst.trans (ih fun other hother => h other (by simp [hother]))

/-- What additions make of a built automaton is built. -/
theorem Built.foldl_tryAdd (h : nfa.Built) (additions : List Addition) :
    (additions.foldl tryAdd nfa).Built := by
  obtain ⟨flags, earlier, rfl⟩ := h
  exact ⟨flags, earlier ++ additions, by simp [ofAdditions]⟩

/-! ### What is reached and accepted -/

section GrowsTo

variable (h : nfa.GrowsTo extended)

include h

/-- What a word reaches it still reaches in what an automaton grows to. -/
theorem GrowsTo.reached_subset (word : List Char) : nfa.reached word ⊆ extended.reached word := by
  rintro state ⟨start, hstart, hpath⟩
  exact ⟨start, h.start_eq.trans hstart, hpath.mono h.edges⟩

variable (hnfa : nfa.WellFormed) (hextended : extended.WellFormed)

include hnfa hextended

/-- A closure keeps its members when an automaton grows. -/
theorem GrowsTo.closure_subset (hname : name ∈ nfa.names) :
    nfa.closure name ⊆ extended.closure name := by
  intro state hstate
  have hpath := (hnfa.mem_closure hname).mp hstate
  exact (hextended.mem_closure (h.names_subset hname)).mpr (hpath.mono h.edges)

/-- What is accepted stays accepted. -/
theorem GrowsTo.accepts {input : String} (haccepts : nfa.accepts input = .ok true) :
    extended.accepts input = .ok true := by
  cases hstart : nfa.start with
  | none => simp [Nfa.accepts, run, hstart, Except.map] at haccepts
  | some start =>
    obtain ⟨verdict, hrun, hverdict⟩ := hnfa.accepts_eq hstart input
    obtain ⟨verdict', hrun', hverdict'⟩ := hextended.accepts_eq (h.start_eq.trans hstart) input
    obtain rfl : true = verdict := Except.ok.inj (haccepts.symm.trans hrun)
    obtain ⟨hjudged, final, hfinal, hreached⟩ := hverdict.mp rfl
    obtain ⟨hjudged', hread⟩ := hjudged.of_subset h.alphabet_subset hextended.mark_not_mem
    have htrue : verdict' = true := by
      refine hverdict'.mpr ⟨h.flags_eq ▸ hjudged', final, h.finals_subset hfinal, ?_⟩
      rw [hread]
      exact h.reached_subset _ hreached
    rw [hrun', htrue]

end GrowsTo

/-- Any further additions other than of a start, whether they succeed or fail, leave every input
accepted that was accepted before, and in the closure of each state all that was in it. -/
theorem accepts_of_more_additions (h : nfa.Built)
    (hadditions : ∀ addition ∈ additions, ∀ name, addition ≠ .start name) :
    let extended := additions.foldl tryAdd nfa
    (∀ input, nfa.accepts input = .ok true → extended.accepts input = .ok true) ∧
    ∀ name ∈ nfa.names, ∃ found found', nfa.findClosure name = .ok found ∧
      extended.findClosure name = .ok found' ∧ found ⊆ found' := by
  intro extended
  have hgrows : nfa.GrowsTo extended := growsTo_foldl_tryAdd hadditions
  have hextended : extended.WellFormed := (h.foldl_tryAdd additions).wellFormed
  refine ⟨fun input => hgrows.accepts h.wellFormed hextended, ?_⟩
  intro name hname
  exact ⟨nfa.closure name, extended.closure name, findClosure_of_mem hname,
    findClosure_of_mem (hgrows.names_subset hname),
    hgrows.closure_subset h.wellFormed hextended hname⟩

/-- The alphabet grows and a new cycle is closed, while two of the additions fail. -/
theorem accepts_of_more_additions_cycle :
    let additions : List Addition :=
      [.final "p", .edge "p" 'c' "r", .state "", .edge "p" 'e' "q", .edge "q" 'x' "p"]
    let extended := additions.foldl tryAdd cycle
    cycle.Built ∧ (∀ addition ∈ additions, ∀ name, addition ≠ .start name) ∧
      cycle.accepts "abex" = .ok true ∧ extended.alphabet = ['a', 'b', 'x'] ∧
      extended.accepts "abex" = .ok true ∧ ∃ found found', cycle.findClosure "p" = .ok found ∧
        extended.findClosure "p" = .ok found' ∧ found ⊆ found' := by
  intro additions extended
  have hbuilt : cycle.Built := ⟨_, _, rfl⟩
  have hadditions : ∀ addition ∈ additions, ∀ name, addition ≠ .start name := by
    simp [additions]
  have haccepts : cycle.accepts "abex" = .ok true := rfl
  obtain ⟨hkeeps, hclosures⟩ := accepts_of_more_additions hbuilt hadditions
  exact ⟨hbuilt, hadditions, haccepts, by decide, hkeeps "abex" haccepts,
    hclosures "p" (by decide)⟩

end Automata.Nfa
