import Automata.Description.Build
import Automata.Proofs.Nfa.Run

/-!
# Automata of descriptions join names of one length

An automaton of a description is built by additions that all succeed. The edges among them
join states with names of one character, so along every path from the start the names are
as long as the name of the start. Where the start has a longer name nothing leaves it.
-/

namespace Automata

variable {nfa base : Nfa} {description : Description} {flags : Flags}
variable {source target : String} {word : List Char} {additions : List Nfa.Addition}
variable {addition : Nfa.Addition}

namespace Nfa

/-- Additions that all succeed make what they make when failures are passed over. -/
theorem foldl_tryAdd_of_foldlM (h : additions.foldlM add base = .ok nfa) :
    additions.foldl tryAdd base = nfa := by
  induction additions generalizing base with
  | nil => exact Except.ok.inj h
  | cons addition additions ih =>
    rw [List.foldlM_cons] at h
    cases hadd : base.add addition with
    | error error => simp [hadd, bind, Except.bind] at h
    | ok extended =>
      rw [hadd] at h
      rw [List.foldl_cons, tryAdd_of_ok hadd]
      exact ih h

/-- Every edge joins states whose names are equally long. -/
def KeepsLength (nfa : Nfa) : Prop :=
  ∀ source label, ∀ target ∈ nfa.targets source label, target.length = source.length

/-- The addition is no edge between names of different lengths. -/
def Addition.KeepsLength : Addition → Prop
  | .edge source _ target | .epsilonEdge source target => target.length = source.length
  | .start _ | .state _ | .final _ => True

/-- An edge between names of one length keeps the property. -/
theorem KeepsLength.addEdge {extended : Nfa} {label : Label} (h : nfa.KeepsLength)
    (hlength : target.length = source.length)
    (hadd : nfa.addEdge source label target = .ok extended) : extended.KeepsLength := by
  intro other read reached hreached
  rcases (mem_targets_addEdge hadd).mp hreached with hold | ⟨rfl, _, rfl⟩
  · exact h other read reached hold
  · exact hlength

/-- Only edges matter for the property. -/
theorem KeepsLength.of_targets_eq {extended : Nfa} (h : nfa.KeepsLength)
    (htargets : ∀ source label, extended.targets source label = nfa.targets source label) :
    extended.KeepsLength := by
  intro source label target htarget
  rw [htargets] at htarget
  exact h source label target htarget

/-- An addition keeps the property, whether it is made or not. -/
theorem KeepsLength.tryAdd (h : nfa.KeepsLength) (haddition : addition.KeepsLength) :
    (nfa.tryAdd addition).KeepsLength := by
  cases hadd : nfa.add addition with
  | ok extended =>
    rw [Nfa.tryAdd_of_ok hadd]
    cases addition with
    | start name => exact h.of_targets_eq (targets_addStart hadd)
    | state name => exact h.of_targets_eq (targets_addState hadd)
    | final name => exact h.of_targets_eq (targets_addFinal hadd)
    | edge source symbol target => exact h.addEdge haddition hadd
    | epsilonEdge source target => exact h.addEdge haddition hadd
  | error error =>
    rw [Nfa.tryAdd_of_error hadd]
    exact h

/-- Additions of which none joins names of different lengths give the property. -/
theorem keepsLength_ofAdditions (flags : Flags)
    (h : ∀ addition ∈ additions, addition.KeepsLength) :
    (ofAdditions flags additions).KeepsLength := by
  unfold ofAdditions
  generalize hbase : ({ flags } : Nfa) = base
  have hempty : base.KeepsLength := by
    subst hbase
    simp [KeepsLength, targets, find?]
  clear hbase
  induction additions generalizing base with
  | nil => exact hempty
  | cons addition additions ih =>
    exact ih (fun other hother => h other (by simp [hother])) _ (hempty.tryAdd (h _ (by simp)))

/-- Names along a path are equally long. -/
theorem KeepsLength.path (h : nfa.KeepsLength) (hpath : nfa.Path source word target) :
    target.length = source.length := by
  induction hpath with
  | refl => rfl
  | epsilon edge _ ih => exact ih.trans (h _ _ _ edge)
  | char edge _ ih => exact ih.trans (h _ _ _ edge)

end Nfa

namespace Description

/-- The edges of a description join names of one character. -/
theorem keepsLength_of_mem_nfaAdditions (h : addition ∈ description.nfaAdditions) :
    addition.KeepsLength := by
  simp only [nfaAdditions, List.mem_append, List.mem_map, List.mem_singleton] at h
  rcases h with ((⟨name, _, rfl⟩ | rfl) | ⟨name, _, rfl⟩) | ⟨edge, _, rfl⟩
  · trivial
  · trivial
  · trivial
  · show edge.target.toString.length = edge.source.toString.length
    simp

/-- What a description builds is built by its additions, all of which succeed. -/
theorem eq_ofAdditions_of_toNfa (h : description.toNfa flags = .ok nfa) :
    nfa = Nfa.ofAdditions flags description.nfaAdditions := by
  unfold toNfa at h
  cases hfold : description.nfaAdditions.foldlM Nfa.add { flags } with
  | error error => simp [hfold, Except.mapError] at h
  | ok built =>
    rw [hfold] at h
    obtain rfl := Except.ok.inj h
    exact (Nfa.foldl_tryAdd_of_foldlM hfold).symm

/-- What a description builds is consistent, as whatever additions build. -/
theorem wellFormed_of_toNfa (h : description.toNfa flags = .ok nfa) : nfa.WellFormed :=
  Nfa.Built.wellFormed ⟨flags, description.nfaAdditions, eq_ofAdditions_of_toNfa h⟩

/-- In what a description builds every edge joins names of one length. -/
theorem keepsLength_of_toNfa (h : description.toNfa flags = .ok nfa) : nfa.KeepsLength := by
  rw [eq_ofAdditions_of_toNfa h]
  exact Nfa.keepsLength_ofAdditions flags fun _ => keepsLength_of_mem_nfaAdditions

end Description

end Automata
