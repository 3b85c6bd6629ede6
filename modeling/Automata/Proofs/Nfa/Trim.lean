import Automata.Proofs.Nfa.Combination
import Automata.Proofs.Nfa.Run

/-!
# Automata without useless states

A state is of use when a path leads to it from the start and another leads from it to a final
state. The edges that a combination adds lead on from the states that stop being final and to
the starts of the parts, so when all states of the parts are of use, those of the whole are too.
-/

namespace Automata.Nfa

/-- Some path leads from the start to the state. -/
def Accessible (nfa : Nfa) (name : String) : Prop := ∃ word, name ∈ nfa.reached word

/-- Some path leads from the state to a final one. -/
def Productive (nfa : Nfa) (name : String) : Prop :=
  ∃ final ∈ nfa.finals, ∃ word, nfa.Path name word final

/-- The start leads to every state, and every state leads to a final one. -/
structure Trim (nfa : Nfa) : Prop where
  exists_start : ∃ start ∈ nfa.names, nfa.start = some start
  accessible : ∀ name ∈ nfa.names, nfa.Accessible name
  productive : ∀ name ∈ nfa.names, nfa.Productive name

variable {nfa part lower upper left right inner : Nfa} {name source target start : String}
variable {word : List Char}

/-! ### Ends of paths -/

/-- The empty word leads to the start. -/
theorem accessible_start (h : nfa.start = some start) : nfa.Accessible start :=
  ⟨[], start, h, .refl start⟩

/-- The empty word leads from a final state to itself. -/
theorem productive_of_mem (h : name ∈ nfa.finals) : nfa.Productive name :=
  ⟨name, h, [], .refl name⟩

/-- A path from an accessible state leads to one. -/
theorem Accessible.of_path (h : nfa.Accessible source) (hpath : nfa.Path source word target) :
    nfa.Accessible target := by
  obtain ⟨before, start, hstart, hbefore⟩ := h
  exact ⟨before ++ word, start, hstart, hbefore.append hpath⟩

/-- A path to a productive state begins at one. -/
theorem Productive.of_path (h : nfa.Productive target) (hpath : nfa.Path source word target) :
    nfa.Productive source := by
  obtain ⟨final, hfinal, after, hafter⟩ := h
  exact ⟨final, hfinal, word ++ after, hpath.append hafter⟩

/-- In a whole where the start of a part is accessible, all its states are. -/
theorem Trim.accessible_of_start (h : part.Trim) (hedges : part.EdgesWithin nfa)
    (hstart : ∀ start, part.start = some start → nfa.Accessible start)
    (hname : name ∈ part.names) : nfa.Accessible name := by
  obtain ⟨word, start, hsome, hpath⟩ := h.accessible name hname
  exact (hstart start hsome).of_path (hpath.mono hedges)

/-- In a whole where the final states of a part are productive, all its states are. -/
theorem Trim.productive_of_finals (h : part.Trim) (hedges : part.EdgesWithin nfa)
    (hfinals : ∀ final ∈ part.finals, nfa.Productive final)
    (hname : name ∈ part.names) : nfa.Productive name := by
  obtain ⟨final, hfinal, word, hpath⟩ := h.productive name hname
  exact (hfinals final hfinal).of_path (hpath.mono hedges)

/-! ### Smallest automata -/

/-- One state that is start and final is of use. -/
theorem trim_of_single_state (hnames : nfa.names = [start]) (hstart : nfa.start = some start)
    (hfinals : nfa.finals = [start]) : nfa.Trim := by
  constructor
  case exists_start => exact ⟨start, by simp [hnames], hstart⟩
  case accessible =>
    intro name hname
    obtain rfl : name = start := by simpa [hnames] using hname
    exact accessible_start hstart
  case productive =>
    intro name hname
    obtain rfl : name = start := by simpa [hnames] using hname
    exact productive_of_mem (by simp [hfinals])

/-- Two states are of use when an edge leads from the start to the final one. -/
theorem trim_of_single_edge {final : String} {label : Label} (hnames : nfa.names = [final, start])
    (hstart : nfa.start = some start) (hfinals : nfa.finals = [final])
    (hedge : final ∈ nfa.targets start label) : nfa.Trim := by
  obtain ⟨word, hpath⟩ : ∃ word, nfa.Path start word final := by
    cases label with
    | epsilon => exact ⟨[], .epsilon hedge (.refl final)⟩
    | char c => exact ⟨[c], .char hedge (.refl final)⟩
  have hproductive : nfa.Productive final := productive_of_mem (by simp [hfinals])
  constructor
  case exists_start => exact ⟨start, by simp [hnames], hstart⟩
  case accessible =>
    intro name hname
    rw [hnames, List.mem_pair] at hname
    rcases hname with rfl | rfl
    · exact (accessible_start hstart).of_path hpath
    · exact accessible_start hstart
  case productive =>
    intro name hname
    rw [hnames, List.mem_pair] at hname
    rcases hname with rfl | rfl
    · exact hproductive
    · exact hproductive.of_path hpath

/-! ### Combinations -/

/-- The states of the first alternative of a choice stay of use. -/
theorem Alternation.useful_of_lower (h : Alternation lower upper start nfa) (hlower : lower.Trim)
    (hname : name ∈ lower.names) : nfa.Accessible name ∧ nfa.Productive name := by
  constructor
  · refine hlower.accessible_of_start h.edges_lower (fun entry hentry => ?_) hname
    have hedge : entry ∈ nfa.targets start .epsilon :=
      (h.mem_targets _ _ _).mpr (Or.inr (Or.inr ⟨rfl, rfl, Or.inl hentry⟩))
    exact (accessible_start h.start_eq).of_path (.epsilon hedge (.refl entry))
  · refine hlower.productive_of_finals h.edges_lower (fun final hfinal => ?_) hname
    exact productive_of_mem ((h.mem_finals final).mpr (Or.inl hfinal))

/-- A choice between automata without useless states has none. -/
theorem Alternation.trim (h : Alternation lower upper start nfa) (hlower : lower.Trim)
    (hupper : upper.Trim) : nfa.Trim := by
  obtain ⟨entry, hmem, hentry⟩ := hlower.exists_start
  have hedge : entry ∈ nfa.targets start .epsilon :=
    (h.mem_targets _ _ _).mpr (Or.inr (Or.inr ⟨rfl, rfl, Or.inl hentry⟩))
  constructor
  case exists_start => exact ⟨start, (h.mem_names start).mpr (Or.inl rfl), h.start_eq⟩
  case accessible =>
    intro name hname
    rcases (h.mem_names name).mp hname with rfl | hname | hname
    · exact accessible_start h.start_eq
    · exact (h.useful_of_lower hlower hname).1
    · exact (h.swap.useful_of_lower hupper hname).1
  case productive =>
    intro name hname
    rcases (h.mem_names name).mp hname with rfl | hname | hname
    · exact (h.useful_of_lower hlower hmem).2.of_path (.epsilon hedge (.refl entry))
    · exact (h.useful_of_lower hlower hname).2
    · exact (h.swap.useful_of_lower hupper hname).2

/-- A sequence of automata without useless states has none. -/
theorem Sequence.trim (h : Sequence left right nfa) (hleft : left.Trim) (hright : right.Trim) :
    nfa.Trim := by
  obtain ⟨first, hfirst, hstart⟩ := hleft.exists_start
  obtain ⟨entry, hmem, hentry⟩ := hright.exists_start
  have hbridge : ∀ last ∈ left.finals, nfa.Path last [] entry := fun last hlast =>
    .epsilon ((h.mem_targets _ _ _).mpr (Or.inr (Or.inr ⟨hlast, rfl, hentry⟩))) (.refl entry)
  have hbegun : ∀ name ∈ left.names, nfa.Accessible name := by
    refine fun name hname => hleft.accessible_of_start h.edges_left ?_ hname
    exact fun start hsome => accessible_start (h.start_eq.trans hsome)
  have hended : ∀ name ∈ right.names, nfa.Productive name := by
    refine fun name hname => hright.productive_of_finals h.edges_right ?_ hname
    exact fun final hfinal => productive_of_mem ((h.mem_finals final).mpr hfinal)
  constructor
  case exists_start =>
    exact ⟨first, (h.mem_names first).mpr (Or.inl hfirst), h.start_eq.trans hstart⟩
  case accessible =>
    intro name hname
    rcases (h.mem_names name).mp hname with hname | hname
    · exact hbegun name hname
    · -- The left part has a final state, and from there the right part is entered.
      refine hright.accessible_of_start h.edges_right (fun start hsome => ?_) hname
      obtain rfl : entry = start := Option.some.inj (hentry.symm.trans hsome)
      obtain ⟨last, hlast, word, hpath⟩ := hleft.productive first hfirst
      exact ((hbegun first hfirst).of_path (hpath.mono h.edges_left)).of_path (hbridge last hlast)
  case productive =>
    intro name hname
    rcases (h.mem_names name).mp hname with hname | hname
    · -- What was final in the left part is so no more, but leads to the right part.
      refine hleft.productive_of_finals h.edges_left (fun last hlast => ?_) hname
      exact (hended entry hmem).of_path (hbridge last hlast)
    · exact hended name hname

/-- A repetition of an automaton without useless states has none. -/
theorem Repetition.trim (h : Repetition inner start nfa) (hinner : inner.Trim) : nfa.Trim := by
  constructor
  case exists_start => exact ⟨start, (h.mem_names start).mpr (Or.inl rfl), h.start_eq⟩
  case accessible =>
    intro name hname
    rcases (h.mem_names name).mp hname with rfl | hname
    · exact accessible_start h.start_eq
    · refine hinner.accessible_of_start h.edges_inner (fun entry hentry => ?_) hname
      have hedge : entry ∈ nfa.targets start .epsilon :=
        (h.mem_targets _ _ _).mpr (Or.inr ⟨Or.inl rfl, rfl, hentry⟩)
      exact (accessible_start h.start_eq).of_path (.epsilon hedge (.refl entry))
  case productive =>
    intro name hname
    rcases (h.mem_names name).mp hname with rfl | hname
    · exact productive_of_mem ((h.mem_finals name).mpr (Or.inl rfl))
    · refine hinner.productive_of_finals h.edges_inner (fun final hfinal => ?_) hname
      exact productive_of_mem ((h.mem_finals final).mpr (Or.inr hfinal))

end Automata.Nfa
