import Automata.Proofs.Nfa.Combination
import Automata.Proofs.Nfa.History
import Automata.Proofs.Nfa.Subset

/-!
# The order of additions

Automata that were built in different orders can have the same parts, named alike, with the
members of every list in different places. Then they have the same paths, so the same sets of
states are reached over words and the same inputs are accepted.
-/

namespace Automata.Nfa

/-- The automata have the same parts, which may be listed in different orders. -/
structure SameParts (nfa other : Nfa) : Prop where
  mem_names : ∀ name, name ∈ nfa.names ↔ name ∈ other.names
  start_eq : nfa.start = other.start
  mem_finals : ∀ name, name ∈ nfa.finals ↔ name ∈ other.finals
  mem_targets : ∀ source label target,
    target ∈ nfa.targets source label ↔ target ∈ other.targets source label
  flags_eq : nfa.flags = other.flags

variable {nfa other : Nfa} {source target : String} {word : List Char}

/-- Additions that all succeed in two orders make the same parts, if the same one names the
start last. -/
theorem sameParts_of_perm {additions additions' : List Addition} (flags : Flags)
    (hperm : additions.Perm additions')
    (hgranted : Request.firstRefusal [] (additions.map Addition.request) = none)
    (hgranted' : Request.firstRefusal [] (additions'.map Addition.request) = none)
    (hstart : ((additions.map Addition.request).filterMap Request.start?).getLast? =
      ((additions'.map Addition.request).filterMap Request.start?).getLast?) :
    (ofAdditions flags additions).SameParts (ofAdditions flags additions') := by
  have hholds := holds_ofAdditions flags additions
  have hholds' := holds_ofAdditions flags additions'
  rw [Request.granted_eq_self hgranted] at hholds
  rw [Request.granted_eq_self hgranted'] at hholds'
  constructor
  case mem_names => simp [hholds.names_eq, hholds'.names_eq, hperm.mem_iff]
  case start_eq => rw [hholds.start_eq, hholds'.start_eq, hstart]
  case mem_finals => simp [hholds.finals_eq, hholds'.finals_eq, hperm.mem_iff]
  case mem_targets => simp [hholds.targets_eq, hholds'.targets_eq, hperm.mem_iff]
  case flags_eq => rw [hholds.flags_eq, hholds'.flags_eq]

namespace SameParts

/-- Either of two automata with the same parts may come first. -/
theorem symm (h : nfa.SameParts other) : other.SameParts nfa where
  mem_names name := (h.mem_names name).symm
  start_eq := h.start_eq.symm
  mem_finals name := (h.mem_finals name).symm
  mem_targets source label target := (h.mem_targets source label target).symm
  flags_eq := h.flags_eq.symm

/-- The same edges make the same paths. -/
theorem path_iff (h : nfa.SameParts other) :
    nfa.Path source word target ↔ other.Path source word target := by
  constructor
  · exact Path.mono fun source label target => (h.mem_targets source label target).mp
  · exact Path.mono fun source label target => (h.mem_targets source label target).mpr

/-- A word reaches the same states from the same start. -/
theorem reached_eq (h : nfa.SameParts other) (word : List Char) :
    nfa.reached word = other.reached word := by
  simp only [reached, h.start_eq, h.path_iff]

/-- The alphabets have the same symbols, since these are the characters of the edges. -/
theorem mem_alphabet (h : nfa.SameParts other) (hnfa : nfa.WellFormed) (hother : other.WellFormed)
    (c : Char) : c ∈ nfa.alphabet ↔ c ∈ other.alphabet := by
  simp only [hnfa.mem_alphabet, hother.mem_alphabet, h.mem_targets]

/-- The same words are on both alphabets. -/
theorem over_iff (h : nfa.SameParts other) (hnfa : nfa.WellFormed) (hother : other.WellFormed) :
    nfa.Over word ↔ other.Over word := by
  simp only [Over, h.mem_alphabet hnfa hother]

/-- The same sets are reached, so conversions need as many states. -/
theorem reachedSets_eq (h : nfa.SameParts other) (hnfa : nfa.WellFormed)
    (hother : other.WellFormed) : nfa.reachedSets = other.reachedSets := by
  simp only [reachedSets, h.over_iff hnfa hother, h.reached_eq]

/-- Every input has the same result. -/
theorem accepts_eq (h : nfa.SameParts other) (hnfa : nfa.WellFormed) (hother : other.WellFormed)
    (input : String) : nfa.accepts input = other.accepts input := by
  cases hstart : nfa.start with
  | none => simp [accepts, run, hstart, ← h.start_eq, Except.map]
  | some start =>
    obtain ⟨verdict, hrun, hverdict⟩ := hnfa.accepts_eq hstart input
    obtain ⟨verdict', hrun', hverdict'⟩ := hother.accepts_eq (h.start_eq.symm.trans hstart) input
    have halphabet := h.mem_alphabet hnfa hother
    simp only [judged_congr halphabet, readable_congr halphabet, h.flags_eq, h.mem_finals,
      h.reached_eq] at hverdict
    rw [← hverdict', ← Bool.eq_iff_iff] at hverdict
    rw [hrun, hrun', hverdict]

end SameParts

end Automata.Nfa
