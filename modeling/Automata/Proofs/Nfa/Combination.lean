import Automata.Nfa.Path
import Automata.Proofs.Nfa.WellFormed
import Mathlib.Computability.Language

/-!
# Languages of combined automata

A combination of automata keeps their states and edges and adds edges that read nothing.
Where the parts have no state in common, a path through the whole stays inside one part
until it crosses an added edge. Cutting paths there shows that a choice reads the union of
two languages, a sequence their product and a repetition all powers of one.
-/

namespace Automata.Nfa

/-- The words that an automaton reads. -/
def language (nfa : Nfa) : Language Char := {word | nfa.Reads word}

/-- An automaton that is a choice of two others: a new start leads to both of theirs. -/
structure Alternation (lower upper : Nfa) (start : String) (nfa : Nfa) : Prop where
  start_eq : nfa.start = some start
  mem_names : ∀ name, name ∈ nfa.names ↔ name = start ∨ name ∈ lower.names ∨ name ∈ upper.names
  mem_finals : ∀ name, name ∈ nfa.finals ↔ name ∈ lower.finals ∨ name ∈ upper.finals
  mem_targets : ∀ source label target, target ∈ nfa.targets source label ↔
    target ∈ lower.targets source label ∨ target ∈ upper.targets source label ∨
      source = start ∧ label = .epsilon ∧ (lower.start = some target ∨ upper.start = some target)

/-- An automaton that is a sequence of two others: the final states of the left one, which
are final no more, lead to the start of the right one. -/
structure Sequence (left right nfa : Nfa) : Prop where
  start_eq : nfa.start = left.start
  mem_names : ∀ name, name ∈ nfa.names ↔ name ∈ left.names ∨ name ∈ right.names
  mem_finals : ∀ name, name ∈ nfa.finals ↔ name ∈ right.finals
  mem_targets : ∀ source label target, target ∈ nfa.targets source label ↔
    target ∈ left.targets source label ∨ target ∈ right.targets source label ∨
      source ∈ left.finals ∧ label = .epsilon ∧ right.start = some target

/-- An automaton that repeats another: a new start, which is final, and the final states
lead to the old start. -/
structure Repetition (inner : Nfa) (start : String) (nfa : Nfa) : Prop where
  start_eq : nfa.start = some start
  mem_names : ∀ name, name ∈ nfa.names ↔ name = start ∨ name ∈ inner.names
  mem_finals : ∀ name, name ∈ nfa.finals ↔ name = start ∨ name ∈ inner.finals
  mem_targets : ∀ source label target, target ∈ nfa.targets source label ↔
    target ∈ inner.targets source label ∨
      (source = start ∨ source ∈ inner.finals) ∧ label = .epsilon ∧ inner.start = some target

variable {nfa part lower upper left right inner : Nfa} {source target start : String}
variable {word : List Char}

/-! ### Paths in a part and in the whole -/

/-- The edges of the part are edges of the whole. -/
def EdgesWithin (part nfa : Nfa) : Prop :=
  ∀ source label, ∀ target ∈ part.targets source label, target ∈ nfa.targets source label

/-- The edges of a side go into an alternation as they are. -/
theorem Alternation.edges_lower (h : Alternation lower upper start nfa) : lower.EdgesWithin nfa :=
  fun _ _ _ hold => (h.mem_targets _ _ _).mpr (Or.inl hold)

/-- The edges of the first part go into a sequence as they are. -/
theorem Sequence.edges_left (h : Sequence left right nfa) : left.EdgesWithin nfa :=
  fun _ _ _ hold => (h.mem_targets _ _ _).mpr (Or.inl hold)

/-- The edges of the second part go into a sequence as they are. -/
theorem Sequence.edges_right (h : Sequence left right nfa) : right.EdgesWithin nfa :=
  fun _ _ _ hold => (h.mem_targets _ _ _).mpr (Or.inr (Or.inl hold))

/-- The edges of the part that is repeated stay as they are. -/
theorem Repetition.edges_inner (h : Repetition inner start nfa) : inner.EdgesWithin nfa :=
  fun _ _ _ hold => (h.mem_targets _ _ _).mpr (Or.inl hold)

/-- A path is a path in any automaton that has its edges. -/
theorem Path.mono (hedges : part.EdgesWithin nfa) (hpath : part.Path source word target) :
    nfa.Path source word target := by
  induction hpath with
  | refl state => exact .refl state
  | epsilon edge _ ih => exact .epsilon (hedges _ _ _ edge) ih
  | char edge _ ih => exact .char (hedges _ _ _ edge) ih

/-- A path from a state of a part that no edge leaves stays inside that part. -/
theorem Path.inside (hpart : part.WellFormed)
    (hedges : ∀ source ∈ part.names, ∀ label, ∀ target ∈ nfa.targets source label,
      target ∈ part.targets source label)
    (hsource : source ∈ part.names) (hpath : nfa.Path source word target) :
    part.Path source word target ∧ target ∈ part.names := by
  induction hpath with
  | refl state => exact ⟨.refl state, hsource⟩
  | epsilon edge _ ih =>
    have hedge := hedges _ hsource _ _ edge
    obtain ⟨hrest, htarget⟩ := ih (hpart.targets_mem _ _ _ hedge)
    exact ⟨.epsilon hedge hrest, htarget⟩
  | char edge _ ih =>
    have hedge := hedges _ hsource _ _ edge
    obtain ⟨hrest, htarget⟩ := ih (hpart.targets_mem _ _ _ hedge)
    exact ⟨.char hedge hrest, htarget⟩

/-! ### Choices -/

/-- The alternatives of a choice can change places. -/
theorem Alternation.swap (h : Alternation lower upper start nfa) :
    Alternation upper lower start nfa where
  start_eq := h.start_eq
  mem_names name := by rw [h.mem_names, or_comm (a := name ∈ lower.names)]
  mem_finals name := by rw [h.mem_finals, or_comm]
  mem_targets source label target := by
    rw [h.mem_targets, or_comm (a := lower.start = _)]
    exact or_left_comm

/-- Once it has entered an alternative, a choice reads what the alternative reads. -/
theorem Alternation.reads_of_enter (h : Alternation lower upper start nfa)
    (hlower : lower.WellFormed) (hupper : upper.WellFormed)
    (hdisjoint : ∀ name ∈ lower.names, name ∉ upper.names) (hstart : start ∉ lower.names)
    {entry final : String} (hentry : lower.start = some entry) (hfinal : final ∈ nfa.finals)
    (hpath : nfa.Path entry word final) : lower.Reads word := by
  have hedges : ∀ source ∈ lower.names, ∀ label, ∀ target ∈ nfa.targets source label,
      target ∈ lower.targets source label := by
    intro source hsource label target hedge
    rcases (h.mem_targets _ _ _).mp hedge with hedge | hedge | ⟨rfl, _⟩
    · exact hedge
    · exact absurd (source_mem_names hedge) (hdisjoint source hsource)
    · exact absurd hsource hstart
  obtain ⟨hinside, hmem⟩ := hpath.inside hlower hedges (hlower.start_mem entry hentry)
  rcases (h.mem_finals final).mp hfinal with hfinal | hfinal
  · exact ⟨entry, final, hentry, hfinal, hinside⟩
  · exact absurd (hupper.finals_mem final hfinal) (hdisjoint final hmem)

/-- A choice reads what its first alternative reads. -/
theorem Alternation.reads_of_lower (h : Alternation lower upper start nfa)
    (hreads : lower.Reads word) : nfa.Reads word := by
  obtain ⟨entry, final, hentry, hfinal, hpath⟩ := hreads
  have hedge : entry ∈ nfa.targets start .epsilon :=
    (h.mem_targets _ _ _).mpr (Or.inr (Or.inr ⟨rfl, rfl, Or.inl hentry⟩))
  refine ⟨start, final, h.start_eq, (h.mem_finals final).mpr (Or.inl hfinal), ?_⟩
  exact .epsilon hedge (hpath.mono h.edges_lower)

/-- A choice reads the union of what its alternatives read. -/
theorem Alternation.language_eq (h : Alternation lower upper start nfa)
    (hlower : lower.WellFormed) (hupper : upper.WellFormed)
    (hdisjoint : ∀ name ∈ lower.names, name ∉ upper.names)
    (hstartLower : start ∉ lower.names) (hstartUpper : start ∉ upper.names) :
    nfa.language = lower.language + upper.language := by
  ext word
  rw [Language.mem_add]
  constructor
  · rintro ⟨first, final, hfirst, hfinal, hpath⟩
    have hsame : start = first := Option.some.inj (h.start_eq.symm.trans hfirst)
    subst hsame
    cases hpath with
    | refl =>
      rcases (h.mem_finals start).mp hfinal with hfinal | hfinal
      · exact absurd (hlower.finals_mem start hfinal) hstartLower
      · exact absurd (hupper.finals_mem start hfinal) hstartUpper
    | epsilon edge rest =>
      rcases (h.mem_targets _ _ _).mp edge with hedge | hedge | ⟨_, _, hentry | hentry⟩
      · exact absurd (source_mem_names hedge) hstartLower
      · exact absurd (source_mem_names hedge) hstartUpper
      · exact Or.inl (h.reads_of_enter hlower hupper hdisjoint hstartLower hentry hfinal rest)
      · have hdisjoint' : ∀ name ∈ upper.names, name ∉ lower.names :=
          fun name hname hother => hdisjoint name hother hname
        exact Or.inr (h.swap.reads_of_enter hupper hlower hdisjoint' hstartUpper hentry hfinal rest)
    | char edge rest =>
      rcases (h.mem_targets _ _ _).mp edge with hedge | hedge | ⟨_, hlabel, _⟩
      · exact absurd (source_mem_names hedge) hstartLower
      · exact absurd (source_mem_names hedge) hstartUpper
      · simp at hlabel
  · rintro (hreads | hreads)
    · exact h.reads_of_lower hreads
    · exact h.swap.reads_of_lower hreads

/-! ### Sequences -/

/-- A path from the left part of a sequence to the right one crosses one added edge. -/
theorem Sequence.exists_cut (h : Sequence left right nfa) (hleft : left.WellFormed)
    (hright : right.WellFormed) (hdisjoint : ∀ name ∈ left.names, name ∉ right.names)
    (hsource : source ∈ left.names) (htarget : target ∈ right.names)
    (hpath : nfa.Path source word target) :
    ∃ first second last entry, word = first ++ second ∧ left.Path source first last ∧
      last ∈ left.finals ∧ right.start = some entry ∧ right.Path entry second target := by
  induction hpath with
  | refl state => exact absurd htarget (hdisjoint state hsource)
  | @epsilon source next target word edge rest ih =>
    rcases (h.mem_targets _ _ _).mp edge with hedge | hedge | ⟨hlast, _, hentry⟩
    · obtain ⟨first, second, last, entry, hword, hbefore, hafter⟩ :=
        ih (hleft.targets_mem _ _ _ hedge) htarget
      exact ⟨first, second, last, entry, hword, .epsilon hedge hbefore, hafter⟩
    · exact absurd (source_mem_names hedge) (hdisjoint source hsource)
    · have hedges : ∀ source ∈ right.names, ∀ label, ∀ target ∈ nfa.targets source label,
          target ∈ right.targets source label := by
        intro source hsource label target hedge
        rcases (h.mem_targets _ _ _).mp hedge with hedge | hedge | ⟨hlast, _⟩
        · exact absurd hsource (hdisjoint source (source_mem_names hedge))
        · exact hedge
        · exact absurd hsource (hdisjoint source (hleft.finals_mem source hlast))
      have hinside := (rest.inside hright hedges (hright.start_mem next hentry)).1
      exact ⟨[], word, source, next, rfl, .refl source, hlast, hentry, hinside⟩
  | @char source next target symbol word edge rest ih =>
    rcases (h.mem_targets _ _ _).mp edge with hedge | hedge | ⟨_, hlabel, _⟩
    · obtain ⟨first, second, last, entry, hword, hbefore, hafter⟩ :=
        ih (hleft.targets_mem _ _ _ hedge) htarget
      exact ⟨symbol :: first, second, last, entry, by simp [hword], .char hedge hbefore, hafter⟩
    · exact absurd (source_mem_names hedge) (hdisjoint source hsource)
    · simp at hlabel

/-- A sequence reads what its left part reads and then what its right part reads. -/
theorem Sequence.language_eq (h : Sequence left right nfa) (hleft : left.WellFormed)
    (hright : right.WellFormed) (hdisjoint : ∀ name ∈ left.names, name ∉ right.names) :
    nfa.language = left.language * right.language := by
  ext word
  rw [Language.mem_mul]
  constructor
  · rintro ⟨start, final, hstart, hfinal, hpath⟩
    rw [h.start_eq] at hstart
    rw [h.mem_finals] at hfinal
    obtain ⟨first, second, last, entry, rfl, hbefore, hlast, hentry, hafter⟩ :=
      h.exists_cut hleft hright hdisjoint (hleft.start_mem start hstart)
        (hright.finals_mem final hfinal) hpath
    exact ⟨first, ⟨start, last, hstart, hlast, hbefore⟩,
      second, ⟨entry, final, hentry, hfinal, hafter⟩, rfl⟩
  · rintro ⟨first, ⟨start, last, hstart, hlast, hbefore⟩,
      second, ⟨entry, final, hentry, hfinal, hafter⟩, rfl⟩
    have hbridge : entry ∈ nfa.targets last .epsilon :=
      (h.mem_targets _ _ _).mpr (Or.inr (Or.inr ⟨hlast, rfl, hentry⟩))
    refine ⟨start, final, h.start_eq.trans hstart, (h.mem_finals final).mpr hfinal, ?_⟩
    exact (hbefore.mono h.edges_left).append (.epsilon hbridge (hafter.mono h.edges_right))

/-! ### Repetitions -/

/-- One more word in front of any number of words of a language. -/
theorem append_mem_kstar {words : Language Char} {first rest : List Char} (hfirst : first ∈ words)
    (hrest : rest ∈ KStar.kstar words) : first ++ rest ∈ KStar.kstar words := by
  rw [← Language.one_add_self_mul_kstar_eq_kstar]
  exact Or.inr (Language.append_mem_mul hfirst hrest)

/-- A path inside a repetition ends its first round at a final state, and the words of the
rounds after it are read by the inner automaton. -/
theorem Repetition.exists_cut (h : Repetition inner start nfa) (hinner : inner.WellFormed)
    (hstart : start ∉ inner.names) (hsource : source ∈ inner.names)
    (htarget : target ∈ nfa.finals) (hpath : nfa.Path source word target) :
    ∃ first rest last, word = first ++ rest ∧ inner.Path source first last ∧
      last ∈ inner.finals ∧ rest ∈ KStar.kstar inner.language := by
  induction hpath with
  | refl state =>
    rcases (h.mem_finals state).mp htarget with rfl | hfinal
    · exact absurd hsource hstart
    · exact ⟨[], [], state, rfl, .refl state, hfinal, Language.nil_mem_kstar _⟩
  | @epsilon source next target word edge _ ih =>
    rcases (h.mem_targets _ _ _).mp edge with hedge | ⟨hlast, _, hentry⟩
    · obtain ⟨first, rest, last, hword, hround, hlater⟩ :=
        ih (hinner.targets_mem _ _ _ hedge) htarget
      exact ⟨first, rest, last, hword, .epsilon hedge hround, hlater⟩
    · obtain ⟨first, rest, last, hword, hround, hfinal, hlater⟩ :=
        ih (hinner.start_mem next hentry) htarget
      have hread : first ∈ inner.language := ⟨next, last, hentry, hfinal, hround⟩
      have hrounds : word ∈ KStar.kstar inner.language := hword ▸ append_mem_kstar hread hlater
      rcases hlast with rfl | hlast
      · exact absurd hsource hstart
      · exact ⟨[], word, source, rfl, .refl source, hlast, hrounds⟩
  | @char source next target symbol word edge _ ih =>
    rcases (h.mem_targets _ _ _).mp edge with hedge | ⟨_, hlabel, _⟩
    · obtain ⟨first, rest, last, hword, hround, hlater⟩ :=
        ih (hinner.targets_mem _ _ _ hedge) htarget
      exact ⟨symbol :: first, rest, last, by simp [hword], .char hedge hround, hlater⟩
    · simp at hlabel

/-- From any place where a round can begin, a repetition reads any number of rounds. -/
theorem Repetition.exists_path (h : Repetition inner start nfa) {rounds : List (List Char)}
    (hrounds : ∀ round ∈ rounds, round ∈ inner.language)
    (hsource : source = start ∨ source ∈ inner.finals) :
    ∃ final ∈ nfa.finals, nfa.Path source rounds.flatten final := by
  induction rounds generalizing source with
  | nil => exact ⟨source, (h.mem_finals source).mpr hsource, .refl source⟩
  | cons round rounds ih =>
    obtain ⟨entry, last, hentry, hlast, hround⟩ := hrounds round (by simp)
    obtain ⟨final, hfinal, hlater⟩ :=
      ih (fun later hlater => hrounds later (by simp [hlater])) (Or.inr hlast)
    have hbegin : entry ∈ nfa.targets source .epsilon :=
      (h.mem_targets _ _ _).mpr (Or.inr ⟨hsource, rfl, hentry⟩)
    exact ⟨final, hfinal, .epsilon hbegin ((hround.mono h.edges_inner).append hlater)⟩

/-- A repetition reads any number of words of the inner automaton, one after the other. -/
theorem Repetition.language_eq (h : Repetition inner start nfa) (hinner : inner.WellFormed)
    (hstart : start ∉ inner.names) : nfa.language = KStar.kstar inner.language := by
  ext word
  constructor
  · rintro ⟨first, final, hfirst, hfinal, hpath⟩
    have hsame : start = first := Option.some.inj (h.start_eq.symm.trans hfirst)
    subst hsame
    cases hpath with
    | refl => exact Language.nil_mem_kstar _
    | @epsilon _ next _ _ edge rest =>
      rcases (h.mem_targets _ _ _).mp edge with hedge | ⟨_, _, hentry⟩
      · exact absurd (source_mem_names hedge) hstart
      · obtain ⟨first, later, last, hword, hround, hlast, hlater⟩ :=
          h.exists_cut hinner hstart (hinner.start_mem next hentry) hfinal rest
        exact hword ▸ append_mem_kstar ⟨next, last, hentry, hlast, hround⟩ hlater
    | char edge _ =>
      rcases (h.mem_targets _ _ _).mp edge with hedge | ⟨_, hlabel, _⟩
      · exact absurd (source_mem_names hedge) hstart
      · simp at hlabel
  · intro hword
    obtain ⟨rounds, rfl, hrounds⟩ := Language.mem_kstar.mp hword
    obtain ⟨final, hfinal, hpath⟩ := h.exists_path hrounds (Or.inl rfl)
    exact ⟨start, final, h.start_eq, hfinal, hpath⟩

end Automata.Nfa
