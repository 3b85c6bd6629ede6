import Automata.Nfa.Path
import Automata.Nfa.Run
import Automata.Proofs.Discovery
import Automata.Proofs.Nfa.WellFormed
import Automata.Proofs.Reading
import Mathlib.Data.Set.Defs

/-!
# Runs follow all paths

The closure of a state holds the ends of the paths that read nothing, and a step of a run
leads from the ends of the paths over a word to the ends of the paths over one character
more. So the states that are active after a word are those that a path from the start over
the word reaches, and an input is accepted when one of them is final.
-/

namespace Automata.Nfa

variable {nfa : Nfa} {source middle target start name : String} {word : List Char} {symbol : Char}

/-! ### Paths that read at most one character -/

/-- Paths that read nothing are chains of edges that read nothing. -/
theorem path_nil_iff :
    nfa.Path source [] target ↔
      Discovery.Reaches (fun state => nfa.targets state .epsilon) source target := by
  constructor
  · intro hpath
    generalize hword : ([] : List Char) = word at hpath
    induction hpath with
    | refl => exact .refl
    | epsilon edge _ ih => exact .head edge (ih hword)
    | char _ _ => simp at hword
  · intro hreach
    induction hreach with
    | refl => exact .refl source
    | tail _ hedge ih => exact ih.append (.epsilon hedge (.refl _))

/-- A path over one character crosses one edge that reads it. -/
theorem path_singleton_iff :
    nfa.Path source [symbol] target ↔
      ∃ middle, nfa.Path source [] middle ∧
        ∃ next ∈ nfa.targets middle (.char symbol), nfa.Path next [] target := by
  constructor
  · intro hpath
    generalize hword : [symbol] = word at hpath
    induction hpath with
    | refl => simp at hword
    | epsilon edge _ ih =>
      obtain ⟨middle, hmiddle, hrest⟩ := ih hword
      exact ⟨middle, .epsilon edge hmiddle, hrest⟩
    | @char source next _ _ _ edge rest _ =>
      obtain ⟨rfl, rfl⟩ := List.cons_eq_cons.mp hword
      exact ⟨source, .refl source, next, edge, rest⟩
  · rintro ⟨middle, hmiddle, next, hnext, hrest⟩
    exact hmiddle.append (.char hnext hrest)

/-- Paths stay among the states. -/
theorem WellFormed.path_mem (h : nfa.WellFormed) (hsource : source ∈ nfa.names)
    (hpath : nfa.Path source word target) : target ∈ nfa.names := by
  induction hpath with
  | refl => exact hsource
  | epsilon edge _ ih => exact ih (h.targets_mem _ _ _ edge)
  | char edge _ ih => exact ih (h.targets_mem _ _ _ edge)

/-- Paths read only characters of the alphabet. -/
theorem WellFormed.mem_alphabet_of_path (h : nfa.WellFormed)
    (hpath : nfa.Path source word target) : ∀ c ∈ word, c ∈ nfa.alphabet := by
  induction hpath with
  | refl => simp
  | epsilon _ _ ih => exact ih
  | char edge _ ih =>
    intro c hc
    rcases List.mem_cons.mp hc with rfl | hc
    · exact (h.mem_alphabet c).mpr ⟨_, _, edge⟩
    · exact ih c hc

/-! ### Closures -/

/-- The closure of a state holds the ends of the paths that read nothing. -/
theorem WellFormed.mem_closure (h : nfa.WellFormed) (hname : name ∈ nfa.names) :
    target ∈ nfa.closure name ↔ nfa.Path name [] target := by
  have hlength : nfa.states.length = nfa.names.length := by simp [names]
  rw [path_nil_iff, closure, hlength]
  exact Discovery.mem_expandFirst hname fun state _ => h.targets_mem state .epsilon

/-! ### States reached over a word -/

/-- The states to which a path from the start over the word leads. -/
def reached (nfa : Nfa) (word : List Char) : Set String :=
  {state | ∃ start, nfa.start = some start ∧ nfa.Path start word state}

/-- A word is read when it reaches a final state. -/
theorem reads_iff : nfa.Reads word ↔ ∃ final ∈ nfa.finals, final ∈ nfa.reached word := by
  constructor
  · rintro ⟨start, final, hstart, hfinal, hpath⟩
    exact ⟨final, hfinal, start, hstart, hpath⟩
  · rintro ⟨final, hfinal, start, hstart, hpath⟩
    exact ⟨start, final, hstart, hfinal, hpath⟩

/-- Only states are reached. -/
theorem WellFormed.reached_mem (h : nfa.WellFormed) (hreached : target ∈ nfa.reached word) :
    target ∈ nfa.names := by
  obtain ⟨start, hstart, hpath⟩ := hreached
  exact h.path_mem (h.start_mem start hstart) hpath

/-- Before anything is read, the closure of the start is reached. -/
theorem WellFormed.mem_reached_nil (h : nfa.WellFormed) (hstart : nfa.start = some start) :
    target ∈ nfa.reached [] ↔ target ∈ nfa.closure start := by
  rw [h.mem_closure (h.start_mem start hstart)]
  constructor
  · rintro ⟨other, hother, hpath⟩
    rw [hstart, Option.some.injEq] at hother
    exact hother ▸ hpath
  · exact fun hpath => ⟨start, hstart, hpath⟩

/-- One character more leads across an edge that reads it. -/
theorem mem_reached_concat :
    target ∈ nfa.reached (word ++ [symbol]) ↔
      ∃ source ∈ nfa.reached word,
        ∃ next ∈ nfa.targets source (.char symbol), nfa.Path next [] target := by
  constructor
  · rintro ⟨start, hstart, hpath⟩
    obtain ⟨middle, hword, hsymbol⟩ := path_append_iff.mp hpath
    obtain ⟨source, hsource, hedge⟩ := path_singleton_iff.mp hsymbol
    refine ⟨source, ⟨start, hstart, ?_⟩, hedge⟩
    simpa using hword.append hsource
  · rintro ⟨source, ⟨start, hstart, hword⟩, next, hnext, hrest⟩
    exact ⟨start, hstart, hword.append (.char hnext hrest)⟩

/-- Where nothing is reached, nothing is reached later. -/
theorem exists_reached_of_append {more : List Char} (h : target ∈ nfa.reached (word ++ more)) :
    ∃ state, state ∈ nfa.reached word := by
  obtain ⟨start, hstart, hpath⟩ := h
  obtain ⟨middle, hword, _⟩ := path_append_iff.mp hpath
  exact ⟨middle, start, hstart, hword⟩

/-! ### Steps of a run -/

/-- The states hold the ends of all paths from them that read nothing. -/
def EpsilonClosed (nfa : Nfa) (states : List String) : Prop :=
  ∀ source ∈ states, ∀ target, nfa.Path source [] target → target ∈ states

/-- Visiting targets adds their closures. A target that is there already adds nothing, since
what was visited so far is closed. -/
theorem WellFormed.mem_foldl_visit (h : nfa.WellFormed) {targets visited : List String}
    (htargets : ∀ next ∈ targets, next ∈ nfa.names) (hclosed : nfa.EpsilonClosed visited) :
    target ∈ targets.foldl nfa.visit visited ↔
      target ∈ visited ∨ ∃ next ∈ targets, nfa.Path next [] target := by
  induction targets generalizing visited with
  | nil => simp
  | cons next targets ih =>
    have hclosure : ∀ state, state ∈ nfa.closure next ↔ nfa.Path next [] state :=
      fun _ => h.mem_closure (htargets next (by simp))
    have hvisit : ∀ state, state ∈ nfa.visit visited next ↔
        state ∈ visited ∨ nfa.Path next [] state := by
      intro state
      unfold visit
      split
      · next hin =>
        exact ⟨Or.inl, fun hstate => hstate.elim id (hclosed next hin state)⟩
      · rw [mem_addAllLast, hclosure]
    have hstill : nfa.EpsilonClosed (nfa.visit visited next) := by
      intro source hsource state hpath
      rw [hvisit] at hsource ⊢
      rcases hsource with hsource | hsource
      · exact Or.inl (hclosed source hsource state hpath)
      · exact Or.inr (hsource.append hpath)
    rw [List.foldl_cons, ih (fun state hstate => htargets state (by simp [hstate])) hstill,
      hvisit]
    simp only [List.mem_cons, exists_eq_or_imp, or_assoc]

/-- A step leads across the edges that read the character, and on without reading. -/
theorem WellFormed.mem_step (h : nfa.WellFormed) {active : List String} :
    target ∈ nfa.step active symbol ↔
      ∃ source ∈ active, ∃ next ∈ nfa.targets source (.char symbol), nfa.Path next [] target := by
  have htargets : ∀ next ∈ active.flatMap fun source => nfa.targets source (.char symbol),
      next ∈ nfa.names := by
    intro next hnext
    obtain ⟨source, _, hedge⟩ := List.mem_flatMap.mp hnext
    exact h.targets_mem source _ next hedge
  rw [step, h.mem_foldl_visit htargets (by simp [EpsilonClosed])]
  simp only [List.not_mem_nil, false_or, List.mem_flatMap]
  constructor
  · rintro ⟨next, ⟨source, hsource, hedge⟩, hpath⟩
    exact ⟨source, hsource, next, hedge, hpath⟩
  · rintro ⟨source, hsource, next, hedge, hpath⟩
    exact ⟨next, ⟨source, hsource, hedge⟩, hpath⟩

/-! ### Whole runs -/

/-- A final state is active when the word that was read reaches one. -/
theorem any_final_iff {active : List String}
    (hactive : ∀ state, state ∈ active ↔ state ∈ nfa.reached word) :
    (active.any fun state => nfa.finals.contains state) = true ↔
      ∃ final ∈ nfa.finals, final ∈ nfa.reached word := by
  simp only [List.any_eq_true, List.contains_eq_mem, decide_eq_true_eq, hactive]
  exact exists_congr fun state => and_comm

/-- A run from the states reached over a word accepts when it is judged and what it reads
leads on to a final state. -/
theorem WellFormed.verdict_runFrom (h : nfa.WellFormed) {active : List String} {input : List Char}
    (hactive : ∀ state, state ∈ active ↔ state ∈ nfa.reached word) :
    nfa.verdict (nfa.runFrom active input) = true ↔
      Judged nfa.alphabet nfa.flags input ∧
        ∃ final ∈ nfa.finals, final ∈ nfa.reached (word ++ readable nfa.alphabet input) := by
  induction input generalizing word active with
  | nil =>
    simp only [runFrom, verdict, judged_nil, readable_nil, List.append_nil, true_and]
    exact any_final_iff hactive
  | cons symbol rest ih =>
    by_cases hsymbol : symbol ∈ nfa.alphabet
    · have hstep : ∀ state, state ∈ nfa.step active symbol ↔
          state ∈ nfa.reached (word ++ [symbol]) := by
        intro state
        simp only [h.mem_step, mem_reached_concat, hactive]
      rw [judged_cons_of_mem hsymbol, readable_cons_of_mem hsymbol]
      simp only [runFrom, if_pos hsymbol]
      split
      · next hempty =>
        -- The run stops here, and no path over the word leads any further.
        have hnone : nfa.step active symbol = [] := List.isEmpty_iff.mp hempty
        refine ⟨by simp [verdict], ?_⟩
        rintro ⟨_, final, _, hreached⟩
        have hsplit : final ∈
            nfa.reached ((word ++ [symbol]) ++ readable nfa.alphabet rest) := by
          simpa using hreached
        obtain ⟨state, hstate⟩ := exists_reached_of_append hsplit
        rw [← hstep, hnone] at hstate
        simp at hstate
      · simpa using ih hstep
    · rw [judged_cons_of_not_mem hsymbol, readable_cons_of_not_mem hsymbol]
      simp only [runFrom, if_neg hsymbol, List.append_nil]
      split
      · next hcut =>
        simp only [verdict, hcut, true_and]
        exact any_final_iff hactive
      · next hcut => simp [verdict, hcut]

/-- An automaton with a start gives a verdict on every input: it accepts when the run is
judged and what it reads leads from the start to a final state. -/
theorem WellFormed.accepts_eq (h : nfa.WellFormed) (hstart : nfa.start = some start)
    (input : String) :
    ∃ verdict, nfa.accepts input = .ok verdict ∧
      (verdict = true ↔
        Judged nfa.alphabet nfa.flags input.toList ∧
          ∃ final ∈ nfa.finals, final ∈ nfa.reached (readable nfa.alphabet input.toList)) := by
  have hactive : ∀ state, state ∈ nfa.closure start ↔ state ∈ nfa.reached [] :=
    fun _ => (h.mem_reached_nil hstart).symm
  have hrun : nfa.accepts input =
      .ok (nfa.verdict (nfa.runFrom (nfa.closure start) input.toList)) := by
    simp only [accepts, run, hstart, Except.map]
  exact ⟨_, hrun, h.verdict_runFrom hactive⟩

/-- A built automaton with a start gives a verdict on every input. It reads the longest
beginning of the input within the alphabet, and it accepts when that is the whole input, or
the mark comes next and may end the run, and a path that reads it leads from the start to a
final state. -/
theorem accepts_iff_path (h : nfa.Built) (hstart : nfa.start = some start) (input : String) :
    ∃ read, LongestReadable nfa.alphabet input.toList read ∧
      ∃ verdict, nfa.accepts input = .ok verdict ∧
        (verdict = true ↔
          (input.toList = read ∨
            (∃ rest, input.toList = read ++ epsilonMark :: rest) ∧
              nfa.flags.epsilonShortcut = true) ∧
          ∃ final ∈ nfa.finals, nfa.Path start read final) := by
  obtain ⟨verdict, haccepts, hverdict⟩ := h.wellFormed.accepts_eq hstart input
  refine ⟨_, longestReadable_readable nfa.alphabet input.toList, verdict, haccepts, ?_⟩
  rw [hverdict, judged_iff_split]
  refine and_congr_right fun _ => exists_congr fun final => and_congr_right fun _ => ?_
  constructor
  · rintro ⟨other, hother, hpath⟩
    rw [hstart, Option.some.injEq] at hother
    exact hother ▸ hpath
  · exact fun hpath => ⟨start, hstart, hpath⟩

/-- An automaton with a way back that reads nothing. Converted, it has three states. -/
def cycle : Nfa :=
  ofAdditions {} [.start "p", .final "q", .edge "p" 'a' "q", .edge "q" 'b' "q",
    .epsilonEdge "q" "p"]

/-- The automaton goes round the way back and is then cut at the mark. -/
theorem accepts_iff_path_cycle :
    cycle.Built ∧ cycle.start = some "p" ∧
      ∃ read, LongestReadable cycle.alphabet "aabe".toList read ∧
        ∃ verdict, cycle.accepts "aabe" = .ok verdict ∧
          (verdict = true ↔
            ("aabe".toList = read ∨
              (∃ rest, "aabe".toList = read ++ epsilonMark :: rest) ∧
                cycle.flags.epsilonShortcut = true) ∧
            ∃ final ∈ cycle.finals, cycle.Path "p" read final) := by
  have hbuilt : cycle.Built := ⟨_, _, rfl⟩
  have hstart : cycle.start = some "p" := by decide
  exact ⟨hbuilt, hstart, accepts_iff_path hbuilt hstart "aabe"⟩

end Automata.Nfa
