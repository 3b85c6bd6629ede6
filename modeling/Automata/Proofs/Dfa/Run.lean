import Automata.Dfa.Run
import Automata.Proofs.Reading

/-!
# Runs follow the moves

Following the moves over a word leads to one state at most. A run that can follow the moves
over all that it reads never fails: it is judged by the state to which they lead. Any other
run fails for want of a move.
-/

namespace Automata.Dfa

variable {dfa : Dfa} {source state last : String} {symbol : Char} {word more input : List Char}

/-- The state to which the moves over a word lead. -/
def follow (dfa : Dfa) : String → List Char → Option String
  | state, [] => some state
  | state, symbol :: word => (dfa.target state symbol).bind fun next => dfa.follow next word

/-- The state to which the moves over a word lead from the start. -/
def stateAfter (dfa : Dfa) (word : List Char) : Option String :=
  dfa.start.bind fun start => dfa.follow start word

/-- Nothing is followed to where it began. -/
@[simp] theorem follow_nil : dfa.follow state [] = some state := rfl

/-- A word is followed by its first move and then by the rest. -/
@[simp] theorem follow_cons : dfa.follow state (symbol :: word) =
    (dfa.target state symbol).bind fun next => dfa.follow next word := rfl

/-- A word is followed one part after the other. -/
theorem follow_append : dfa.follow state (word ++ more) =
    (dfa.follow state word).bind fun next => dfa.follow next more := by
  induction word generalizing state with
  | nil => rfl
  | cons symbol word ih =>
    cases hmove : dfa.target state symbol with
    | none => simp [hmove]
    | some next => simp [hmove, ih]

/-- Before anything is read the state is the start. -/
@[simp] theorem stateAfter_nil : dfa.stateAfter [] = dfa.start := by
  cases hstart : dfa.start <;> simp [stateAfter, hstart]

/-- Reading on goes on from the state reached. -/
theorem stateAfter_append : dfa.stateAfter (word ++ more) =
    (dfa.stateAfter word).bind fun state => dfa.follow state more := by
  cases hstart : dfa.start with
  | none => simp [stateAfter, hstart]
  | some start => simp [stateAfter, hstart, follow_append]

/-- Reading one symbol more moves on from the state before. -/
theorem stateAfter_concat : dfa.stateAfter (word ++ [symbol]) =
    (dfa.stateAfter word).bind fun state => dfa.target state symbol := by
  simp [stateAfter_append]

/-- A run that can follow what it reads is judged by the state to which that leads. -/
theorem verdict_runFrom (h : dfa.follow state (readable dfa.alphabet input) = some last) :
    ∃ verdict, dfa.verdict (dfa.runFrom state input) = .ok verdict ∧
      (verdict = true ↔ Judged dfa.alphabet dfa.flags input ∧ dfa.isFinal last = true) := by
  induction input generalizing state with
  | nil =>
    obtain rfl := Option.some.inj h
    exact ⟨dfa.isFinal state, rfl, by simp⟩
  | cons symbol input ih =>
    by_cases hsymbol : symbol ∈ dfa.alphabet
    · rw [readable_cons_of_mem hsymbol, follow_cons] at h
      obtain ⟨next, hmove, hrest⟩ := Option.bind_eq_some_iff.mp h
      simp only [runFrom, if_pos hsymbol, hmove, judged_cons_of_mem hsymbol]
      exact ih hrest
    · rw [readable_cons_of_not_mem hsymbol, follow_nil, Option.some.injEq] at h
      subst h
      simp only [runFrom, if_neg hsymbol, judged_cons_of_not_mem hsymbol]
      split
      · next hcut => exact ⟨dfa.isFinal state, rfl, by simp [hcut]⟩
      · next hcut => exact ⟨false, rfl, by simp [hcut]⟩

/-! ### Missing moves -/

/-- Following the moves over the word breaks off: a beginning of the word leads to a state from
which no move leads on with the symbol that comes next. -/
def BreaksOff (dfa : Dfa) (source : String) (word : List Char) (state : String) (symbol : Char) :
    Prop :=
  ∃ before, before ++ [symbol] <+: word ∧ dfa.follow source before = some state ∧
    dfa.target state symbol = none

/-- No run breaks off where nothing is to be read. -/
theorem not_breaksOff_nil : ¬ dfa.BreaksOff source [] state symbol := by
  rintro ⟨before, hbefore, _⟩
  simp at hbefore

/-- Following breaks off at the first symbol, or else after the first move. -/
theorem breaksOff_cons_iff {c : Char} :
    dfa.BreaksOff source (c :: word) state symbol ↔
      (dfa.target source c = none ∧ source = state ∧ c = symbol) ∨
        ∃ next, dfa.target source c = some next ∧ dfa.BreaksOff next word state symbol := by
  constructor
  · rintro ⟨before, hbefore, hfollow, hmissing⟩
    cases before with
    | nil =>
      obtain ⟨rfl, _⟩ := List.cons_prefix_cons.mp hbefore
      obtain rfl : source = state := Option.some.inj hfollow
      exact Or.inl ⟨hmissing, rfl, rfl⟩
    | cons first before =>
      obtain ⟨rfl, hrest⟩ := List.cons_prefix_cons.mp hbefore
      obtain ⟨next, hmove, hfollow⟩ := Option.bind_eq_some_iff.mp hfollow
      exact Or.inr ⟨next, hmove, before, hrest, hfollow, hmissing⟩
  · rintro (⟨hmissing, rfl, rfl⟩ | ⟨next, hmove, before, hbefore, hfollow, hmissing⟩)
    · exact ⟨[], List.cons_prefix_cons.mpr ⟨rfl, List.nil_prefix⟩, rfl, hmissing⟩
    · refine ⟨c :: before, List.cons_prefix_cons.mpr ⟨rfl, hbefore⟩, ?_, hmissing⟩
      rw [follow_cons, hmove]
      exact hfollow

/-- The moves over a word lead nowhere when following them breaks off. -/
theorem follow_eq_none_iff :
    dfa.follow source word = none ↔ ∃ state symbol, dfa.BreaksOff source word state symbol := by
  induction word generalizing source with
  | nil => simp [not_breaksOff_nil]
  | cons c word ih =>
    simp only [breaksOff_cons_iff, follow_cons]
    cases hmove : dfa.target source c with
    | none => simp
    | some next => simpa using ih

/-- A run is stuck where following what it reads breaks off. -/
theorem runFrom_eq_stuck_iff :
    dfa.runFrom source input = .stuck state symbol ↔
      dfa.BreaksOff source (readable dfa.alphabet input) state symbol := by
  induction input generalizing source with
  | nil => simp [runFrom, not_breaksOff_nil]
  | cons c input ih =>
    by_cases hc : c ∈ dfa.alphabet
    · rw [readable_cons_of_mem hc, breaksOff_cons_iff]
      simp only [runFrom, if_pos hc]
      cases hmove : dfa.target source c with
      | none => simp
      | some next => simpa using ih
    · rw [readable_cons_of_not_mem hc]
      simp only [runFrom, if_neg hc, not_breaksOff_nil, iff_false]
      split <;> simp

/-! ### Answers -/

/-- An automaton with a start fails on an input where following what is read of it breaks off,
for want of that move, and in no other way. -/
theorem accepts_eq_error_iff {input start : String} (hstart : dfa.start = some start)
    {error : Error} :
    dfa.accepts input = .error error ↔ ∃ state symbol,
      dfa.BreaksOff start (readable dfa.alphabet input.toList) state symbol ∧
        error = .missingTransition state symbol := by
  have hrun : dfa.accepts input = dfa.verdict (dfa.runFrom start input.toList) := by
    simp only [accepts, run, hstart, bind, Except.bind]
  simp only [hrun, ← runFrom_eq_stuck_iff]
  cases dfa.runFrom start input.toList <;> simp [verdict, eq_comm, and_assoc]

/-- An automaton that can follow what is read of an input gives a verdict on it. -/
theorem accepts_eq {input : String}
    (h : dfa.stateAfter (readable dfa.alphabet input.toList) = some last) :
    ∃ verdict, dfa.accepts input = .ok verdict ∧
      (verdict = true ↔ Judged dfa.alphabet dfa.flags input.toList ∧ dfa.isFinal last = true) := by
  obtain ⟨start, hstart, hfollow⟩ := Option.bind_eq_some_iff.mp h
  have hrun : dfa.accepts input = dfa.verdict (dfa.runFrom start input.toList) := by
    simp only [accepts, run, hstart, bind, Except.bind]
  rw [hrun]
  exact verdict_runFrom hfollow

/-- An automaton with a start that cannot follow what is read of an input fails for want of a
move. -/
theorem accepts_stuck {input start : String} (hstart : dfa.start = some start)
    (h : dfa.stateAfter (readable dfa.alphabet input.toList) = none) :
    ∃ state symbol, dfa.accepts input = .error (.missingTransition state symbol) := by
  rw [stateAfter, hstart, Option.bind_some] at h
  obtain ⟨state, symbol, hbreaks⟩ := follow_eq_none_iff.mp h
  exact ⟨state, symbol, (accepts_eq_error_iff hstart).mpr ⟨state, symbol, hbreaks, rfl⟩⟩

end Automata.Dfa
