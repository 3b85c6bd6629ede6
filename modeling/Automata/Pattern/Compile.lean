import Automata.Nfa.Fragment
import Automata.Pattern.Basic
import Automata.Pattern.Reading

/-!
# Compiling patterns

A pattern is read and its automaton is put together at the same time. There is one production
for each kind of text in a pattern: a choice reads terms, a term reads factors, a factor reads
a base with the stars after it, and a base reads a character or, in parentheses, another choice.
The depth counts the groups that are open. Each loop takes a character in every round, so what is
left of the pattern bounds how often it goes round.
-/

namespace Automata.Pattern

variable {ι : Type} [Lookahead ι] {α β : Type}

/-! ### Work that takes characters -/

/-- How many characters are to come. -/
def Compiler.left (compiler : Compiler ι) : Nat := compiler.rest.length

/-- The work takes at least so many characters, unless it fails. -/
def Takes (least : Nat) (work : Work ι α) : Prop :=
  ∀ ⦃before a after⦄, work before = .ok a after → after.left + least ≤ before.left

section Takes

variable {least more : Nat} {work : Work ι α}

/-- Work that takes so many characters takes no fewer. -/
theorem Takes.mono (h : Takes least work) (hle : more ≤ least) : Takes more work := by
  intro before a after hrun
  have := h hrun
  omega

/-- Giving a value takes nothing. -/
theorem takes_pure (a : α) : Takes 0 (pure a : Work ι α) := by
  intro before b after hrun
  cases hrun
  exact Nat.le_refl _

/-- What is done one after the other takes the sum. -/
theorem Takes.bind {next : α → Work ι β} (h : Takes least work)
    (hnext : ∀ a, Takes more (next a)) : Takes (least + more) (work >>= next) := by
  intro before b after hrun
  simp only [Bind.bind, EStateM.bind] at hrun
  split at hrun
  · next a middle hfirst =>
    have hone := h hfirst
    have htwo := hnext a hrun
    omega
  · cases hrun

/-- What takes nothing may go first. -/
theorem Takes.bind_of_zero {next : α → Work ι β} (h : Takes 0 work)
    (hnext : ∀ a, Takes more (next a)) : Takes more (work >>= next) :=
  (h.bind hnext).mono (by omega)

/-- What takes nothing may go last. -/
theorem Takes.bind_zero {next : α → Work ι β} (h : Takes least work)
    (hnext : ∀ a, Takes 0 (next a)) : Takes least (work >>= next) :=
  h.bind hnext

/-- A failure says nothing of how much is taken. -/
theorem takes_fail (fault : Fault) : Takes least (fail fault : Work ι α) := by
  intro before a after hrun
  cases hrun

/-- The same holds of a failure at the end. -/
theorem takes_failAtEnd (expected : Option Char) :
    Takes least (failAtEnd expected : Work ι α) := by
  intro before a after hrun
  cases hrun

/-- Looking shows the next character and takes none. -/
theorem look_eq (before : Compiler ι) :
    ∃ after : Compiler ι, look before = .ok before.rest.head? after ∧ after.rest = before.rest := by
  refine ⟨_, congrArg (EStateM.Result.ok · _) (Lookahead.peek_fst before.iterator), ?_⟩
  exact Lookahead.remaining_peek before.iterator

/-- Looking takes no character. -/
theorem takes_look : Takes 0 (look : Work ι (Option Char)) := by
  intro before found after hrun
  obtain ⟨after', hlook, hrest⟩ := look_eq before
  obtain ⟨-, rfl⟩ := EStateM.Result.ok.inj (hlook.symm.trans hrun)
  simp [Compiler.left, hrest]

/-- Asking whether there are more takes no character. -/
theorem takes_hasNext : Takes 0 (hasNext : Work ι Bool) :=
  takes_look.bind_zero fun _ => takes_pure _

/-- Seeing the next character takes none. -/
theorem takes_peek : Takes 0 (peek : Work ι Char) := by
  refine (takes_look (ι := ι)).bind_of_zero fun found => ?_
  cases found with
  | some c => exact takes_pure c
  | none => exact takes_failAtEnd none

/-- What is demanded and found is taken. -/
theorem takes_expect (wanted : Char) : Takes 1 (expect wanted : Work ι Char) := by
  intro before c after hrun
  obtain ⟨middle, hlook, hrest⟩ := look_eq before
  simp only [expect, Bind.bind, EStateM.bind, hlook] at hrun
  cases hfound : before.rest with
  | nil =>
    simp only [hfound, List.head?_nil] at hrun
    cases hrun
  | cons first rest =>
    simp only [hfound, List.head?_cons] at hrun
    split at hrun
    · have htail : after.rest = middle.rest.tail := by
        cases hrun
        exact Lookahead.remaining_next middle.iterator
      simp [Compiler.left, htail, hrest, hfound]
    · cases hrun

/-- The next character is taken when it is given. -/
theorem takes_next : Takes 1 (next : Work ι Char) :=
  takes_peek.bind_of_zero fun c => takes_expect c

end Takes

/-! ### Loops -/

/-- Goes round as long as the test says so. -/
def loop (again : Work ι Bool) (round : α → Work ι α) (hagain : Takes 0 again)
    (hround : ∀ a, Takes 1 (round a)) (a : α) (before : Compiler ι) :
    EStateM.Result Error (Compiler ι) α :=
  match htest : again before with
  | .error error after => .error error after
  | .ok false after => .ok a after
  | .ok true middle =>
    match hstep : round a middle with
    | .error error after => .error error after
    | .ok b after =>
      have := hagain htest
      have := hround a hstep
      loop again round hagain hround b after
termination_by before.left
decreasing_by omega

section Loop

variable {again : Work ι Bool} {round : α → Work ι α} {hagain : Takes 0 again}
variable {hround : ∀ a, Takes 1 (round a)}

/-- What a loop does is to test, and then to go round and start again. -/
theorem loop_eq (a : α) : loop again round hagain hround a = (do
    if ← again then
      let b ← round a
      loop again round hagain hround b
    else return a : Work ι α) := by
  funext before
  rw [loop]
  simp only [Bind.bind, EStateM.bind]
  split
  · next htest => simp [htest]
  · next htest =>
    simp [htest]
    rfl
  · next middle htest =>
    simp only [htest, if_true, EStateM.bind]
    split
    · next hstep => simp [hstep]
    · next hstep => simp [hstep]

/-- A loop may end at once. -/
theorem takes_loop (a : α) : Takes 0 (loop again round hagain hround a) := by
  intro before b after hrun
  fun_induction loop again round hagain hround a before with
  | case1 => cases hrun
  | case2 a before after' htest =>
    cases hrun
    exact hagain htest
  | case3 => cases hrun
  | case4 a before middle htest next after' hstep htaken htaken' ih =>
    have hlater := ih hrun
    omega

end Loop

/-! ### Putting automata together -/

/-- A name that no state has yet. -/
def newState : Work ι String :=
  modifyGet fun compiler =>
    (stateName compiler.nextState, { compiler with nextState := compiler.nextState + 1 })

/-- Reports what was done. -/
def report (event : Event) : Work ι Unit :=
  modify fun compiler => { compiler with events := compiler.events ++ [event] }

/-- Fails where no automaton could be built. -/
def built (result : Except Automata.Error α) : Work ι α :=
  match result with
  | .ok a => return a
  | .error error => throw (.automaton error)

/-- The automaton of a term without factors. -/
def makeBlank : Work ι Nfa := do
  built (Nfa.ofBlank (← newState))

/-- The automaton of a character. -/
def makeLiteral (c : Char) : Work ι Nfa := do
  let start ← newState
  let final ← newState
  let nfa ← built (Nfa.ofSymbol start c final)
  report (.literalBuilt start c final)
  return nfa

/-- The automaton of two alternatives. -/
def joinAlternatives (lower upper : Nfa) : Work ι Nfa := do
  let start ← newState
  let nfa ← built (lower.alternate upper start)
  report (.alternativesJoined start (← built lower.requireStart) (← built upper.requireStart))
  return nfa

/-- The automaton of one part after the other. -/
def joinParts (left right : Nfa) : Work ι Nfa := do
  let nfa ← built (left.append right)
  report (.partsJoined left.finals (← built right.requireStart))
  return nfa

/-- The automaton of a repeated part. -/
def repeatPart (inner : Nfa) : Work ι Nfa := do
  let start ← newState
  let nfa ← built (inner.star start)
  report (.repetitionBuilt start (← built inner.requireStart))
  return nfa

section Making

/-- A name is given out without reading on. -/
theorem takes_newState : Takes 0 (newState : Work ι String) := by
  intro before name after hrun
  cases hrun
  exact Nat.le_refl _

/-- A report is made without reading on. -/
theorem takes_report (event : Event) : Takes 0 (report event : Work ι Unit) := by
  intro before done after hrun
  cases hrun
  exact Nat.le_refl _

/-- What an automaton operation gives is passed on without reading on. -/
theorem takes_built (result : Except Automata.Error α) : Takes 0 (built result : Work ι α) := by
  cases result with
  | ok a => exact takes_pure a
  | error error =>
    intro before a after hrun
    cases hrun

/-- The automaton of nothing is made without reading on. -/
theorem takes_makeBlank : Takes 0 (makeBlank : Work ι Nfa) :=
  takes_newState.bind_zero fun _ => takes_built _

/-- The automaton of a character is made when the character is read already. -/
theorem takes_makeLiteral (c : Char) : Takes 0 (makeLiteral c : Work ι Nfa) :=
  takes_newState.bind_of_zero fun _ => takes_newState.bind_of_zero fun _ =>
    (takes_built _).bind_of_zero fun _ => (takes_report _).bind_zero fun _ => takes_pure _

/-- Alternatives are joined when both are read already. -/
theorem takes_joinAlternatives (lower upper : Nfa) :
    Takes 0 (joinAlternatives lower upper : Work ι Nfa) :=
  takes_newState.bind_of_zero fun _ => (takes_built _).bind_of_zero fun _ =>
    (takes_built _).bind_of_zero fun _ => (takes_built _).bind_of_zero fun _ =>
      (takes_report _).bind_zero fun _ => takes_pure _

/-- Parts are joined when both are read already. -/
theorem takes_joinParts (left right : Nfa) : Takes 0 (joinParts left right : Work ι Nfa) :=
  (takes_built _).bind_of_zero fun _ => (takes_built _).bind_of_zero fun _ =>
    (takes_report _).bind_zero fun _ => takes_pure _

/-- A part is repeated when it is read already. -/
theorem takes_repeatPart (inner : Nfa) : Takes 0 (repeatPart inner : Work ι Nfa) :=
  takes_newState.bind_of_zero fun _ => (takes_built _).bind_of_zero fun _ =>
    (takes_built _).bind_of_zero fun _ => (takes_report _).bind_zero fun _ => takes_pure _

end Making

/-! ### Productions -/

/-- A way to compile texts of one kind, of which each has at least so many characters. -/
structure Production (ι : Type) [Lookahead ι] (least : Nat) where
  work : Work ι Nfa
  takes : Takes least work

/-- Whether there are characters to come, and the next one is such. -/
def ahead (wanted : Char → Bool) : Work ι Bool := do
  if ← hasNext then return wanted (← peek)
  else return false

/-- A test of the next character takes none. -/
theorem takes_ahead (wanted : Char → Bool) : Takes 0 (ahead wanted : Work ι Bool) := by
  refine takes_hasNext.bind_of_zero fun more => ?_
  cases more with
  | true => exact takes_peek.bind_zero fun c => takes_pure _
  | false => exact takes_pure false

/-- A star repeats the part before it. -/
def starRound (inner : Nfa) : Work ι Nfa := do
  let _ ← expect '*'
  repeatPart inner

/-- Each round of a row of stars takes a star. -/
theorem takes_starRound (inner : Nfa) : Takes 1 (starRound inner : Work ι Nfa) :=
  (takes_expect '*').bind_zero fun _ => takes_repeatPart inner

/-- A factor is a base with any number of stars after it. -/
def Production.factor (base : Production ι 1) : Production ι 1 where
  work := do
    let inner ← base.work
    loop (ahead (· = '*')) starRound (takes_ahead _) takes_starRound inner
  takes := base.takes.bind_zero fun inner => takes_loop inner

/-- A factor joins the factors before it. -/
def rowRound (factor : Production ι 1) (row : Option Nfa) : Work ι (Option Nfa) := do
  let part ← factor.work
  match row with
  | some row => return some (← joinParts row part)
  | none => return some part

/-- Each round of a row of factors takes what its factor takes. -/
theorem takes_rowRound (factor : Production ι 1) (row : Option Nfa) :
    Takes 1 (rowRound factor row) := by
  refine factor.takes.bind_zero fun part => ?_
  cases row with
  | some row => exact (takes_joinParts row part).bind_zero fun nfa => takes_pure _
  | none => exact takes_pure _

/-- A term is a row of factors, up to a bar or the end of its group. -/
def Production.term (factor : Production ι 1) : Production ι 0 where
  work := do
    let row ← loop (ahead fun c => c ≠ ')' && c ≠ '|') (rowRound factor) (takes_ahead _)
      (takes_rowRound factor) none
    match row with
    | some nfa => return nfa
    | none => makeBlank
  takes := by
    refine (takes_loop (ι := ι) none).bind_zero fun row => ?_
    cases row with
    | some nfa => exact takes_pure nfa
    | none => exact takes_makeBlank

/-- A term behind a bar is an alternative to those before it. -/
def barRound (term : Production ι 0) (lower : Nfa) : Work ι Nfa := do
  let _ ← expect '|'
  let upper ← term.work
  joinAlternatives lower upper

/-- Each round of a choice takes a bar, whatever its term takes. -/
theorem takes_barRound (term : Production ι 0) (lower : Nfa) : Takes 1 (barRound term lower) :=
  (takes_expect '|').bind_zero fun _ => term.takes.bind_zero fun upper =>
    takes_joinAlternatives lower upper

/-- A choice is made of terms with bars between them. -/
def Production.choice (term : Production ι 0) : Production ι 0 where
  work := do
    let lower ← term.work
    loop (ahead (· = '|')) (barRound term) (takes_ahead _) (takes_barRound term) lower
  takes := term.takes.bind_zero fun lower => takes_loop lower

/-- A base is an ordinary character, or a group if another one may be opened. -/
def Production.base (depth : Nat) (inner : depth < maxNesting → Production ι 0) :
    Production ι 1 where
  work := do
    let c ← peek
    if c = '(' then
      if room : depth < maxNesting then
        let _ ← expect '('
        let nfa ← (inner room).work
        let _ ← expect ')'
        return nfa
      else fail (.tooDeep maxNesting)
    else if isOperator c then fail (.dangling c)
    else
      let c ← next
      makeLiteral c
  takes := by
    refine takes_peek.bind_of_zero fun c => ?_
    split
    · split
      · next room =>
        refine (takes_expect '(').bind_zero fun _ => (inner room).takes.bind_zero fun nfa => ?_
        exact ((takes_expect ')').bind fun _ => takes_pure nfa).mono (Nat.zero_le _)
      · exact takes_fail _
    · split
      · exact takes_fail _
      · exact takes_next.bind_zero fun c => takes_makeLiteral c

/-- A choice inside so many open groups. -/
def Production.atDepth (depth : Nat) : Production ι 0 :=
  choice (term (factor (base depth fun room => atDepth (depth + 1))))
termination_by maxNesting - depth

/-! ### Whole patterns -/

/-- Compiles all characters to come. -/
def compileRest : Work ι Nfa := do
  let nfa ← (Production.atDepth 0).work
  if ← hasNext then fail .unbalanced
  else
    let compiler ← get
    report (.patternCompiled compiler.text nfa.states.length nfa.alphabet)
    return nfa

/-- Compiles a pattern into an automaton, with iterators of the given kind. -/
def compileWith (ι : Type) [Lookahead ι] (text : String) : Except Error Nfa :=
  ((Compiler.start text : Compiler ι).run compileRest).1

/-- Compiles a pattern into an automaton. -/
def compile (text : String) : Except Error Nfa := compileWith Buffered text

/-- What is reported while a pattern is compiled. -/
def compileEvents (text : String) : List Event :=
  ((Compiler.start text : Compiler Buffered).run compileRest).2.events

end Automata.Pattern
