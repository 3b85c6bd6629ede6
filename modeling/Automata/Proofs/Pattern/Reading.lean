import Automata.Proofs.Pattern.Fault

/-!
# Reading and then compiling

A reader who keeps a single place moves it past the character that a step takes; every other
step, one that fails as well, leaves it alone. A compiler keeps its place twice and makes its steps
out of smaller operations, but it gives the answers of that reader, and is then at the reader's
place. Compiling from a place looks only at what is still to come. What was taken before shows
in the places that errors tell, and nowhere else.
-/

namespace Automata.Pattern

open Compiler

/-! ### A reader with a single place -/

/-- The character that a step took, if it did take one. -/
def taken? : Except Error Answer → Option Char
  | .ok (.taken c) => some c
  | _ => none

/-- The characters that steps took, in order. -/
def takenIn (answers : List (Except Error Answer)) : List Char := answers.filterMap taken?

/-- Without answers nothing was taken. -/
@[simp] theorem takenIn_nil : takenIn [] = [] := rfl

/-- What the first answer took comes before what the others took. -/
@[simp] theorem takenIn_cons (answer : Except Error Answer) (answers : List (Except Error Answer)) :
    takenIn (answer :: answers) = (taken? answer).toList ++ takenIn answers := by
  cases h : taken? answer <;> simp [takenIn, h]

namespace Cursor

/-- What a step tells a reader at the place, and where the reader is then. -/
def perform (place : Cursor) (step : Step) : Except Error Answer × Cursor :=
  match step, place.rest with
  | .peek, [] | .next, [] => (.error (.misread (.unexpectedEnd none) place), place)
  | .peek, c :: _ => (.ok (.seen c), place)
  | .next, c :: rest => (.ok (.taken c), { read := place.read ++ [c], rest })
  | .expect wanted, [] => (.error (.misread (.unexpectedEnd (some wanted)) place), place)
  | .expect wanted, c :: rest =>
    if c = wanted then (.ok (.taken c), { read := place.read ++ [c], rest })
    else (.error (.misread (.expected wanted) place), place)
  | .hasNext, rest => (.ok (.more rest.head?.isSome), place)

/-- What steps tell one after the other, and where the reader is then. -/
def performAll (place : Cursor) : List Step → List (Except Error Answer) × Cursor
  | [] => ([], place)
  | step :: steps =>
    let later := (place.perform step).2.performAll steps
    ((place.perform step).1 :: later.1, later.2)

variable {place : Cursor} {step : Step} {steps : List Step} {error : Error}

/-- A step takes the next character and moves past it, or fails and tells the place, or looks
at what comes next. The reader stays unless it takes a character. -/
theorem perform_cases (place : Cursor) (step : Step) :
    (∃ c rest, place.rest = c :: rest ∧
      place.perform step = (.ok (.taken c), { read := place.read ++ [c], rest })) ∨
    (∃ fault, place.perform step = (.error (.misread fault place), place)) ∨
    ∃ answer, taken? (.ok answer) = none ∧ place.perform step = (.ok answer, place) := by
  obtain ⟨read, rest⟩ := place
  cases step with
  | hasNext => exact Or.inr (Or.inr ⟨_, rfl, rfl⟩)
  | peek =>
    cases rest with
    | nil => exact Or.inr (Or.inl ⟨_, rfl⟩)
    | cons c rest => exact Or.inr (Or.inr ⟨_, rfl, rfl⟩)
  | next =>
    cases rest with
    | nil => exact Or.inr (Or.inl ⟨_, rfl⟩)
    | cons c rest => exact Or.inl ⟨c, rest, rfl, rfl⟩
  | expect wanted =>
    cases rest with
    | nil => exact Or.inr (Or.inl ⟨_, rfl⟩)
    | cons c rest =>
      by_cases hwanted : c = wanted
      · exact Or.inl ⟨c, rest, rfl, if_pos hwanted⟩
      · exact Or.inr (Or.inl ⟨.expected wanted, if_neg hwanted⟩)

/-- A reader whose step fails stays, and is told its place. -/
theorem perform_error (h : (place.perform step).1 = .error error) :
    (place.perform step).2 = place ∧ ∃ fault, error = .misread fault place := by
  rcases place.perform_cases step with ⟨c, rest, _, hstep⟩ | ⟨fault, hstep⟩ | ⟨answer, _, hstep⟩
  · simp [hstep] at h
  · rw [hstep] at h ⊢
    exact ⟨rfl, fault, (Except.error.inj h).symm⟩
  · simp [hstep] at h

/-- So does one who only looks. -/
theorem perform_stays (h : step = .peek ∨ step = .hasNext ∨
    ∃ error, (place.perform step).1 = .error error) : (place.perform step).2 = place := by
  rcases h with rfl | rfl | ⟨error, herror⟩
  · cases hrest : place.rest <;> simp [perform, hrest]
  · rfl
  · exact (perform_error herror).1

/-- What a step takes is what lies between the place before and the place after. -/
theorem perform_moves (place : Cursor) (step : Step) :
    (place.perform step).2.read = place.read ++ (taken? (place.perform step).1).toList ∧
      place.rest = (taken? (place.perform step).1).toList ++ (place.perform step).2.rest := by
  rcases place.perform_cases step with ⟨c, rest, hnext, hstep⟩ | ⟨fault, hstep⟩ |
    ⟨answer, hnone, hstep⟩
  · simp [hstep, hnext, taken?]
  · simp [hstep, taken?]
  · simp [hstep, hnone]

/-- What steps take one after the other is what lies between the places before and after. -/
theorem performAll_moves (place : Cursor) (steps : List Step) :
    (place.performAll steps).2.read = place.read ++ takenIn (place.performAll steps).1 ∧
      place.rest = takenIn (place.performAll steps).1 ++ (place.performAll steps).2.rest := by
  induction steps generalizing place with
  | nil => simp [performAll]
  | cons step steps ih =>
    obtain ⟨hread, hrest⟩ := place.perform_moves step
    obtain ⟨hread', hrest'⟩ := ih (place.perform step).2
    simp only [performAll, takenIn_cons, List.append_assoc]
    exact ⟨by rw [hread', hread, List.append_assoc], by rw [← hrest', ← hrest]⟩

/-- Among the answers, an error tells the place to which the steps before it have come. -/
theorem performAll_error {earlier later : List (Except Error Answer)}
    (h : (place.performAll steps).1 = earlier ++ .error error :: later) :
    ∃ fault found, error = .misread fault found ∧ found.read = place.read ++ takenIn earlier ∧
      place.rest = takenIn earlier ++ found.rest := by
  induction steps generalizing place earlier with
  | nil => simp [performAll] at h
  | cons step steps ih =>
    cases earlier with
    | nil =>
      obtain ⟨hfirst, _⟩ := List.cons.inj h
      obtain ⟨_, fault, rfl⟩ := perform_error hfirst
      exact ⟨fault, place, rfl, by simp, by simp⟩
    | cons answer earlier =>
      obtain ⟨hfirst, hlater⟩ := List.cons.inj h
      obtain ⟨fault, found, herror, hread, hrest⟩ := ih hlater
      obtain ⟨hread', hrest'⟩ := place.perform_moves step
      rw [hfirst] at hread' hrest'
      refine ⟨fault, found, herror, ?_, ?_⟩
      · rw [hread, hread', takenIn_cons, List.append_assoc]
      · rw [hrest', hrest, takenIn_cons, List.append_assoc]

end Cursor

/-! ### Steps of a compiler -/

variable {ι κ : Type} [Lookahead ι] [Lookahead κ] {compiler : Compiler ι} {other : Compiler κ}
variable {text : List Char} {place : Cursor} {number : Nat}

/-- Whatever step a compiler makes, it answers as a reader at its place does, and goes where
the reader goes. -/
theorem Compiler.does_step (h : compiler.At text place number) (step : Step) :
    compiler.Does text step.work (place.perform step).1 (place.perform step).2 number := by
  obtain ⟨read, rest⟩ := place
  cases step with
  | hasNext => exact (does_hasNext h).bind fun _ hafter => does_pure hafter _
  | peek =>
    cases rest with
    | nil => exact (does_peek_nil h).bind_error
    | cons c rest => exact (does_peek h).bind fun _ hafter => does_pure hafter _
  | next =>
    cases rest with
    | nil => exact (does_next_nil h).bind_error
    | cons c rest => exact (does_next h).bind fun _ hafter => does_pure hafter _
  | expect wanted =>
    cases rest with
    | nil => exact (does_expect_nil h wanted).bind_error
    | cons c rest =>
      by_cases hwanted : c = wanted
      · subst hwanted
        simp only [Cursor.perform, if_pos]
        exact (does_expect h).bind fun _ hafter => does_pure hafter _
      · simp only [Cursor.perform, if_neg hwanted]
        exact (does_expect_of_ne h hwanted).bind_error

/-- The same holds of steps one after the other. -/
theorem Compiler.At.performAll (h : compiler.At text place number) (steps : List Step) :
    (compiler.performAll steps).1 = (place.performAll steps).1 ∧
      (compiler.performAll steps).2.At text (place.performAll steps).2 number := by
  induction steps generalizing compiler place with
  | nil => exact ⟨rfl, h⟩
  | cons step steps ih =>
    obtain ⟨after, hrun, hafter⟩ := does_step h step
    obtain ⟨hanswers, hlast⟩ := ih hafter
    simp only [Compiler.performAll, Cursor.performAll, hrun, hanswers]
    exact ⟨trivial, hlast⟩

/-! ### Compiling from a place -/

/-- Two compilers with the same characters to come give the same automaton, or they fail with the
same fault at the same one of these characters. -/
theorem compileRest_both {text' : List Char} {place' : Cursor} (h : compiler.At text place 0)
    (h' : other.At text' place' 0) (hrest : place.rest = place'.rest) :
    ∃ outcome : Except Error Nfa,
      (compiler.run compileRest).1 = outcome.mapError (.behind place.read) ∧
      (other.run compileRest).1 = outcome.mapError (.behind place'.read) := by
  rcases compileRest_cases h with
    ⟨pattern, built, hderives, hbuild, hok⟩ | ⟨fault, found, hfirst, herror⟩ <;>
  rcases compileRest_cases h' with
    ⟨pattern', built', hderives', hbuild', hok'⟩ | ⟨fault', found', hfirst', herror'⟩ <;>
  rw [← hrest] at *
  · obtain rfl : pattern = pattern' :=
      Except.ok.inj (hderives.parse_eq.symm.trans hderives'.parse_eq)
    obtain rfl : built = built' := Except.ok.inj (hbuild.symm.trans hbuild')
    exact ⟨.ok built.nfa, hok, hok'⟩
  · exact absurd hderives.faultless hfirst'.not_faultless
  · exact absurd hderives'.faultless hfirst.not_faultless
  · obtain ⟨rfl, rfl⟩ := hfirst.unique hfirst'
    exact ⟨.error (.misread fault found), herror, herror'⟩

/-- Neither steps nor compiling after them tell the two apart. -/
def Compiler.Alike (compiler : Compiler ι) (other : Compiler κ) : Prop :=
  ∀ steps, (compiler.performAll steps).1 = (other.performAll steps).1 ∧
    ((compiler.performAll steps).2.run compileRest).1 =
      ((other.performAll steps).2.run compileRest).1

/-- Compilers at the same place are alike, whatever their iterators have shown before. -/
theorem Compiler.At.alike (h : compiler.At text place 0) (h' : other.At text place 0) :
    compiler.Alike other := by
  intro steps
  obtain ⟨hanswers, hlast⟩ := h.performAll steps
  obtain ⟨hanswers', hlast'⟩ := h'.performAll steps
  obtain ⟨outcome, hcompiled, hcompiled'⟩ := compileRest_both hlast hlast' rfl
  exact ⟨hanswers.trans hanswers'.symm, hcompiled.trans hcompiled'.symm⟩

/-- Compilers that have only looked, or failed to take a character, are as they were. -/
theorem Compiler.At.alike_step (h : compiler.At text place 0) {step : Step}
    (hstep : step = .peek ∨ step = .hasNext ∨
      ∃ error, (compiler.run step.work).1 = .error error) :
    (compiler.run step.work).2.Alike compiler := by
  obtain ⟨after, hrun, hafter⟩ := does_step h step
  rw [hrun] at hstep ⊢
  rw [Cursor.perform_stays hstep] at hafter
  exact hafter.alike h

/-- However a pattern was read, the characters that steps took, in order, are its first ones, and
every error tells those taken before it and, behind these, the rest of the pattern. A step that
fails and one that only looks change nothing that can be seen later. Compiling then gives the very
automaton that the rest of the pattern gives on its own, and if this does not compile, the same
error, with what was taken in front of what it shows as read. It succeeds just when the grammar
derives the rest, and else fails at the first fault of the rest. -/
theorem compile_after_steps {text : String} {steps : List Step}
    {answers : List (Except Error Answer)}
    (h : (Compiler.start text).performAll steps = (answers, compiler)) :
    ∃ rest : String, text.toList = takenIn answers ++ rest.toList ∧
    (∀ earlier error later, answers = earlier ++ .error error :: later →
      ∃ fault, error = .misread fault
        { read := takenIn earlier, rest := text.toList.drop (takenIn earlier).length }) ∧
    (∀ step : Step, (step = .peek ∨ step = .hasNext ∨
      ∃ error, (compiler.run step.work).1 = .error error) →
        (compiler.run step.work).2.Alike compiler) ∧
    (compiler.run compileRest).1 = (compile rest).mapError (.behind (takenIn answers)) ∧
    ((∃ nfa, (compiler.run compileRest).1 = .ok nfa) ↔
      ∃ pattern, Derives .choice maxNesting rest.toList pattern) ∧
    ∀ error, (compiler.run compileRest).1 = .error error ↔ ∃ fault found,
      FirstFault rest.toList fault found ∧
        error = (Error.misread fault found).behind (takenIn answers) := by
  let place : Cursor := { rest := text.toList }
  obtain ⟨hanswers, hat⟩ := (at_start (ι := ι) text).performAll steps
  obtain ⟨hread, hmoves⟩ := place.performAll_moves steps
  rw [h] at hanswers hat
  rw [← hanswers] at hread hmoves
  obtain ⟨rest, hrest⟩ : ∃ rest : String, rest.toList = (place.performAll steps).2.rest :=
    ⟨String.ofList _, String.toList_ofList⟩
  refine ⟨rest, ?_, ?_, fun step => hat.alike_step, ?_, ?_, ?_⟩
  · rw [hrest]
    exact hmoves
  · intro earlier error later hsplit
    obtain ⟨fault, ⟨read, _⟩, rfl, rfl, hbehind⟩ :=
      Cursor.performAll_error (hanswers.symm.trans hsplit)
    have htext : text.toList = takenIn earlier ++ _ := hbehind
    exact ⟨fault, by rw [htext, List.drop_left]; rfl⟩
  · obtain ⟨outcome, hcompiled, halone⟩ :=
      compileRest_both hat (at_start rest : (start rest : Compiler Buffered).At _ _ 0) hrest.symm
    have hcompile : compile rest = outcome.mapError (.behind []) := halone
    rw [hcompiled, hcompile, hread]
    cases outcome <;> simp [Except.mapError, place]
  · rw [hrest]
    exact exists_compileRest_iff hat
  · have hbefore : (place.performAll steps).2.read = takenIn answers := hread
    rw [hrest, ← hbefore]
    exact compileRest_error_iff hat

/-- The first character is longer than one byte, and the step that expects another one than the
parenthesis fails. Before the group the rest compiles; behind the parenthesis that opens it, the
one that closes it has no partner. -/
theorem compile_after_steps_open_group :
    (∃ (compiler : Compiler Buffered) (nfa : Nfa),
      (Compiler.start "é(a)*").performAll [.next, .expect 'a', .peek] =
        ([.ok (.taken 'é'), .error (.misread (.expected 'a') ⟨['é'], ['(', 'a', ')', '*']⟩),
          .ok (.seen '(')], compiler) ∧
      compile "(a)*" = .ok nfa ∧ (compiler.run compileRest).1 = .ok nfa) ∧
    ∃ compiler : Compiler Buffered,
      (Compiler.start "é(a)*").performAll [.next, .hasNext, .expect '('] =
        ([.ok (.taken 'é'), .ok (.more true), .ok (.taken '(')], compiler) ∧
      compile "a)*" = .error (.misread .unbalanced ⟨['a'], [')', '*']⟩) ∧
      (compiler.run compileRest).1 =
        .error (.misread .unbalanced ⟨['é', '(', 'a'], [')', '*']⟩) := by
  constructor
  · obtain ⟨compiler, h⟩ : ∃ compiler : Compiler Buffered,
        (Compiler.start "é(a)*").performAll [.next, .expect 'a', .peek] =
          ([.ok (.taken 'é'), .error (.misread (.expected 'a') ⟨['é'], ['(', 'a', ')', '*']⟩),
            .ok (.seen '(')], compiler) := ⟨_, rfl⟩
    obtain ⟨nfa, hnfa⟩ : ∃ nfa, compile "(a)*" = .ok nfa := ⟨_, compile_of_parse rfl rfl⟩
    obtain ⟨rest, hrest, _, _, hcompiled, _⟩ := compile_after_steps h
    obtain rfl : "(a)*" = rest := String.toList_injective (List.cons.inj hrest).2
    refine ⟨compiler, nfa, h, hnfa, ?_⟩
    rw [hcompiled, hnfa]
    rfl
  · obtain ⟨compiler, h⟩ : ∃ compiler : Compiler Buffered,
        (Compiler.start "é(a)*").performAll [.next, .hasNext, .expect '('] =
          ([.ok (.taken 'é'), .ok (.more true), .ok (.taken '(')], compiler) := ⟨_, rfl⟩
    have herror : compile "a)*" = .error (.misread .unbalanced ⟨['a'], [')', '*']⟩) :=
      compile_of_parse_error rfl rfl
    obtain ⟨rest, hrest, _, _, hcompiled, _⟩ := compile_after_steps h
    obtain rfl : "a)*" = rest :=
      String.toList_injective (List.cons.inj (List.cons.inj hrest).2).2
    refine ⟨compiler, h, herror, ?_⟩
    rw [hcompiled, herror]
    rfl

end Automata.Pattern
