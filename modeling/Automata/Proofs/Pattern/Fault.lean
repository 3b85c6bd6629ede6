import Automata.Proofs.Pattern.Derivation
import Automata.Proofs.Pattern.Productions

/-!
# The first fault of a pattern

Whether a place in a pattern is at fault can be told from what stands right before it, what
comes next and how many groups are open. The reader stops at the first place at fault, and
when there is none it finds a tree, for which there is an automaton. So the patterns that
compile are those without a fault, and those that the grammar derives, and compiling any
other pattern tells its first fault.
-/

namespace Automata.Pattern

open Compiler

/-- How many groups are open behind the characters. -/
def openGroups (read : List Char) : Nat := read.count '(' - read.count ')'

/-- Whether a factor has yet to come behind the characters before a star can. -/
def AtTermStart (read : List Char) : Prop :=
  read = [] ∨ read.getLast? = some '(' ∨ read.getLast? = some '|'

/-- Whether a term begins is told by the last character read. -/
instance (read : List Char) : Decidable (AtTermStart read) := by
  unfold AtTermStart
  infer_instance

/-- What is wrong at a place, if anything is. -/
def faultAt (place : Cursor) : Option Fault :=
  match place.rest with
  | [] => if 0 < openGroups place.read then some (.unexpectedEnd (some ')')) else none
  | c :: _ =>
    if c = '*' ∧ AtTermStart place.read then some (.dangling '*')
    else if c = '(' ∧ openGroups place.read = maxNesting then some (.tooDeep maxNesting)
    else if c = ')' ∧ openGroups place.read = 0 then some .unbalanced
    else none

/-- No place of the text is at fault. -/
def Faultless (text : List Char) : Prop :=
  ∀ place : Cursor, place.Within text → faultAt place = none

/-- The place is the first one of the text that is at fault, and this is what is wrong. -/
structure FirstFault (text : List Char) (fault : Fault) (place : Cursor) : Prop where
  within : place.Within text
  fault_eq : faultAt place = some fault
  first : ∀ other : Cursor, other.Within text → other.read.length < place.read.length →
    faultAt other = none

variable {text read rest : List Char} {outer : List Group} {group : Group} {c : Char}
variable {fault fault' : Fault} {place place' : Cursor} {pattern : Pattern}
variable {ι : Type} [Lookahead ι] {compiler : Compiler ι}

/-- A text has one first fault. -/
theorem FirstFault.unique (h : FirstFault text fault place) (h' : FirstFault text fault' place') :
    fault = fault' ∧ place = place' := by
  have hnot : ¬ place.read.length < place'.read.length := by
    intro hlt
    simpa [h.fault_eq] using h'.first place h.within hlt
  have hnot' : ¬ place'.read.length < place.read.length := by
    intro hlt
    simpa [h'.fault_eq] using h.first place' h'.within hlt
  obtain rfl := h.within.eq_of_length h'.within (by omega)
  have hsame := h.fault_eq.symm.trans h'.fault_eq
  exact ⟨Option.some.inj hsame, rfl⟩

/-- A text without faults has no first one. -/
theorem FirstFault.not_faultless (h : FirstFault text fault place) : ¬ Faultless text := by
  intro hnone
  simpa [h.fault_eq] using hnone place h.within

/-- Four things can be wrong: a star has nothing to repeat, groups nest too deep, or a
parenthesis lacks its partner, to the left or at the end to the right. -/
theorem fault_of_faultAt (h : faultAt place = some fault) :
    fault = .dangling '*' ∨ fault = .tooDeep maxNesting ∨ fault = .unbalanced ∨
      fault = .unexpectedEnd (some ')') ∧ place.rest = [] := by
  unfold faultAt at h
  grind

/-! ### The reader at a place -/

/-- What the reader keeps when it has come to a place without meeting a fault. -/
structure Arrives (text : List Char) (outer : List Group) (group : Group) (place : Cursor) :
    Prop where
  within : place.Within text
  faultless : ∀ other : Cursor, other.Within text → other.read.length < place.read.length →
    faultAt other = none
  count_eq : place.read.count '(' = place.read.count ')' + outer.length
  factor_eq_none_iff : group.factor = none ↔ AtTermStart place.read

/-- The groups that are open are counted in what was read. -/
theorem Arrives.openGroups_eq (h : Arrives text outer group place) :
    openGroups place.read = outer.length := by
  have hcount := h.count_eq
  unfold openGroups
  omega

/-- A fault at the place to which the parser came is the first one, as none came before. -/
theorem Arrives.firstFault (h : Arrives text outer group place)
    (hfault : faultAt place = some fault) : FirstFault text fault place :=
  ⟨h.within, hfault, h.faultless⟩

/-- The parser begins in front of the text with no group open. -/
theorem arrives_start (text : List Char) : Arrives text [] {} { rest := text } where
  within := rfl
  faultless := by simp
  count_eq := rfl
  factor_eq_none_iff := by simp [AtTermStart]

/-- Where the reader has come to the end, only a group that is still open is a fault. -/
theorem Arrives.faultAt_nil (h : Arrives text outer group ⟨read, []⟩) :
    faultAt ⟨read, []⟩ = if outer = [] then none else some (.unexpectedEnd (some ')')) := by
  have hopen : openGroups read = outer.length := h.openGroups_eq
  cases outer <;> simp [faultAt, hopen]

/-- Whether a character is a fault can be told from what the reader keeps. -/
theorem Arrives.faultAt_cons (h : Arrives text outer group ⟨read, c :: rest⟩) :
    faultAt ⟨read, c :: rest⟩ =
      if c = '*' ∧ group.factor = none then some (.dangling '*')
      else if c = '(' ∧ outer.length = maxNesting then some (.tooDeep maxNesting)
      else if c = ')' ∧ outer = [] then some .unbalanced
      else none := by
  have hopen : openGroups read = outer.length := h.openGroups_eq
  have hfactor : group.factor = none ↔ AtTermStart read := h.factor_eq_none_iff
  simp only [faultAt, hopen, hfactor, List.length_eq_zero_iff]

/-- Behind a character that is not at fault, the reader has come to the next place. -/
theorem Arrives.step (h : Arrives text outer group ⟨read, c :: rest⟩)
    (hfault : faultAt ⟨read, c :: rest⟩ = none) {outer' : List Group} {group' : Group}
    (hcount : outer'.length + (if c = ')' then 1 else 0) =
      outer.length + if c = '(' then 1 else 0)
    (hfactor : group'.factor = none ↔ c = '(' ∨ c = '|') :
    Arrives text outer' group' ⟨read ++ [c], rest⟩ := by
  have hwithin := h.within
  constructor
  case within => simpa [Cursor.Within] using hwithin
  case faultless =>
    intro other hother hlength
    by_cases hlt : other.read.length < read.length
    · exact h.faultless other hother hlt
    · have hlast : other.read.length = read.length := by
        simp only [List.length_append, List.length_singleton] at hlength
        omega
      rw [hother.eq_of_length hwithin hlast, hfault]
  case count_eq =>
    have hbefore : read.count '(' = read.count ')' + outer.length := h.count_eq
    simp only [List.count_append, List.count_singleton, beq_iff_eq]
    omega
  case factor_eq_none_iff => simpa [AtTermStart] using hfactor

/-- A text that was read to its end with no group open has no fault. -/
theorem Arrives.faultless_of_end (h : Arrives text [] group ⟨read, []⟩) : Faultless text := by
  have hwithin : read = text := by simpa [Cursor.Within] using h.within
  intro other hother
  have hle : other.read.length ≤ read.length := by
    rw [hwithin, ← hother, List.length_append]
    omega
  by_cases hlt : other.read.length < read.length
  · exact h.faultless other hother hlt
  · have hlast : other.read.length = read.length := by omega
    rw [hother.eq_of_length h.within hlast, h.faultAt_nil, if_pos rfl]

/-- What the outcome of reading says of the text: a tree says that no place is at fault, and
a misreading which place is the first. -/
def Diagnoses (text : List Char) : Except Misreading Pattern → Prop
  | .ok _ => Faultless text
  | .error misreading => ∃ read, FirstFault text misreading.fault ⟨read, misreading.rest⟩

/-- The reader comes to the end if no place is at fault, and else stops at the first one. -/
theorem Arrives.diagnoses (h : Arrives text outer group ⟨read, rest⟩) :
    Diagnoses text (parseIn outer group rest) := by
  fun_induction parseIn outer group rest generalizing read with
  | case1 => exact h.faultless_of_end
  | case2 => exact ⟨read, h.firstFault (by simp [h.faultAt_nil])⟩
  | case3 outer group rest hdepth =>
    exact ⟨read, h.firstFault (by simp [h.faultAt_cons, hdepth])⟩
  | case4 outer group rest hdepth ih =>
    exact ih (h.step (by simp [h.faultAt_cons, hdepth]) (by simp) (by simp))
  | case5 => exact ⟨read, h.firstFault (by simp [h.faultAt_cons])⟩
  | case6 group rest enclosing outer ih =>
    exact ih (h.step (by simp [h.faultAt_cons]) (by simp) (by simp [Group.addFactor]))
  | case7 outer group rest ih =>
    exact ih (h.step (by simp [h.faultAt_cons]) (by simp) (by simp [Group.nextChoice]))
  | case8 outer group rest factor hfactor ih =>
    exact ih (h.step (by simp [h.faultAt_cons, hfactor]) (by simp) (by simp))
  | case9 outer group rest hfactor =>
    exact ⟨read, h.firstFault (by simp [h.faultAt_cons, hfactor])⟩
  | case10 outer group c rest hopen hclose hbar hstar ih =>
    replace hopen : ¬ c = '(' := hopen
    replace hclose : ¬ c = ')' := hclose
    replace hbar : ¬ c = '|' := hbar
    replace hstar : ¬ c = '*' := hstar
    refine ih (h.step ?_ ?_ ?_)
    · simp [h.faultAt_cons, hopen, hclose, hstar]
    · simp [hopen, hclose]
    · simp [Group.addFactor, hopen, hbar]

/-- So what the reader says of a whole text is right. -/
theorem diagnoses_parse (text : List Char) : Diagnoses text (parse text) :=
  (arrives_start text).diagnoses

/-- A text that the grammar derives has no fault. -/
theorem Derives.faultless (h : Derives .choice maxNesting text pattern) : Faultless text := by
  have hdiagnoses := diagnoses_parse text
  rwa [h.parse_eq] at hdiagnoses

/-- The texts without a fault are those that the grammar derives. -/
theorem faultless_iff_derives :
    Faultless text ↔ ∃ pattern, Derives .choice maxNesting text pattern := by
  constructor
  · intro hfaultless
    have hdiagnoses := diagnoses_parse text
    cases hparse : parse text with
    | ok pattern => exact ⟨pattern, derives_of_parse hparse⟩
    | error misreading =>
      rw [hparse] at hdiagnoses
      obtain ⟨read, hfirst⟩ := hdiagnoses
      exact absurd hfaultless hfirst.not_faultless
  · rintro ⟨pattern, hderives⟩
    exact hderives.faultless

/-! ### Compiling -/

/-- The error as it is told when more characters were read before. -/
def Error.behind (before : List Char) : Error → Error
  | .misread fault place => .misread fault { place with read := before ++ place.read }
  | .automaton error => .automaton error

/-- Behind nothing this is the error itself. -/
@[simp] theorem Error.behind_nil (error : Error) : error.behind [] = error := by
  cases error <;> rfl

/-- Compiling from a place gives the automaton of the tree that the grammar has for the
characters to come, or it fails at the first fault of these, told at its place in the pattern. -/
theorem compileRest_cases (h : compiler.At text place 0) :
    (∃ pattern built, Derives .choice maxNesting place.rest pattern ∧
      build pattern 0 = .ok built ∧ (compiler.run compileRest).1 = .ok built.nfa) ∨
    ∃ fault found, FirstFault place.rest fault found ∧ (compiler.run compileRest).1 =
      .error ((Error.misread fault found).behind place.read) := by
  have hdiagnoses := diagnoses_parse place.rest
  rcases compileRest_outcome h with
    ⟨nfa, next, pattern, hok, hparse, hbuild⟩ | ⟨fault, stop, herror, hstop, hparse⟩
  · exact Or.inl ⟨pattern, ⟨nfa, next⟩, derives_of_parse hparse, hbuild, hok⟩
  · rw [hparse] at hdiagnoses
    obtain ⟨read, hfirst⟩ := hdiagnoses
    -- Both places end with the same characters of the pattern.
    have hsame : stop = ⟨place.read ++ read, stop.rest⟩ := by
      have hrest : read ++ stop.rest = place.rest := hfirst.within
      refine hstop.eq_of_rest ?_ rfl
      rw [Cursor.Within, List.append_assoc, hrest]
      exact h.within
    exact Or.inr ⟨fault, _, hfirst, hsame ▸ herror⟩

/-- Compiling succeeds just when the grammar derives the characters to come. -/
theorem exists_compileRest_iff (h : compiler.At text place 0) :
    (∃ nfa, (compiler.run compileRest).1 = .ok nfa) ↔
      ∃ pattern, Derives .choice maxNesting place.rest pattern := by
  rcases compileRest_cases h with
    ⟨pattern, built, hderives, -, hok⟩ | ⟨fault, found, hfirst, herror⟩
  · exact iff_of_true ⟨built.nfa, hok⟩ ⟨pattern, hderives⟩
  · refine iff_of_false (by simp [herror]) ?_
    rintro ⟨pattern, hderives⟩
    exact hfirst.not_faultless hderives.faultless

/-- Compiling fails just at the first fault of the characters to come. -/
theorem compileRest_error_iff (h : compiler.At text place 0) (error : Error) :
    (compiler.run compileRest).1 = .error error ↔ ∃ fault found,
      FirstFault place.rest fault found ∧ error = (Error.misread fault found).behind place.read := by
  rcases compileRest_cases h with
    ⟨pattern, built, hderives, -, hok⟩ | ⟨fault, found, hfirst, herror⟩
  · refine iff_of_false (by simp [hok]) ?_
    rintro ⟨fault, found, hfirst, -⟩
    exact hfirst.not_faultless hderives.faultless
  · rw [herror, Except.error.injEq]
    constructor
    · rintro rfl
      exact ⟨fault, found, hfirst, rfl⟩
    · rintro ⟨fault', found', hfirst', rfl⟩
      obtain ⟨rfl, rfl⟩ := hfirst.unique hfirst'
      rfl

/-- The texts that compile are those without a fault, and those that the grammar derives.
Compiling any other text tells what is wrong at its first fault, and the place: a star with
nothing to repeat, a group too deep, a parenthesis that closes nothing, or at the end one
that was not closed. It never fails in another way. -/
theorem compile_outcome (text : String) :
    ((∃ nfa, compile text = .ok nfa) ↔ Faultless text.toList) ∧
    ((∃ nfa, compile text = .ok nfa) ↔
      ∃ pattern, Derives .choice maxNesting text.toList pattern) ∧
    (∀ error, compile text = .error error ↔
      ∃ fault place, FirstFault text.toList fault place ∧ error = .misread fault place) ∧
    (∀ error, compile text = .error error → ∃ fault place, error = .misread fault place ∧
      (fault = .dangling '*' ∨ fault = .tooDeep maxNesting ∨ fault = .unbalanced ∨
        fault = .unexpectedEnd (some ')') ∧ place.rest = [])) := by
  have hat := at_start (ι := Buffered) text
  have hcompiles : (∃ nfa, compile text = .ok nfa) ↔
      ∃ pattern, Derives .choice maxNesting text.toList pattern := exists_compileRest_iff hat
  have hfails : ∀ error, compile text = .error error ↔
      ∃ fault place, FirstFault text.toList fault place ∧ error = .misread fault place :=
    compileRest_error_iff hat
  refine ⟨hcompiles.trans faultless_iff_derives.symm, hcompiles, hfails, fun error herror => ?_⟩
  obtain ⟨fault, place, hfirst, hsame⟩ := (hfails error).mp herror
  exact ⟨fault, place, hsame, fault_of_faultAt hfirst.fault_eq⟩

/-- The star behind the bar comes before the group that is not closed. -/
theorem compile_outcome_dangling :
    compile "(a|*" = .error (.misread (.dangling '*') ⟨['(', 'a', '|'], ['*']⟩) ∧
      FirstFault "(a|*".toList (.dangling '*') ⟨['(', 'a', '|'], ['*']⟩ := by
  have herror : compile "(a|*" = .error (.misread (.dangling '*') ⟨['(', 'a', '|'], ['*']⟩) :=
    compile_of_parse_error rfl rfl
  obtain ⟨_, _, hfirst, _⟩ := compile_outcome "(a|*"
  obtain ⟨fault, place, hplace, hsame⟩ := (hfirst _).mp herror
  obtain ⟨rfl, rfl⟩ := Error.misread.inj hsame
  exact ⟨herror, hplace⟩

end Automata.Pattern
