import Automata.Proofs.Pattern.Build
import Automata.Proofs.Pattern.Parser
import Automata.Proofs.Pattern.Place

/-!
# The productions agree with the reader of trees

The productions read a pattern by calling each other and build its automaton on the way. From any
place on, and with any number for the next new state, they come to the place to which
the reader of trees comes, and have then built the automaton of the tree that it has; or they
fail at the place at which it stops, for the same reason. What was read before has no part in this.
-/

namespace Automata.Pattern

open Compiler

variable {ι : Type} [Lookahead ι] {α β : Type}
variable {before : Compiler ι} {text read rest : List Char} {place : Cursor} {c : Char}
variable {number middle next depth least : Nat} {outer : List Group} {group : Group}
variable {left right inner : Pattern} {nfa nfa' : Nfa}

/-! ### Agreement -/

/-- The work succeeds with such a value at such a place, or it fails as the reading does. -/
def Agrees (before : Compiler ι) (text : List Char) (work : Work ι α)
    (good : α → Cursor → Nat → Prop) (reading : Except Misreading Pattern) : Prop :=
  (∃ a place number, before.Does text work (.ok a) place number ∧ good a place number) ∨
    ∃ fault place number, before.Does text work (.error (.misread fault place)) place number ∧
      reading = .error ⟨fault, place.rest⟩

section Agrees

variable {work : Work ι α} {good : α → Cursor → Nat → Prop} {a : α}
variable {fault : Fault} {reading : Except Misreading Pattern}

/-- Work that succeeds agrees where its value is good. -/
theorem Compiler.Does.agrees (h : before.Does text work (.ok a) place number)
    (hgood : good a place number) : Agrees before text work good reading :=
  Or.inl ⟨a, place, number, h, hgood⟩

/-- Work that fails agrees where the reading stops there. -/
theorem Compiler.Does.agrees_error
    (h : before.Does text work (.error (.misread fault place)) place number)
    (hstops : reading = .error ⟨fault, place.rest⟩) : Agrees before text work good reading :=
  Or.inr ⟨fault, place, number, h, hstops⟩

/-- What is done one after the other agrees if each part does. -/
theorem Agrees.bind {more : α → Work ι β} {final : β → Cursor → Nat → Prop}
    (h : Agrees before text work good reading)
    (hmore : ∀ (after : Compiler ι) a place number, after.At text place number →
      good a place number → Agrees after text (more a) final reading) :
    Agrees before text (work >>= more) final reading := by
  rcases h with
    ⟨a, place, number, ⟨after, hrun, hat⟩, hgood⟩ | ⟨fault, place, number, hdoes, hstops⟩
  · rcases hmore after a place number hat hgood with
      ⟨b, place', number', ⟨last, hrun', hat'⟩, hfinal⟩ |
      ⟨fault, place', number', ⟨last, hrun', hat'⟩, hstops⟩
    · have hboth : before.run (work >>= more) = (.ok b, last) := (run_bind_of_ok hrun).trans hrun'
      exact Or.inl ⟨b, place', number', ⟨last, hboth, hat'⟩, hfinal⟩
    · have hboth : before.run (work >>= more) = (.error (.misread fault place'), last) :=
        (run_bind_of_ok hrun).trans hrun'
      exact Or.inr ⟨fault, place', number', ⟨last, hboth, hat'⟩, hstops⟩
  · exact Or.inr ⟨fault, place, number, hdoes.bind_error, hstops⟩

/-- Work whose outcome is known may go first. -/
theorem Compiler.Does.bind_agrees {more : α → Work ι β} {final : β → Cursor → Nat → Prop}
    (h : before.Does text work (.ok a) place number)
    (hmore : ∀ after : Compiler ι, after.At text place number →
      Agrees after text (more a) final reading) :
    Agrees before text (work >>= more) final reading := by
  have hfirst : Agrees before text work (fun b place' number' => b = a ∧ place' = place ∧
      number' = number) reading := h.agrees ⟨rfl, rfl, rfl⟩
  refine hfirst.bind fun after b place' number' hat hsame => ?_
  obtain ⟨rfl, rfl, rfl⟩ := hsame
  exact hmore after hat

end Agrees

/-- What is good may be said in other words. -/
theorem Agrees.imp {work : Work ι α} {good good' : α → Cursor → Nat → Prop}
    {reading : Except Misreading Pattern} (h : Agrees before text work good reading)
    (hgood : ∀ a place number, good a place number → good' a place number) :
    Agrees before text work good' reading := by
  rcases h with ⟨a, place, number, hdoes, ha⟩ | herror
  · exact hdoes.agrees (hgood a place number ha)
  · exact Or.inr herror

/-- Work that takes characters leaves fewer. -/
theorem Agrees.of_takes {work : Work ι α} {good : α → Cursor → Nat → Prop}
    {reading : Except Misreading Pattern} (h : Agrees before text work good reading)
    (hat : before.At text place number) (htakes : Takes 1 work) :
    Agrees before text work
      (fun a place' next => good a place' next ∧ place'.rest.length < place.rest.length)
      reading := by
  rcases h with ⟨a, place', next, ⟨after, hrun, hafter⟩, hgood⟩ | herror
  · refine Or.inl ⟨a, place', next, ⟨after, hrun, hafter⟩, hgood, ?_⟩
    have hleft := htakes (work_of_run hrun)
    rw [Compiler.left, Compiler.left, hafter.rest_eq, hat.rest_eq] at hleft
    omega
  · exact Or.inr herror

/-- A loop over the characters to come agrees if every round does. The invariant says what the
reading has come to. -/
theorem agrees_loop {wanted : Char → Bool} {round : α → Work ι α} {hround : ∀ a, Takes 1 (round a)}
    {good : α → Cursor → Nat → Prop} {reading : Except Misreading Pattern} {a : α}
    (inv : α → Cursor → Nat → Prop) (hat : before.At text place number) (hinv : inv a place number)
    (hstep : ∀ (before : Compiler ι) a read c rest number,
      before.At text ⟨read, c :: rest⟩ number → inv a ⟨read, c :: rest⟩ number → wanted c = true →
        Agrees before text (round a) inv reading)
    (hend : ∀ a place number, inv a place number → (∀ c ∈ place.rest.head?, wanted c = false) →
      good a place number) :
    Agrees before text (loop (ahead wanted) round (takes_ahead wanted) hround a) good reading := by
  induction hlength : place.rest.length using Nat.strongRecOn generalizing before a place number with
  | ind length ih =>
    rw [loop_eq]
    obtain ⟨read, rest⟩ := place
    cases rest with
    | nil =>
      refine (does_ahead_nil hat wanted).bind_agrees fun after hafter => ?_
      exact (does_pure hafter a).agrees (hend a _ number hinv (by simp))
    | cons c rest =>
      refine (does_ahead hat wanted).bind_agrees fun after hafter => ?_
      by_cases hwanted : wanted c = true
      · rw [if_pos hwanted]
        have htaken := (hstep after a read c rest number hafter hinv hwanted).of_takes hafter
          (hround a)
        refine htaken.bind fun last b place next hlast ⟨hinv', hless⟩ => ?_
        exact ih _ (hlength ▸ hless) hlast hinv' rfl
      · rw [if_neg hwanted]
        exact (does_pure hafter a).agrees (hend a _ number hinv (by simpa using hwanted))

/-! ### Automata of trees -/

/-- A term without factors is given the automaton of its tree. -/
theorem exists_makeBlank (h : before.At text place number) :
    ∃ nfa next, before.Does text makeBlank (.ok nfa) place next ∧
      build .blank number = .ok ⟨nfa, next⟩ := by
  obtain ⟨nfa, hnfa, -⟩ := Nfa.exists_ofBlank (stateName_ne_empty number)
  refine ⟨nfa, number + 1, ?_, ?_⟩
  · exact (does_newState h).bind fun _ hafter => does_built hafter hnfa
  · simp only [build, hnfa, bind, Except.bind, pure, Except.pure]

/-- So is a character. -/
theorem exists_makeLiteral (h : before.At text place number) (c : Char) :
    ∃ nfa next, before.Does text (makeLiteral c) (.ok nfa) place next ∧
      build (.literal c) number = .ok ⟨nfa, next⟩ := by
  have hne : stateName number ≠ stateName (number + 1) := by
    intro hsame
    have := stateName_injective hsame
    omega
  obtain ⟨nfa, hnfa, -⟩ := Nfa.exists_ofSymbol (stateName_ne_empty number)
    (stateName_ne_empty (number + 1)) hne c
  refine ⟨nfa, number + 2, ?_, ?_⟩
  · refine (does_newState h).bind fun _ hstart => (does_newState hstart).bind fun _ hfinal => ?_
    refine (does_built hfinal hnfa).bind fun _ hbuilt => ?_
    exact (does_report hbuilt _).bind fun _ hafter => does_pure hafter nfa
  · simp only [build, hnfa, bind, Except.bind, pure, Except.pure]

/-- Parts that were built one after the other can be joined, as in the tree. -/
theorem exists_joinParts (hleft : build left number = .ok ⟨nfa, middle⟩)
    (hright : build right middle = .ok ⟨nfa', next⟩) (h : before.At text place next) :
    ∃ joined, before.Does text (joinParts nfa nfa') (.ok joined) place next ∧
      build (.append left right) number = .ok ⟨joined, next⟩ := by
  have hpart := represents_of_build hright
  obtain ⟨joined, hjoined, -⟩ := (represents_of_build hleft).exists_append hpart
  obtain ⟨start, hstart⟩ := hpart.exists_start
  refine ⟨joined, ?_, ?_⟩
  · refine (does_built h hjoined).bind fun _ hbuilt => ?_
    refine (does_built hbuilt (Nfa.requireStart_eq hstart)).bind fun _ hentry => ?_
    exact (does_report hentry _).bind fun _ hafter => does_pure hafter joined
  · simp only [build, hleft, hright, hjoined, bind, Except.bind, pure, Except.pure]

/-- So can alternatives. -/
theorem exists_joinAlternatives (hleft : build left number = .ok ⟨nfa, middle⟩)
    (hright : build right middle = .ok ⟨nfa', next⟩) (h : before.At text place next) :
    ∃ joined, before.Does text (joinAlternatives nfa nfa') (.ok joined) place (next + 1) ∧
      build (.choice left right) number = .ok ⟨joined, next + 1⟩ := by
  have hlower := represents_of_build hleft
  have hupper := represents_of_build hright
  obtain ⟨joined, hjoined, -⟩ := hlower.exists_choice hupper
  obtain ⟨start, hstart⟩ := hlower.exists_start
  obtain ⟨start', hstart'⟩ := hupper.exists_start
  refine ⟨joined, ?_, ?_⟩
  · refine (does_newState h).bind fun _ hnew => (does_built hnew hjoined).bind fun _ hbuilt => ?_
    refine (does_built hbuilt (Nfa.requireStart_eq hstart)).bind fun _ hentry => ?_
    refine (does_built hentry (Nfa.requireStart_eq hstart')).bind fun _ hentry' => ?_
    exact (does_report hentry' _).bind fun _ hafter => does_pure hafter joined
  · simp only [build, hleft, hright, hjoined, bind, Except.bind, pure, Except.pure]

/-- And a part can be repeated. -/
theorem exists_repeatPart (hinner : build inner number = .ok ⟨nfa, next⟩)
    (h : before.At text place next) :
    ∃ repeated, before.Does text (repeatPart nfa) (.ok repeated) place (next + 1) ∧
      build (.star inner) number = .ok ⟨repeated, next + 1⟩ := by
  have hpart := represents_of_build hinner
  obtain ⟨repeated, hrepeated, -⟩ := hpart.exists_star
  obtain ⟨start, hstart⟩ := hpart.exists_start
  refine ⟨repeated, ?_, ?_⟩
  · refine (does_newState h).bind fun _ hnew => (does_built hnew hrepeated).bind fun _ hbuilt => ?_
    refine (does_built hbuilt (Nfa.requireStart_eq hstart)).bind fun _ hentry => ?_
    exact (does_report hentry _).bind fun _ hafter => does_pure hafter repeated
  · simp only [build, hinner, hrepeated, bind, Except.bind, pure, Except.pure]

/-! ### What each production comes to -/

/-- From a character that begins a factor, the production reads one with the tree that the
reader adds to the group. -/
def ReadsFactor (depth : Nat) (production : Production ι least) (ends : List Char → Prop) : Prop :=
  ∀ ⦃before : Compiler ι⦄ ⦃text read c rest number outer group⦄,
    before.At text ⟨read, c :: rest⟩ number → outer.length = depth →
    c ≠ ')' → c ≠ '|' → (c = '*' → group.factor = none) →
    Agrees before text production.work
      (fun nfa place next => ends place.rest ∧ ∃ pattern,
        parseIn outer group (c :: rest) = parseIn outer (group.addFactor pattern) place.rest ∧
          build pattern number = .ok ⟨nfa, next⟩)
      (parseIn outer group (c :: rest))

/-- A term goes on up to a bar or the end of its group. -/
def EndsTerm (rest : List Char) : Prop := ∀ c ∈ rest.head?, c = ')' ∨ c = '|'

/-- A choice goes on up to the end of its group. -/
def EndsChoice (rest : List Char) : Prop := ∀ c ∈ rest.head?, c = ')'

/-- From the start of a term on, the production reads it with the tree that the reader has of it. -/
def ReadsTerm (depth : Nat) (production : Production ι least) : Prop :=
  ∀ ⦃before : Compiler ι⦄ ⦃text place number outer⦄ (choices : Option Pattern),
    before.At text place number → outer.length = depth →
    Agrees before text production.work
      (fun nfa place' next => EndsTerm place'.rest ∧ ∃ group : Group, group.choices = choices ∧
        parseIn outer { choices } place.rest = parseIn outer group place'.rest ∧
          build (group.settle.term.getD .blank) number = .ok ⟨nfa, next⟩)
      (parseIn outer { choices } place.rest)

/-- From the start of a choice on, the production reads it with the tree that the reader has
of its group. -/
def ReadsChoice (depth : Nat) (production : Production ι least) : Prop :=
  ∀ ⦃before : Compiler ι⦄ ⦃text place number⦄ (outer : List Group),
    before.At text place number → outer.length = depth →
    Agrees before text production.work
      (fun nfa place' next => EndsChoice place'.rest ∧ ∃ group : Group,
        parseIn outer {} place.rest = parseIn outer group place'.rest ∧
          build group.close number = .ok ⟨nfa, next⟩)
      (parseIn outer {} place.rest)

/-- A base is read if the choices in its parentheses are. -/
theorem readsFactor_base {choiceInside : depth < maxNesting → Production ι 0}
    (hdepth : depth ≤ maxNesting) (h : ∀ room, ReadsChoice (depth + 1) (choiceInside room)) :
    ReadsFactor depth (Production.base depth choiceInside) fun _ => True := by
  intro before text read c rest number outer group hat houter hclose hbar hstar
  refine (does_peek hat).bind_agrees fun shown hshown => ?_
  by_cases hopen : c = '('
  · subst hopen
    rw [if_pos rfl]
    by_cases hroom : depth < maxNesting
    · rw [dif_pos hroom, parseIn_open (by omega)]
      refine (does_expect hshown).bind_agrees fun opened hopened => ?_
      have hinside := h hroom (group.settle :: outer) hopened (by simp [houter])
      refine hinside.bind fun after nfa place next hafter ⟨hends, inside, hread, hbuild⟩ => ?_
      obtain ⟨read', rest'⟩ := place
      simp only at hends hread
      cases rest' with
      | nil =>
        refine (does_expect_nil hafter ')').bind_error.agrees_error ?_
        rw [hread]
        simp [parseIn]
      | cons c rest' =>
        obtain rfl : c = ')' := hends c rfl
        refine (does_expect hafter).bind_agrees fun closed hclosed => ?_
        refine (does_pure hclosed nfa).agrees ⟨trivial, inside.close, ?_, hbuild⟩
        rw [hread, parseIn_close, Group.addFactor_settle]
    · rw [dif_neg hroom]
      have hfull : outer.length = maxNesting := by omega
      exact (does_fail hshown _).agrees_error (by simp [parseIn, hfull])
  · rw [if_neg hopen]
    by_cases hoperator : isOperator c = true
    · rw [if_pos hoperator]
      have hdangling : c = '*' := by simpa [isOperator, hopen, hclose, hbar] using hoperator
      have hfactor := hstar hdangling
      subst hdangling
      exact (does_fail hshown _).agrees_error (by simp [parseIn, hfactor])
    · rw [if_neg hoperator]
      refine (does_next hshown).bind_agrees fun taken htaken => ?_
      obtain ⟨nfa, next, hdoes, hbuild⟩ := exists_makeLiteral htaken c
      refine hdoes.agrees ⟨trivial, .literal c, ?_, hbuild⟩
      exact parseIn_literal (Bool.eq_false_iff.mpr hoperator)

/-- A star behind a part repeats it, as in the tree. -/
theorem exists_starRound (hinner : build inner number = .ok ⟨nfa, next⟩)
    (h : before.At text ⟨read, '*' :: rest⟩ next) :
    ∃ repeated, before.Does text (starRound nfa) (.ok repeated) ⟨read ++ ['*'], rest⟩ (next + 1) ∧
      build (.star inner) number = .ok ⟨repeated, next + 1⟩ := by
  obtain ⟨after, hrun, hat⟩ := does_expect h
  obtain ⟨repeated, ⟨last, hrun', hat'⟩, hbuild⟩ := exists_repeatPart hinner hat
  exact ⟨repeated, ⟨last, (run_bind_of_ok hrun).trans hrun', hat'⟩, hbuild⟩

/-- A factor is read if its base is. -/
theorem readsFactor_factor {base : Production ι 1} (h : ReadsFactor depth base fun _ => True) :
    ReadsFactor depth (Production.factor base) fun rest => ∀ c ∈ rest.head?, c ≠ '*' := by
  intro before text read c rest number outer group hat houter hclose hbar hstar
  refine (h hat houter hclose hbar hstar).bind fun after nfa place next hafter ⟨_, hread⟩ => ?_
  -- Each star that the loop takes is one that the reader puts on the last factor.
  refine agrees_loop (fun nfa place next => ∃ pattern,
    parseIn outer group (c :: rest) = parseIn outer (group.addFactor pattern) place.rest ∧
      build pattern number = .ok ⟨nfa, next⟩) hafter hread ?_ ?_
  · rintro before nfa read c rest next hat ⟨inner, hread, hbuild⟩ hwanted
    obtain rfl : c = '*' := by simpa using hwanted
    obtain ⟨repeated, hdoes, hbuild'⟩ := exists_starRound hbuild hat
    refine hdoes.agrees ⟨.star inner, ?_, hbuild'⟩
    rw [hread]
    exact parseIn_star rfl
  · rintro nfa place next hread hends
    exact ⟨by simpa using hends, hread⟩

/-- The automaton is that of the factors which a term has so far. -/
inductive BuildsRow (number : Nat) : Option Pattern → Option Nfa → Nat → Prop
  | none : BuildsRow number none none number
  | some {term : Pattern} {nfa : Nfa} {next : Nat} (h : build term number = .ok ⟨nfa, next⟩) :
      BuildsRow number (some term) (some nfa) next

/-- A factor joins the term, as in the tree. -/
theorem agrees_rowRound {factor : Production ι 1} {ends : List Char → Prop}
    (hfactor : ReadsFactor depth factor ends) (houter : outer.length = depth)
    (hat : before.At text ⟨read, c :: rest⟩ middle) (hclose : c ≠ ')') (hbar : c ≠ '|')
    (hstar : c = '*' → group.factor = none) {row : Option Nfa}
    (hrow : BuildsRow number group.settle.term row middle) :
    Agrees before text (rowRound factor row)
      (fun row place next => ends place.rest ∧ ∃ pattern,
        parseIn outer group (c :: rest) = parseIn outer (group.addFactor pattern) place.rest ∧
          BuildsRow number (group.addFactor pattern).settle.term row next)
      (parseIn outer group (c :: rest)) := by
  refine (hfactor hat houter hclose hbar hstar).bind fun after part place next hafter hgood => ?_
  obtain ⟨hends, pattern, hread, hbuild⟩ := hgood
  have hjoined := group.term_settle_addFactor pattern
  generalize group.settle.term = term at hrow hjoined
  cases hrow with
  | none =>
    refine (does_pure hafter _).agrees ⟨hends, pattern, hread, ?_⟩
    rw [hjoined]
    exact .some hbuild
  | @some term row _ hterm =>
    obtain ⟨joined, hdoes, hbuild'⟩ := exists_joinParts hterm hbuild hafter
    refine hdoes.bind_agrees fun last hlast => ?_
    refine (does_pure hlast _).agrees ⟨hends, pattern, hread, ?_⟩
    rw [hjoined]
    exact .some hbuild'

/-- A term is read if its factors are. -/
theorem readsTerm_term {factor : Production ι 1}
    (h : ReadsFactor depth factor fun rest => ∀ c ∈ rest.head?, c ≠ '*') :
    ReadsTerm depth (Production.term factor) := by
  intro before text place number outer choices hat houter
  -- A star cannot come first in a term, and behind a factor no star is left.
  have hloop : Agrees before text
      (loop (ahead fun c => c ≠ ')' && c ≠ '|') (rowRound factor) (takes_ahead _)
        (takes_rowRound factor) none)
      (fun row place' next => EndsTerm place'.rest ∧ ∃ group : Group, group.choices = choices ∧
        parseIn outer { choices } place.rest = parseIn outer group place'.rest ∧
          BuildsRow number group.settle.term row next)
      (parseIn outer { choices } place.rest) := by
    refine agrees_loop (fun row place' next => ∃ group : Group, group.choices = choices ∧
      parseIn outer { choices } place.rest = parseIn outer group place'.rest ∧
        BuildsRow number group.settle.term row next ∧
          ∀ c ∈ place'.rest.head?, c = '*' → group.factor = none)
      hat ⟨{ choices }, rfl, rfl, .none, fun _ _ _ => rfl⟩ ?_ ?_
    · rintro before row read c rest middle hat ⟨group, hchoices, hread, hrow, hstar⟩ hwanted
      have hgoes : c ≠ ')' ∧ c ≠ '|' := by simpa using hwanted
      rw [hread]
      refine (agrees_rowRound h houter hat hgoes.1 hgoes.2 (hstar c rfl) hrow).imp ?_
      rintro row place' next ⟨hends, pattern, hread', hrow'⟩
      refine ⟨group.addFactor pattern, ?_, hread', hrow', ?_⟩
      · exact (Group.choices_settle group).trans hchoices
      · exact fun c hc hstar => absurd hstar (hends c hc)
    · rintro row place' next ⟨group, hchoices, hread, hrow, -⟩ hends
      refine ⟨fun c hc => ?_, group, hchoices, hread, hrow⟩
      have := hends c hc
      grind
  refine hloop.bind fun after row place' next hafter ⟨hends, group, hchoices, hread, hrow⟩ => ?_
  generalize hterm : group.settle.term = term at hrow
  cases hrow with
  | none =>
    obtain ⟨nfa, next, hdoes, hbuild⟩ := exists_makeBlank hafter
    refine hdoes.agrees ⟨hends, group, hchoices, hread, ?_⟩
    rw [hterm]
    exact hbuild
  | @some term nfa next hbuild =>
    refine (does_pure hafter nfa).agrees ⟨hends, group, hchoices, hread, ?_⟩
    rw [hterm]
    exact hbuild

/-- A choice is read if its terms are. -/
theorem readsChoice_choice {term : Production ι 0} (h : ReadsTerm depth term) :
    ReadsChoice depth (Production.choice term) := by
  intro before text place number outer hat houter
  refine (h none hat houter).bind fun after nfa place' next hafter hgood => ?_
  obtain ⟨hends, group, hchoices, hread, hbuild⟩ := hgood
  -- Each bar that the loop takes closes the alternatives before it.
  refine agrees_loop (fun nfa place' next => EndsTerm place'.rest ∧ ∃ group : Group,
    parseIn outer {} place.rest = parseIn outer group place'.rest ∧
      build group.close number = .ok ⟨nfa, next⟩) hafter ⟨hends, group, hread, ?_⟩ ?_ ?_
  · rw [Group.close, hchoices]
    exact hbuild
  · rintro before nfa read c rest middle hat ⟨-, group, hread, hbuild⟩ hwanted
    obtain rfl : c = '|' := by simpa using hwanted
    rw [hread, parseIn_bar, Group.nextChoice]
    refine (does_expect hat).bind_agrees fun behind hbehind => ?_
    refine (h _ hbehind houter).bind fun after nfa' place' next hafter hgood => ?_
    obtain ⟨hends, group', hchoices, hread', hbuild'⟩ := hgood
    obtain ⟨joined, hdoes, hboth⟩ := exists_joinAlternatives hbuild hbuild' hafter
    refine hdoes.agrees ⟨hends, group', hread', ?_⟩
    rw [Group.close, hchoices]
    exact hboth
  · rintro nfa place' next ⟨hends, hread⟩ hstop
    refine ⟨fun c hc => ?_, hread⟩
    have hbar : c ≠ '|' := by simpa using hstop c hc
    exact (hends c hc).resolve_right hbar

/-- The productions inside any number of groups read choices. -/
theorem readsChoice_atDepth (depth : Nat) (hdepth : depth ≤ maxNesting) :
    ReadsChoice depth (Production.atDepth depth : Production ι 0) := by
  rw [Production.atDepth]
  have hinside : ∀ room : depth < maxNesting,
      ReadsChoice (depth + 1) (Production.atDepth (depth + 1) : Production ι 0) :=
    fun room => readsChoice_atDepth (depth + 1) (Nat.succ_le_of_lt room)
  exact readsChoice_choice (readsTerm_term (readsFactor_factor (readsFactor_base hdepth hinside)))
termination_by maxNesting - depth

/-! ### Whole patterns -/

/-- From any place on, compiling gives the automaton of the tree that the reader finds in the
characters to come, or it fails with the fault of the reader where the reader does. -/
theorem compileRest_agrees (h : before.At text place 0) :
    Agrees before text compileRest
      (fun nfa _ next => ∃ pattern, parse place.rest = .ok pattern ∧
        build pattern 0 = .ok ⟨nfa, next⟩)
      (parse place.rest) := by
  have hchoice := readsChoice_atDepth (ι := ι) 0 (Nat.zero_le maxNesting) [] h rfl
  refine hchoice.bind fun after nfa place' next hafter ⟨hends, group, hread, hbuild⟩ => ?_
  obtain ⟨read, rest⟩ := place'
  refine (does_hasNext hafter).bind_agrees fun last hlast => ?_
  cases rest with
  | nil =>
    refine (does_get hlast).bind_agrees fun _ hlast => ?_
    refine (does_report hlast _).bind_agrees fun _ hlast => ?_
    exact (does_pure hlast nfa).agrees ⟨group.close, hread.trans (by simp [parseIn]), hbuild⟩
  | cons c rest =>
    obtain rfl : c = ')' := hends c rfl
    exact (does_fail hlast _).agrees_error (hread.trans (by simp [parseIn]))

/-- What compiling the characters to come gives, from any place on. -/
theorem compileRest_outcome (h : before.At text place 0) :
    (∃ nfa next pattern, (before.run compileRest).1 = .ok nfa ∧
      parse place.rest = .ok pattern ∧ build pattern 0 = .ok ⟨nfa, next⟩) ∨
    ∃ fault place', (before.run compileRest).1 = .error (.misread fault place') ∧
      place'.Within text ∧ parse place.rest = .error ⟨fault, place'.rest⟩ := by
  rcases compileRest_agrees h with
    ⟨nfa, _, next, ⟨after, hrun, _⟩, pattern, hparse, hbuild⟩ |
    ⟨fault, place', _, ⟨after, hrun, hafter⟩, hparse⟩
  · exact Or.inl ⟨nfa, next, pattern, by rw [hrun], hparse, hbuild⟩
  · exact Or.inr ⟨fault, place', by rw [hrun], hafter.within, hparse⟩

/-- A text compiles to the automaton of the tree that the reader finds, or it does not compile
and shows the fault of the reader. -/
theorem compileWith_cases (ι : Type) [Lookahead ι] (text : String) :
    (∃ pattern built, compileWith ι text = .ok built.nfa ∧ parse text.toList = .ok pattern ∧
      build pattern 0 = .ok built) ∨
    ∃ fault place, compileWith ι text = .error (.misread fault place) ∧
      place.Within text.toList ∧ parse text.toList = .error ⟨fault, place.rest⟩ := by
  rcases compileRest_outcome (at_start (ι := ι) text) with
    ⟨nfa, next, pattern, hok, hparse, hbuild⟩ | herror
  · exact Or.inl ⟨pattern, ⟨nfa, next⟩, hok, hparse, hbuild⟩
  · exact Or.inr herror

/-- A text of which the reader finds the tree compiles to the automaton of the tree. -/
theorem exists_compile_of_parse {text : String} {pattern : Pattern}
    (h : parse text.toList = .ok pattern) :
    ∃ built, compile text = .ok built.nfa ∧ build pattern 0 = .ok built := by
  rcases compileWith_cases Buffered text with
    ⟨pattern', built, hok, hparse, hbuild⟩ | ⟨_, _, _, _, hparse⟩
  · obtain rfl : pattern = pattern' := Except.ok.inj (h.symm.trans hparse)
    exact ⟨built, hok, hbuild⟩
  · exact absurd (h.symm.trans hparse) (by simp)

/-- So what the tree is built into is what compiling gives. -/
theorem compile_of_parse {text : String} {pattern : Pattern} {built : Construction}
    (h : parse text.toList = .ok pattern) (hbuild : build pattern 0 = .ok built) :
    compile text = .ok built.nfa := by
  obtain ⟨built', hok, hbuild'⟩ := exists_compile_of_parse h
  obtain rfl : built = built' := Except.ok.inj (hbuild.symm.trans hbuild')
  exact hok

/-- Where the reader stops, compiling does. -/
theorem compile_of_parse_error {text : String} {fault : Fault}
    (h : parse text.toList = .error ⟨fault, place.rest⟩) (hwithin : place.Within text.toList) :
    compile text = .error (.misread fault place) := by
  rcases compileWith_cases Buffered text with
    ⟨_, _, _, hparse, -⟩ | ⟨fault', place', herror, hwithin', hparse⟩
  · exact absurd (h.symm.trans hparse) (by simp)
  · obtain ⟨rfl, hrest⟩ := Misreading.mk.inj (Except.error.inj (h.symm.trans hparse))
    rw [hwithin.eq_of_rest hwithin' hrest]
    exact herror

/-- What compiles is built from the tree that the reader finds. -/
theorem exists_parse_of_compile {text : String} (h : compile text = .ok nfa) :
    ∃ pattern built, parse text.toList = .ok pattern ∧ build pattern 0 = .ok built ∧
      built.nfa = nfa := by
  rcases compileWith_cases Buffered text with
    ⟨pattern, built, hok, hparse, hbuild⟩ | ⟨fault, place, herror, -⟩
  · exact ⟨pattern, built, hparse, hbuild, Except.ok.inj (hok.symm.trans h)⟩
  · exact absurd (herror.symm.trans h) (by simp)

/-- What compiles is built from some pattern. -/
theorem exists_build_of_compile {text : String} (h : compile text = .ok nfa) :
    ∃ pattern built, build pattern 0 = .ok built ∧ built.nfa = nfa := by
  obtain ⟨pattern, built, _, hbuilt, hnfa⟩ := exists_parse_of_compile h
  exact ⟨pattern, built, hbuilt, hnfa⟩

end Automata.Pattern
