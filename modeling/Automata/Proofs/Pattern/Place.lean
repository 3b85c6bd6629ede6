import Automata.Pattern.Compile

/-!
# The place of a compiler

The two ways in which a compiler keeps its place never drift apart: what the count says was read
and what the iterator still gives make up the pattern, and every operation moves both together.
So the place is a single one, and it tells what an operation comes to.
-/

namespace Automata.Pattern

section Row

variable {ι α β : Type} {before after : Compiler ι} {work : Work ι α} {a : α} {error : Error}

/-- Work that is run and succeeds gives its value and the compiler behind it. -/
theorem Compiler.work_of_run (h : before.run work = (.ok a, after)) :
    work before = .ok a after := by
  simp only [run, EStateM.run] at h
  cases hwork : work before with
  | ok b middle =>
    rw [hwork] at h
    obtain ⟨hsame, rfl⟩ := Prod.mk.inj h
    obtain rfl := Except.ok.inj hsame
    rfl
  | error failure middle => simp [hwork] at h

/-- Where the first work succeeds, the next goes on from there. -/
theorem Compiler.run_bind_of_ok {next : α → Work ι β} (h : before.run work = (.ok a, after)) :
    before.run (work >>= next) = after.run (next a) := by
  have hwork := work_of_run h
  simp [run, EStateM.run, Bind.bind, EStateM.bind, hwork]

/-- Where the first work fails, nothing else is done. -/
theorem Compiler.run_bind_of_error {next : α → Work ι β}
    (h : before.run work = (.error error, after)) :
    before.run (work >>= next) = (.error error, after) := by
  simp only [run, EStateM.run, Bind.bind, EStateM.bind] at h ⊢
  cases hwork : work before with
  | ok b middle => simp [hwork] at h
  | error failure middle => simpa [hwork] using h

end Row

variable {ι : Type} [Lookahead ι] {α β : Type}

/-- A place of the text. -/
def Cursor.Within (place : Cursor) (text : List Char) : Prop := place.read ++ place.rest = text

/-- There is one place of each length. -/
theorem Cursor.Within.eq_of_length {text : List Char} {place place' : Cursor}
    (h : place.Within text) (h' : place'.Within text)
    (hlength : place.read.length = place'.read.length) : place = place' := by
  obtain ⟨read, rest⟩ := place
  obtain ⟨read', rest'⟩ := place'
  obtain ⟨rfl, rfl⟩ := List.append_inj (h.trans h'.symm) hlength
  rfl

/-- There is one place before each end of the text. -/
theorem Cursor.Within.eq_of_rest {text : List Char} {place place' : Cursor}
    (h : place.Within text) (h' : place'.Within text) (hrest : place.rest = place'.rest) :
    place = place' := by
  obtain ⟨read, rest⟩ := place
  obtain ⟨read', rest'⟩ := place'
  obtain rfl : rest = rest' := hrest
  obtain rfl := List.append_cancel_right (h.trans h'.symm)
  rfl

/-- The compiler of a text has come to the place, and its next new state has the number. -/
structure Compiler.At (compiler : Compiler ι) (text : List Char) (place : Cursor) (number : Nat) :
    Prop where
  text_eq : compiler.text.toList = text
  within : place.Within text
  consumed_eq : compiler.consumed = place.read.length
  rest_eq : compiler.rest = place.rest
  nextState_eq : compiler.nextState = number

/-- The work comes to the outcome, and the compiler to the place. -/
def Compiler.Does (before : Compiler ι) (text : List Char) (work : Work ι α)
    (outcome : Except Error α) (place : Cursor) (number : Nat) : Prop :=
  ∃ after, before.run work = (outcome, after) ∧ after.At text place number

variable {compiler before : Compiler ι} {text read rest : List Char} {place place' : Cursor}
variable {number number' : Nat} {work : Work ι α} {a : α} {c wanted : Char} {error : Error}

namespace Compiler

/-- A compiler starts before the first character. -/
theorem at_start (text : String) :
    (start text : Compiler ι).At text.toList { rest := text.toList } 0 where
  text_eq := rfl
  within := rfl
  consumed_eq := rfl
  rest_eq := Lookahead.remaining_ofChars text.toList
  nextState_eq := rfl

/-- What is counted off is what stands before the place. -/
theorem At.read_eq (h : compiler.At text place number) : compiler.read = place.read := by
  rw [Compiler.read, h.text_eq, h.consumed_eq, ← h.within, List.take_left]

/-! ### Work that is done in a row -/

/-- Giving a value moves nothing. -/
theorem does_pure (h : before.At text place number) (a : α) :
    before.Does text (pure a) (.ok a) place number :=
  ⟨before, rfl, h⟩

/-- What is done one after the other comes to the last outcome. -/
theorem Does.bind {next : α → Work ι β} {outcome : Except Error β}
    (h : before.Does text work (.ok a) place number)
    (hnext : ∀ after : Compiler ι, after.At text place number →
      after.Does text (next a) outcome place' number') :
    before.Does text (work >>= next) outcome place' number' := by
  obtain ⟨after, hrun, hat⟩ := h
  obtain ⟨last, hrun', hat'⟩ := hnext after hat
  exact ⟨last, (run_bind_of_ok hrun).trans hrun', hat'⟩

/-- A failure ends it. -/
theorem Does.bind_error {next : α → Work ι β}
    (h : before.Does text work (.error error) place number) :
    before.Does text (work >>= next) (.error error) place number := by
  obtain ⟨after, hrun, hat⟩ := h
  exact ⟨after, run_bind_of_error hrun, hat⟩

/-- A look at the compiler moves nothing. -/
theorem does_get (h : before.At text place number) :
    before.Does text (get : Work ι (Compiler ι)) (.ok before) place number :=
  ⟨before, rfl, h⟩

/-- A failure tells the place. -/
theorem does_fail (h : before.At text place number) (fault : Fault) :
    before.Does text (fail fault : Work ι α) (.error (.misread fault place)) place number := by
  refine ⟨before, ?_, h⟩
  have hplace : place = ⟨before.read, before.rest⟩ := by rw [h.read_eq, h.rest_eq]
  rw [hplace]
  rfl

/-- At the end, this is the end. -/
theorem does_failAtEnd (h : before.At text ⟨read, []⟩ number) (expected : Option Char) :
    before.Does text (failAtEnd expected : Work ι α)
      (.error (.misread (.unexpectedEnd expected) ⟨read, []⟩)) ⟨read, []⟩ number := by
  refine ⟨before, ?_, h⟩
  have hread : before.read = read := h.read_eq
  rw [← hread]
  rfl

/-! ### Single operations -/

/-- Looking shows what comes next, and the place stays. -/
theorem does_look (h : before.At text place number) :
    before.Does text look (.ok place.rest.head?) place number := by
  refine ⟨{ before with iterator := (Lookahead.peek before.iterator).2 }, ?_, ?_⟩
  · rw [← h.rest_eq, Compiler.rest, ← Lookahead.peek_fst]
    rfl
  · exact ⟨h.text_eq, h.within, h.consumed_eq, (Lookahead.remaining_peek _).trans h.rest_eq,
      h.nextState_eq⟩

/-- The next character is taken and counted. -/
theorem does_advance (h : before.At text ⟨read, c :: rest⟩ number) :
    before.Does text advance (.ok ()) ⟨read ++ [c], rest⟩ number := by
  refine ⟨_, rfl, ?_⟩
  constructor
  case text_eq => exact h.text_eq
  case within =>
    have hwithin : read ++ c :: rest = text := h.within
    simpa [Cursor.Within] using hwithin
  case consumed_eq =>
    have hcount : before.consumed = read.length := h.consumed_eq
    simp [hcount]
  case rest_eq =>
    have hrest : before.rest = c :: rest := h.rest_eq
    exact (Lookahead.remaining_next _).trans (congrArg List.tail hrest)
  case nextState_eq => exact h.nextState_eq

/-- It is told whether there are characters to come. -/
theorem does_hasNext (h : before.At text place number) :
    before.Does text hasNext (.ok place.rest.head?.isSome) place number :=
  (does_look h).bind fun _ hafter => does_pure hafter _

/-- The next character is shown. -/
theorem does_peek (h : before.At text ⟨read, c :: rest⟩ number) :
    before.Does text peek (.ok c) ⟨read, c :: rest⟩ number :=
  (does_look h).bind fun _ hafter => does_pure hafter c

/-- At the end there is no character to show. -/
theorem does_peek_nil (h : before.At text ⟨read, []⟩ number) :
    before.Does text peek (.error (.misread (.unexpectedEnd none) ⟨read, []⟩)) ⟨read, []⟩
      number :=
  (does_look h).bind fun _ hafter => does_failAtEnd hafter none

/-- The character that is demanded is taken where it comes next. -/
theorem does_expect (h : before.At text ⟨read, c :: rest⟩ number) :
    before.Does text (expect c) (.ok c) ⟨read ++ [c], rest⟩ number := by
  refine (does_look h).bind fun middle hmiddle => ?_
  simp only [List.head?_cons, if_pos]
  exact (does_advance hmiddle).bind fun after hafter => does_pure hafter c

/-- Another character is not taken. -/
theorem does_expect_of_ne (h : before.At text ⟨read, c :: rest⟩ number) (hne : c ≠ wanted) :
    before.Does text (expect wanted) (.error (.misread (.expected wanted) ⟨read, c :: rest⟩))
      ⟨read, c :: rest⟩ number := by
  refine (does_look h).bind fun middle hmiddle => ?_
  simp only [List.head?_cons, if_neg hne]
  exact does_fail hmiddle (.expected wanted)

/-- At the end there is no character to take. -/
theorem does_expect_nil (h : before.At text ⟨read, []⟩ number) (wanted : Char) :
    before.Does text (expect wanted)
      (.error (.misread (.unexpectedEnd (some wanted)) ⟨read, []⟩)) ⟨read, []⟩ number :=
  (does_look h).bind fun _ hafter => does_failAtEnd hafter (some wanted)

/-- The next character is taken. -/
theorem does_next (h : before.At text ⟨read, c :: rest⟩ number) :
    before.Does text next (.ok c) ⟨read ++ [c], rest⟩ number :=
  (does_peek h).bind fun _ hafter => does_expect hafter

/-- At the end there is no next character to take. -/
theorem does_next_nil (h : before.At text ⟨read, []⟩ number) :
    before.Does text next (.error (.misread (.unexpectedEnd none) ⟨read, []⟩)) ⟨read, []⟩
      number :=
  (does_peek_nil h).bind_error

/-- It is told whether the next character is such. -/
theorem does_ahead (h : before.At text ⟨read, c :: rest⟩ number) (wanted : Char → Bool) :
    before.Does text (ahead wanted) (.ok (wanted c)) ⟨read, c :: rest⟩ number :=
  (does_hasNext h).bind fun _ hmiddle => (does_peek hmiddle).bind fun _ hafter =>
    does_pure hafter (wanted c)

/-- At the end no character is such. -/
theorem does_ahead_nil (h : before.At text ⟨read, []⟩ number) (wanted : Char → Bool) :
    before.Does text (ahead wanted) (.ok false) ⟨read, []⟩ number :=
  (does_hasNext h).bind fun _ hafter => does_pure hafter false

/-! ### Putting automata together -/

/-- A name is given out, and the next one has the next number. -/
theorem does_newState (h : before.At text place number) :
    before.Does text newState (.ok (stateName number)) place (number + 1) := by
  refine ⟨{ before with nextState := before.nextState + 1 }, ?_, ?_⟩
  · rw [← h.nextState_eq]
    rfl
  · exact ⟨h.text_eq, h.within, h.consumed_eq, h.rest_eq, congrArg (· + 1) h.nextState_eq⟩

/-- A report changes nothing but what was reported. -/
theorem does_report (h : before.At text place number) (event : Event) :
    before.Does text (report event) (.ok ()) place number :=
  ⟨_, rfl, h.text_eq, h.within, h.consumed_eq, h.rest_eq, h.nextState_eq⟩

/-- An operation on automata that succeeds changes nothing. -/
theorem does_built (h : before.At text place number) {result : Except Automata.Error α}
    (hok : result = .ok a) : before.Does text (built result) (.ok a) place number := by
  subst hok
  exact does_pure h a

end Compiler

end Automata.Pattern
