import Automata.Proofs.Pattern.Parser

/-!
# The tree that the reader finds is derived

What the reader keeps of a group stands for a text that it has read: the alternatives with
the bar behind them, the factors since then, and the last factor. Each step of the reader
extends these texts by one character and their derivations with them. So when the reader
comes to the end, the grammar derives the whole text, with the tree that was found.
-/

namespace Automata.Pattern

variable {depth : Nat} {group : Group} {outer : List Group} {pattern : Pattern}
variable {text before row last rest : List Char}

/-- The text of a part that may be missing. -/
inductive Optional (Text : List Char → Pattern → Prop) : Option Pattern → List Char → Prop where
  | none : Optional Text none []
  | some {text : List Char} {pattern : Pattern} (holds : Text text pattern) :
      Optional Text (some pattern) text

/-- The group holds the trees of the alternatives before the last bar, which is read as well,
of the row of factors behind it without the last one, and of the last factor. -/
structure Group.Holds (depth : Nat) (group : Group) (before row last : List Char) : Prop where
  choices : Optional (fun text pattern => ∃ inner, text = inner ++ ['|'] ∧
    Derives .choice depth inner pattern) group.choices before
  term : Optional (fun text pattern => text ≠ [] ∧ Derives .term depth text pattern)
    group.term row
  factor : Optional (Derives .factor depth) group.factor last

/-- In a group that begins nothing was read. -/
theorem Group.holds_empty (depth : Nat) : Group.Holds depth {} [] [] [] where
  choices := .none
  term := .none
  factor := .none

/-- A factor that joins the term extends its row. -/
theorem Group.Holds.settle (h : group.Holds depth before row last) :
    group.settle.Holds depth before (row ++ last) [] := by
  obtain ⟨choices, term, factor⟩ := group
  obtain ⟨hchoices, hterm, hfactor⟩ := h
  cases hfactor with
  | none =>
    rw [List.append_nil]
    exact ⟨hchoices, hterm, .none⟩
  | some hlast =>
    refine ⟨hchoices, ?_, .none⟩
    cases hterm with
    | none => exact .some ⟨hlast.factor_ne_nil, .ofFactor hlast⟩
    | some hrow =>
      obtain ⟨hne, hrow⟩ := hrow
      exact .some ⟨by simp [hne], .row hrow hne hlast⟩

/-- A factor that was read comes last in the row. -/
theorem Group.Holds.addFactor (h : group.Holds depth before row last)
    (hfactor : Derives .factor depth text pattern) :
    (group.addFactor pattern).Holds depth before (row ++ last) text where
  choices := h.settle.choices
  term := h.settle.term
  factor := .some hfactor

/-- The tree of a group that ends is derived from all that was read of it. -/
theorem Group.Holds.close (h : group.Holds depth before row last) :
    Derives .choice depth (before ++ row ++ last) group.close := by
  obtain ⟨hchoices, hterm, _⟩ := h.settle
  have hrow : Derives .term depth (row ++ last) (group.settle.term.getD .blank) := by
    generalize row ++ last = text, group.settle.term = term at hterm
    cases hterm with
    | none => exact .blank
    | some hrow => exact hrow.2
  rw [choices_settle] at hchoices
  rw [Group.close, List.append_assoc]
  generalize group.choices = choices at hchoices
  cases hchoices with
  | none => exact .ofTerm hrow
  | some hbefore =>
    obtain ⟨inner, rfl, hinner⟩ := hbefore
    rw [List.append_assoc]
    exact .bar hinner hrow

/-- A bar ends the row, and another begins empty. -/
theorem Group.Holds.nextChoice (h : group.Holds depth before row last) :
    group.nextChoice.Holds depth (before ++ row ++ last ++ ['|']) [] [] where
  choices := .some ⟨_, rfl, h.close⟩
  term := .none
  factor := .none

/-- A star goes to the last factor, which stays the last. -/
theorem Group.Holds.star (h : group.Holds depth before row last)
    (hfactor : group.factor = some pattern) :
    ({ group with factor := some (.star pattern) } : Group).Holds depth before row
      (last ++ ['*']) := by
  obtain ⟨hchoices, hterm, hlast⟩ := h
  rw [hfactor] at hlast
  cases hlast with
  | some hlast => exact ⟨hchoices, hterm, .some (.star hlast)⟩

/-- What was read before the innermost group, when the groups around it are these. -/
inductive Enclosed : List Group → List Char → Prop where
  | none : Enclosed [] []
  | group {outer : List Group} {group : Group} {text before row : List Char}
      (around : Enclosed outer text) (room : outer.length < maxNesting)
      (holds : group.Holds (maxNesting - outer.length) before row []) :
      Enclosed (group :: outer) (text ++ (before ++ row) ++ ['('])

/-- No more groups are open than may be. -/
theorem Enclosed.length_le (h : Enclosed outer text) : outer.length ≤ maxNesting := by
  cases h with
  | none => exact Nat.zero_le maxNesting
  | group _ room _ => exact room

/-- Where the reader comes to the end, what it had read before and what it read from there
on are derived together. -/
theorem Enclosed.derives (houter : Enclosed outer text)
    (hgroup : group.Holds (maxNesting - outer.length) before row last)
    (hok : parseIn outer group rest = .ok pattern) :
    Derives .choice maxNesting (text ++ (before ++ row ++ last) ++ rest) pattern := by
  fun_induction parseIn outer group rest generalizing text before row last with
  | case1 group =>
    cases houter
    obtain rfl := Except.ok.inj hok
    simpa using hgroup.close
  | case2 => simp at hok
  | case3 => simp at hok
  | case4 outer group rest hdepth ih =>
    -- A group is opened: the text so far becomes what encloses it.
    have hle := houter.length_le
    have hinside := Enclosed.group houter (by omega) hgroup.settle
    have hderives := ih hinside (Group.holds_empty _) hok
    simpa using hderives
  | case5 => simp at hok
  | case6 group rest enclosing outer ih =>
    -- A group is closed: with its parentheses it is a factor of the enclosing one.
    cases houter with
    | group around room holds =>
      have hdepth : maxNesting - outer.length = maxNesting - (outer.length + 1) + 1 := by omega
      have hfactor := Derives.group hgroup.close
      rw [List.length_cons, ← hdepth] at hfactor
      have hderives := ih around (holds.addFactor hfactor) hok
      simpa using hderives
  | case7 outer group rest ih =>
    have hderives := ih houter hgroup.nextChoice hok
    simpa using hderives
  | case8 outer group rest factor hfactor ih =>
    have hderives := ih houter (hgroup.star hfactor) hok
    simpa using hderives
  | case9 => simp at hok
  | case10 outer group c rest hopen hclose hbar hstar ih =>
    have hordinary : isOperator c = false := by
      simp only [isOperator, Bool.or_eq_false_iff, decide_eq_false_iff_not]
      exact ⟨⟨⟨hopen, hclose⟩, hbar⟩, hstar⟩
    have hderives := ih houter (hgroup.addFactor (.literal hordinary)) hok
    simpa using hderives

/-- The tree that the reader finds of a text is one that the grammar derives. -/
theorem derives_of_parse (h : parse text = .ok pattern) :
    Derives .choice maxNesting text pattern := by
  have hderives := Enclosed.none.derives (Group.holds_empty _) h
  simpa using hderives

end Automata.Pattern
