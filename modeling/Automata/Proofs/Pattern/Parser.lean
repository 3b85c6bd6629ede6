import Automata.Pattern.Grammar
import Automata.Pattern.Parser

/-!
# The reader finds the tree of a pattern

The reader keeps what it has completed of each open group. A factor adds itself to the
innermost group, a term leaves a group whose factors are its own, and a choice leaves one
that closes to it. So on a text that the grammar derives, with groups nested no deeper than
allowed, the reader finds the tree of the derivation.
-/

namespace Automata.Pattern

/-! ### Steps of the reader -/

section Steps

variable {outer : List Group} {group : Group} {rest : List Char} {c : Char}

/-- A group opens, if not too many are open. -/
theorem parseIn_open (h : outer.length < maxNesting) :
    parseIn outer group ('(' :: rest) = parseIn (group.settle :: outer) {} rest := by
  have hne : ¬ outer.length = maxNesting := by omega
  simp [parseIn, hne]

/-- A group closes and becomes a factor of what encloses it. -/
theorem parseIn_close {enclosing : Group} :
    parseIn (enclosing :: outer) group (')' :: rest) =
      parseIn outer (enclosing.addFactor group.close) rest := by
  simp [parseIn]

/-- A bar goes over to the next alternative. -/
theorem parseIn_bar : parseIn outer group ('|' :: rest) = parseIn outer group.nextChoice rest := by
  simp [parseIn]

/-- A star goes to the factor in front of it. -/
theorem parseIn_star {factor : Pattern} (h : group.factor = some factor) :
    parseIn outer group ('*' :: rest) =
      parseIn outer { group with factor := some (.star factor) } rest := by
  simp [parseIn, h]

/-- A character that is no operator is a factor. -/
theorem parseIn_literal (h : isOperator c = false) :
    parseIn outer group (c :: rest) = parseIn outer (group.addFactor (.literal c)) rest := by
  simp only [isOperator, Bool.or_eq_false_iff, decide_eq_false_iff_not] at h
  obtain ⟨⟨⟨hopen, hclose⟩, hbar⟩, hstar⟩ := h
  rw [parseIn] <;> assumption

end Steps

/-! ### Groups -/

/-- A row that is settled has nothing more to settle. -/
@[simp] theorem Group.settle_settle (group : Group) : group.settle.settle = group.settle := by
  obtain ⟨choices, term, factor⟩ := group
  cases factor <;> rfl

/-- Settling a group before a factor is added makes no difference. -/
@[simp] theorem Group.addFactor_settle (group : Group) (factor : Pattern) :
    group.settle.addFactor factor = group.addFactor factor := by
  simp [addFactor]

/-- Settling a row leaves the alternatives before it. -/
@[simp] theorem Group.choices_settle (group : Group) : group.settle.choices = group.choices := by
  obtain ⟨choices, term, factor⟩ := group
  cases factor <;> rfl

/-- A factor that is added joins the factors before it. -/
theorem Group.term_settle_addFactor (group : Group) (factor : Pattern) :
    (group.addFactor factor).settle.term = some (joinBy .append group.settle.term factor) := rfl

/-! ### Derivations -/

/-- What reading a text of the given kind comes to: the reader goes on behind the text with
the pattern completed. -/
def Completes : Part → Nat → List Char → Pattern → Prop
  | .factor, depth, text, pattern => ∀ outer group rest, outer.length + depth ≤ maxNesting →
      parseIn outer group (text ++ rest) = parseIn outer (group.addFactor pattern) rest
  | .term, depth, text, pattern => ∀ outer choices rest, outer.length + depth ≤ maxNesting →
      ∃ group : Group, parseIn outer { choices } (text ++ rest) = parseIn outer group rest ∧
        group.choices = choices ∧ group.settle.term.getD .blank = pattern ∧
          (text ≠ [] → group.settle.term = some pattern)
  | .choice, depth, text, pattern => ∀ outer rest, outer.length + depth ≤ maxNesting →
      ∃ group : Group, parseIn outer {} (text ++ rest) = parseIn outer group rest ∧
        group.close = pattern

/-- The reader follows derivations. -/
theorem Derives.completes {part : Part} {depth : Nat} {text : List Char} {pattern : Pattern}
    (h : Derives part depth text pattern) : Completes part depth text pattern := by
  induction h with
  | ofTerm _ ih =>
    intro outer rest hdepth
    obtain ⟨group, hread, hchoices, hterm, _⟩ := ih outer none rest hdepth
    refine ⟨group, hread, ?_⟩
    rw [Group.close, hchoices, hterm]
    rfl
  | @bar depth before after lower upper _ _ ihLeft ihRight =>
    intro outer rest hdepth
    obtain ⟨left, hleft, hclose⟩ := ihLeft outer ('|' :: (after ++ rest)) hdepth
    obtain ⟨right, hright, hchoices, hterm, _⟩ := ihRight outer (some lower) rest hdepth
    refine ⟨right, ?_, ?_⟩
    · rw [List.append_assoc, List.cons_append, hleft, parseIn_bar, Group.nextChoice, hclose,
        hright]
    · rw [Group.close, hchoices, hterm]
      rfl
  | blank =>
    intro outer choices rest _
    exact ⟨{ choices }, rfl, rfl, rfl, by simp⟩
  | @ofFactor depth text pattern _ ih =>
    intro outer choices rest hdepth
    have hterm := Group.term_settle_addFactor { choices } pattern
    refine ⟨_, ih outer { choices } rest hdepth, rfl, ?_, fun _ => hterm⟩
    rw [hterm]
    rfl
  | @row depth before after first second _ nonempty _ ihLeft ihRight =>
    intro outer choices rest hdepth
    obtain ⟨group, hleft, hchoices, _, hterm⟩ := ihLeft outer choices (after ++ rest) hdepth
    have hjoined := group.term_settle_addFactor second
    rw [hterm nonempty] at hjoined
    refine ⟨group.addFactor second, ?_, ?_, ?_, fun _ => hjoined⟩
    · rw [List.append_assoc, hleft, ihRight outer group rest hdepth]
    · rw [Group.addFactor]
      simpa using hchoices
    · rw [hjoined]
      rfl
  | literal ordinary =>
    intro outer group rest _
    exact parseIn_literal ordinary
  | @group depth text pattern _ ih =>
    intro outer group rest hdepth
    have hinside : (group.settle :: outer).length + depth ≤ maxNesting := by
      rw [List.length_cons]
      omega
    obtain ⟨inner, hread, hclose⟩ := ih (group.settle :: outer) (')' :: rest) hinside
    rw [List.cons_append, List.cons_append, List.append_assoc, parseIn_open (by omega),
      List.singleton_append, hread, parseIn_close, hclose, Group.addFactor_settle]
  | @star depth text pattern _ ih =>
    intro outer group rest hdepth
    have hfactor : (group.addFactor pattern).factor = some pattern := rfl
    rw [List.append_assoc, ih outer group _ hdepth, List.singleton_append, parseIn_star hfactor]
    rfl

/-- The tree of a derivation is what the reader finds. -/
theorem Derives.parse_eq {text : List Char} {pattern : Pattern}
    (h : Derives .choice maxNesting text pattern) : parse text = .ok pattern := by
  obtain ⟨group, hread, hclose⟩ := h.completes [] [] (Nat.le_refl maxNesting)
  rw [List.append_nil] at hread
  rw [parse, hread, parseIn, hclose]

end Automata.Pattern
