import Automata.Proofs.Pattern.Derivation
import Automata.Proofs.Pattern.Trim

/-!
# States and symbols of compiled patterns

A part of a pattern takes one new state for each of its blanks, bars and stars, and two for
each of its letters. Combining parts gives no state up and merges none, so the states of the
whole are numbered without gaps. Only letters put characters on edges, and combining parts
adds edges that read nothing. So the alphabet holds the letters, apart from the mark.
-/

namespace Automata

/-! ### Characters on edges -/

namespace Nfa

variable {nfa lower upper left right inner : Nfa} {start : String} {c : Char}

/-- Some edge reads the character. -/
def UsesSymbol (nfa : Nfa) (c : Char) : Prop :=
  ∃ source target, target ∈ nfa.targets source (.char c)

/-- A sequence reads the symbols of both parts, and joins them by reading nothing. -/
theorem Sequence.usesSymbol_iff (h : Sequence left right nfa) :
    nfa.UsesSymbol c ↔ left.UsesSymbol c ∨ right.UsesSymbol c := by
  simp [UsesSymbol, h.mem_targets, exists_or]

/-- An alternation reads the symbols of both sides, and joins them by reading nothing. -/
theorem Alternation.usesSymbol_iff (h : Alternation lower upper start nfa) :
    nfa.UsesSymbol c ↔ lower.UsesSymbol c ∨ upper.UsesSymbol c := by
  simp [UsesSymbol, h.mem_targets, exists_or]

/-- A repetition reads the symbols of its part, and returns by reading nothing. -/
theorem Repetition.usesSymbol_iff (h : Repetition inner start nfa) :
    nfa.UsesSymbol c ↔ inner.UsesSymbol c := by
  simp [UsesSymbol, h.mem_targets]

end Nfa

namespace Pattern

variable {pattern : Pattern} {number next : Nat} {nfa : Nfa} {part : Part} {depth : Nat}
variable {text : List Char} {c : Char}

/-! ### Counting the parts of a pattern -/

/-- The letters of a pattern from left to right. -/
def letters : Pattern → List Char
  | blank => []
  | literal c => [c]
  | append left right => left.letters ++ right.letters
  | choice lower upper => lower.letters ++ upper.letters
  | star inner => inner.letters

/-- How many terms of a pattern have no factors. -/
def blanks : Pattern → Nat
  | blank => 1
  | literal _ => 0
  | append left right => left.blanks + right.blanks
  | choice lower upper => lower.blanks + upper.blanks
  | star inner => inner.blanks

/-- How many states a pattern takes. -/
def stateCount : Pattern → Nat
  | blank => 1
  | literal _ => 2
  | append left right => left.stateCount + right.stateCount
  | choice lower upper => lower.stateCount + upper.stateCount + 1
  | star inner => inner.stateCount + 1

/-- The characters of a text that are letters of its pattern. -/
def ordinary (text : List Char) : List Char := text.filter fun c => !isOperator c

/-- The ordinary characters of two texts come in a row. -/
@[simp] theorem ordinary_append (before after : List Char) :
    ordinary (before ++ after) = ordinary before ++ ordinary after :=
  List.filter_append before after

/-- An operator is not ordinary. -/
theorem ordinary_cons_operator (h : isOperator c = true) (text : List Char) :
    ordinary (c :: text) = ordinary text := by
  simp [ordinary, h]

/-- A character that is no operator is ordinary. -/
theorem ordinary_singleton (h : isOperator c = false) : ordinary [c] = [c] := by
  simp [ordinary, h]

/-- The tree of a text has the letters of the text. -/
theorem Derives.letters_eq (h : Derives part depth text pattern) :
    pattern.letters = ordinary text := by
  induction h with
  | ofTerm _ ih => exact ih
  | bar _ _ ihLeft ihRight =>
    rw [letters, ihLeft, ihRight, ordinary_append, ordinary_cons_operator (by decide)]
  | blank => rfl
  | ofFactor _ ih => exact ih
  | row _ _ _ ihLeft ihRight => rw [letters, ihLeft, ihRight, ordinary_append]
  | literal hordinary => rw [letters, ordinary_singleton hordinary]
  | group _ ih =>
    rw [List.cons_append, ordinary_cons_operator (by decide), ordinary_append,
      ordinary_cons_operator (by decide), ih]
    exact (List.append_nil _).symm
  | star _ ih =>
    rw [letters, ih, ordinary_append, ordinary_cons_operator (by decide)]
    exact (List.append_nil _).symm

/-- How many letters, bars and stars a text has, each letter counting twice. -/
def weight (text : List Char) : Nat :=
  2 * (ordinary text).length + text.count '|' + text.count '*'

/-- The states that texts need are counted together. -/
theorem weight_append (before after : List Char) :
    weight (before ++ after) = weight before + weight after := by
  simp only [weight, ordinary_append, List.length_append, List.count_append]
  omega

/-- The states that a text needs are counted character by character. -/
theorem weight_cons (c : Char) (text : List Char) : weight (c :: text) = weight [c] + weight text :=
  weight_append [c] text

/-- A character that is no operator needs two states. -/
theorem weight_singleton (h : isOperator c = false) : weight [c] = 2 := by
  have hbar : c ≠ '|' := by rintro rfl; simp [isOperator] at h
  have hstar : c ≠ '*' := by rintro rfl; simp [isOperator] at h
  simp [weight, ordinary_singleton h, hbar, hstar]

/-- A text takes two states for each letter, and one for each bar, each star and each blank. -/
theorem Derives.stateCount_eq (h : Derives part depth text pattern) :
    pattern.stateCount = weight text + pattern.blanks := by
  have hbar : weight ['|'] = 1 := by decide
  have hstar : weight ['*'] = 1 := by decide
  have hopen : weight ['('] = 0 := by decide
  have hclose : weight [')'] = 0 := by decide
  induction h with
  | ofTerm _ ih => exact ih
  | bar _ _ ihLeft ihRight =>
    rw [stateCount, blanks, ihLeft, ihRight, weight_append, weight_cons, hbar]
    omega
  | blank => rfl
  | ofFactor _ ih => exact ih
  | row _ _ _ ihLeft ihRight =>
    rw [stateCount, blanks, ihLeft, ihRight, weight_append]
    omega
  | literal hordinary => rw [stateCount, blanks, weight_singleton hordinary]
  | group _ ih =>
    rw [ih, List.cons_append, weight_cons, weight_append, hopen, hclose]
    omega
  | star _ ih =>
    rw [stateCount, blanks, ih, weight_append, hstar]
    omega

/-! ### Numbering the states -/

/-- As many states are numbered as the pattern takes. -/
theorem Assembled.next_eq (h : Assembled pattern number next nfa) :
    next = number + pattern.stateCount := by
  induction h with
  | blank _ => rfl
  | literal _ => rfl
  | append _ _ _ ihLeft ihRight => simp only [stateCount]; omega
  | choice _ _ _ ihLower ihUpper => simp only [stateCount]; omega
  | star _ _ ih => simp only [stateCount]; omega

/-- The edges read the letters, except for the mark. -/
theorem Assembled.usesSymbol_iff (h : Assembled pattern number next nfa) :
    nfa.UsesSymbol c ↔ c ∈ pattern.letters ∧ c ≠ epsilonMark := by
  induction h with
  | @blank number nfa view =>
    have htargets : nfa.targets = fun _ _ => [] := congrArg Nfa.View.targets view
    simp [Nfa.UsesSymbol, htargets, letters]
  | @literal d number nfa view =>
    have htargets : nfa.targets = _ := congrArg Nfa.View.targets view
    rw [letters, List.mem_singleton, ← Label.char_eq_ofChar_iff]
    constructor
    · rintro ⟨source, target, hedge⟩
      simp only [htargets, List.mem_ite_nil_right] at hedge
      exact hedge.1.2
    · intro hsame
      exact ⟨stateName number, stateName (number + 1), by simp [htargets, hsame]⟩
  | append _ _ sequence ihLeft ihRight =>
    rw [sequence.usesSymbol_iff, ihLeft, ihRight, letters, List.mem_append, or_and_right]
  | choice _ _ alternation ihLower ihUpper =>
    rw [alternation.usesSymbol_iff, ihLower, ihUpper, letters, List.mem_append, or_and_right]
  | star _ repetition ih => rw [repetition.usesSymbol_iff, ih, letters]

variable {built : Construction}

/-- The states are numbered without gaps, and each number is taken once. -/
theorem Represents.perm_names (h : Represents pattern 0 built) :
    built.nfa.names.Perm ((List.range built.next).map stateName) := by
  have hinjective : Function.Injective stateName := fun _ _ => stateName_injective
  have hnodup : ((List.range built.next).map stateName).Nodup := List.nodup_range.map hinjective
  refine (List.perm_ext_iff_of_nodup h.wellFormed.names_nodup hnodup).mpr fun name => ?_
  rw [h.mem_names, List.mem_map]
  constructor
  · rintro ⟨k, _, hlt, rfl⟩
    exact ⟨k, List.mem_range.mpr hlt, rfl⟩
  · rintro ⟨k, hlt, rfl⟩
    exact ⟨k, Nat.zero_le k, List.mem_range.mp hlt, rfl⟩

/-- A text that compiles is derived with just one tree. Its states have the first numbers, each
once: two for each letter of the text, and one for each bar, each star, and each blank of the
tree. Its alphabet holds the letters except for the mark. It has a start and a final state, and
its states are tagged final when they are among the final states. -/
theorem compile_states {text : String} (h : compile text = .ok nfa) :
    ∃ pattern, Derives .choice maxNesting text.toList pattern ∧
      (∀ other, Derives .choice maxNesting text.toList other → other = pattern) ∧
      nfa.names.Perm ((List.range (2 * (ordinary text.toList).length + text.toList.count '|' +
        text.toList.count '*' + pattern.blanks)).map stateName) ∧
      (∀ c, c ∈ nfa.alphabet ↔ c ∈ ordinary text.toList ∧ c ≠ epsilonMark) ∧
      (∃ start ∈ nfa.names, nfa.start = some start) ∧
      (∃ final ∈ nfa.names, final ∈ nfa.finals) ∧
      ∀ state ∈ nfa.states, state.isFinal = true ↔ state.name ∈ nfa.finals := by
  obtain ⟨pattern, built, hparse, hbuilt, rfl⟩ := exists_parse_of_compile h
  have hderives := derives_of_parse hparse
  have hrepresents := represents_of_build hbuilt
  have hassembled := assembled_of_build hbuilt
  have hnfa := hrepresents.wellFormed
  -- The counter ends at the number of states, which the text tells.
  have hcount : built.next = weight text.toList + pattern.blanks := by
    rw [hassembled.next_eq, hderives.stateCount_eq, Nat.zero_add]
  obtain ⟨start, hmem, hstart⟩ := hassembled.trim.exists_start
  refine ⟨pattern, hderives, ?_, ?_, ?_, ⟨start, hmem, hstart⟩, ?_, hnfa.tags⟩
  · intro other hother
    exact Except.ok.inj (hother.parse_eq.symm.trans hparse)
  · exact hcount ▸ hrepresents.perm_names
  · intro c
    rw [hnfa.mem_alphabet, ← hderives.letters_eq]
    exact hassembled.usesSymbol_iff
  · obtain ⟨final, hfinal, _⟩ := hassembled.trim.productive start hmem
    exact ⟨final, hnfa.finals_mem final hfinal, hfinal⟩

/-- There are three letters, a bar, a star and a blank. The states inside the group were final and
are so no more. -/
theorem compile_states_of_group :
    ∃ nfa, compile "(a|)*eb" = .ok nfa ∧ nfa.names.Perm ((List.range 9).map stateName) ∧
      (∀ c, c ∈ nfa.alphabet ↔ c ∈ ['a', 'e', 'b'] ∧ c ≠ epsilonMark) ∧ nfa.finals = ["q8"] ∧
      ∀ state ∈ nfa.states, state.isFinal = true ↔ state.name ∈ nfa.finals := by
  obtain ⟨nfa, hnfa, hfinals⟩ : ∃ nfa, compile "(a|)*eb" = .ok nfa ∧ nfa.finals = ["q8"] :=
    ⟨_, compile_of_parse rfl rfl, by decide⟩
  obtain ⟨pattern, _, hunique, hnames, halphabet, _, _, htags⟩ := compile_states hnfa
  have hderives : Derives .choice maxNesting "(a|)*eb".toList
      (.append (.append (.star (.choice (.literal 'a') .blank)) (.literal 'e')) (.literal 'b')) :=
    derives_of_parse rfl
  obtain rfl := hunique _ hderives
  exact ⟨nfa, hnfa, hnames, halphabet, hfinals, htags⟩

end Pattern

end Automata
