import Automata.Description.Reader
import Automata.Proofs.Description.Build
import Automata.Proofs.Dfa.Outcome
import Automata.Proofs.Pattern.Productions
import Mathlib.InformationTheory.Coding.UniquelyDecodable

/-!
# Conversions in which no name is ambiguous

The name of a subset can be taken apart into the names of its members when these form a
uniquely decodable code. Two kinds of automaton have such names. The states of a compiled
pattern begin with a letter that does not occur further on in their names, which are numbers
of any length. The states that a described automaton reaches have names as long as that of
the start. So converting either never fails for an ambiguous name.
-/

namespace Automata

open InformationTheory

/-! ### Uniquely decodable names -/

/-- Words of one length that is not zero can be told apart when written without a gap. -/
theorem uniquelyDecodable_of_length {words : Set (List Char)} {length : Nat} (hpos : 0 < length)
    (h : ∀ word ∈ words, word.length = length) : UniquelyDecodable words := by
  intro first second hfirst hsecond hjoin
  induction first generalizing second with
  | nil =>
    cases second with
    | nil => rfl
    | cons word second =>
      have hword := h word (hsecond word (by simp))
      obtain ⟨rfl, _⟩ := List.append_eq_nil_iff.mp hjoin.symm
      simp at hword
      omega
  | cons word first ih =>
    have hword := h word (hfirst word (by simp))
    cases second with
    | nil =>
      obtain ⟨rfl, _⟩ := List.append_eq_nil_iff.mp hjoin
      simp at hword
      omega
    | cons word' second =>
      have hword' := h word' (hsecond word' (by simp))
      obtain ⟨rfl, hrest⟩ := List.append_inj hjoin (hword.trans hword'.symm)
      rw [ih second (fun w hw => hfirst w (by simp [hw])) (fun w hw => hsecond w (by simp [hw]))
        hrest]

/-- Words that begin with a mark and do not have it further on can be told apart when
written without a gap. -/
theorem uniquelyDecodable_of_mark {words : Set (List Char)} (mark : Char)
    (h : ∀ word ∈ words, ∃ rest, word = mark :: rest ∧ mark ∉ rest) :
    UniquelyDecodable words := by
  intro first second hfirst hsecond hjoin
  -- Behind a word, the next mark is the beginning of another word.
  have hcut : ∀ (rest : List Char) (later : List (List Char)), mark ∉ rest →
      (∀ word ∈ later, word ∈ words) →
      (rest ++ later.flatten).takeWhile (· ≠ mark) = rest := by
    intro rest later hrest hlater
    rw [List.takeWhile_append_of_pos fun c hc => by simpa using ne_of_mem_of_not_mem hc hrest]
    cases later with
    | nil => simp
    | cons word later =>
      obtain ⟨tail, rfl, _⟩ := h word (hlater word (by simp))
      simp
  induction first generalizing second with
  | nil =>
    cases second with
    | nil => rfl
    | cons word second =>
      obtain ⟨rest, rfl, _⟩ := h word (hsecond word (by simp))
      simp at hjoin
  | cons word first ih =>
    obtain ⟨rest, rfl, hrest⟩ := h word (hfirst word (by simp))
    cases second with
    | nil => simp at hjoin
    | cons word' second =>
      obtain ⟨rest', rfl, hrest'⟩ := h word' (hsecond word' (by simp))
      have hfirst' : ∀ word ∈ first, word ∈ words := fun w hw => hfirst w (by simp [hw])
      have hsecond' : ∀ word ∈ second, word ∈ words := fun w hw => hsecond w (by simp [hw])
      have htail : rest ++ first.flatten = rest' ++ second.flatten := by simpa using hjoin
      have hsame : rest = rest' := by
        rw [← hcut rest first hrest hfirst', htail, hcut rest' second hrest' hsecond']
      subst hsame
      rw [ih second hfirst' hsecond' (List.append_cancel_left htail)]

namespace Nfa

variable {nfa : Nfa} {states states' : Set String} {text start name : String} {limit : Nat}
variable {codes : Set (List Char)}

/-- Where names are uniquely decodable, a set is determined by its name. -/
theorem Joins.injective (hcodes : UniquelyDecodable codes)
    (hstates : ∀ name ∈ states, name.toList ∈ codes)
    (hstates' : ∀ name ∈ states', name.toList ∈ codes)
    (h : Joins states text) (h' : Joins states' text) : states = states' := by
  obtain ⟨names, _, hmem, rfl⟩ := h
  obtain ⟨names', _, hmem', hjoin⟩ := h'
  have hflatten : (names.map String.toList).flatten = (names'.map String.toList).flatten := by
    have htext := congrArg String.toList hjoin
    rwa [String.toList_join, String.toList_join, List.flatMap_def, List.flatMap_def] at htext
  have hwords : names.map String.toList = names'.map String.toList := by
    refine hcodes _ _ ?_ ?_ hflatten
    · intro word hword
      obtain ⟨name, hname, rfl⟩ := List.mem_map.mp hword
      exact hstates name ((hmem name).mp hname)
    · intro word hword
      obtain ⟨name, hname, rfl⟩ := List.mem_map.mp hword
      exact hstates' name ((hmem' name).mp hname)
  have hnames : names = names' :=
    List.map_injective_iff.mpr (fun _ _ => String.toList_injective) hwords
  ext name
  rw [← hmem, ← hmem', hnames]

/-- A conversion fails for an ambiguous name only where two reached sets share it. -/
theorem WellFormed.sharesName_of_toDfaWithin (h : nfa.WellFormed)
    (herror : nfa.toDfaWithin limit = .error (.ambiguousSubsetName name)) :
    nfa.SharesName name := by
  cases hstart : nfa.start with
  | none => simp [toDfaWithin_no_start hstart] at herror
  | some start =>
    rcases h.toDfaWithin_cases hstart limit with
      ⟨_, count, _, _, hend⟩ | ⟨_, other, hshares, hend⟩ | ⟨_, _, dfa, _, hend⟩
    · simp [hend] at herror
    · rw [hend, Except.error.injEq, Error.ambiguousSubsetName.injEq] at herror
      exact herror ▸ hshares
    · simp [hend] at herror

/-- Where the names of all reached states are uniquely decodable, no conversion fails for an
ambiguous name. -/
theorem WellFormed.not_ambiguous (h : nfa.WellFormed) (hcodes : UniquelyDecodable codes)
    (hreached : ∀ word, ∀ state ∈ nfa.reached word, state.toList ∈ codes) (limit : Nat)
    (name : String) : nfa.toDfaWithin limit ≠ .error (.ambiguousSubsetName name) := by
  intro herror
  obtain ⟨_, ⟨word, _, rfl⟩, _, ⟨word', _, rfl⟩, hne, hjoins, hjoins'⟩ :=
    h.sharesName_of_toDfaWithin herror
  exact hne (hjoins.injective hcodes (hreached word) (hreached word') hjoins')

end Nfa

/-! ### Compiled patterns -/

namespace Pattern

/-- The names of states begin with a letter, and digits follow. -/
theorem exists_digits_of_stateName (number : Nat) :
    ∃ digits, (stateName number).toList = 'q' :: digits ∧ 'q' ∉ digits := by
  refine ⟨Nat.toDigits 10 number, ?_, ?_⟩
  · simp [stateName, Nat.toList_repr]
  · intro hmem
    have hdigit := Nat.isDigit_of_mem_toDigits (by decide) (by decide) hmem
    simp at hdigit

/-- The names of numbered states are uniquely decodable. -/
theorem uniquelyDecodable_stateNames :
    UniquelyDecodable {word | ∃ number, word = (stateName number).toList} := by
  apply uniquelyDecodable_of_mark 'q'
  rintro _ ⟨number, rfl⟩
  exact exists_digits_of_stateName number

/-- What a pattern compiles to represents some pattern, with states numbered from zero. -/
theorem exists_represents_of_compile {text : String} {nfa : Nfa} (h : compile text = .ok nfa) :
    ∃ pattern built, Represents pattern 0 built ∧ built.nfa = nfa := by
  obtain ⟨pattern, built, hbuilt, hnfa⟩ := exists_build_of_compile h
  exact ⟨pattern, built, represents_of_build hbuilt, hnfa⟩

/-- No name is ambiguous when a compiled pattern is converted. -/
theorem not_ambiguous_of_compile {text : String} {nfa : Nfa} (h : compile text = .ok nfa)
    (limit : Nat) (name : String) :
    nfa.toDfaWithin limit ≠ .error (.ambiguousSubsetName name) := by
  obtain ⟨pattern, built, hrepresents, rfl⟩ := exists_represents_of_compile h
  refine hrepresents.wellFormed.not_ambiguous uniquelyDecodable_stateNames ?_ limit name
  intro word state hstate
  obtain ⟨number, _, _, rfl⟩ :=
    (hrepresents.mem_names state).mp (hrepresents.wellFormed.reached_mem hstate)
  exact ⟨number, rfl⟩

end Pattern

/-! ### Described automata -/

namespace Description

/-- The states that a described automaton reaches have names as long as that of its start,
so no name is ambiguous when it is converted. -/
theorem not_ambiguous_of_toNfa {description : Description} {flags : Flags} {nfa : Nfa}
    (h : description.toNfa flags = .ok nfa) (limit : Nat) (name : String) :
    nfa.toDfaWithin limit ≠ .error (.ambiguousSubsetName name) := by
  have hwf := wellFormed_of_toNfa h
  have hlength := keepsLength_of_toNfa h
  intro herror
  cases hstart : nfa.start with
  | none => simp [Nfa.toDfaWithin_no_start hstart] at herror
  | some start =>
    have hne : start ≠ "" := hwf.names_ne_empty start (hwf.start_mem start hstart)
    have hpos : 0 < start.length := by
      rw [Nat.pos_iff_ne_zero]
      simpa using hne
    have hcodes : UniquelyDecodable {word : List Char | word.length = start.length} :=
      uniquelyDecodable_of_length hpos fun _ hword => hword
    refine hwf.not_ambiguous hcodes ?_ limit name herror
    rintro word state ⟨other, hother, hpath⟩
    rw [hstart, Option.some.injEq] at hother
    subst hother
    show state.toList.length = start.length
    rw [String.length_toList, hlength.path hpath]

end Description

/-- Converting the automaton of a pattern or of a description, under any limit, never fails
because two subsets share a name. -/
theorem conversion_not_ambiguous :
    (∀ text nfa, Pattern.compile text = .ok nfa →
      ∀ name, nfa.toDfa ≠ .error (.ambiguousSubsetName name) ∧
        ∀ limit, nfa.toDfaWithin limit ≠ .error (.ambiguousSubsetName name)) ∧
    (∀ text description flags nfa, Description.parse text = .ok description →
      description.toNfa flags = .ok nfa →
      ∀ name, nfa.toDfa ≠ .error (.ambiguousSubsetName name) ∧
        ∀ limit, nfa.toDfaWithin limit ≠ .error (.ambiguousSubsetName name)) := by
  constructor
  · intro text nfa h name
    exact ⟨Pattern.not_ambiguous_of_compile h Nfa.maxSubsets name,
      fun limit => Pattern.not_ambiguous_of_compile h limit name⟩
  · intro text description flags nfa _ h name
    exact ⟨Description.not_ambiguous_of_toNfa h Nfa.maxSubsets name,
      fun limit => Description.not_ambiguous_of_toNfa h limit name⟩

/-- A pattern whose states have numbers of one and of two digits, and a description in which
only the start and a state that is not reached have names of several characters. -/
theorem conversion_not_ambiguous_long_names :
    (∃ nfa, Pattern.compile "(a|b)*aab" = .ok nfa ∧
      ∀ limit name, nfa.toDfaWithin limit ≠ .error (.ambiguousSubsetName name)) ∧
    (∃ description nfa, Description.parse "b\nstart\na ab\na0b aeb\n" = .ok description ∧
      description.toNfa {} = .ok nfa ∧
      ∀ limit name, nfa.toDfaWithin limit ≠ .error (.ambiguousSubsetName name)) := by
  obtain ⟨hpattern, hdescription⟩ := conversion_not_ambiguous
  constructor
  · obtain ⟨pattern, hparse⟩ : ∃ pattern, Pattern.parse "(a|b)*aab".toList = .ok pattern :=
      ⟨_, rfl⟩
    obtain ⟨built, hnfa, _⟩ := Pattern.exists_compile_of_parse hparse
    exact ⟨built.nfa, hnfa, fun limit name => (hpattern _ built.nfa hnfa name).2 limit⟩
  · obtain ⟨description, hparse, nfa, hnfa⟩ : ∃ description : Description,
        Description.parse "b\nstart\na ab\na0b aeb\n" = .ok description ∧
          ∃ nfa, description.toNfa {} = .ok nfa := by
      refine ⟨⟨["b"], "start", ["a", "ab"], [⟨'a', '0', 'b'⟩, ⟨'a', 'e', 'b'⟩], []⟩, ?_, _, rfl⟩
      decide +kernel
    exact ⟨description, nfa, hparse, hnfa,
      fun limit name => (hdescription _ description {} nfa hparse hnfa name).2 limit⟩

end Automata
