import Automata.Pattern.Build
import Automata.Pattern.Language
import Automata.Proofs.Nfa.Fragment
import Std.Data.String.ToNat

/-!
# The automaton of a pattern reads its words

The states of a part are numbered from the number that it is given to the next free one, so
parts that are built one after the other have no state in common. By induction on the tree,
each part is built, its automaton is consistent, and it reads what the part denotes. The ways
to combine the automata of parts realise the operations on languages also where the automata
have other shapes than those of parts.
-/

namespace Automata.Pattern

/-- The words of a pattern. -/
def language (pattern : Pattern) : Language Char := {word | Denotes pattern word}

variable {left right lower upper inner pattern : Pattern} {word : List Char} {number other : Nat}

/-! ### Languages of patterns -/

/-- The language has the words that the pattern denotes. -/
theorem mem_language : word ∈ pattern.language ↔ Denotes pattern word := Iff.rfl

/-- What stands in a row has the product of the languages. -/
theorem language_append : (append left right).language = left.language * right.language := by
  ext word
  rw [mem_language, denotes_append_iff, Language.mem_mul]
  constructor
  · rintro ⟨first, second, rfl, hfirst, hsecond⟩
    exact ⟨first, hfirst, second, hsecond, rfl⟩
  · rintro ⟨first, hfirst, second, hsecond, rfl⟩
    exact ⟨first, second, rfl, hfirst, hsecond⟩

/-- A choice has the sum of the languages. -/
theorem language_choice : (choice lower upper).language = lower.language + upper.language := by
  ext word
  rw [mem_language, denotes_choice_iff, Language.mem_add]
  exact Iff.rfl

/-- A star has the closure of the language. -/
theorem language_star : (star inner).language = KStar.kstar inner.language := by
  ext word
  rw [mem_language]
  constructor
  · intro h
    generalize hpattern : star inner = pattern at h
    induction h with
    | none => exact Language.nil_mem_kstar _
    | more hfirst _ _ ih =>
      obtain rfl := Pattern.star.inj hpattern
      exact Nfa.append_mem_kstar hfirst (ih rfl)
    | _ => simp at hpattern
  · intro hword
    obtain ⟨rounds, rfl, hrounds⟩ := Language.mem_kstar.mp hword
    clear hword
    induction rounds with
    | nil => exact .none
    | cons round rounds ih =>
      have hlater := ih fun later hlater => hrounds later (by simp [hlater])
      exact .more (hrounds round (by simp)) hlater

/-! ### Names of states -/

/-- Different numbers give different names. -/
theorem stateName_injective (h : stateName number = stateName other) : number = other := by
  have hdigits : toString number = toString other := by
    simpa [stateName] using h
  exact Nat.repr_inj.mp hdigits

/-- No number gives the empty name. -/
theorem stateName_ne_empty (number : Nat) : stateName number ≠ "" := by
  simp [stateName]

/-! ### Constructions -/

/-- The construction is one of the pattern, whose states are numbered from the number on. -/
structure Represents (pattern : Pattern) (number : Nat) (built : Construction) : Prop where
  wellFormed : built.nfa.WellFormed
  flags_eq : built.nfa.flags = {}
  number_le : number ≤ built.next
  mem_names : ∀ name, name ∈ built.nfa.names ↔
    ∃ k, number ≤ k ∧ k < built.next ∧ name = stateName k
  exists_start : ∃ start, built.nfa.start = some start
  language_eq : built.nfa.language = pattern.language

variable {first second built : Construction}

/-- A new state is not among the states numbered before it. -/
theorem Represents.not_mem_of_le (h : Represents pattern number built)
    (hnext : built.next ≤ other) : stateName other ∉ built.nfa.names := by
  intro hmem
  obtain ⟨k, _, hlt, hname⟩ := (h.mem_names _).mp hmem
  have hsame := stateName_injective hname
  omega

/-- Parts that are built one after the other have no state in common. -/
theorem Represents.disjoint (hfirst : Represents left number first)
    (hsecond : Represents right first.next second) :
    ∀ name ∈ first.nfa.names, name ∉ second.nfa.names := by
  intro name hname hname'
  obtain ⟨k, _, hlt, rfl⟩ := (hfirst.mem_names name).mp hname
  obtain ⟨l, hle, _, hsame⟩ := (hsecond.mem_names _).mp hname'
  have := stateName_injective hsame
  omega

/-- The states of two parts that are built one after the other are numbered on. -/
theorem Represents.mem_names_both (hfirst : Represents left number first)
    (hsecond : Represents right first.next second) (name : String) :
    name ∈ first.nfa.names ∨ name ∈ second.nfa.names ↔
      ∃ k, number ≤ k ∧ k < second.next ∧ name = stateName k := by
  have hle := hfirst.number_le
  have hle' := hsecond.number_le
  rw [hfirst.mem_names, hsecond.mem_names]
  constructor
  · rintro (⟨k, hk, hlt, rfl⟩ | ⟨k, hk, hlt, rfl⟩)
    · exact ⟨k, hk, by omega, rfl⟩
    · exact ⟨k, by omega, hlt, rfl⟩
  · rintro ⟨k, hk, hlt, rfl⟩
    by_cases hpart : k < first.next
    · exact Or.inl ⟨k, hk, hpart, rfl⟩
    · exact Or.inr ⟨k, by omega, hlt, rfl⟩

/-- One new state after those of a part is numbered on. -/
theorem mem_names_succ {next : Nat} {name : String} (hle : number ≤ next) :
    (name = stateName next ∨ ∃ k, number ≤ k ∧ k < next ∧ name = stateName k) ↔
      ∃ k, number ≤ k ∧ k < next + 1 ∧ name = stateName k := by
  constructor
  · rintro (rfl | ⟨k, hk, hlt, rfl⟩)
    · exact ⟨next, hle, by omega, rfl⟩
    · exact ⟨k, hk, by omega, rfl⟩
  · rintro ⟨k, hk, hlt, rfl⟩
    by_cases hlast : k = next
    · exact Or.inl (by rw [hlast])
    · exact Or.inr ⟨k, hk, by omega, rfl⟩

/-- The automaton of a blank is built and represents it. -/
theorem exists_build_blank (number : Nat) :
    ∃ built, build .blank number = .ok built ∧ Represents .blank number built := by
  obtain ⟨nfa, hnfa, hwf, hview⟩ := Nfa.exists_ofBlank (stateName_ne_empty number)
  have hnames : nfa.names = [stateName number] := congrArg Nfa.View.names hview
  have hstart : nfa.start = some (stateName number) := congrArg Nfa.View.start hview
  have hfinals : nfa.finals = [stateName number] := congrArg Nfa.View.finals hview
  have htargets : nfa.targets = fun _ _ => [] := congrArg Nfa.View.targets hview
  refine ⟨{ nfa, next := number + 1 }, ?_, ?_⟩
  · simp only [build, hnfa, bind, Except.bind, pure, Except.pure]
  · constructor
    case wellFormed => exact hwf
    case flags_eq => exact congrArg Nfa.View.flags hview
    case number_le => exact Nat.le_succ number
    case mem_names =>
      intro name
      rw [hnames, List.mem_singleton, ← mem_names_succ (Nat.le_refl number)]
      constructor
      · exact Or.inl
      · rintro (hname | ⟨k, hle, hlt, _⟩)
        · exact hname
        · omega
    case exists_start => exact ⟨_, hstart⟩
    case language_eq =>
      ext word
      rw [mem_language, denotes_blank_iff]
      exact Nfa.mem_language_of_edgeless hstart (by simp [hfinals]) (by simp [htargets])

/-- The automaton of a character is built and represents it. -/
theorem exists_build_literal (c : Char) (number : Nat) :
    ∃ built, build (.literal c) number = .ok built ∧ Represents (.literal c) number built := by
  have hne : stateName number ≠ stateName (number + 1) := by
    intro hsame
    have := stateName_injective hsame
    omega
  obtain ⟨nfa, hnfa, hwf, hview⟩ := Nfa.exists_ofSymbol (stateName_ne_empty number)
    (stateName_ne_empty (number + 1)) hne c
  have hnames : nfa.names = [stateName (number + 1), stateName number] :=
    congrArg Nfa.View.names hview
  have hstart : nfa.start = some (stateName number) := congrArg Nfa.View.start hview
  have hfinals : nfa.finals = [stateName (number + 1)] := congrArg Nfa.View.finals hview
  have htargets := congrArg Nfa.View.targets hview
  refine ⟨{ nfa, next := number + 2 }, ?_, ?_⟩
  · simp only [build, hnfa, bind, Except.bind, pure, Except.pure]
  · constructor
    case wellFormed => exact hwf
    case flags_eq => exact congrArg Nfa.View.flags hview
    case number_le => exact Nat.le_add_right number 2
    case mem_names =>
      intro name
      rw [← mem_names_succ (Nat.le_succ number), ← mem_names_succ (Nat.le_refl number), hnames]
      simp only [List.mem_cons, List.not_mem_nil, or_false]
      constructor
      · rintro (hname | hname)
        · exact Or.inl hname
        · exact Or.inr (Or.inl hname)
      · rintro (hname | hname | ⟨k, hle, hlt, _⟩)
        · exact Or.inl hname
        · exact Or.inr hname
        · omega
    case exists_start => exact ⟨_, hstart⟩
    case language_eq =>
      ext word
      rw [mem_language, denotes_literal_iff, ← Nfa.wordOf_ofChar]
      exact Nfa.mem_language_of_single hne hstart hfinals
        fun source label => congrFun₂ htargets source label

/-- Two parts, built one after the other, can be put together as a sequence. -/
theorem Represents.exists_append (hleft : Represents left number first)
    (hright : Represents right first.next second) :
    ∃ nfa, first.nfa.append second.nfa = .ok nfa ∧
      Represents (.append left right) number ⟨nfa, second.next⟩ := by
  obtain ⟨entry, hentry⟩ := hleft.exists_start
  obtain ⟨entry', hentry'⟩ := hright.exists_start
  obtain ⟨nfa, hnfa, hwf, hflags, hsequence⟩ :=
    Nfa.exists_append hleft.wellFormed hright.wellFormed hentry hentry'
  refine ⟨nfa, hnfa, ?_⟩
  constructor
  case wellFormed => exact hwf
  case flags_eq => exact hflags
  case number_le => exact hleft.number_le.trans hright.number_le
  case mem_names =>
    intro name
    rw [hsequence.mem_names, hleft.mem_names_both hright]
  case exists_start => exact ⟨entry, hsequence.start_eq.trans hentry⟩
  case language_eq =>
    rw [hsequence.language_eq hleft.wellFormed hright.wellFormed (hleft.disjoint hright),
      hleft.language_eq, hright.language_eq, language_append]

/-- Two parts, built one after the other, can be put together as alternatives. -/
theorem Represents.exists_choice (hlower : Represents lower number first)
    (hupper : Represents upper first.next second) :
    ∃ nfa, first.nfa.alternate second.nfa (stateName second.next) = .ok nfa ∧
      Represents (.choice lower upper) number ⟨nfa, second.next + 1⟩ := by
  obtain ⟨entry, hentry⟩ := hlower.exists_start
  obtain ⟨entry', hentry'⟩ := hupper.exists_start
  have hle := hlower.number_le
  have hle' := hupper.number_le
  obtain ⟨nfa, hnfa, hwf, hflags, halternation⟩ :=
    Nfa.exists_alternate hlower.wellFormed hupper.wellFormed hentry hentry'
      (stateName_ne_empty second.next)
  refine ⟨nfa, hnfa, ?_⟩
  constructor
  case wellFormed => exact hwf
  case flags_eq => exact hflags
  case number_le =>
    show number ≤ second.next + 1
    omega
  case mem_names =>
    intro name
    rw [halternation.mem_names, hlower.mem_names_both hupper, mem_names_succ (by omega)]
  case exists_start => exact ⟨_, halternation.start_eq⟩
  case language_eq =>
    rw [halternation.language_eq hlower.wellFormed hupper.wellFormed (hlower.disjoint hupper)
      (hlower.not_mem_of_le hle') (hupper.not_mem_of_le (Nat.le_refl _)),
      hlower.language_eq, hupper.language_eq, language_choice]

/-- A part can be repeated. -/
theorem Represents.exists_star (hinner : Represents inner number first) :
    ∃ nfa, first.nfa.star (stateName first.next) = .ok nfa ∧
      Represents (.star inner) number ⟨nfa, first.next + 1⟩ := by
  obtain ⟨entry, hentry⟩ := hinner.exists_start
  obtain ⟨nfa, hnfa, hwf, hflags, hrepetition⟩ :=
    Nfa.exists_star hinner.wellFormed hentry (stateName_ne_empty first.next)
  refine ⟨nfa, hnfa, ?_⟩
  constructor
  case wellFormed => exact hwf
  case flags_eq => exact hflags.trans hinner.flags_eq
  case number_le => exact hinner.number_le.trans (Nat.le_succ _)
  case mem_names =>
    intro name
    rw [hrepetition.mem_names, hinner.mem_names, mem_names_succ hinner.number_le]
  case exists_start => exact ⟨_, hrepetition.start_eq⟩
  case language_eq =>
    rw [hrepetition.language_eq hinner.wellFormed (hinner.not_mem_of_le (Nat.le_refl _)),
      hinner.language_eq, language_star]

/-- Every pattern has an automaton, and it reads the words of the pattern. -/
theorem exists_build (pattern : Pattern) (number : Nat) :
    ∃ built, pattern.build number = .ok built ∧ Represents pattern number built := by
  induction pattern generalizing number with
  | blank => exact exists_build_blank number
  | literal c => exact exists_build_literal c number
  | append left right ihLeft ihRight =>
    obtain ⟨first, hfirst, hleft⟩ := ihLeft number
    obtain ⟨second, hsecond, hright⟩ := ihRight first.next
    obtain ⟨nfa, hnfa, hrepresents⟩ := hleft.exists_append hright
    simp only [build, hfirst, hsecond, hnfa, bind, Except.bind, pure, Except.pure]
    exact ⟨_, rfl, hrepresents⟩
  | choice lower upper ihLower ihUpper =>
    obtain ⟨first, hfirst, hlower⟩ := ihLower number
    obtain ⟨second, hsecond, hupper⟩ := ihUpper first.next
    obtain ⟨nfa, hnfa, hrepresents⟩ := hlower.exists_choice hupper
    simp only [build, hfirst, hsecond, hnfa, bind, Except.bind, pure, Except.pure]
    exact ⟨_, rfl, hrepresents⟩
  | star inner ih =>
    obtain ⟨first, hfirst, hinner⟩ := ih number
    obtain ⟨nfa, hnfa, hrepresents⟩ := hinner.exists_star
    simp only [build, hfirst, hnfa, bind, Except.bind, pure, Except.pure]
    exact ⟨_, rfl, hrepresents⟩

/-- What is built of a pattern is a construction of it. -/
theorem represents_of_build (h : pattern.build number = .ok built) :
    Represents pattern number built := by
  obtain ⟨built', hbuilt', hrepresents⟩ := exists_build pattern number
  obtain rfl : built = built' := Except.ok.inj (h.symm.trans hbuilt')
  exact hrepresents

/-! ### Parts of any shape -/

/-- The three ways to combine automata realise union, product and powers of languages on any
built automata that have a start, share no state and do not have the next new state. Nothing
is asked of their shape: edges may lead to the start and away from final states, the start may
be final, and there may be no final state. -/
theorem combinations_realise_operations {left right : Nfa} {entry entry' : String}
    (hleft : left.Built) (hright : right.Built)
    (hentry : left.start = some entry) (hentry' : right.start = some entry')
    (hdisjoint : ∀ name ∈ left.names, name ∉ right.names) (hnew : stateName number ∉ left.names)
    (hnew' : stateName number ∉ right.names) :
    (∃ nfa, left.alternate right (stateName number) = .ok nfa ∧
      nfa.language = left.language + right.language) ∧
    (∃ nfa, left.append right = .ok nfa ∧ nfa.language = left.language * right.language) ∧
    ∃ nfa, left.star (stateName number) = .ok nfa ∧ nfa.language = KStar.kstar left.language := by
  have hwf := hleft.wellFormed
  have hwf' := hright.wellFormed
  have hne := stateName_ne_empty number
  obtain ⟨choice, hchoice, _, _, halternation⟩ := Nfa.exists_alternate hwf hwf' hentry hentry' hne
  obtain ⟨sequence, hsequence, _, _, happend⟩ := Nfa.exists_append hwf hwf' hentry hentry'
  obtain ⟨repetition, hrepetition, _, _, hstar⟩ := Nfa.exists_star hwf hentry hne
  exact ⟨⟨choice, hchoice, halternation.language_eq hwf hwf' hdisjoint hnew hnew'⟩,
    ⟨sequence, hsequence, happend.language_eq hwf hwf' hdisjoint⟩,
    ⟨repetition, hrepetition, hstar.language_eq hwf hnew⟩⟩

/-- An automaton with a final start to which edges lead back from a final state. -/
def backToStart : Nfa :=
  .ofAdditions {} [.start "s", .final "s", .final "t", .edge "s" 'a' "t", .edge "t" 'b' "s",
    .epsilonEdge "t" "s"]

/-- An automaton without a final state. -/
def endless : Nfa :=
  .ofAdditions {} [.start "q1", .state "q2", .edge "q1" 'c' "q2", .edge "q2" 'd' "q1"]

/-- Neither shape is what the parts of a pattern look like. -/
theorem combinations_realise_operations_endless :
    backToStart.Built ∧ endless.Built ∧ backToStart.start = some "s" ∧
      endless.start = some "q1" ∧ (∀ name ∈ backToStart.names, name ∉ endless.names) ∧
      stateName 0 ∉ backToStart.names ∧ stateName 0 ∉ endless.names ∧
      (∃ nfa, backToStart.alternate endless (stateName 0) = .ok nfa ∧
        nfa.language = backToStart.language + endless.language) ∧
      (∃ nfa, backToStart.append endless = .ok nfa ∧
        nfa.language = backToStart.language * endless.language) ∧
      ∃ nfa, backToStart.star (stateName 0) = .ok nfa ∧
        nfa.language = KStar.kstar backToStart.language := by
  have hbuilt : backToStart.Built := ⟨_, _, rfl⟩
  have hbuilt' : endless.Built := ⟨_, _, rfl⟩
  have hdisjoint : ∀ name ∈ backToStart.names, name ∉ endless.names := by decide
  have hnew : stateName 0 ∉ backToStart.names := by decide
  have hnew' : stateName 0 ∉ endless.names := by decide
  have hstart : backToStart.start = some "s" := by decide
  have hstart' : endless.start = some "q1" := by decide
  exact ⟨hbuilt, hbuilt', hstart, hstart', hdisjoint, hnew, hnew',
    combinations_realise_operations hbuilt hbuilt' hstart hstart' hdisjoint hnew hnew'⟩

end Automata.Pattern
