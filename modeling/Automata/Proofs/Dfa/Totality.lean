import Automata.Proofs.Dfa.History
import Automata.Proofs.Dfa.Run

/-!
# Missing moves and totality

In an automaton that additions built, the moves from the start stay among the states. So where
no move is left out, following a word on the alphabet never breaks off and no input fails. The
converse needs states that words lead to: a word that leads to the source of a missing move,
with the symbol of that move behind it, is an input that fails.
-/

namespace Automata.Dfa

variable {dfa : Dfa} {source start name : String} {word : List Char}

/-! ### The states of built automata -/

/-- The start and the targets of the moves are among the states, whose names differ. -/
structure WellFormed (dfa : Dfa) : Prop where
  names_nodup : dfa.names.Nodup
  start_mem : ∀ start, dfa.start = some start → start ∈ dfa.names
  target_mem : ∀ source symbol target,
    dfa.target source symbol = some target → target ∈ dfa.names

/-- What additions build is consistent, since an edge is granted only between states. -/
theorem Built.wellFormed (h : dfa.Built) : dfa.WellFormed := by
  obtain ⟨flags, additions, rfl⟩ := h
  have hholds := holds_ofAdditions flags additions
  constructor
  case names_nodup => exact hholds.names_nodup
  case start_mem =>
    intro start hstart
    rw [hholds.start_eq] at hstart
    obtain ⟨request, hrequest, hname⟩ := List.mem_filterMap.mp (List.mem_of_getLast? hstart)
    rw [hholds.names_eq, List.mem_eraseDups]
    refine List.mem_filterMap.mpr ⟨request, hrequest, ?_⟩
    cases request <;> simp_all [Request.start?, Request.name?]
  case target_mem =>
    intro source symbol target htarget
    rw [hholds.target_eq] at htarget
    obtain ⟨request, hrequest, hmove⟩ := List.mem_filterMap.mp (List.mem_of_getLast? htarget)
    have hend : target ∈ request.ends := by
      cases request <;> simp_all [Request.target?, Request.ends]
    rw [hholds.names_eq, List.mem_eraseDups]
    exact Request.mem_of_mem_granted hrequest target hend

/-! ### Total automata -/

/-- Where no move is left out, every word on the alphabet leads to a state. -/
theorem WellFormed.exists_follow (h : dfa.WellFormed) (htotal : dfa.isTotal = true)
    (hsource : source ∈ dfa.names) (hword : ∀ c ∈ word, c ∈ dfa.alphabet) :
    ∃ last, dfa.follow source word = some last := by
  induction word generalizing source with
  | nil => exact ⟨source, rfl⟩
  | cons symbol word ih =>
    obtain ⟨next, hmove⟩ :=
      (isTotal_iff h.names_nodup).mp htotal source hsource symbol (hword symbol (by simp))
    obtain ⟨last, hfollow⟩ := ih (h.target_mem source symbol next hmove)
      fun c hc => hword c (by simp [hc])
    exact ⟨last, by rw [follow_cons, hmove, Option.bind_some, hfollow]⟩

/-- A total automaton with a start fails on no input. -/
theorem WellFormed.accepts_ne_error (h : dfa.WellFormed) (hstart : dfa.start = some start)
    (htotal : dfa.isTotal = true) (input : String) (error : Error) :
    dfa.accepts input ≠ .error error := by
  intro hfails
  obtain ⟨state, symbol, hbreaks, _⟩ := (accepts_eq_error_iff hstart).mp hfails
  have hread : ∀ c ∈ readable dfa.alphabet input.toList, c ∈ dfa.alphabet :=
    fun c => mem_of_mem_readable
  obtain ⟨last, hfollow⟩ := h.exists_follow htotal (h.start_mem start hstart) hread
  have hnone := follow_eq_none_iff.mpr ⟨state, symbol, hbreaks⟩
  simp [hfollow] at hnone

/-- Where words on the alphabet lead to all states and no input fails, no move is left out. -/
theorem WellFormed.isTotal_of_accepts (h : dfa.WellFormed) (hstart : dfa.start = some start)
    (hreached : ∀ name ∈ dfa.names, ∃ word, (∀ c ∈ word, c ∈ dfa.alphabet) ∧
      dfa.follow start word = some name)
    (hnone : ∀ (input : String) (error : Error), dfa.accepts input ≠ .error error) :
    dfa.isTotal = true := by
  refine (isTotal_iff h.names_nodup).mpr fun name hname symbol hsymbol => ?_
  obtain ⟨word, hword, hfollow⟩ := hreached name hname
  rw [← Option.ne_none_iff_exists']
  intro hmissing
  -- The word with the symbol behind it is an input that fails for want of the move.
  have hover : ∀ c ∈ word ++ [symbol], c ∈ dfa.alphabet := by
    simpa [or_imp, forall_and, hsymbol] using hword
  have hbreaks : dfa.BreaksOff start
      (readable dfa.alphabet (String.ofList (word ++ [symbol])).toList) name symbol := by
    rw [String.toList_ofList, readable_eq_self hover]
    exact ⟨word, List.prefix_rfl, hfollow, hmissing⟩
  exact hnone _ _ ((accepts_eq_error_iff hstart).mpr ⟨name, symbol, hbreaks, rfl⟩)

/-- A built automaton with a start reads the longest beginning of an input within the alphabet.
It fails for want of a move when following that beginning breaks off there. Otherwise it accepts
when that is the whole input, or the mark comes next and may end the run, and the state to which
it leads is final, and rejects the input if not. So a total automaton fails on no input, and one
that fails on none is total if words on the alphabet lead to all of its states. -/
theorem accepts_by_moves (h : dfa.Built) (hstart : dfa.start = some start) :
    (∀ input : String, ∃ read, LongestReadable dfa.alphabet input.toList read ∧
      (∀ state symbol, dfa.accepts input = .error (.missingTransition state symbol) ↔
        dfa.BreaksOff start read state symbol) ∧
      ((¬ ∃ state symbol, dfa.BreaksOff start read state symbol) →
        ∃ last, dfa.follow start read = some last ∧
          ∃ verdict, dfa.accepts input = .ok verdict ∧
            (verdict = true ↔
              (input.toList = read ∨
                (∃ rest, input.toList = read ++ epsilonMark :: rest) ∧
                  dfa.flags.epsilonShortcut = true) ∧
              dfa.isFinal last = true))) ∧
    (dfa.isTotal = true → ∀ input error, dfa.accepts input ≠ .error error) ∧
    ((∀ name ∈ dfa.names, ∃ word, (∀ c ∈ word, c ∈ dfa.alphabet) ∧
        dfa.follow start word = some name) →
      (∀ input error, dfa.accepts input ≠ .error error) → dfa.isTotal = true) := by
  have hdfa := h.wellFormed
  refine ⟨?_, hdfa.accepts_ne_error hstart, hdfa.isTotal_of_accepts hstart⟩
  intro input
  refine ⟨_, longestReadable_readable dfa.alphabet input.toList, ?_, ?_⟩
  · intro state symbol
    rw [accepts_eq_error_iff hstart]
    constructor
    · rintro ⟨_, _, hbreaks, hsame⟩
      obtain ⟨rfl, rfl⟩ := Error.missingTransition.inj hsame
      exact hbreaks
    · exact fun hbreaks => ⟨state, symbol, hbreaks, rfl⟩
  · intro hgoes
    obtain ⟨last, hlast⟩ := Option.ne_none_iff_exists'.mp (mt follow_eq_none_iff.mp hgoes)
    have hafter : dfa.stateAfter (readable dfa.alphabet input.toList) = some last := by
      rw [stateAfter, hstart, Option.bind_some, hlast]
    obtain ⟨verdict, haccepts, hverdict⟩ := accepts_eq hafter
    rw [judged_iff_split] at hverdict
    exact ⟨last, hlast, verdict, haccepts, hverdict⟩

/-- An automaton with the mark in its alphabet and two moves missing. -/
def withMark : Dfa :=
  ofAdditions {} [.start "p", .final "q", .edge "p" 'a' "q", .edge "q" 'e' "p"]

/-- The second letter finds no move, and since words lead to both states, that some input fails
follows from the missing moves alone. -/
theorem accepts_by_moves_withMark :
    withMark.Built ∧ withMark.start = some "p" ∧
      (∃ read, LongestReadable withMark.alphabet "aaxe".toList read ∧
        withMark.BreaksOff "p" read "q" 'a') ∧
      (∀ name ∈ withMark.names, ∃ word, (∀ c ∈ word, c ∈ withMark.alphabet) ∧
        withMark.follow "p" word = some name) ∧
      withMark.isTotal = false ∧
      ¬ ∀ (input : String) (error : Error), withMark.accepts input ≠ .error error := by
  have hbuilt : withMark.Built := ⟨_, _, rfl⟩
  have hstart : withMark.start = some "p" := by decide
  have hfails : withMark.accepts "aaxe" = .error (.missingTransition "q" 'a') := rfl
  have hreached : ∀ name ∈ withMark.names, ∃ word, (∀ c ∈ word, c ∈ withMark.alphabet) ∧
      withMark.follow "p" word = some name := by
    have hnames : withMark.names = ["p", "q"] := by decide
    simp only [hnames, List.mem_cons, List.not_mem_nil, or_false, forall_eq_or_imp, forall_eq]
    have hletter : 'a' ∈ withMark.alphabet := by decide
    exact ⟨⟨[], by simp, rfl⟩, ⟨['a'], by simpa using hletter, rfl⟩⟩
  have htotal : withMark.isTotal = false := by decide
  obtain ⟨hinputs, _, hconverse⟩ := accepts_by_moves hbuilt hstart
  obtain ⟨read, hread, hbreaks, _⟩ := hinputs "aaxe"
  refine ⟨hbuilt, hstart, ⟨read, hread, (hbreaks "q" 'a').mp hfails⟩, hreached, htotal, ?_⟩
  intro hnone
  simp [hconverse hreached hnone] at htotal

end Automata.Dfa
