import Automata.Proofs.Description.Words
import Mathlib.Data.List.Forall2
import Mathlib.Data.List.TakeWhile

/-!
# The format of descriptions

On the first three lines separators are the only blanks, the second has one word, and each
word of the fourth is an edge. A text in this format is read as the words of its lines say,
with the later lines as inputs. In any other text the first line that breaks the format is
told, with the characters from which on it cannot be read.
-/

namespace Automata.Description

open Text

/-! ### What the format says of a line -/

/-- Separators are the only blanks of the line. -/
def Clean (line : List Char) : Prop := ∀ c ∈ line, isBlank c = true → isSeparator c = true

/-- The line goes on like this from its first blank that does not separate. -/
def StartsForeign (line rest : List Char) : Prop :=
  ∃ before c after, line = before ++ c :: after ∧ rest = c :: after ∧ Clean before ∧
    isBlank c = true ∧ isSeparator c = false

/-- The word of an edge. -/
def Edge.text (edge : Edge) : List Char := [edge.source, edge.symbol, edge.target]

/-- A word is one of an edge when it has three characters, none of them blank. -/
def IsEdgeText (word : List Char) : Prop := word.length = 3 ∧ ∀ c ∈ word, isBlank c = false

/-- What cannot be read of a word that is not one of an edge: what follows its first three
characters if none of these is blank, and else all of it. -/
def unreadable (word : List Char) : List Char :=
  if 3 ≤ word.length && (word.take 3).all (!isBlank ·) then word.drop 3 else word

/-- The first run of the line that is not the word of an edge. -/
structure FirstBadWord (line before word after : List Char) : Prop
    extends RunAt line before word after where
  bad : ¬ IsEdgeText word
  first : ∀ before' word' after', RunAt line before' word' after' →
    before'.length < before.length → IsEdgeText word'

/-- The line of this number breaks the format, and cannot be read from these characters on. -/
inductive LineFault : Nat → List Char → List Char → Prop where
  | foreign {number : Nat} {line rest : List Char}
      (names : number = 1 ∨ number = 2 ∨ number = 3) (starts : StartsForeign line rest) :
      LineFault number line rest
  | count {line : List Char} (clean : Clean line) (several : (runs line).length ≠ 1) :
      LineFault 2 line []
  | edge {line before word after : List Char} (bad : FirstBadWord line before word after) :
      LineFault 4 line (unreadable word ++ after)

/-- The line of a number, counted from one. A line that is missing is empty. -/
def lineAt (lines : List (List Char)) (number : Nat) : List Char := lines.getD (number - 1) []

/-- No line before the one of this number breaks the format. -/
def Passes (lines : List (List Char)) (number : Nat) : Prop :=
  ∀ earlier < number, ∀ rest, ¬ LineFault earlier (lineAt lines earlier) rest

/-- The line of this number is the first that breaks the format. -/
structure FirstFaultyLine (lines : List (List Char)) (number : Nat) (rest : List Char) : Prop where
  fault : LineFault number (lineAt lines number) rest
  passes : Passes lines number

/-- The lines are in the format of descriptions. -/
structure InFormat (lines : List (List Char)) : Prop where
  clean : Clean (lineAt lines 1) ∧ Clean (lineAt lines 2) ∧ Clean (lineAt lines 3)
  start : (runs (lineAt lines 2)).length = 1
  edges : ∀ word ∈ runs (lineAt lines 4), IsEdgeText word

/-- What remains of the line without the blanks at its ends. -/
structure Trims (line core : List Char) : Prop where
  split : ∃ left right, line = left ++ core ++ right ∧
    (∀ c ∈ left, isBlank c = true) ∧ ∀ c ∈ right, isBlank c = true
  head : ∀ c ∈ core.head?, isBlank c = false
  last : ∀ c ∈ core.getLast?, isBlank c = false

/-- The description has the words of the first four lines, and as inputs what remains of the
later ones without the blanks around it. -/
structure Describes (lines : List (List Char)) (description : Description) : Prop where
  finals : description.finals.map String.toList = runs (lineAt lines 1)
  start : [description.start.toList] = runs (lineAt lines 2)
  states : description.states.map String.toList = runs (lineAt lines 3)
  edges : description.edges.map Edge.text = runs (lineAt lines 4)
  inputs : ∃ cores, List.Forall₂ Trims (lines.drop 4) cores ∧
    description.inputs.map String.toList = cores.filter fun core => !core.isEmpty

variable {line before word after word' after' core rest rest' : List Char} {c : Char}
variable {number number' : Nat} {lines : List (List Char)}

/-! ### The first bad word of a line -/

/-- A separator in front of a line moves its first bad word along. -/
theorem FirstBadWord.cons_separator (h : FirstBadWord line before word after)
    (hc : isSeparator c = true) : FirstBadWord (c :: line) (c :: before) word after := by
  refine ⟨(runAt_cons_separator hc).mpr ⟨before, rfl, h.toRunAt⟩, h.bad, ?_⟩
  intro before' word' after' hplace hlt
  obtain ⟨shorter, rfl, hlater⟩ := (runAt_cons_separator hc).mp hplace
  exact h.first shorter word' after' hlater (by simpa using hlt)

/-- A line whose first run is bad has it as its first bad word. -/
theorem Run.firstBadWord (h : Run word after) (hword : ¬ IsEdgeText word) :
    FirstBadWord (word ++ after) [] word after :=
  ⟨h.runAt_append_iff.mpr (Or.inl ⟨rfl, rfl, rfl⟩), hword,
    fun _ _ _ _ hlt => absurd hlt (Nat.not_lt_zero _)⟩

/-- Good words in front leave the first bad word where it is in the rest. -/
theorem FirstBadWord.append (h : FirstBadWord after before word' after') (hrun : Run word after)
    (hword : IsEdgeText word) : FirstBadWord (word ++ after) (word ++ before) word' after' := by
  refine ⟨hrun.runAt_append_iff.mpr (Or.inr ⟨before, rfl, h.toRunAt⟩), h.bad, ?_⟩
  intro earlier other later hplace hlt
  rcases hrun.runAt_append_iff.mp hplace with ⟨-, rfl, -⟩ | ⟨shorter, rfl, hlater⟩
  · exact hword
  · exact h.first shorter other later hlater (by simpa using hlt)

/-! ### Faults are determined -/

/-- A line that goes on with a foreign blank is not clean. -/
theorem StartsForeign.not_clean (h : StartsForeign line rest) : ¬ Clean line := by
  obtain ⟨before, c, after, rfl, _, _, hblank, hseparator⟩ := h
  intro hclean
  simp [hclean c (by simp) hblank] at hseparator

/-- A line has one first foreign blank, so one place from which it cannot be read. -/
theorem StartsForeign.unique (h : StartsForeign line rest) (h' : StartsForeign line rest') :
    rest = rest' := by
  obtain ⟨before, c, after, rfl, rfl, hclean, hblank, hseparator⟩ := h
  obtain ⟨before', c', after', hsame, rfl, hclean', hblank', hseparator'⟩ := h'
  -- A place further on would have the other blank before it.
  rcases List.append_eq_append_iff.mp hsame with ⟨more, rfl, hrest⟩ | ⟨more, rfl, hrest⟩
  · cases more with
    | nil => exact hrest
    | cons d more =>
      obtain ⟨rfl, _⟩ := List.cons_eq_cons.mp hrest
      simp [hclean' c (by simp) hblank] at hseparator
  · cases more with
    | nil => exact hrest.symm
    | cons d more =>
      obtain ⟨rfl, _⟩ := List.cons_eq_cons.mp hrest
      simp [hclean c' (by simp) hblank'] at hseparator'

/-- A line has one first bad word. -/
theorem FirstBadWord.unique {before' : List Char} (h : FirstBadWord line before word after)
    (h' : FirstBadWord line before' word' after') :
    word = word' ∧ after = after' := by
  have hnot : ¬ before.length < before'.length :=
    fun hlt => h.bad (h'.first before word after h.toRunAt hlt)
  have hnot' : ¬ before'.length < before.length :=
    fun hlt => h'.bad (h.first before' word' after' h'.toRunAt hlt)
  obtain ⟨rfl, hsame⟩ := List.append_inj (h.split.symm.trans h'.split) (by omega)
  exact h.toRun.eq_of_append_eq h'.toRun hsame

/-- The place from which a faulty line cannot be read is determined by the line. -/
theorem LineFault.unique (h : LineFault number line rest) (h' : LineFault number line rest') :
    rest = rest' := by
  cases h with
  | foreign names starts =>
    cases h' with
    | foreign _ starts' => exact starts.unique starts'
    | count clean _ => exact absurd clean starts.not_clean
    | edge _ => omega
  | count clean _ =>
    cases h' with
    | foreign _ starts' => exact absurd clean starts'.not_clean
    | count _ _ => rfl
  | edge bad =>
    cases h' with
    | foreign names _ => omega
    | edge bad' =>
      obtain ⟨rfl, rfl⟩ := bad.unique bad'
      rfl

/-- A text has one first line that breaks the format. -/
theorem FirstFaultyLine.unique (h : FirstFaultyLine lines number rest)
    (h' : FirstFaultyLine lines number' rest') : number = number' ∧ rest = rest' := by
  have hnot : ¬ number < number' := fun hlt => h'.passes number hlt rest h.fault
  have hnot' : ¬ number' < number := fun hlt => h.passes number' hlt rest' h'.fault
  obtain rfl : number = number' := by omega
  exact ⟨rfl, h.fault.unique h'.fault⟩

/-- A text with a faulty line is not in the format. -/
theorem FirstFaultyLine.not_inFormat (h : FirstFaultyLine lines number rest) :
    ¬ InFormat lines := by
  rintro ⟨⟨hfirst, hsecond, hthird⟩, hstart, hedges⟩
  have hfault := h.fault
  generalize hline : lineAt lines number = line at hfault
  cases hfault with
  | foreign names starts =>
    subst hline
    rcases names with rfl | rfl | rfl
    · exact starts.not_clean hfirst
    · exact starts.not_clean hsecond
    · exact starts.not_clean hthird
  | count _ several => exact several (hline ▸ hstart)
  | edge bad =>
    subst hline
    exact bad.bad (hedges _ (mem_runs_iff.mpr ⟨_, _, bad.toRunAt⟩))

/-! ### Descriptions are determined -/

/-- Nothing is dropped from a line that begins with no blank. -/
theorem dropWhile_isBlank_of_head (h : ∀ c ∈ line.head?, isBlank c = false) :
    line.dropWhile isBlank = line := by
  cases line with
  | nil => rfl
  | cons c line => exact List.dropWhile_cons_of_neg (by simp [h c rfl])

/-- Once the blanks in front are dropped, no blank comes first. -/
theorem not_isBlank_head_dropWhile (line : List Char) :
    ∀ c ∈ (line.dropWhile isBlank).head?, isBlank c = false := by
  intro c hc
  have hhead := List.head?_dropWhile_not isBlank line
  rwa [Option.mem_def.mp hc] at hhead

/-- Cutting the blanks at both ends trims a line. -/
theorem trims_trimBlanks (line : List Char) : Trims line (trimBlanks line) := by
  obtain ⟨right, hright, hback⟩ : ∃ right, (∀ c ∈ right, isBlank c = true) ∧
      trimBlanks line ++ right = line.dropWhile isBlank := by
    refine ⟨((line.dropWhile isBlank).reverse.takeWhile isBlank).reverse, ?_, ?_⟩
    · exact fun c hc => List.mem_takeWhile_imp (List.mem_reverse.mp hc)
    · rw [trimBlanks, ← List.reverse_append, List.takeWhile_append_dropWhile,
        List.reverse_reverse]
  refine ⟨⟨line.takeWhile isBlank, right, ?_, fun _ => List.mem_takeWhile_imp, hright⟩, ?_, ?_⟩
  · rw [List.append_assoc, hback, List.takeWhile_append_dropWhile]
  · intro c hc
    apply not_isBlank_head_dropWhile line c
    rw [← hback, List.head?_append]
    simp [Option.mem_def.mp hc]
  · intro c hc
    rw [trimBlanks, List.getLast?_reverse] at hc
    exact not_isBlank_head_dropWhile _ c hc

/-- A line is trimmed in one way only. -/
theorem Trims.eq_trimBlanks (h : Trims line core) : core = trimBlanks line := by
  obtain ⟨⟨left, right, rfl, hleft, hright⟩, hhead, hlast⟩ := h
  rw [trimBlanks, List.append_assoc, List.dropWhile_append_of_pos hleft]
  by_cases hcore : core = []
  · subst hcore
    have hgone : right.dropWhile isBlank = [] := List.dropWhile_eq_nil_iff.mpr hright
    simp [hgone]
  · have hfirst : ∀ c ∈ (core ++ right).head?, isBlank c = false := by
      cases core with
      | nil => exact absurd rfl hcore
      | cons c core => exact hhead
    rw [dropWhile_isBlank_of_head hfirst, List.reverse_append,
      List.dropWhile_append_of_pos fun c hc => hright c (List.mem_reverse.mp hc),
      dropWhile_isBlank_of_head (by simpa using hlast), List.reverse_reverse]

/-- Trimming leaves what remains without the blanks at the ends, and nothing else does. -/
theorem trims_iff : Trims line core ↔ core = trimBlanks line :=
  ⟨Trims.eq_trimBlanks, fun h => h ▸ trims_trimBlanks line⟩

/-- Lines are trimmed one by one. -/
theorem forall₂_trims_iff {cores : List (List Char)} :
    List.Forall₂ Trims lines cores ↔ cores = lines.map trimBlanks := by
  have hmap : List.Forall₂ Trims lines cores ↔
      List.Forall₂ (· = ·) (lines.map trimBlanks) cores := by
    rw [List.forall₂_map_left_iff]
    constructor
    · exact List.Forall₂.imp fun _ _ h => (trims_iff.mp h).symm
    · exact List.Forall₂.imp fun _ _ h => trims_iff.mpr h.symm
  rw [hmap, List.forall₂_eq_eq_eq]
  exact eq_comm

/-- An edge can be told from its word. -/
theorem Edge.text_injective : Function.Injective Edge.text := by
  rintro ⟨source, symbol, target⟩ ⟨source', symbol', target'⟩ hsame
  simpa [Edge.text] using hsame

/-- The lines say one thing. -/
theorem Describes.unique {description description' : Description}
    (h : Describes lines description) (h' : Describes lines description') :
    description = description' := by
  have htexts : Function.Injective (List.map String.toList) :=
    List.map_injective_iff.mpr fun _ _ => String.toList_inj.mp
  have hfinals := htexts (h.finals.trans h'.finals.symm)
  have hstart : description.start = description'.start := by
    simpa [String.toList_inj] using h.start.trans h'.start.symm
  have hstates := htexts (h.states.trans h'.states.symm)
  have hedges := List.map_injective_iff.mpr Edge.text_injective (h.edges.trans h'.edges.symm)
  have hinputs : description.inputs = description'.inputs := by
    obtain ⟨cores, hcores, hinputs⟩ := h.inputs
    obtain ⟨cores', hcores', hinputs'⟩ := h'.inputs
    rw [forall₂_trims_iff] at hcores hcores'
    subst hcores hcores'
    exact htexts (hinputs.trans hinputs'.symm)
  cases description
  cases description'
  simp_all

end Automata.Description
