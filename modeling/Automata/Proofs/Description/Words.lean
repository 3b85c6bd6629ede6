import Automata.Description.Reader

/-!
# Words of a line are its maximal runs

A run is a part of a line without separators that cannot be made longer. A line is a row of
separators and runs, so it can be gone over from run to run, and the runs that are met are
all runs that there are.
-/

namespace Automata.Description

/-- The word has no separators, and what follows ends it. -/
structure Run (word after : List Char) : Prop where
  nonempty : word ≠ []
  solid : ∀ c ∈ word, isSeparator c = false
  ends : ∀ c ∈ after.head?, isSeparator c = true

/-- At this place of the line stands a run that cannot be made longer to either side. -/
structure RunAt (line before word after : List Char) : Prop extends Run word after where
  split : line = before ++ (word ++ after)
  starts : ∀ c ∈ before.getLast?, isSeparator c = true

/-- The parts of a line between separators that are not empty, in order. -/
def runs (line : List Char) : List (List Char) :=
  (line.splitOnP isSeparator).filter fun part => !part.isEmpty

variable {line before word after before' word' after' current : List Char} {c : Char}

/-! ### Going over a line -/

/-- Facts about lines can be proved from separator to separator and from run to run. -/
theorem line_induction {Fact : List Char → Prop} (nil : Fact [])
    (separator : ∀ c line, isSeparator c = true → Fact line → Fact (c :: line))
    (run : ∀ word after, Run word after → Fact after → Fact (word ++ after))
    (line : List Char) : Fact line := by
  match line with
  | [] => exact nil
  | c :: rest =>
    by_cases hc : isSeparator c = true
    · exact separator c rest hc (line_induction nil separator run rest)
    · have hsplit : (c :: rest).takeWhile (!isSeparator ·) ++
          (c :: rest).dropWhile (!isSeparator ·) = c :: rest := List.takeWhile_append_dropWhile
      have hword : Run ((c :: rest).takeWhile (!isSeparator ·))
          ((c :: rest).dropWhile (!isSeparator ·)) := by
        refine ⟨by simp [hc], ?_, ?_⟩
        · intro d hd
          have hall := List.all_takeWhile (p := (!isSeparator ·)) (l := c :: rest)
          simpa using List.all_eq_true.mp hall d hd
        · intro d hd
          have hhead := List.head?_dropWhile_not (!isSeparator ·) (c :: rest)
          rw [Option.mem_def.mp hd] at hhead
          simpa using hhead
      have hshorter : ((c :: rest).dropWhile (!isSeparator ·)).length < (c :: rest).length := by
        have hlength := congrArg List.length hsplit
        have hpos := List.length_pos_iff.mpr hword.nonempty
        rw [List.length_append] at hlength
        omega
      rw [← hsplit]
      exact run _ _ hword (line_induction nil separator run _)
termination_by line.length
decreasing_by
  all_goals
    simp only [List.length_cons] at *
    omega

/-! ### The runs of a line -/

/-- An empty line has no words. -/
@[simp] theorem runs_nil : runs [] = [] := by simp [runs]

/-- Runs do not reach across a separator. -/
theorem runs_append_cons (h : isSeparator c = true) (before after : List Char) :
    runs (before ++ c :: after) = runs before ++ runs after := by
  rw [runs, List.splitOnP_append_cons before after h, List.filter_append]
  rfl

/-- A separator in front adds no word. -/
theorem runs_cons_separator (h : isSeparator c = true) (line : List Char) :
    runs (c :: line) = runs line := by
  simpa using runs_append_cons h [] line

/-- A line without separators is one word. -/
theorem runs_of_solid (hne : word ≠ []) (h : ∀ c ∈ word, isSeparator c = false) :
    runs word = [word] := by
  rw [runs, List.splitOnP_eq_singleton h]
  simp [hne]

/-- The first word of a line comes before those of the rest. -/
theorem Run.runs_append (h : Run word after) : runs (word ++ after) = word :: runs after := by
  have hword := runs_of_solid h.nonempty h.solid
  cases after with
  | nil => simp [hword]
  | cons c after =>
    have hc : isSeparator c = true := h.ends c rfl
    rw [runs_append_cons hc, hword, runs_cons_separator hc]
    rfl

/-! ### Places of runs -/

/-- A line begins with one run at most. -/
theorem Run.eq_of_append_eq (h : Run word after) (h' : Run word' after')
    (hsame : word ++ after = word' ++ after') : word = word' ∧ after = after' := by
  have hlonger : ∀ {word more after : List Char}, Run word (more ++ after) →
      Run (word ++ more) after → more = [] := by
    intro word more after hshort hlong
    cases more with
    | nil => rfl
    | cons c more =>
      have hends := hshort.ends c (by simp)
      simp [hlong.solid c (by simp)] at hends
  rcases List.append_eq_append_iff.mp hsame with ⟨more, rfl, rfl⟩ | ⟨more, rfl, rfl⟩
  · simp [hlonger h h']
  · simp [hlonger h' h]

/-- At a separator no run begins. -/
theorem runAt_cons_separator (h : isSeparator c = true) :
    RunAt (c :: line) before word after ↔
      ∃ shorter, before = c :: shorter ∧ RunAt line shorter word after := by
  constructor
  · rintro ⟨hrun, hsplit, hstarts⟩
    cases before with
    | nil =>
      obtain ⟨first, rest, rfl⟩ := List.exists_cons_of_ne_nil hrun.nonempty
      obtain ⟨rfl, _⟩ := List.cons_eq_cons.mp hsplit
      have hsolid := hrun.solid c (by simp)
      simp [h] at hsolid
    | cons first shorter =>
      obtain ⟨rfl, hrest⟩ := List.cons_eq_cons.mp hsplit
      refine ⟨shorter, rfl, hrun, hrest, ?_⟩
      cases shorter with
      | nil => simp
      | cons => simpa using hstarts
  · rintro ⟨shorter, rfl, hrun, hsplit, hstarts⟩
    refine ⟨hrun, by rw [hsplit]; rfl, ?_⟩
    cases shorter with
    | nil => simpa using h
    | cons => simpa using hstarts

/-- A line that begins with a run has this run at its beginning, and others only behind it. -/
theorem Run.runAt_append_iff (h : Run word after) :
    RunAt (word ++ after) before word' after' ↔
      (before = [] ∧ word' = word ∧ after' = after) ∨
        ∃ shorter, before = word ++ shorter ∧ RunAt after shorter word' after' := by
  constructor
  · rintro ⟨hrun, hsplit, hstarts⟩
    rcases List.append_eq_append_iff.mp hsplit with ⟨shorter, rfl, rfl⟩ | ⟨more, rfl, hrest⟩
    · refine Or.inr ⟨shorter, rfl, hrun, rfl, ?_⟩
      cases shorter with
      | nil => simp
      | cons => simpa using hstarts
    · -- The other run begins inside this one, so it begins with it.
      have hbefore : before = [] := by
        rcases List.eq_nil_or_concat before with rfl | ⟨front, last, rfl⟩
        · rfl
        · have hsolid := h.solid last (by simp)
          simp [hstarts last (by simp)] at hsolid
      subst hbefore
      obtain ⟨rfl, rfl⟩ := hrun.eq_of_append_eq h hrest
      exact Or.inl ⟨rfl, rfl, rfl⟩
  · rintro (⟨rfl, rfl, rfl⟩ | ⟨shorter, rfl, hrun, hsplit, hstarts⟩)
    · exact ⟨h, rfl, by simp⟩
    · refine ⟨hrun, by rw [hsplit, List.append_assoc], ?_⟩
      cases shorter with
      | nil =>
        obtain ⟨first, rest, rfl⟩ := List.exists_cons_of_ne_nil hrun.nonempty
        have hends := h.ends first (by simp [hsplit])
        simp [hrun.solid first (by simp)] at hends
      | cons => simpa using hstarts

/-- The runs of a line are the words at its places. -/
theorem mem_runs_iff : word ∈ runs line ↔ ∃ before after, RunAt line before word after := by
  induction line using line_induction generalizing word with
  | nil =>
    simp only [runs_nil, List.not_mem_nil, false_iff, not_exists]
    rintro before after ⟨hrun, hsplit, _⟩
    have hempty := hrun.nonempty
    simp_all
  | separator c line hc ih =>
    rw [runs_cons_separator hc, ih]
    simp only [runAt_cons_separator hc]
    constructor
    · rintro ⟨before, after, hplace⟩
      exact ⟨c :: before, after, before, rfl, hplace⟩
    · rintro ⟨_, after, before, rfl, hplace⟩
      exact ⟨before, after, hplace⟩
  | run first later h ih =>
    rw [h.runs_append, List.mem_cons, ih]
    simp only [h.runAt_append_iff]
    constructor
    · rintro (rfl | ⟨before, after, hplace⟩)
      · exact ⟨[], later, Or.inl ⟨rfl, rfl, rfl⟩⟩
      · exact ⟨first ++ before, after, Or.inr ⟨before, rfl, hplace⟩⟩
    · rintro ⟨_, after, ⟨_, rfl, _⟩ | ⟨before, _, hplace⟩⟩
      · exact Or.inl rfl
      · exact Or.inr ⟨before, after, hplace⟩

end Automata.Description
