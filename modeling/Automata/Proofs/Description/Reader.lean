import Automata.Proofs.Description.Format
import Automata.Proofs.Description.Listing

/-!
# Reading keeps to the format of descriptions

Each of the readers gives the words of its line, or the place where the line breaks the
format. A description is read line by line, so the first line that breaks the format ends
the reading, and a text in the format is read to its end.
-/

namespace Automata.Description

open Text

variable {line before word after rest : List Char} {c : Char} {all : List (List Char)}

/-- Separators are blank. -/
theorem isBlank_of_isSeparator (h : isSeparator c = true) : isBlank c = true := by
  simp only [isSeparator, Bool.or_eq_true, decide_eq_true_eq] at h
  rcases h with rfl | rfl <;> rfl

/-! ### Names -/

/-- Behind visible characters a line has the same foreign blank first. -/
theorem StartsForeign.append (h : StartsForeign line rest) (hbefore : Clean before) :
    StartsForeign (before ++ line) rest := by
  obtain ⟨middle, c, later, rfl, rfl, hclean, hblank, hseparator⟩ := h
  refine ⟨before ++ middle, c, later, by simp, rfl, ?_, hblank, hseparator⟩
  exact List.forall_mem_append.mpr ⟨hbefore, hclean⟩

/-- Visible characters are clean. -/
theorem clean_of_visible (h : ∀ c ∈ word, isBlank c = false) : Clean word := by
  intro c hc hblank
  simp [h c hc] at hblank

/-- A word that is not all visible has a first blank. -/
theorem exists_first_blank (h : ¬ ∀ c ∈ word, isBlank c = false) :
    ∃ front c more, word = front ++ c :: more ∧ (∀ d ∈ front, isBlank d = false) ∧
      isBlank c = true := by
  have hsome : word.dropWhile (!isBlank ·) ≠ [] := by simpa [List.dropWhile_eq_nil_iff] using h
  obtain ⟨c, more, hrest⟩ := List.exists_cons_of_ne_nil hsome
  have hhead := List.head?_dropWhile_not (!isBlank ·) word
  have hsplit : word.takeWhile (!isBlank ·) ++ word.dropWhile (!isBlank ·) = word :=
    List.takeWhile_append_dropWhile
  rw [hrest] at hhead hsplit
  refine ⟨_, c, more, hsplit.symm, fun d hd => ?_, by simpa using hhead⟩
  simpa using List.mem_takeWhile_imp hd

/-- A name goes on up to the first blank. -/
theorem name_run (hne : word ≠ []) (hvisible : ∀ c ∈ word, isBlank c = false)
    (hrest : ∀ c ∈ rest.head?, isBlank c = true) :
    name.run (word ++ rest) = .ok (String.ofList word, rest) := by
  have hword : ∀ c ∈ word, (!isBlank c) = true := by simpa using hvisible
  have htake : (word ++ rest).takeWhile (!isBlank ·) = word := by
    rw [List.takeWhile_append_of_pos hword]
    cases rest <;> simp_all
  have hdrop : (word ++ rest).dropWhile (!isBlank ·) = rest := by
    rw [List.dropWhile_append_of_pos hword]
    cases rest <;> simp_all
  have hsome : word.isEmpty = false := by simpa using hne
  simp only [name, Parser.map, Parser.takeWhile1, htake, hdrop, hsome]
  rfl

/-- A run without blanks is a name. -/
theorem readNames_append_of_visible (h : Run word after)
    (hvisible : ∀ c ∈ word, isBlank c = false) :
    readNames (word ++ after) = (readNames after).map (String.ofList word :: ·) := by
  have hends : ∀ c ∈ after.head?, isBlank c = true :=
    fun c hc => isBlank_of_isSeparator (h.ends c hc)
  exact h.listing_of_whole rfl (name_run h.nonempty hvisible hends)

/-- A run is not read from its first blank on. -/
theorem readNames_append_of_blank {front more : List Char} (h : Run (front ++ c :: more) after)
    (hfront : ∀ d ∈ front, isBlank d = false) (hblank : isBlank c = true) :
    readNames (front ++ c :: more ++ after) = .error (c :: (more ++ after)) := by
  have hsplit : front ++ c :: more ++ after = front ++ c :: (more ++ after) := by simp
  by_cases hne : front = []
  · subst hne
    have hnone : name.run (c :: more ++ after) = .error (c :: more ++ after) := by
      simp [name, Parser.map, Parser.takeWhile1, hblank]
    exact h.listing_of_none hnone
  · have hname : name.run (front ++ c :: (more ++ after)) = _ :=
      name_run hne hfront (by simpa using hblank)
    rw [← hsplit] at hname
    exact h.listing_of_part hname (h.solid c (by simp))

/-- Names are read from a line whose only blanks are separators, and are its runs. Any other
line is not read from its first foreign blank on. -/
theorem readNames_cases (line : List Char) :
    (∃ names, readNames line = .ok names ∧ names.map String.toList = runs line ∧ Clean line) ∨
    ∃ rest, readNames line = .error rest ∧ StartsForeign line rest := by
  induction line using line_induction with
  | nil => exact Or.inl ⟨[], listing_nil rfl, by simp, by simp [Clean]⟩
  | separator c line hc ih =>
    have hclean : Clean [c] := by simp [Clean, hc]
    rw [readNames, listing_cons_separator hc, runs_cons_separator hc]
    rcases ih with ⟨names, hread, hnames, hline⟩ | ⟨rest, hread, hstarts⟩
    · exact Or.inl ⟨names, hread, hnames, List.forall_mem_append.mpr ⟨hclean, hline⟩⟩
    · exact Or.inr ⟨rest, hread, hstarts.append hclean⟩
  | run word after h ih =>
    by_cases hvisible : ∀ c ∈ word, isBlank c = false
    · have hclean := clean_of_visible hvisible
      rw [readNames_append_of_visible h hvisible, h.runs_append]
      rcases ih with ⟨names, hread, hnames, hafter⟩ | ⟨rest, hread, hstarts⟩
      · refine Or.inl ⟨String.ofList word :: names, by rw [hread]; rfl, by simp [hnames], ?_⟩
        exact List.forall_mem_append.mpr ⟨hclean, hafter⟩
      · exact Or.inr ⟨rest, by rw [hread]; rfl, hstarts.append hclean⟩
    · obtain ⟨front, c, more, rfl, hfront, hblank⟩ := exists_first_blank hvisible
      have hsolid : isSeparator c = false := h.solid c (by simp)
      refine Or.inr ⟨_, readNames_append_of_blank h hfront hblank, front, c, more ++ after, ?_⟩
      exact ⟨by simp, rfl, clean_of_visible hfront, hblank, hsolid⟩

/-- Names are read from a line when separators are its only blanks, and they are its words. -/
theorem clean_of_readNames {names : List String} (h : readNames line = .ok names) :
    Clean line ∧ names.map String.toList = runs line := by
  rcases readNames_cases line with ⟨names', hread, hnames, hclean⟩ | ⟨_, hread, _⟩
  · cases hread.symm.trans h
    exact ⟨hclean, hnames⟩
  · cases hread.symm.trans h

/-- From a line that goes on from a foreign blank no names are read. -/
theorem startsForeign_of_readNames (h : readNames line = .error rest) :
    StartsForeign line rest := by
  rcases readNames_cases line with ⟨_, hread, _⟩ | ⟨_, hread, hstarts⟩
  · cases hread.symm.trans h
  · cases hread.symm.trans h
    exact hstarts

/-! ### Edges -/

/-- The line begins with three characters that are not blank. -/
def StartsEdge (line : List Char) : Prop :=
  ∃ source symbol target rest, line = source :: symbol :: target :: rest ∧
    isBlank source = false ∧ isBlank symbol = false ∧ isBlank target = false

/-- These are the characters of an edge. -/
theorem edge_run {source symbol target : Char} (hsource : isBlank source = false)
    (hsymbol : isBlank symbol = false) (htarget : isBlank target = false) (rest : List Char) :
    edge.run (source :: symbol :: target :: rest) = .ok ({ source, symbol, target }, rest) := by
  simp [edge, visible, Parser.map, Parser.pair, Parser.satisfy, hsource, hsymbol, htarget]

/-- No other line begins with an edge. -/
theorem exists_edge_run_error (h : ¬ StartsEdge line) : ∃ place, edge.run line = .error place := by
  match line with
  | [] => exact ⟨_, rfl⟩
  | [a] =>
    by_cases ha : isBlank a = true <;>
    simp [edge, visible, Parser.map, Parser.pair, Parser.satisfy, ha]
  | [a, b] =>
    by_cases ha : isBlank a = true <;> by_cases hb : isBlank b = true <;>
    simp [edge, visible, Parser.map, Parser.pair, Parser.satisfy, ha, hb]
  | a :: b :: c :: rest =>
    by_cases ha : isBlank a = true <;> by_cases hb : isBlank b = true <;>
      by_cases hc : isBlank c = true <;>
    simp_all [edge, visible, Parser.map, Parser.pair, Parser.satisfy, StartsEdge]

/-- The word of an edge is read as this edge. -/
theorem readEdges_append_of_isEdgeText {source symbol target : Char}
    (h : Run [source, symbol, target] after) (hword : IsEdgeText [source, symbol, target]) :
    readEdges ([source, symbol, target] ++ after) =
      (readEdges after).map ({ source, symbol, target } :: ·) := by
  obtain ⟨hsource, hsymbol, htarget⟩ : isBlank source = false ∧ isBlank symbol = false ∧
      isBlank target = false := by simpa using hword.2
  exact h.listing_of_whole rfl (edge_run hsource hsymbol htarget after)

/-- What follows a word has no part in whether an edge begins it. -/
theorem Run.startsEdge_append_iff (h : Run word after) :
    StartsEdge (word ++ after) ↔ StartsEdge word := by
  have hends : ∀ c ∈ after.head?, isBlank c = true :=
    fun c hc => isBlank_of_isSeparator (h.ends c hc)
  constructor
  · rintro ⟨source, symbol, target, rest, hsplit, hsource, hsymbol, htarget⟩
    match word with
    | [] => exact absurd rfl h.nonempty
    | [a] =>
      obtain ⟨rfl, rfl⟩ := List.cons.inj hsplit
      simp [hends symbol rfl] at hsymbol
    | [a, b] =>
      obtain ⟨-, hsplit⟩ := List.cons.inj hsplit
      obtain ⟨rfl, rfl⟩ := List.cons.inj hsplit
      simp [hends target rfl] at htarget
    | a :: b :: c :: more =>
      simp only [List.cons_append, List.cons.injEq] at hsplit
      obtain ⟨rfl, rfl, rfl, -⟩ := hsplit
      exact ⟨a, b, c, more, rfl, hsource, hsymbol, htarget⟩
  · rintro ⟨source, symbol, target, rest, rfl, hvisible⟩
    exact ⟨source, symbol, target, rest ++ after, rfl, hvisible⟩

/-- A word that is not one of an edge is not read. -/
theorem readEdges_append_of_bad (h : Run word after) (hword : ¬ IsEdgeText word) :
    readEdges (word ++ after) = .error (unreadable word ++ after) := by
  by_cases hstarts : StartsEdge word
  · obtain ⟨a, b, c, more, rfl, ha, hb, hc⟩ := hstarts
    have htail : unreadable (a :: b :: c :: more) = more := by simp [unreadable, ha, hb, hc]
    rw [htail]
    cases more with
    | nil => exact absurd (by simp [IsEdgeText, ha, hb, hc]) hword
    | cons d more => exact h.listing_of_part (edge_run ha hb hc _) (h.solid d (by simp))
  · have hwhole : unreadable word = word := by
      match word with
      | [] | [_] | [_, _] => rfl
      | a :: b :: c :: more =>
        have hblank : ¬ (isBlank a = false ∧ isBlank b = false ∧ isBlank c = false) :=
          fun hvisible => hstarts ⟨a, b, c, more, rfl, hvisible⟩
        simp [unreadable, hblank]
    obtain ⟨place, hnone⟩ := exists_edge_run_error (mt h.startsEdge_append_iff.mp hstarts)
    rw [hwhole]
    exact h.listing_of_none hnone

/-- Edges are read from a line where each word is one of an edge, and otherwise what cannot be
read of the first bad word is told, with what follows it. -/
theorem readEdges_cases (line : List Char) :
    (∃ edges, readEdges line = .ok edges ∧ edges.map Edge.text = runs line ∧
      ∀ word ∈ runs line, IsEdgeText word) ∨
    ∃ before word after, readEdges line = .error (unreadable word ++ after) ∧
      FirstBadWord line before word after := by
  induction line using line_induction with
  | nil => exact Or.inl ⟨[], rfl, by simp⟩
  | separator c line hc ih =>
    rw [readEdges, listing_cons_separator hc, runs_cons_separator hc]
    rcases ih with hread | ⟨before, word, after, hread, hbad⟩
    · exact Or.inl hread
    · exact Or.inr ⟨c :: before, word, after, hread, hbad.cons_separator hc⟩
  | run word after h ih =>
    by_cases hword : IsEdgeText word
    · obtain ⟨source, symbol, target, rfl⟩ := List.length_eq_three.mp hword.1
      rw [readEdges_append_of_isEdgeText h hword, h.runs_append]
      rcases ih with ⟨edges, hread, htexts, hall⟩ | ⟨before, other, later, hread, hbad⟩
      · refine Or.inl ⟨{ source, symbol, target } :: edges, by rw [hread]; rfl, ?_, ?_⟩
        · rw [List.map_cons, htexts]
          rfl
        · exact List.forall_mem_cons.mpr ⟨hword, hall⟩
      · exact Or.inr ⟨_, other, later, by rw [hread]; rfl, hbad.append h hword⟩
    · exact Or.inr ⟨[], word, after, readEdges_append_of_bad h hword, h.firstBadWord hword⟩

/-- A line of which all edges are read consists of their words. -/
theorem isEdgeText_of_readEdges {edges : List Edge} (h : readEdges line = .ok edges) :
    edges.map Edge.text = runs line ∧ ∀ word ∈ runs line, IsEdgeText word := by
  rcases readEdges_cases line with ⟨edges', hread, hgood⟩ | ⟨_, _, _, hread, _⟩
  · cases hread.symm.trans h
    exact hgood
  · cases hread.symm.trans h

/-- A line of edges that is not read is faulty from the unread rest on. -/
theorem lineFault_of_readEdges (h : readEdges line = .error rest) : LineFault 4 line rest := by
  rcases readEdges_cases line with ⟨_, hread, _⟩ | ⟨before, word, after, hread, hbad⟩
  · cases hread.symm.trans h
  · cases hread.symm.trans h
    exact .edge hbad

/-! ### Descriptions -/

/-- No line comes before the first. -/
theorem passes_one (all : List (List Char)) : Passes all 1 := by
  intro earlier hlt rest hfault
  cases hfault <;> omega

/-- The first line that breaks the format is looked for line by line. -/
theorem Passes.succ {number : Nat} (h : Passes all number)
    (hline : ∀ rest, ¬ LineFault number (lineAt all number) rest) :
    Passes all (number + 1) := by
  intro earlier hlt rest hfault
  rcases Nat.lt_succ_iff_lt_or_eq.mp hlt with hlt | rfl
  · exact h earlier hlt rest hfault
  · exact hline rest hfault

/-- A line without foreign blanks breaks the format only by the number or the form of its
words. -/
theorem not_lineFault_of_clean {number : Nat} (hclean : Clean line)
    (hcount : number = 2 → (runs line).length = 1) (hnumber : number ≠ 4) :
    ¬ LineFault number line rest := by
  intro hfault
  cases hfault with
  | foreign names starts => exact starts.not_clean hclean
  | count _ several => exact several (hcount rfl)
  | edge bad => exact hnumber rfl

/-- What a text with these lines should come to. -/
inductive Outcome (all : List (List Char)) : Except Error Description → Prop where
  | ok {description : Description} (format : InFormat all) (describes : Describes all description) :
      Outcome all (.ok description)
  | error {number : Nat} {rest : List Char} (fault : FirstFaultyLine all number rest) :
      Outcome all (.error (.malformed number rest))

/-- A reader that fails on a line just when this line breaks the format leaves the outcome to
what follows. -/
theorem Outcome.onLine_bind {α : Type} {number : Nat} {result : Except (List Char) α}
    {next : α → Except Error Description} (passes : Passes all number)
    (fault : ∀ rest, result = .error rest → LineFault number (lineAt all number) rest)
    (further : ∀ value, result = .ok value → Outcome all (next value)) :
    Outcome all (onLine number result >>= next) := by
  cases result with
  | ok value => exact further value rfl
  | error rest => exact .error ⟨fault rest rfl, passes⟩

/-- One name is wanted and one is there. -/
theorem eq_of_singleName {names : List String} {start : String}
    (h : singleName names = .ok start) : names = [start] := by
  match names with
  | [name] =>
    cases h
    rfl

/-- Only a list of one name is not rejected. -/
theorem singleName_eq_error {names : List String} (h : singleName names = .error rest) :
    rest = [] ∧ names.length ≠ 1 := by
  match names with
  | [] =>
    cases h
    simp
  | _ :: _ :: _ =>
    cases h
    simp

/-- The inputs are what remains of the lines that are not blank. -/
theorem toList_readInputs (all : List (List Char)) :
    (readInputs all).map String.toList =
      (all.map trimBlanks).filter fun core => !core.isEmpty := by
  simp [readInputs, Function.comp_def]

/-- A text is read as its lines say, or its first line that breaks the format is told. -/
theorem outcome_parse (text : String) : Outcome (lines text.toList) (parse text) := by
  unfold parse
  have hfirst := passes_one (lines text.toList)
  refine .onLine_bind hfirst (fun _ h => .foreign (by simp) (startsForeign_of_readNames h))
    fun finals hfinals => ?_
  obtain ⟨hclean₁, hfinals⟩ := clean_of_readNames hfinals
  have hsecond := hfirst.succ fun _ => not_lineFault_of_clean hclean₁ (by simp) (by simp)
  refine .onLine_bind hsecond (fun _ h => .foreign (by simp) (startsForeign_of_readNames h))
    fun names hnames => ?_
  obtain ⟨hclean₂, hnames⟩ := clean_of_readNames hnames
  refine .onLine_bind hsecond (fun rest h => ?_) fun start hstart => ?_
  · obtain ⟨rfl, hseveral⟩ := singleName_eq_error h
    exact .count hclean₂ (by rwa [lineAt, ← hnames, List.length_map])
  obtain rfl := eq_of_singleName hstart
  have hcount : (runs (lineAt (lines text.toList) 2)).length = 1 := by
    rw [lineAt, ← hnames]
    rfl
  have hthird := hsecond.succ fun _ => not_lineFault_of_clean hclean₂ (fun _ => hcount) (by simp)
  refine .onLine_bind hthird (fun _ h => .foreign (by simp) (startsForeign_of_readNames h))
    fun states hstates => ?_
  obtain ⟨hclean₃, hstates⟩ := clean_of_readNames hstates
  have hfourth := hthird.succ fun _ => not_lineFault_of_clean hclean₃ (by simp) (by simp)
  refine .onLine_bind hfourth (fun _ h => lineFault_of_readEdges h) fun edges hedges => ?_
  obtain ⟨hedges, hall⟩ := isEdgeText_of_readEdges hedges
  exact .ok ⟨⟨hclean₁, hclean₂, hclean₃⟩, hcount, hall⟩
    ⟨hfinals, hnames, hstates, hedges, _, forall₂_trims_iff.mpr rfl, toList_readInputs _⟩

/-- A text is read just when it is in the format of descriptions, and then its description is
what its lines say. The error of any other text is at its first line that breaks the format,
with the characters from which on that line cannot be read. -/
theorem parse_outcome (text : String) :
    ((∃ description, parse text = .ok description) ↔ InFormat (lines text.toList)) ∧
    (∀ description, parse text = .ok description ↔
      InFormat (lines text.toList) ∧ Describes (lines text.toList) description) ∧
    ∀ error, parse text = .error error ↔ ∃ number rest,
      error = .malformed number rest ∧ FirstFaultyLine (lines text.toList) number rest := by
  have houtcome := outcome_parse text
  generalize lines text.toList = all, parse text = result at houtcome
  cases houtcome with
  | @ok read format describes =>
    refine ⟨⟨fun _ => format, fun _ => ⟨read, rfl⟩⟩, fun description => ?_, fun error => ?_⟩
    · rw [Except.ok.injEq]
      exact ⟨fun h => h ▸ ⟨format, describes⟩, fun h => describes.unique h.2⟩
    · exact ⟨nofun, fun ⟨_, _, _, fault⟩ => absurd format fault.not_inFormat⟩
  | @error number rest fault =>
    refine ⟨⟨nofun, fun h => absurd h fault.not_inFormat⟩, fun description => ?_,
      fun error => ?_⟩
    · exact ⟨nofun, fun h => absurd h.1 fault.not_inFormat⟩
    · rw [Except.error.injEq]
      constructor
      · rintro rfl
        exact ⟨number, rest, rfl, fault⟩
      · rintro ⟨number', rest', rfl, fault'⟩
        obtain ⟨rfl, rfl⟩ := fault.unique fault'
        rfl

/-- The third word is too long, and is told from its fourth character on. -/
example : parse "b\na\n\na0b b1b b0bc a1b\n" =
    .error (.malformed 4 ['c', ' ', 'a', '1', 'b']) := by
  decide +kernel

end Automata.Description
