import Automata.Dfa.Printer
import Automata.Nfa.Printer
import Automata.Proofs.Dfa.Totality
import Automata.Proofs.Nfa.WellFormed
import Automata.Proofs.Table

/-!
# Automata are known by their written form

An automaton is written as a table. In an automaton that additions built, the rows of the table
say all about its edges: symbols without a column label none of them. So automata have the same
table when they list the same parts in the same order, and where the names and symbols are
legible, automata that are written alike do.
-/

namespace Automata

/-- Names and symbols that can be told from what is written between them. -/
structure LegibleParts (names : List String) (alphabet : List Char) : Prop where
  dash_not_mem : "-" ∉ names
  names_unbroken : ∀ name ∈ names, ∀ c ∈ name.toList, c ∉ [' ', '\t', '\n', ',']
  alphabet_solid : ∀ c ∈ alphabet, c ∉ [' ', '\t', '\n']

/-- Legible names have no blanks in them. -/
theorem LegibleParts.solid {names : List String} {alphabet : List Char}
    (h : LegibleParts names alphabet) : ∀ name ∈ names, Solid name := by
  intro name hname c hc hin
  have hall := h.names_unbroken name hname c hc
  simp only [List.mem_cons, List.not_mem_nil, or_false, not_or] at hall hin
  tauto

/-- Legible names have no commas in them. -/
theorem LegibleParts.comma_not_mem {names : List String} {alphabet : List Char}
    (h : LegibleParts names alphabet) : ∀ name ∈ names, ',' ∉ name.toList :=
  fun name hname hc => h.names_unbroken name hname ',' hc (by simp)

/-- Cells that are found by the names and the columns are known one by one. -/
theorem map_rows_eq_iff {α : Type} {names : List String} {columns : List α}
    {cell cell' : String → α → String} :
    (names.map fun name => (name, columns.map (cell name))) =
        (names.map fun name => (name, columns.map (cell' name))) ↔
      ∀ name ∈ names, ∀ column ∈ columns, cell name column = cell' name column := by
  simp

/-! ### Deterministic automata -/

namespace Dfa

/-- The automata list the same parts in the same order. -/
structure SameListing (dfa other : Dfa) : Prop where
  names_eq : dfa.names = other.names
  alphabet_eq : dfa.alphabet = other.alphabet
  target_eq : ∀ name symbol, dfa.target name symbol = other.target name symbol
  start_eq : dfa.start = other.start
  finals_eq : dfa.finals = other.finals

variable {dfa other : Dfa}

/-- Final states are states. -/
theorem Built.finals_mem (h : dfa.Built) : ∀ final ∈ dfa.finals, final ∈ dfa.names := by
  obtain ⟨flags, additions, rfl⟩ := h
  have hholds := holds_ofAdditions flags additions
  intro final hfinal
  rw [hholds.finals_eq, List.mem_eraseDups, List.mem_filterMap] at hfinal
  obtain ⟨request, hrequest, hname⟩ := hfinal
  rw [hholds.names_eq, List.mem_eraseDups]
  refine List.mem_filterMap.mpr ⟨request, hrequest, ?_⟩
  cases request <;> simp_all [Request.final?, Request.name?]

/-- Moves are on symbols of the alphabet. -/
theorem Built.target_of_not_mem_alphabet (h : dfa.Built) {symbol : Char}
    (hsymbol : symbol ∉ dfa.alphabet) (name : String) : dfa.target name symbol = none := by
  obtain ⟨flags, additions, rfl⟩ := h
  have hholds := holds_ofAdditions flags additions
  rw [Option.eq_none_iff_forall_ne_some]
  intro target htarget
  rw [hholds.target_eq] at htarget
  obtain ⟨request, hrequest, hmove⟩ := List.mem_filterMap.mp (List.mem_of_getLast? htarget)
  refine hsymbol ?_
  rw [hholds.alphabet_eq, List.mem_eraseDups]
  refine List.mem_filterMap.mpr ⟨request, hrequest, ?_⟩
  cases request <;> simp_all [Request.target?, Request.label?]

/-- The rows of the table go with the states, in order. -/
theorem names_table (dfa : Dfa) : dfa.table.rows.map (·.1) = dfa.names := by
  simp [table, names, Function.comp_def]

/-- The rows of the table, found by the names of the states. -/
theorem Built.rows_table (h : dfa.Built) : dfa.table.rows =
    dfa.names.map fun name =>
      (name, dfa.alphabet.map fun symbol => (dfa.target name symbol).getD "-") := by
  rw [names, List.map_map]
  refine List.map_congr_left fun state hstate => ?_
  simp only [Function.comp, target_name h.wellFormed.names_nodup hstate]

/-- A table is legible when names and alphabet are, since its cells are names. -/
theorem Built.legible_table (h : dfa.Built) (hparts : LegibleParts dfa.names dfa.alphabet) :
    dfa.table.Legible where
  names_solid row hrow := by
    obtain ⟨state, hstate, rfl⟩ := List.mem_map.mp hrow
    exact hparts.solid state.name (List.mem_map_of_mem hstate)
  cells_solid row hrow cell hcell := by
    rw [h.rows_table] at hrow
    obtain ⟨name, _, rfl⟩ := List.mem_map.mp hrow
    obtain ⟨symbol, _, rfl⟩ := List.mem_map.mp hcell
    cases hmove : dfa.target name symbol with
    | none => simp [Solid]
    | some target => exact hparts.solid target (h.wellFormed.target_mem _ _ _ hmove)
  alphabet_solid := hparts.alphabet_solid
  columns_solid := hparts.alphabet_solid
  start_solid start hstart := hparts.solid start (h.wellFormed.start_mem start hstart)
  start_ne_dash hstart := hparts.dash_not_mem (h.wellFormed.start_mem "-" hstart)
  finals_solid final hfinal := hparts.solid final (h.finals_mem final hfinal)

/-- Where no state is called a dash, a cell says what the move is, and whether there is one. -/
theorem Built.target_eq_of_getD_eq (h : dfa.Built) (h' : other.Built)
    (hdash : "-" ∉ dfa.names) (hdash' : "-" ∉ other.names) {name : String} {symbol : Char}
    (heq : (dfa.target name symbol).getD "-" = (other.target name symbol).getD "-") :
    dfa.target name symbol = other.target name symbol := by
  have hmem := h.wellFormed.target_mem name symbol "-"
  have hmem' := h'.wellFormed.target_mem name symbol "-"
  cases hmove : dfa.target name symbol <;> cases hmove' : other.target name symbol <;>
    simp_all

/-- Automata have the same table just when they list the same parts in the same order. -/
theorem Built.table_eq_iff (h : dfa.Built) (h' : other.Built)
    (hdash : "-" ∉ dfa.names) (hdash' : "-" ∉ other.names) :
    dfa.table = other.table ↔ dfa.SameListing other := by
  constructor
  · intro heq
    have hnames : dfa.names = other.names := by
      rw [← names_table, heq, names_table]
    have halphabet : dfa.alphabet = other.alphabet := congrArg Table.alphabet heq
    have hrows := congrArg Table.rows heq
    rw [h.rows_table, h'.rows_table, ← hnames, ← halphabet, map_rows_eq_iff] at hrows
    refine ⟨hnames, halphabet, ?_, congrArg Table.start heq, congrArg Table.finals heq⟩
    intro name symbol
    by_cases hname : name ∈ dfa.names
    · by_cases hsymbol : symbol ∈ dfa.alphabet
      · exact h.target_eq_of_getD_eq h' hdash hdash' (hrows name hname symbol hsymbol)
      · rw [h.target_of_not_mem_alphabet hsymbol,
          h'.target_of_not_mem_alphabet (halphabet ▸ hsymbol)]
    · rw [target_of_not_mem hname, target_of_not_mem (hnames ▸ hname)]
  · intro hsame
    have hrows : dfa.table.rows = other.table.rows := by
      simp only [h.rows_table, h'.rows_table, hsame.names_eq, hsame.alphabet_eq, hsame.target_eq]
    rw [Table.mk.injEq]
    exact ⟨hsame.alphabet_eq, hsame.alphabet_eq, hrows, hsame.start_eq, hsame.finals_eq⟩

/-- Legible automata are written alike just when they list the same parts in the same order. -/
theorem Built.render_eq_iff (h : dfa.Built) (h' : other.Built)
    (hparts : LegibleParts dfa.names dfa.alphabet)
    (hparts' : LegibleParts other.names other.alphabet) :
    dfa.render = other.render ↔ dfa.SameListing other := by
  rw [← h.table_eq_iff h' hparts.dash_not_mem hparts'.dash_not_mem]
  exact ⟨Table.eq_of_render_eq (h.legible_table hparts) (h'.legible_table hparts'),
    congrArg Table.render⟩

end Dfa

/-! ### Nondeterministic automata -/

namespace Nfa

/-- The automata list the same parts in the same order, and so the targets of each edge. -/
structure SameListing (nfa other : Nfa) : Prop where
  names_eq : nfa.names = other.names
  alphabet_eq : nfa.alphabet = other.alphabet
  targets_eq : ∀ source label, nfa.targets source label = other.targets source label
  start_eq : nfa.start = other.start
  finals_eq : nfa.finals = other.finals

variable {nfa other : Nfa}

/-- Targets as a cell. -/
def cellOf (targets : List String) : String := "\x7b" ++ joinFields ',' targets ++ "\x7d"

/-- Sets of names without blanks are written without blanks. -/
theorem solid_cellOf {targets : List String} (h : ∀ target ∈ targets, Solid target) :
    Solid (cellOf targets) := by
  intro c hc
  simp only [cellOf, String.toList_append, List.mem_append] at hc
  rcases hc with (hc | hc) | hc
  · have hbrace : c = '\x7b' := by simpa using hc
    simp [hbrace]
  · rcases mem_joinFields hc with rfl | ⟨target, htarget, hin⟩
    · simp
    · exact h target htarget c hin
  · have hbrace : c = '\x7d' := by simpa using hc
    simp [hbrace]

/-- Names without commas are read back from a cell. -/
theorem eq_of_cellOf_eq {targets targets' : List String}
    (hne : ∀ target ∈ targets, target ≠ "") (hne' : ∀ target ∈ targets', target ≠ "")
    (h : ∀ target ∈ targets, ',' ∉ target.toList) (h' : ∀ target ∈ targets', ',' ∉ target.toList)
    (heq : cellOf targets = cellOf targets') : targets = targets' := by
  rw [cellOf, cellOf, String.append_left_inj, String.append_right_inj] at heq
  have hread := congrArg (fieldsOf ',') heq
  rw [fieldsOf_joinFields h, fieldsOf_joinFields h'] at hread
  -- Without targets, the cell reads like that of one target with an empty name.
  split at hread <;> split at hread
  · next hnil hnil' => rw [hnil, hnil']
  · exact absurd rfl <| hne' "" (by simp [← hread])
  · exact absurd rfl <| hne "" (by simp [hread])
  · exact hread

/-- The rows of the table go with the states, in order. -/
theorem names_table (nfa : Nfa) : nfa.table.rows.map (·.1) = nfa.names := by
  simp [table, names, Function.comp_def]

/-- The rows of the table, found by the names of the states. -/
theorem WellFormed.rows_table (h : nfa.WellFormed) : nfa.table.rows =
    nfa.names.map fun name =>
      (name, nfa.columns.map fun label => cellOf (nfa.targets name label)) := by
  rw [names, List.map_map]
  refine List.map_congr_left fun state hstate => ?_
  simp only [Function.comp, h.targets_name hstate]
  rfl

/-- Some edge reads nothing when such an edge leads somewhere. -/
theorem WellFormed.hasEpsilonEdge_iff (h : nfa.WellFormed) :
    nfa.hasEpsilonEdge = true ↔ ∃ source target, target ∈ nfa.targets source .epsilon := by
  simp only [hasEpsilonEdge, List.any_eq_true]
  constructor
  · rintro ⟨state, hstate, ⟨label, target⟩, hedge, hlabel⟩
    have hepsilon : label = .epsilon := by
      cases label <;> simp_all [Label.isEpsilon]
    refine ⟨state.name, target, ?_⟩
    rw [h.targets_name hstate]
    exact List.mem_filterMap.mpr ⟨(label, target), hedge, by simp [hepsilon]⟩
  · rintro ⟨source, target, htarget⟩
    obtain ⟨state, hstate, rfl⟩ := List.mem_map.mp (source_mem_names htarget)
    rw [h.targets_name hstate] at htarget
    obtain ⟨⟨label, reached⟩, hedge, hread⟩ := List.mem_filterMap.mp htarget
    refine ⟨state, hstate, (label, reached), hedge, ?_⟩
    have hepsilon : label = .epsilon := by
      by_contra hother
      simp [hother] at hread
    simp [hepsilon, Label.isEpsilon]

/-- A label that heads no column is on no edge. -/
theorem WellFormed.targets_of_not_mem_columns (h : nfa.WellFormed) {label : Label}
    (hlabel : label ∉ nfa.columns) (source : String) : nfa.targets source label = [] := by
  rw [List.eq_nil_iff_forall_not_mem]
  intro target htarget
  refine hlabel ?_
  cases label with
  | epsilon =>
    have hsome : nfa.hasEpsilonEdge = true := h.hasEpsilonEdge_iff.mpr ⟨source, target, htarget⟩
    simp [columns, hsome]
  | char c =>
    have hc : c ∈ nfa.alphabet := (h.mem_alphabet c).mpr ⟨source, target, htarget⟩
    simp [columns, hc]

/-- With the same alphabet, the same heading means the same columns. -/
theorem columns_eq_of_marks_eq (halphabet : nfa.alphabet = other.alphabet)
    (hmarks : nfa.columns.map Label.mark = other.columns.map Label.mark) :
    nfa.columns = other.columns := by
  simp only [columns, halphabet, List.map_append, List.append_cancel_left_eq] at hmarks ⊢
  cases hsome : nfa.hasEpsilonEdge <;> cases hsome' : other.hasEpsilonEdge <;> simp_all

/-- A table is legible when names and alphabet are, since its cells are sets of names. -/
theorem WellFormed.legible_table (h : nfa.WellFormed)
    (hparts : LegibleParts nfa.names nfa.alphabet) : nfa.table.Legible where
  names_solid row hrow := by
    obtain ⟨state, hstate, rfl⟩ := List.mem_map.mp hrow
    exact hparts.solid state.name (List.mem_map_of_mem hstate)
  cells_solid row hrow cell hcell := by
    rw [h.rows_table] at hrow
    obtain ⟨name, _, rfl⟩ := List.mem_map.mp hrow
    obtain ⟨label, _, rfl⟩ := List.mem_map.mp hcell
    exact solid_cellOf fun target htarget =>
      hparts.solid target (h.targets_mem name label target htarget)
  alphabet_solid := hparts.alphabet_solid
  columns_solid c hc := by
    obtain ⟨label, hlabel, rfl⟩ := List.mem_map.mp hc
    cases label with
    | epsilon => decide
    | char c =>
      refine hparts.alphabet_solid c ?_
      by_cases hsome : nfa.hasEpsilonEdge = true <;> simpa [columns, hsome] using hlabel
  start_solid start hstart := hparts.solid start (h.start_mem start hstart)
  start_ne_dash hstart := hparts.dash_not_mem (h.start_mem "-" hstart)
  finals_solid final hfinal := hparts.solid final (h.finals_mem final hfinal)

/-- Automata have the same table just when they list the same parts in the same order. -/
theorem WellFormed.table_eq_iff (h : nfa.WellFormed) (h' : other.WellFormed)
    (hcomma : ∀ name ∈ nfa.names, ',' ∉ name.toList)
    (hcomma' : ∀ name ∈ other.names, ',' ∉ name.toList) :
    nfa.table = other.table ↔ nfa.SameListing other := by
  constructor
  · intro heq
    have hnames : nfa.names = other.names := by
      rw [← names_table, heq, names_table]
    have halphabet : nfa.alphabet = other.alphabet := congrArg Table.alphabet heq
    have hcolumns : nfa.columns = other.columns :=
      columns_eq_of_marks_eq halphabet (congrArg Table.columns heq)
    have hrows := congrArg Table.rows heq
    rw [h.rows_table, h'.rows_table, ← hnames, ← hcolumns, map_rows_eq_iff] at hrows
    refine ⟨hnames, halphabet, ?_, congrArg Table.start heq, congrArg Table.finals heq⟩
    intro source label
    by_cases hsource : source ∈ nfa.names
    · by_cases hlabel : label ∈ nfa.columns
      · have hmem := h.targets_mem source label
        have hmem' := h'.targets_mem source label
        exact eq_of_cellOf_eq (fun target htarget => h.names_ne_empty target (hmem target htarget))
          (fun target htarget => h'.names_ne_empty target (hmem' target htarget))
          (fun target htarget => hcomma target (hmem target htarget))
          (fun target htarget => hcomma' target (hmem' target htarget))
          (hrows source hsource label hlabel)
      · rw [h.targets_of_not_mem_columns hlabel, h'.targets_of_not_mem_columns (hcolumns ▸ hlabel)]
    · rw [targets_of_not_mem hsource, targets_of_not_mem (hnames ▸ hsource)]
  · intro hsame
    have hepsilon : nfa.hasEpsilonEdge = other.hasEpsilonEdge := by
      rw [Bool.eq_iff_iff, h.hasEpsilonEdge_iff, h'.hasEpsilonEdge_iff]
      simp only [hsame.targets_eq]
    have hcolumns : nfa.columns = other.columns := by
      rw [columns, columns, hsame.alphabet_eq, hepsilon]
    have hrows : nfa.table.rows = other.table.rows := by
      simp only [h.rows_table, h'.rows_table, hsame.names_eq, hcolumns, hsame.targets_eq]
    rw [Table.mk.injEq]
    exact ⟨hsame.alphabet_eq, congrArg (List.map Label.mark) hcolumns, hrows, hsame.start_eq,
      hsame.finals_eq⟩

/-- Legible automata are written alike just when they list the same parts in the same order. -/
theorem WellFormed.render_eq_iff (h : nfa.WellFormed) (h' : other.WellFormed)
    (hparts : LegibleParts nfa.names nfa.alphabet)
    (hparts' : LegibleParts other.names other.alphabet) :
    nfa.render = other.render ↔ nfa.SameListing other := by
  rw [← h.table_eq_iff h' hparts.comma_not_mem hparts'.comma_not_mem]
  exact ⟨Table.eq_of_render_eq (h.legible_table hparts) (h'.legible_table hparts'),
    congrArg Table.render⟩

end Nfa

/-! ### Both kinds -/

/-- The written form loses none of the parts of a built automaton whose names and symbols are
legible, nor their order, and it shows nothing else: two deterministic automata, or two
nondeterministic ones, are written alike just when they have the same states, symbols, start
and final states and the same edges, each list in the same order. -/
theorem written_form_exact :
    (∀ dfa other : Dfa, dfa.Built → other.Built → LegibleParts dfa.names dfa.alphabet →
      LegibleParts other.names other.alphabet →
      (dfa.render = other.render ↔ dfa.SameListing other)) ∧
    ∀ nfa other : Nfa, nfa.Built → other.Built → LegibleParts nfa.names nfa.alphabet →
      LegibleParts other.names other.alphabet →
      (nfa.render = other.render ↔ nfa.SameListing other) :=
  ⟨fun _ _ h h' => h.render_eq_iff h', fun _ _ h h' => h.wellFormed.render_eq_iff h'.wellFormed⟩

/-- An automaton whose names and symbols look like the marks of the written form. -/
def braces : Dfa :=
  .ofAdditions {} [.start "\x7b", .final "=\x7d", .edge "\x7b" '\x7d' "=\x7d",
    .edge "\x7b" 'e' "\x7b", .edge "=\x7d" '\x7d' "\x7b"]

/-- The same automaton drawn in another order, with a move that is replaced and another flag. -/
def bracesRedrawn : Dfa :=
  .ofAdditions { substringFinality := true } [.state "\x7b", .final "=\x7d", .start "\x7b",
    .edge "\x7b" '\x7d' "\x7b", .edge "=\x7d" '\x7d' "\x7b", .edge "\x7b" 'e' "\x7b",
    .edge "\x7b" '\x7d' "=\x7d"]

/-- A nondeterministic automaton with such names, and edges that read nothing. -/
def bracesForked : Nfa :=
  .ofAdditions {} [.start "\x7b", .final "\x7d", .edge "\x7b" '-' "\x7d",
    .edge "\x7b" '-' "\x7b", .epsilonEdge "\x7b" "\x7d"]

/-- The same automaton drawn in another order. -/
def bracesForkedRedrawn : Nfa :=
  .ofAdditions {} [.state "\x7b", .start "\x7d", .final "\x7d", .epsilonEdge "\x7b" "\x7d",
    .edge "\x7b" '-' "\x7d", .edge "\x7b" '-' "\x7b", .start "\x7b"]

/-- The redrawn automata are other automata with the same texts, and their parts are the same. -/
theorem written_form_exact_braces :
    (braces.Built ∧ bracesRedrawn.Built ∧ LegibleParts braces.names braces.alphabet ∧
      LegibleParts bracesRedrawn.names bracesRedrawn.alphabet ∧ braces ≠ bracesRedrawn ∧
      braces.render = bracesRedrawn.render ∧ braces.SameListing bracesRedrawn) ∧
    bracesForked.Built ∧ bracesForkedRedrawn.Built ∧
      LegibleParts bracesForked.names bracesForked.alphabet ∧
      LegibleParts bracesForkedRedrawn.names bracesForkedRedrawn.alphabet ∧
      bracesForked ≠ bracesForkedRedrawn ∧ bracesForked.render = bracesForkedRedrawn.render ∧
      bracesForked.SameListing bracesForkedRedrawn := by
  have hparts : LegibleParts ["\x7b", "=\x7d"] ['\x7d', 'e'] := ⟨by simp, by simp, by simp⟩
  have hparts' : LegibleParts ["\x7b", "\x7d"] ['-'] := ⟨by simp, by simp, by simp⟩
  have hbuilt : braces.Built := ⟨_, _, rfl⟩
  have hbuilt' : bracesRedrawn.Built := ⟨_, _, rfl⟩
  have htext : braces.render = bracesRedrawn.render :=
    congrArg Table.render (by decide : braces.table = bracesRedrawn.table)
  have hforked : bracesForked.Built := ⟨_, _, rfl⟩
  have hforked' : bracesForkedRedrawn.Built := ⟨_, _, rfl⟩
  have htext' : bracesForked.render = bracesForkedRedrawn.render :=
    congrArg Table.render (by decide : bracesForked.table = bracesForkedRedrawn.table)
  obtain ⟨hdeterministic, hnondeterministic⟩ := written_form_exact
  refine ⟨⟨hbuilt, hbuilt', hparts, hparts, by decide, htext, ?_⟩,
    hforked, hforked', hparts', hparts', by decide, htext', ?_⟩
  · exact (hdeterministic _ _ hbuilt hbuilt' hparts hparts).mp htext
  · exact (hnondeterministic _ _ hforked hforked' hparts' hparts').mp htext'

end Automata
