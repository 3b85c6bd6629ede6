import Automata.Table

/-!
# Reading the written form back

The written form is a row of lines and each line a row of fields, with one separator between
neighbours. Where no field has the separator in it, the fields are what stands between the
separators. So a table can be told from its text when none of its parts has a blank or the
end of a line in it, and its start is not written as a dash.
-/

namespace Automata

/-! ### Fields and separators -/

/-- The fields, with one separator between neighbours. -/
def joinFields (separator : Char) (fields : List String) : String :=
  (String.singleton separator).intercalate fields

/-- What stands between the separators of a text. -/
def fieldsOf (separator : Char) (text : String) : List String :=
  (text.split separator).toList.map (·.copy)

variable {separator c : Char} {fields : List String}

/-- Fields that do not have the separator in them are read back, except that no field at all
is read as an empty one. -/
theorem fieldsOf_joinFields (h : ∀ field ∈ fields, separator ∉ field.toList) :
    fieldsOf separator (joinFields separator fields) = if fields = [] then [""] else fields :=
  String.toList_split_intercalate h

/-- Fields that are joined alike are the same. -/
theorem eq_of_joinFields_eq {fields' : List String} (hne : fields ≠ []) (hne' : fields' ≠ [])
    (h : ∀ field ∈ fields, separator ∉ field.toList)
    (h' : ∀ field ∈ fields', separator ∉ field.toList)
    (heq : joinFields separator fields = joinFields separator fields') : fields = fields' := by
  have hread := congrArg (fieldsOf separator) heq
  rwa [fieldsOf_joinFields h, fieldsOf_joinFields h', if_neg hne, if_neg hne'] at hread

/-- The separator stands between fields only. -/
theorem joinFields_cons_cons (separator : Char) (first second : String) (rest : List String) :
    joinFields separator (first :: second :: rest) =
      first ++ String.singleton separator ++ joinFields separator (second :: rest) :=
  String.intercalate_cons_cons

/-- Nothing but the fields and the separator occurs in joined fields. -/
theorem mem_joinFields (h : c ∈ (joinFields separator fields).toList) :
    c = separator ∨ ∃ field ∈ fields, c ∈ field.toList := by
  induction fields with
  | nil => simp [joinFields] at h
  | cons first rest ih =>
    cases rest with
    | nil => exact Or.inr ⟨first, by simp, by simpa [joinFields] using h⟩
    | cons second rest =>
      rw [joinFields_cons_cons, String.toList_append, String.toList_append, List.mem_append,
        List.mem_append] at h
      rcases h with (h | h) | h
      · exact Or.inr ⟨first, by simp, h⟩
      · exact Or.inl (by simpa using h)
      · rcases ih h with hsame | ⟨field, hfield, hc⟩
        · exact Or.inl hsame
        · exact Or.inr ⟨field, by simp [hfield], hc⟩

/-- Items that each end with the separator are fields before the last one. -/
theorem join_ended_append (separator : Char) (items : List String) (last : String) :
    String.join (items.map (· ++ String.singleton separator)) ++ last =
      joinFields separator (items ++ [last]) := by
  induction items with
  | nil => simp [joinFields]
  | cons item items ih =>
    rw [List.map_cons, String.join_cons, String.append_assoc, ih]
    cases items <;> simp [joinFields_cons_cons]

/-- Items that each begin with the separator are fields behind the first one. -/
theorem append_join_begun (separator : Char) (first : String) (items : List String) :
    first ++ String.join (items.map (String.singleton separator ++ ·)) =
      joinFields separator (first :: items) := by
  induction items generalizing first with
  | nil => simp [joinFields]
  | cons item items ih =>
    rw [List.map_cons, String.join_cons, String.append_assoc, ih, joinFields_cons_cons,
      String.append_assoc]

/-- The text has no separator of the written form in it. -/
def Solid (text : String) : Prop := ∀ c ∈ text.toList, c ∉ [' ', '\t', '\n']

/-- None of the separating characters is in a solid text. -/
theorem Solid.not_mem {text : String} (h : Solid text) (hc : c ∈ [' ', '\t', '\n']) :
    c ∉ text.toList :=
  fun hmem => h c hmem hc

/-- A character that does not separate is a solid text. -/
theorem solid_toString (h : c ∉ [' ', '\t', '\n']) : Solid c.toString := by
  intro d hd
  have hsame : d = c := by simpa using hd
  exact hsame ▸ h

namespace Table

/-! ### The lines of a table -/

/-- The fields of the line of a named set. -/
def setFields (name : String) (members : List String) : List String :=
  [name, "=", "\x7b"] ++ members ++ ["\x7d"]

/-- The fields of the heading. -/
def headingFields (columns : List Char) : List String :=
  ["", ""] ++ columns.map Char.toString ++ [""]

/-- The fields of the line of a state. -/
def rowFields (row : String × List String) : List String := "" :: row.1 :: row.2

/-- The lines of the text, without their ends. -/
def lines (table : Table) : List String :=
  [joinFields ' ' (setFields "Q" (table.rows.map (·.1))),
    joinFields ' ' (setFields "Sigma" (table.alphabet.map Char.toString)),
    "delta =",
    joinFields '\t' (headingFields table.columns)] ++
  (table.rows.map fun row => joinFields '\t' (rowFields row)) ++
  ["q0 = " ++ table.start.getD "-", joinFields ' ' (setFields "F" table.finals)]

/-- The line of a set is its fields, joined by blanks. -/
theorem setLine_eq (name : String) (members : List String) :
    setLine name members = joinFields ' ' (setFields name members) ++ "\n" := by
  have hfields := join_ended_append ' ' ([name, "=", "\x7b"] ++ members) "\x7d"
  rw [setFields, ← hfields, ← String.toList_inj]
  simp [setLine]

/-- The line of a row is its fields, joined by tabs. -/
theorem rowLine_eq (row : String × List String) :
    rowLine row = joinFields '\t' (rowFields row) ++ "\n" := by
  have hfields := append_join_begun '\t' "" (row.1 :: row.2)
  rw [rowFields, ← hfields, ← String.toList_inj]
  simp [rowLine]

/-- The line above the rows is its fields, joined by tabs. -/
theorem headingLine_eq (columns : List Char) :
    "\t\t" ++ String.join (columns.map (·.toString ++ "\t")) =
      joinFields '\t' (headingFields columns) := by
  have hfields := join_ended_append '\t' (["", ""] ++ columns.map Char.toString) ""
  rw [headingFields, ← hfields, ← String.toList_inj]
  simp [List.flatMap_map]

/-- The text of a table is its lines, with an end behind each. -/
theorem render_eq (table : Table) : table.render = joinFields '\n' (table.lines ++ [""]) := by
  have hheading := congrArg String.toList (headingLine_eq table.columns)
  rw [← join_ended_append, ← String.toList_inj]
  simp only [render, setLine_eq, lines]
  simp [List.flatMap_map, rowLine_eq, ← hheading]

/-! ### Legible tables -/

/-- No part of the table has a separator of the written form in it, and the start is not
written like a missing one. -/
structure Legible (table : Table) : Prop where
  names_solid : ∀ row ∈ table.rows, Solid row.1
  cells_solid : ∀ row ∈ table.rows, ∀ cell ∈ row.2, Solid cell
  alphabet_solid : ∀ c ∈ table.alphabet, c ∉ [' ', '\t', '\n']
  columns_solid : ∀ c ∈ table.columns, c ∉ [' ', '\t', '\n']
  start_solid : ∀ start, table.start = some start → Solid start
  start_ne_dash : table.start ≠ some "-"
  finals_solid : ∀ final ∈ table.finals, Solid final

variable {table other : Table}

/-- The fields of a set are solid if its name and its members are. -/
theorem solid_of_mem_setFields {name : String} {members : List String} (hname : Solid name)
    (h : ∀ member ∈ members, Solid member) : ∀ field ∈ setFields name members, Solid field := by
  intro field hfield
  simp only [setFields, List.cons_append, List.nil_append, List.mem_cons, List.mem_append,
    List.not_mem_nil, or_false] at hfield
  rcases hfield with rfl | rfl | rfl | hfield | rfl
  · exact hname
  · simp [Solid]
  · simp [Solid]
  · exact h field hfield
  · simp [Solid]

/-- Symbols that do not separate are solid fields. -/
theorem solid_of_mem_symbols {symbols : List Char} (h : ∀ c ∈ symbols, c ∉ [' ', '\t', '\n']) :
    ∀ field ∈ symbols.map Char.toString, Solid field := by
  intro field hfield
  obtain ⟨c, hc, rfl⟩ := List.mem_map.mp hfield
  exact solid_toString (h c hc)

/-- The first cells of a legible table are solid. -/
theorem Legible.solid_of_mem_names (h : table.Legible) :
    ∀ field ∈ table.rows.map (·.1), Solid field := by
  intro field hfield
  obtain ⟨row, hrow, rfl⟩ := List.mem_map.mp hfield
  exact h.names_solid row hrow

/-- The heading of a legible table has solid fields. -/
theorem Legible.solid_of_mem_headingFields (h : table.Legible) :
    ∀ field ∈ headingFields table.columns, Solid field := by
  have hempty : Solid "" := by simp [Solid]
  intro field hfield
  simp only [headingFields, List.cons_append, List.nil_append, List.mem_cons, List.mem_append,
    List.not_mem_nil, or_false] at hfield
  rcases hfield with rfl | rfl | hfield | rfl
  · exact hempty
  · exact hempty
  · exact solid_of_mem_symbols h.columns_solid field hfield
  · exact hempty

/-- The rows of a legible table have solid fields. -/
theorem Legible.solid_of_mem_rowFields (h : table.Legible) {row : String × List String}
    (hrow : row ∈ table.rows) : ∀ field ∈ rowFields row, Solid field := by
  intro field hfield
  rcases List.mem_cons.mp hfield with rfl | hfield
  · simp [Solid]
  · rcases List.mem_cons.mp hfield with rfl | hfield
    · exact h.names_solid row hrow
    · exact h.cells_solid row hrow field hfield

/-- The lines are not broken by their fields. -/
theorem Legible.not_mem_lines (h : table.Legible) : ∀ line ∈ table.lines ++ [""],
    '\n' ∉ line.toList := by
  have hjoined : ∀ separator ∈ [' ', '\t'], ∀ fields, (∀ field ∈ fields, Solid field) →
      '\n' ∉ (joinFields separator fields).toList := by
    intro separator hseparator fields hfields hmem
    rcases mem_joinFields hmem with rfl | ⟨field, hfield, hin⟩
    · simp at hseparator
    · exact (hfields field hfield).not_mem (by simp) hin
  have hset : ∀ name members, Solid name → (∀ member ∈ members, Solid member) →
      '\n' ∉ (joinFields ' ' (setFields name members)).toList := fun name members hname hmembers =>
    hjoined ' ' (by simp) _ (solid_of_mem_setFields hname hmembers)
  intro line hline
  simp only [lines, List.cons_append, List.nil_append, List.append_assoc, List.mem_cons,
    List.mem_append, List.mem_map, List.not_mem_nil, or_false] at hline
  rcases hline with rfl | rfl | rfl | rfl | ⟨row, hrow, rfl⟩ | rfl | rfl | rfl
  · exact hset _ _ (by simp [Solid]) h.solid_of_mem_names
  · exact hset _ _ (by simp [Solid]) (solid_of_mem_symbols h.alphabet_solid)
  · simp
  · exact hjoined '\t' (by simp) _ h.solid_of_mem_headingFields
  · exact hjoined '\t' (by simp) _ (h.solid_of_mem_rowFields hrow)
  · cases hstart : table.start with
    | none => simp
    | some start =>
      have hsolid := (h.start_solid start hstart).not_mem (c := '\n') (by simp)
      simpa using hsolid
  · exact hset _ _ (by simp [Solid]) h.finals_solid
  · simp

/-! ### Reading a table back -/

/-- Members are read back from the line of a named set. -/
theorem eq_of_setFields {name : String} {members members' : List String} (hname : Solid name)
    (h : ∀ member ∈ members, Solid member) (h' : ∀ member ∈ members', Solid member)
    (heq : joinFields ' ' (setFields name members) = joinFields ' ' (setFields name members')) :
    members = members' := by
  have hfields : setFields name members = setFields name members' :=
    eq_of_joinFields_eq (by simp [setFields]) (by simp [setFields])
      (fun field hfield => (solid_of_mem_setFields hname h field hfield).not_mem (by simp))
      (fun field hfield => (solid_of_mem_setFields hname h' field hfield).not_mem (by simp)) heq
  simpa [setFields] using hfields

/-- Symbols can be told from their texts. -/
theorem eq_of_map_toString {symbols symbols' : List Char}
    (heq : symbols.map Char.toString = symbols'.map Char.toString) : symbols = symbols' :=
  (List.map_inj_right fun _ _ hsame => String.singleton_inj.mp hsame).mp heq

/-- The columns are read back from the heading. -/
theorem Legible.columns_eq (h : table.Legible) (h' : other.Legible)
    (heq : joinFields '\t' (headingFields table.columns) =
      joinFields '\t' (headingFields other.columns)) : table.columns = other.columns := by
  have hfields : headingFields table.columns = headingFields other.columns :=
    eq_of_joinFields_eq (by simp [headingFields]) (by simp [headingFields])
      (fun field hfield => (h.solid_of_mem_headingFields field hfield).not_mem (by simp))
      (fun field hfield => (h'.solid_of_mem_headingFields field hfield).not_mem (by simp)) heq
  exact eq_of_map_toString (by simpa [headingFields] using hfields)

/-- The names and cells are read back from the lines of the states. -/
theorem Legible.rows_eq (h : table.Legible) (h' : other.Legible)
    (heq : (table.rows.map fun row => joinFields '\t' (rowFields row)) =
      other.rows.map fun row => joinFields '\t' (rowFields row)) : table.rows = other.rows := by
  have hread : ∀ table : Table, table.Legible →
      (table.rows.map fun row => joinFields '\t' (rowFields row)).map (fieldsOf '\t') =
        table.rows.map rowFields := by
    intro table h
    rw [List.map_map]
    refine List.map_congr_left fun row hrow => fieldsOf_joinFields ?_
    exact fun field hfield => (h.solid_of_mem_rowFields hrow field hfield).not_mem (by simp)
  have hfields := congrArg (List.map (fieldsOf '\t')) heq
  rw [hread table h, hread other h'] at hfields
  refine (List.map_inj_right fun row row' hsame => ?_).mp hfields
  simp only [rowFields, List.cons.injEq, true_and] at hsame
  exact Prod.ext hsame.1 hsame.2

/-- The start is read back from its line, and so is whether there is one. -/
theorem Legible.start_eq (h : table.Legible) (h' : other.Legible)
    (heq : table.start.getD "-" = other.start.getD "-") : table.start = other.start := by
  have hne := h.start_ne_dash
  have hne' := h'.start_ne_dash
  cases hstart : table.start <;> cases hstart' : other.start <;> simp_all

/-- Legible tables that are written alike are the same. -/
theorem eq_of_render_eq (h : table.Legible) (h' : other.Legible)
    (heq : table.render = other.render) : table = other := by
  rw [render_eq, render_eq] at heq
  have hlines := eq_of_joinFields_eq (by simp) (by simp) h.not_mem_lines h'.not_mem_lines heq
  simp only [lines, List.cons_append, List.nil_append, List.append_assoc, List.cons.injEq,
    true_and] at hlines
  -- The names are read back from the lines of the states, so the line of `Q` is not needed.
  obtain ⟨-, halphabet, hcolumns, hrest⟩ := hlines
  obtain ⟨hrows, hend⟩ := List.append_inj' hrest rfl
  simp only [List.cons.injEq, String.append_right_inj, and_true] at hend
  obtain ⟨hstart, hfinals⟩ := hend
  have hletters := eq_of_setFields (by simp [Solid]) (solid_of_mem_symbols h.alphabet_solid)
    (solid_of_mem_symbols h'.alphabet_solid) halphabet
  obtain ⟨alphabet, columns, rows, start, finals⟩ := table
  obtain ⟨alphabet', columns', rows', start', finals'⟩ := other
  rw [mk.injEq]
  exact ⟨eq_of_map_toString hletters, h.columns_eq h' hcolumns, h.rows_eq h' hrows,
    h.start_eq h' hstart, eq_of_setFields (by simp [Solid]) h.finals_solid h'.finals_solid hfinals⟩

end Table

end Automata
