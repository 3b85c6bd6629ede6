import Automata.Dfa.OfNfa
import Mathlib.Data.List.Nodup

/-!
# What a draft comes to

States that are pushed keep their places, so a place that was given for a name stands for it to the
end. In a layout each row has its own name: the first pass pushes the names of the final rows and
marks just these, the start and the last pass add the others, and the moves of a row are those that
were pushed from its place.
-/

namespace Automata

/-! ### Places that are kept -/

/-- What stands at a place of a list stands there in what continues it. -/
theorem getElem?_prefix_of {β : Type} {l l' : List β} {i : Nat} {b : β} (h : l <+: l')
    (hb : l[i]? = some b) : l'[i]? = some b := by
  obtain ⟨hi, rfl⟩ := List.getElem?_eq_some_iff.mp hb
  exact List.prefix_iff_getElem?.mp h i hi

/-- The first places of a longer list are those of the list. -/
theorem map_getElem?_range {β : Type} {l l' : List β} (h : l <+: l') :
    (List.range l.length).map (l'[·]?) = l.map some := by
  refine List.ext_getElem (by simp) fun i hi _ => ?_
  simpa using List.prefix_iff_getElem?.mp h i (by simpa using hi)

/-- The same holds of a place that may be missing. -/
theorem map_getElem?_prefix {β : Type} {l l' : List β} {place : Option Nat} {found : Option β}
    (h : l <+: l') (hplace : place.map (l[·]?) = found.map some) :
    place.map (l'[·]?) = found.map some := by
  cases place with
  | none => exact hplace
  | some i =>
    obtain ⟨b, hfound, hb⟩ := Option.map_eq_some_iff.mp hplace.symm
    rw [hfound]
    exact congrArg some (getElem?_prefix_of h hb.symm)

namespace Dfa.Draft

variable {draft : Draft} {name : String} {names : List String} {place : Nat}

/-! ### Pushing states -/

/-- A name that is there is found at its place, and another one becomes the last. -/
theorem pushState_cases (draft : Draft) (name : String) :
    (name ∈ draft.names.toList ∧ ∃ place, draft.names.toList[place]? = some name ∧
      draft.pushState name = (place, draft)) ∨
    (name ∉ draft.names.toList ∧ draft.pushState name =
      (draft.names.toList.length, { draft with names := draft.names.insert name })) := by
  unfold pushState
  cases hplace : draft.names.place? name with
  | some place =>
    have hthere := Discovery.place?_eq_some_iff.mp hplace
    exact Or.inl ⟨List.mem_of_getElem? hthere, place, hthere, rfl⟩
  | none =>
    refine Or.inr ⟨fun hmem => ?_, rfl⟩
    obtain ⟨place, hthere⟩ := List.getElem?_of_mem hmem
    simp [Discovery.place?_eq_some_iff.mpr hthere] at hplace

/-- A name that is pushed is added at the end, unless it is there. -/
theorem toList_names_pushState (draft : Draft) (name : String) :
    (draft.pushState name).2.names.toList = addLast draft.names.toList name := by
  rcases draft.pushState_cases name with ⟨hmem, place, -, hpush⟩ | ⟨-, hpush⟩
  · rw [hpush, addLast_of_mem hmem]
  · rw [hpush, Discovery.toList_insert]

/-- The place that is given is that of the name. -/
theorem getElem?_pushState (draft : Draft) (name : String) :
    (draft.pushState name).2.names.toList[(draft.pushState name).1]? = some name := by
  rcases draft.pushState_cases name with ⟨-, place, hthere, hpush⟩ | ⟨hnew, hpush⟩
  · rw [hpush]
    exact hthere
  · rw [hpush, Discovery.toList_insert, addLast_of_not_mem hnew]
    exact List.getElem?_concat_length ..

/-- Pushing a state changes nothing but the names. -/
theorem pushState_eq (draft : Draft) (name : String) :
    (draft.pushState name).2 = { draft with names := (draft.pushState name).2.names } := by
  rcases draft.pushState_cases name with ⟨-, place, -, hpush⟩ | ⟨-, hpush⟩ <;> rw [hpush]

/-- Names that are pushed are added at the end, but for those that are there. -/
theorem toList_names_pushStates (draft : Draft) (names : List String) :
    (draft.pushStates names).2.names.toList = addAllLast draft.names.toList names := by
  induction names generalizing draft with
  | nil => rfl
  | cons name names ih =>
    have hstep := ih (draft.pushState name).2
    rw [toList_names_pushState] at hstep
    exact hstep

/-- The places that are given are those of the names. -/
theorem places_pushStates (draft : Draft) (names : List String) :
    (draft.pushStates names).1.map ((draft.pushStates names).2.names.toList[·]?) =
      names.map some := by
  induction names generalizing draft with
  | nil => rfl
  | cons name names ih =>
    refine congrArg₂ List.cons ?_ (ih (draft.pushState name).2)
    -- The name keeps its place while the others are pushed.
    have hlist := toList_names_pushStates (draft.pushState name).2 names
    have hkept := prefix_addAllLast (draft.pushState name).2.names.toList names
    exact getElem?_prefix_of (hlist ▸ hkept) (draft.getElem?_pushState name)

/-- Pushing states changes nothing but the names. -/
theorem pushStates_eq (draft : Draft) (names : List String) :
    (draft.pushStates names).2 = { draft with names := (draft.pushStates names).2.names } := by
  induction names generalizing draft with
  | nil => rfl
  | cons name names ih =>
    obtain ⟨first, hfirst⟩ : ∃ first, (draft.pushState name).2 = { draft with names := first } :=
      ⟨_, draft.pushState_eq name⟩
    show ((draft.pushState name).2.pushStates names).2 =
      { draft with names := ((draft.pushState name).2.pushStates names).2.names }
    rw [hfirst]
    exact ih { draft with names := first }

/-- The name at a place is the one that stands there. -/
theorem nameAt_eq (h : draft.names.toList[place]? = some name) : draft.nameAt place = name := by
  have hthere : draft.names.items[place]? = some name := by simpa [Discovery.toList] using h
  simp [nameAt, Array.getD_eq_getD_getElem?, hthere]

/-- The names at the places of names are these names. -/
theorem map_nameAt {places : List Nat}
    (h : places.map (draft.names.toList[·]?) = names.map some) :
    places.map draft.nameAt = names := by
  induction places generalizing names with
  | nil => exact (List.map_eq_nil_iff.mp h.symm).symm
  | cons place places ih =>
    cases names with
    | nil => simp at h
    | cons name names =>
      obtain ⟨hplace, hplaces⟩ := List.cons.inj h
      exact congrArg₂ List.cons (nameAt_eq hplace) (ih hplaces)

/-! ### Pushing moves -/

variable {source : Nat} {symbol : Char} {pairs : List (Char × Nat)}

/-- Pushing moves changes nothing but these, and puts their symbols into the alphabet. -/
theorem foldl_pushMove_eq (draft : Draft) (source : Nat) (goal : Nat → Nat)
    (pairs : List (Char × Nat)) :
    ∃ moves, pairs.foldl (fun draft move => draft.pushMove source move.1 (goal move.2))
      draft = { draft with moves, alphabet := addAllLast draft.alphabet (pairs.map (·.1)) } := by
  induction pairs generalizing draft with
  | nil => exact ⟨draft.moves, rfl⟩
  | cons pair pairs ih => exact ih (draft.pushMove source pair.1 (goal pair.2))

/-- Where the symbols differ, each of the moves is found, and other states keep theirs. -/
theorem moves_foldl_pushMove (draft : Draft) (goal : Nat → Nat)
    (hpairs : (pairs.map (·.1)).Nodup) :
    (pairs.foldl (fun draft move => draft.pushMove source move.1 (goal move.2))
      draft).moves[Departure.mk place symbol]? =
      if place = source then
        ((pairs.lookup symbol).map goal).or draft.moves[Departure.mk place symbol]?
      else draft.moves[Departure.mk place symbol]? := by
  induction pairs generalizing draft with
  | nil => simp
  | cons pair pairs ih =>
    obtain ⟨read, next⟩ := pair
    obtain ⟨hread, hpairs⟩ := List.nodup_cons.mp hpairs
    have hpushed : (draft.pushMove source read (goal next)).moves[Departure.mk place symbol]? =
        if place = source ∧ symbol = read then some (goal next)
        else draft.moves[Departure.mk place symbol]? := by
      simp only [pushMove, Std.HashMap.getElem?_insert, beq_iff_eq, Departure.mk.injEq,
        @eq_comm _ source, @eq_comm _ read]
    rw [List.foldl_cons, ih _ hpairs, hpushed]
    by_cases hplace : place = source
    · by_cases hsymbol : symbol = read
      · -- The symbol does not come again, so the move stays.
        subst hsymbol
        simp [hplace, lookup_of_not_mem hread]
      · have hne : (symbol == read) = false := by simpa using hsymbol
        simp [hplace, hsymbol, List.lookup_cons, hne]
    · simp [hplace]

end Dfa.Draft

/-! ### Laying out -/

namespace Nfa

/-- A row with the names of its successors. -/
structure NamedRow where
  name : String
  isFinal : Bool
  targets : List String
  deriving DecidableEq

/-- The automaton whose states are the rows, the final ones first. The first row is the
start. -/
def dfaOfRows (nfa : Nfa) (rows : List NamedRow) : Dfa :=
  let ordered := rows.filter (·.isFinal) ++ rows.filter (!·.isFinal)
  { states := ordered.map fun row => { name := row.name, moves := nfa.alphabet.zip row.targets }
    alphabet := nfa.alphabet
    start := rows.head?.map (·.name)
    finals := (rows.filter (·.isFinal)).map (·.name)
    flags := nfa.flags }

/-- The row with its successors named. -/
def SubsetRow.named (rows : List SubsetRow) (row : SubsetRow) : NamedRow where
  name := row.name
  isFinal := row.isFinal
  targets := row.successors.map fun next => (rows.map (·.name)).getD next ""

variable {nfa : Nfa} {rows : List SubsetRow} {row : SubsetRow} {draft : Dfa.Draft}

/-- A final row with a new name is pushed, and the place that it gets is marked. -/
theorem pushFinal_eq (draft : Dfa.Draft) (hfinal : row.isFinal = true)
    (hnew : row.name ∉ draft.names.toList) :
    ∃ names finals, pushFinal draft row = { draft with names, finals } ∧
      names.toList = draft.names.toList ++ [row.name] ∧
      finals.toList = addLast draft.finals.toList draft.names.toList.length := by
  obtain ⟨-, hpush⟩ := (draft.pushState_cases row.name).resolve_left fun h => hnew h.1
  refine ⟨draft.names.insert row.name, draft.finals.insert draft.names.toList.length, ?_, ?_, ?_⟩
  · simp only [pushFinal, hfinal, if_true, hpush]
    rfl
  · rw [Discovery.toList_insert, addLast_of_not_mem hnew]
  · rw [Discovery.toList_insert]

/-- The first pass pushes the final rows and marks all that it has pushed. -/
theorem foldl_pushFinal (draft : Dfa.Draft)
    (hnodup : (draft.names.toList ++ rows.map (·.name)).Nodup)
    (hfinals : draft.finals.toList = List.range draft.names.toList.length) :
    ∃ names finals, rows.foldl pushFinal draft = { draft with names, finals } ∧
      names.toList = draft.names.toList ++ (rows.filter (·.isFinal)).map (·.name) ∧
      finals.toList = List.range names.toList.length := by
  induction rows generalizing draft with
  | nil => exact ⟨draft.names, draft.finals, rfl, by simp, hfinals⟩
  | cons row rows ih =>
    by_cases hfinal : row.isFinal = true
    · have hnew : row.name ∉ draft.names.toList := by
        intro hmem
        exact (List.nodup_append.mp hnodup).2.2 _ hmem _ (by simp) rfl
      obtain ⟨first, marked, hstep, hfirst, hmarked⟩ := pushFinal_eq draft hfinal hnew
      -- The place that is marked is the next one, so the places that are marked stay in order.
      have hrange : marked.toList = List.range first.toList.length := by
        rw [hmarked, hfinals, addLast_of_not_mem (by simp), hfirst, List.length_append,
          List.length_singleton, List.range_succ]
      obtain ⟨names, finals, hrest, hlist, hlast⟩ :=
        ih { draft with names := first, finals := marked } (by simpa [hfirst] using hnodup) hrange
      refine ⟨names, finals, ?_, ?_, hlast⟩
      · rw [List.foldl_cons, hstep, hrest]
      · simp [hlist, hfirst, hfinal]
    · have hstep : pushFinal draft row = draft := if_neg hfinal
      have hless : (draft.names.toList ++ rows.map (·.name)).Nodup :=
        hnodup.sublist (List.Sublist.append_left (List.sublist_cons_self _ _) _)
      obtain ⟨names, finals, hrest, hlist, hlast⟩ := ih draft hless hfinals
      refine ⟨names, finals, ?_, ?_, hlast⟩
      · rw [List.foldl_cons, hstep, hrest]
      · simp [hlist, hfinal]

/-- The second pass pushes the first row, of which the last pass will push the name once more. -/
theorem pushStart_eq (rows : List SubsetRow) (draft : Dfa.Draft) (hstart : draft.start = none) :
    ∃ names start, pushStart draft rows = { draft with names, start } ∧
      addAllLast names.toList (rows.map (·.name)) =
        addAllLast draft.names.toList (rows.map (·.name)) ∧
      start.map (names.toList[·]?) = (rows.head?.map (·.name)).map some := by
  cases rows with
  | nil => exact ⟨draft.names, draft.start, rfl, rfl, by simp [hstart]⟩
  | cons row rows =>
    refine ⟨(draft.pushState row.name).2.names, some (draft.pushState row.name).1, ?_, ?_, ?_⟩
    · show (draft.pushState row.name).2.setStart _ = _
      rw [draft.pushState_eq row.name]
      rfl
    · have hmem : row.name ∈ addLast draft.names.toList row.name := by simp
      rw [draft.toList_names_pushState, List.map_cons]
      show addAllLast (addLast (addLast draft.names.toList row.name) row.name) _ = _
      rw [addLast_of_mem hmem]
      rfl
    · simpa using draft.getElem?_pushState row.name

/-- The names that are not those of final rows are those of the others. -/
theorem filter_not_mem_finals (hnodup : (rows.map (·.name)).Nodup) :
    (rows.map (·.name)).filter (· ∉ (rows.filter (·.isFinal)).map (·.name)) =
      (rows.filter (!·.isFinal)).map (·.name) := by
  rw [List.filter_map]
  congr 1
  refine List.filter_congr fun row hrow => ?_
  have hfinal : row.name ∈ (rows.filter (·.isFinal)).map (·.name) ↔ row.isFinal = true := by
    constructor
    · intro hmem
      obtain ⟨other, hother, hsame⟩ := List.mem_map.mp hmem
      obtain ⟨hother, hfinal⟩ := List.mem_filter.mp hother
      exact List.inj_on_of_nodup_map hnodup hother hrow hsame ▸ hfinal
    · exact fun hfinal => List.mem_map_of_mem (List.mem_filter.mpr ⟨hrow, hfinal⟩)
  simp only [Function.comp_apply, hfinal]
  cases row.isFinal <;> rfl

/-- The states of the rows stand in a draft at the places: the final ones first, which are
marked, and that of the first row is the start. -/
structure StandIn (rows : List SubsetRow) (places : List Nat) (draft : Dfa.Draft) : Prop where
  names_eq : draft.names.toList =
    (rows.filter (·.isFinal) ++ rows.filter (!·.isFinal)).map (·.name)
  finals_eq : draft.finals.toList.map (draft.names.toList[·]?) =
    ((rows.filter (·.isFinal)).map (·.name)).map some
  start_eq : draft.start.map (draft.names.toList[·]?) = (rows.head?.map (·.name)).map some
  places_eq : places.map (draft.names.toList[·]?) = (rows.map (·.name)).map some

/-- When all states are pushed, they stand in the draft, which has no moves yet. -/
theorem standIn_pushRows (flags : Flags) (hnodup : (rows.map (·.name)).Nodup) :
    StandIn rows (pushRows flags rows).1 (pushRows flags rows).2 ∧
      ∃ names start finals, (pushRows flags rows).2 = { flags, names, start, finals } := by
  obtain ⟨passed, finals, hpass, hpassed, hmarked⟩ :=
    foldl_pushFinal ({ flags } : Dfa.Draft) (by simpa using hnodup) rfl
  have hpassed : passed.toList = (rows.filter (·.isFinal)).map (·.name) := by simpa using hpassed
  let passedDraft : Dfa.Draft := { flags, names := passed, finals }
  obtain ⟨started, start, hstart, hstarted, hfirst⟩ := pushStart_eq rows passedDraft rfl
  let startedDraft : Dfa.Draft := { passedDraft with names := started, start }
  have hpush : pushRows flags rows = startedDraft.pushStates (rows.map (·.name)) := by
    rw [pushRows, hpass]
    exact congrArg (Dfa.Draft.pushStates · _) hstart
  have hpushed := startedDraft.pushStates_eq (rows.map (·.name))
  have hplaces := startedDraft.places_pushStates (rows.map (·.name))
  have hlist := startedDraft.toList_names_pushStates (rows.map (·.name))
  rw [← hpush] at hpushed hplaces hlist
  have hall : (pushRows flags rows).2.names.toList =
      (rows.filter (·.isFinal) ++ rows.filter (!·.isFinal)).map (·.name) := by
    rw [hlist, hstarted, addAllLast_eq_append_filter hnodup, hpassed,
      filter_not_mem_finals hnodup, List.map_append]
  generalize pushRows flags rows = pushed at *
  obtain ⟨places, drafted⟩ := pushed
  have hpassedPrefix : passed.toList <+: drafted.names.toList := by
    rw [hall, hpassed, List.map_append]
    exact List.prefix_append ..
  have hstartedPrefix : started.toList <+: drafted.names.toList := by
    rw [hlist]
    exact prefix_addAllLast ..
  have hfinals : drafted.finals = finals := congrArg Dfa.Draft.finals hpushed
  have hstart : drafted.start = start := congrArg Dfa.Draft.start hpushed
  refine ⟨⟨hall, ?_, ?_, hplaces⟩, _, start, finals, hpushed⟩
  · rw [hfinals, hmarked, map_getElem?_range hpassedPrefix, hpassed]
  · rw [hstart]
    exact map_getElem?_prefix hstartedPrefix hfirst

section Moves

variable {alphabet : List Char} {entries : List (Nat × SubsetRow)}
variable (hfull : ∀ entry ∈ entries, entry.2.successors.length = alphabet.length)

include hfull

/-- Pushing the moves of rows changes nothing but these and the alphabet, which is then the
whole one if there is a row. -/
theorem foldl_pushMoves_eq (table : Array Nat) (draft : Dfa.Draft)
    (halphabet : addAllLast draft.alphabet alphabet = alphabet) :
    ∃ moves last, entries.foldl
      (fun draft placed => pushMoves alphabet table draft placed.1 placed.2) draft =
        { draft with moves, alphabet := last } ∧
      (draft.alphabet = alphabet ∨ entries ≠ [] → last = alphabet) := by
  induction entries generalizing draft with
  | nil => exact ⟨draft.moves, draft.alphabet, rfl, fun h => h.resolve_right (by simp)⟩
  | cons entry entries ih =>
    obtain ⟨source, row⟩ := entry
    obtain ⟨hlength, hfull⟩ := List.forall_mem_cons.mp hfull
    have hlength : row.successors.length = alphabet.length := hlength
    obtain ⟨moves, hstep⟩ := draft.foldl_pushMove_eq source (table.getD · 0)
      (alphabet.zip row.successors)
    rw [List.map_fst_zip (by omega), halphabet] at hstep
    obtain ⟨more, last, hrest, hlast⟩ := ih hfull { draft with moves, alphabet }
      (addAllLast_of_subset fun _ => id)
    have hpushed : pushMoves alphabet table draft source row = { draft with moves, alphabet } :=
      hstep
    refine ⟨more, last, ?_, fun _ => hlast (Or.inl rfl)⟩
    rw [List.foldl_cons, hpushed, hrest]

/-- The moves that were pushed for a row are found at its place. -/
theorem moves_foldl_pushMoves (table : Array Nat) (draft : Dfa.Draft) (place : Nat) (symbol : Char)
    (hplaces : (entries.map (·.1)).Nodup) (hnodup : alphabet.Nodup) :
    (entries.foldl (fun draft placed => pushMoves alphabet table draft placed.1 placed.2)
      draft).moves[Dfa.Departure.mk place symbol]? =
      ((entries.lookup place).bind fun row =>
        ((alphabet.zip row.successors).lookup symbol).map (table.getD · 0)).or
          draft.moves[Dfa.Departure.mk place symbol]? := by
  induction entries generalizing draft with
  | nil => simp
  | cons entry entries ih =>
    obtain ⟨source, row⟩ := entry
    obtain ⟨hlength, hfull⟩ := List.forall_mem_cons.mp hfull
    obtain ⟨hsource, hplaces⟩ := List.nodup_cons.mp hplaces
    have hlength : row.successors.length = alphabet.length := hlength
    have hpairs : ((alphabet.zip row.successors).map (·.1)).Nodup := by
      rwa [List.map_fst_zip (by omega)]
    have hstep : (pushMoves alphabet table draft source row).moves[Dfa.Departure.mk place symbol]? =
        if place = source then
          (((alphabet.zip row.successors).lookup symbol).map (table.getD · 0)).or
            draft.moves[Dfa.Departure.mk place symbol]?
        else draft.moves[Dfa.Departure.mk place symbol]? := by
      rw [pushMoves, draft.moves_foldl_pushMove (table.getD · 0) hpairs]
    rw [List.foldl_cons, ih hfull _ hplaces, hstep]
    by_cases hplace : place = source
    · -- No other row has this place.
      subst hplace
      simp [lookup_of_not_mem hsource]
    · have hne : (place == source) = false := by simpa using hplace
      simp [hplace, List.lookup_cons, hne]

end Moves

/-- Going over an alphabet finds what was put beside each symbol. -/
theorem filterMap_lookup_zip {alphabet : List Char} (h : alphabet.Nodup) (nexts : List Nat)
    (f : Nat → String) :
    (alphabet.filterMap fun symbol =>
      ((alphabet.zip nexts).lookup symbol).map fun next => (symbol, f next)) =
      alphabet.zip (nexts.map f) := by
  induction alphabet generalizing nexts with
  | nil => rfl
  | cons first alphabet ih =>
    obtain ⟨hfirst, h⟩ := List.nodup_cons.mp h
    cases nexts with
    | nil => simp
    | cons next nexts =>
      have hrest : ∀ symbol ∈ alphabet,
          ((first :: alphabet).zip (next :: nexts)).lookup symbol =
            (alphabet.zip nexts).lookup symbol := by
        intro symbol hsymbol
        have hne : (symbol == first) = false := by
          simpa using fun heq : symbol = first => hfirst (heq ▸ hsymbol)
        simp [List.lookup_cons, hne]
      have hzip : (first :: alphabet).zip (f next :: nexts.map f) =
          (first, f next) :: alphabet.filterMap fun symbol =>
            ((alphabet.zip nexts).lookup symbol).map fun next => (symbol, f next) := by
        rw [ih h nexts, List.zip_cons_cons]
      rw [List.filterMap_cons_some (b := (first, f next)) (by simp), List.map_cons,
        hzip]
      exact congrArg _ (List.filterMap_congr fun symbol hsymbol => by rw [hrest symbol hsymbol])

namespace StandIn

variable {places : List Nat} (h : StandIn rows places draft)

include h

/-- There is a place for each row. -/
theorem length_places : places.length = rows.length := by
  simpa using congrArg List.length h.places_eq

/-- The name at the place of a row is that of the row. -/
theorem nameAt_places {next : Nat} (hnext : next < rows.length) :
    draft.nameAt (places.toArray.getD next 0) = (rows.map (·.name)).getD next "" := by
  have hlength := h.length_places
  rw [← Dfa.Draft.map_nameAt h.places_eq]
  simp [List.getD_eq_getElem?_getD, Array.getD_eq_getD_getElem?, hlength, hnext]

variable (hnodup : (rows.map (·.name)).Nodup)

include hnodup

/-- The names in the draft differ if those of the rows do. -/
theorem nodup_names : draft.names.toList.Nodup := by
  rw [h.names_eq]
  exact ((List.filter_append_perm (·.isFinal) rows).map (·.name)).nodup_iff.mpr hnodup

/-- The places of rows with different names differ. -/
theorem nodup_places : places.Nodup := by
  refine List.Nodup.of_map (draft.names.toList[·]?) ?_
  rw [h.places_eq]
  exact hnodup.map fun _ _ => Option.some.inj

/-- A row is found at the place where its name stands. -/
theorem lookup_places {place : Nat} (hrow : row ∈ rows)
    (hplace : draft.names.toList[place]? = some row.name) :
    (places.zip rows).lookup place = some row := by
  have hlength := h.length_places
  obtain ⟨k, hk, rfl⟩ := List.getElem_of_mem hrow
  have hk' : k < places.length := by omega
  have hthere : draft.names.toList[places[k]]? = some rows[k].name := by
    simpa [hk, hk'] using congrArg (·[k]?) h.places_eq
  -- A name stands at one place only.
  have hsame : places[k] = place := by
    obtain ⟨hlt, hname⟩ := List.getElem?_eq_some_iff.mp hthere
    obtain ⟨hlt', hname'⟩ := List.getElem?_eq_some_iff.mp hplace
    exact (h.nodup_names hnodup).getElem_inj_iff.mp (hname.trans hname'.symm)
  have hkeys : ((places.zip rows).map (·.1)).Nodup := by
    rw [List.map_fst_zip (by omega)]
    exact h.nodup_places hnodup
  refine lookup_of_mem hkeys ?_
  rw [← hsame, List.mem_iff_getElem]
  exact ⟨k, by simp only [List.length_zip]; omega, by simp⟩

end StandIn

/-- The rows stand in the draft, and the moves of each were pushed at its place. -/
structure LaidOut (nfa : Nfa) (rows : List SubsetRow) (places : List Nat) (draft : Dfa.Draft) :
    Prop extends StandIn rows places draft where
  alphabet_eq : draft.alphabet = nfa.alphabet
  flags_eq : draft.flags = nfa.flags
  moves_eq : ∀ place symbol, draft.moves[Dfa.Departure.mk place symbol]? =
    ((places.zip rows).lookup place).bind fun row =>
      ((nfa.alphabet.zip row.successors).lookup symbol).map (places.toArray.getD · 0)

/-- The moves from the place of a row are those of the row, with its successors named. -/
theorem LaidOut.movesAt_row {places : List Nat} {place : Nat} (h : nfa.LaidOut rows places draft)
    (hnodup : (rows.map (·.name)).Nodup) (halphabet : nfa.alphabet.Nodup) (hrow : row ∈ rows)
    (hbelow : ∀ next ∈ row.successors, next < rows.length)
    (hplace : draft.names.toList[place]? = some row.name) :
    draft.movesAt place = nfa.alphabet.zip (row.named rows).targets := by
  have hfound := h.lookup_places hnodup hrow hplace
  have htargets : (row.named rows).targets =
      row.successors.map fun next => draft.nameAt (places.toArray.getD next 0) :=
    List.map_congr_left fun next hnext => (h.nameAt_places (hbelow next hnext)).symm
  rw [htargets, ← filterMap_lookup_zip halphabet, Dfa.Draft.movesAt, h.alphabet_eq]
  refine List.filterMap_congr fun symbol _ => ?_
  rw [h.moves_eq, hfound, Option.bind_some, Option.map_map]
  rfl

/-- Rows with different names are laid out, if there is one. -/
theorem laidOut_layOut (hnodup : (rows.map (·.name)).Nodup) (halphabet : nfa.alphabet.Nodup)
    (hsome : rows ≠ []) (hfull : ∀ row ∈ rows, row.successors.length = nfa.alphabet.length) :
    ∃ places, nfa.LaidOut rows places (nfa.layOut rows) := by
  obtain ⟨hstand, names, start, finals, hpushed⟩ := standIn_pushRows nfa.flags hnodup
  generalize hrows : pushRows nfa.flags rows = pushed at hstand hpushed
  obtain ⟨places, drafted⟩ := pushed
  have hpushed : drafted = { flags := nfa.flags, names, start, finals } := hpushed
  have hstand : StandIn rows places drafted := hstand
  have hlength := hstand.length_places
  have hentries : ∀ entry ∈ places.zip rows, entry.2.successors.length = nfa.alphabet.length :=
    fun entry hentry => hfull _ (List.of_mem_zip hentry).2
  have hkeys : ((places.zip rows).map (·.1)).Nodup := by
    rw [List.map_fst_zip (by omega)]
    exact hstand.nodup_places hnodup
  have hsymbols : addAllLast drafted.alphabet nfa.alphabet = nfa.alphabet := by
    rw [hpushed]
    simpa using addAllLast_eq_append_filter (l := []) halphabet
  obtain ⟨moves, last, hfold, hlast⟩ :=
    foldl_pushMoves_eq hentries places.toArray drafted hsymbols
  -- There is a row, so the whole alphabet was pushed.
  have hplaced : places.zip rows ≠ [] := by
    have := List.length_pos_of_ne_nil hsome
    refine List.ne_nil_of_length_pos ?_
    rw [List.length_zip]
    omega
  obtain rfl := hlast (Or.inr hplaced)
  have hlaid : nfa.layOut rows = { drafted with moves, alphabet := nfa.alphabet } := by
    rw [layOut, hrows]
    exact hfold
  refine ⟨places, ?_⟩
  rw [hlaid]
  constructor
  case toStandIn => exact ⟨hstand.names_eq, hstand.finals_eq, hstand.start_eq, hstand.places_eq⟩
  case alphabet_eq => rfl
  case flags_eq => rw [hpushed]
  case moves_eq =>
    intro place symbol
    have hmoves :=
      moves_foldl_pushMoves hentries places.toArray drafted place symbol hkeys halphabet
    rw [hfold] at hmoves
    simpa [hpushed] using hmoves

/-- What is laid out is the automaton of the rows with their successors named. -/
theorem LaidOut.toDfa_eq {places : List Nat} (h : nfa.LaidOut rows places draft)
    (hnodup : (rows.map (·.name)).Nodup) (halphabet : nfa.alphabet.Nodup)
    (hbelow : ∀ row ∈ rows, ∀ next ∈ row.successors, next < rows.length) :
    draft.toDfa = nfa.dfaOfRows (rows.map (·.named rows)) := by
  let ordered := rows.filter (·.isFinal) ++ rows.filter (!·.isFinal)
  have hordered : (rows.map (·.named rows)).filter (·.isFinal) ++
      (rows.map (·.named rows)).filter (!·.isFinal) = ordered.map (·.named rows) := by
    rw [List.filter_map, List.filter_map, List.map_append]
    rfl
  have hmem : ∀ row ∈ ordered, row ∈ rows := fun row =>
    (List.filter_append_perm (·.isFinal) rows).mem_iff.mp
  have hstates : draft.names.toList.mapIdx (fun place name =>
        ({ name, moves := draft.movesAt place } : Dfa.State)) =
      (ordered.map (·.named rows)).map fun row =>
        { name := row.name, moves := nfa.alphabet.zip row.targets } := by
    refine List.ext_getElem (by simp [h.names_eq, ordered]) fun place hplace hplace' => ?_
    have hplace' : place < ordered.length := by simpa using hplace'
    have hthere : draft.names.toList[place]? = some ordered[place].name := by
      rw [h.names_eq, List.getElem?_map, List.getElem?_eq_getElem hplace', Option.map_some]
    have hrow := hmem _ (List.getElem_mem hplace')
    have hmoves := h.movesAt_row hnodup halphabet hrow (hbelow _ hrow) hthere
    obtain ⟨hlt, hname⟩ := List.getElem?_eq_some_iff.mp hthere
    simp only [List.getElem_mapIdx, List.getElem_map, hmoves, hname]
    rfl
  have hfinals : draft.finals.toList.map draft.nameAt =
      ((rows.map (·.named rows)).filter (·.isFinal)).map (·.name) := by
    rw [Dfa.Draft.map_nameAt h.finals_eq, List.filter_map, List.map_map]
    rfl
  have hstart : draft.start.map draft.nameAt = (rows.map (·.named rows)).head?.map (·.name) := by
    have hplace := h.start_eq
    cases rows with
    | nil => simpa using hplace
    | cons row rows =>
      obtain ⟨place, hstart, hname⟩ := Option.map_eq_some_iff.mp hplace
      rw [hstart, Option.map_some, Dfa.Draft.nameAt_eq hname]
      rfl
  rw [Dfa.Draft.toDfa, dfaOfRows, hstates, hfinals, hstart, hordered, h.alphabet_eq, h.flags_eq]

end Nfa

end Automata
