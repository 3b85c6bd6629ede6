/-!
# Lists without repetition

States, alphabets, final states and the targets of an edge are kept as lists in which
nothing occurs twice, in the order in which their members were first added.
-/

namespace Automata

variable {α : Type} [DecidableEq α]

/-- The list with the value at its end, unless the value is already in it. -/
def addLast (l : List α) (a : α) : List α :=
  if a ∈ l then l else l ++ [a]

/-- The list with the values added at its end one after the other. -/
def addAllLast (l values : List α) : List α :=
  values.foldl addLast l

/-- The list has the value and what it had before. -/
@[simp] theorem mem_addLast {l : List α} {a b : α} : b ∈ addLast l a ↔ b ∈ l ∨ b = a := by
  unfold addLast
  split
  · next h => exact ⟨Or.inl, fun hb => hb.elim id fun e => e ▸ h⟩
  · simp

/-- A value that is there already is not added. -/
theorem addLast_of_mem {l : List α} {a : α} (h : a ∈ l) : addLast l a = l := if_pos h

/-- A new value comes last. -/
theorem addLast_of_not_mem {l : List α} {a : α} (h : a ∉ l) : addLast l a = l ++ [a] := if_neg h

/-- No repetition comes in with a value. -/
theorem nodup_addLast {l : List α} (h : l.Nodup) (a : α) : (addLast l a).Nodup := by
  unfold addLast
  split
  · exact h
  · next ha =>
    refine List.nodup_append.mpr ⟨h, by simp, ?_⟩
    intro x hx y hy
    have hya : y = a := by simpa using hy
    exact fun hxy => ha (hya ▸ hxy ▸ hx)

/-- Adding a value keeps those already there in their places. -/
theorem prefix_addLast (l : List α) (a : α) : l <+: addLast l a := by
  unfold addLast
  split
  · exact List.prefix_refl l
  · exact List.prefix_append l [a]

/-- The list grows by one value at most. -/
theorem length_addLast_le (l : List α) (a : α) : (addLast l a).length ≤ l.length + 1 := by
  unfold addLast
  split <;> simp

/-- The list has all the values and what it had before. -/
@[simp] theorem mem_addAllLast {l values : List α} {b : α} :
    b ∈ addAllLast l values ↔ b ∈ l ∨ b ∈ values := by
  induction values generalizing l with
  | nil => simp [addAllLast]
  | cons a values ih =>
    have hstep : addAllLast l (a :: values) = addAllLast (addLast l a) values := rfl
    rw [hstep, ih]
    simp [or_assoc]

/-- Adding values keeps those already there in their places. -/
theorem prefix_addAllLast (l values : List α) : l <+: addAllLast l values := by
  induction values generalizing l with
  | nil => exact List.prefix_refl l
  | cons a values ih => exact (prefix_addLast l a).trans (ih (addLast l a))

/-- The list grows by as many values as are given, at most. -/
theorem length_addAllLast_le (l values : List α) :
    (addAllLast l values).length ≤ l.length + values.length := by
  induction values generalizing l with
  | nil => simp [addAllLast]
  | cons a values ih =>
    have hstep : addAllLast l (a :: values) = addAllLast (addLast l a) values := rfl
    have hone := length_addLast_le l a
    have hrest := ih (addLast l a)
    rw [hstep, List.length_cons]
    omega

/-- No repetition comes in with several values either. -/
theorem nodup_addAllLast {l : List α} (h : l.Nodup) (values : List α) :
    (addAllLast l values).Nodup := by
  induction values generalizing l with
  | nil => exact h
  | cons a values ih => exact ih (nodup_addLast h a)

/-- Values that are there already are not added. -/
theorem addAllLast_of_subset {l values : List α} (h : ∀ a ∈ values, a ∈ l) :
    addAllLast l values = l := by
  induction values with
  | nil => rfl
  | cons a values ih =>
    obtain ⟨ha, hvalues⟩ := List.forall_mem_cons.mp h
    have hstep : addAllLast l (a :: values) = addAllLast (addLast l a) values := rfl
    rw [hstep, addLast_of_mem ha, ih hvalues]

/-- Of different values those are added that are not there yet. -/
theorem addAllLast_eq_append_filter {l values : List α} (h : values.Nodup) :
    addAllLast l values = l ++ values.filter (· ∉ l) := by
  induction values generalizing l with
  | nil => simp [addAllLast]
  | cons a values ih =>
    obtain ⟨ha, hvalues⟩ := List.nodup_cons.mp h
    have hstep : addAllLast l (a :: values) = addAllLast (addLast l a) values := rfl
    rw [hstep, ih hvalues]
    by_cases hmem : a ∈ l
    · rw [addLast_of_mem hmem]
      simp [hmem]
    · rw [addLast_of_not_mem hmem]
      simp only [List.append_assoc, List.mem_append, List.mem_singleton, hmem, not_false_eq_true,
        decide_true, List.filter_cons_of_pos, List.singleton_append]
      congr 2
      refine List.filter_congr fun b hb => ?_
      have hne : b ≠ a := fun heq => ha (heq ▸ hb)
      simp [hne]

/-- Where no key occurs twice, looking for the key of a member finds the member. -/
theorem find?_key {β : Type} {key : β → α} {l : List β} (h : (l.map key).Nodup) {b : β}
    (hb : b ∈ l) : (l.find? fun other => key other == key b) = some b := by
  induction l with
  | nil => simp at hb
  | cons first rest ih =>
    obtain ⟨hfirst, hrest⟩ := List.nodup_cons.mp h
    rcases List.mem_cons.mp hb with rfl | hb
    · simp
    · have hne : (key first == key b) = false := by
        rw [beq_eq_false_iff_ne]
        intro hkey
        exact hfirst (hkey ▸ List.mem_map_of_mem hb)
      rw [List.find?_cons, hne]
      exact ih hrest hb

/-- Nothing is found by what is no key. -/
theorem lookup_of_not_mem {β γ : Type} [DecidableEq β] {pairs : List (β × γ)} {key : β}
    (h : key ∉ pairs.map (·.1)) : pairs.lookup key = none := by
  refine List.lookup_eq_none_iff.mpr fun pair hpair => ?_
  rw [bne_iff_ne]
  rintro rfl
  exact h (List.mem_map_of_mem hpair)

/-- A value is found by its key where the keys differ. -/
theorem lookup_of_mem {β γ : Type} [DecidableEq β] {pairs : List (β × γ)} {key : β} {value : γ}
    (h : (pairs.map (·.1)).Nodup) (hmem : (key, value) ∈ pairs) :
    pairs.lookup key = some value := by
  induction pairs with
  | nil => simp at hmem
  | cons pair pairs ih =>
    obtain ⟨hfirst, h⟩ := List.nodup_cons.mp h
    rcases List.mem_cons.mp hmem with rfl | hmem
    · simp
    · have hne : key ≠ pair.1 := by
        rintro rfl
        exact hfirst (List.mem_map.mpr ⟨_, hmem, rfl⟩)
      have hskip : (key == pair.1) = false := by simpa using hne
      rw [List.lookup_cons, hskip]
      exact ih h hmem

end Automata
