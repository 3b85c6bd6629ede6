import Automata.Discovery
import Mathlib.Logic.Relation
import Mathlib.Data.List.Perm.Subperm

/-!
# What breadth-first discovery finds

A search is described by three facts: the root comes first, everything found can be reached
from the root, and the successors of the items expanded so far are found. Expanding one
more item keeps them. Once all items are expanded, the items found are exactly those that
can be reached.
-/

namespace Automata.Discovery

variable {α : Type} [Ord α] [Std.TransOrd α] [Std.LawfulEqOrd α]

/-- Some chain of successors leads from one item to another. -/
abbrev Reaches (next : α → List α) : α → α → Prop :=
  Relation.ReflTransGen fun a b => b ∈ next a

/-- A search from the root in which the items at the first positions are expanded. -/
structure Expanded (next : α → List α) (root : α) (position : Nat) (found : Discovery α) :
    Prop where
  head : found.toList.head? = some root
  reached : ∀ a ∈ found.toList, Reaches next root a
  expanded : ∀ i < position, ∀ a, found.toList[i]? = some a → ∀ b ∈ next a, b ∈ found.toList

variable {next : α → List α} {root a : α} {position limit rounds count : Nat}
variable {found all : Discovery α}

/-- The root is always among what is found. -/
theorem Expanded.root_mem (h : Expanded next root position found) : root ∈ found.toList :=
  List.mem_of_mem_head? h.head

/-- At first the root is found and nothing is expanded. -/
theorem expanded_single (next : α → List α) (root : α) :
    Expanded next root 0 (single root) where
  head := rfl
  reached := by
    intro a ha
    rw [List.mem_singleton.mp ha]
  expanded := by simp

/-- When nothing is left to expand, exactly the reachable items are found. -/
theorem Expanded.mem_iff (h : Expanded next root position found) (hall : found.size ≤ position) :
    a ∈ found.toList ↔ Reaches next root a := by
  constructor
  · exact h.reached a
  · intro hreach
    induction hreach with
    | refl => exact h.root_mem
    | tail _ hstep ih =>
      obtain ⟨i, hi⟩ := List.getElem?_of_mem ih
      have hlt : i < found.toList.length := (List.getElem?_eq_some_iff.mp hi).1
      rw [length_toList] at hlt
      exact h.expanded i (by omega) _ hi _ hstep

/-- A search that stays inside a list finds no more items than the list has. -/
theorem Expanded.size_le (h : Expanded next root position found) {domain : List α}
    (hroot : root ∈ domain) (hnext : ∀ a ∈ domain, ∀ b ∈ next a, b ∈ domain) :
    found.size ≤ domain.length := by
  have hinside : ∀ a, Reaches next root a → a ∈ domain := by
    intro a hreach
    induction hreach with
    | refl => exact hroot
    | tail _ hstep ih => exact hnext _ ih _ hstep
  have hsubset : found.toList ⊆ domain := fun a ha => hinside a (h.reached a ha)
  rw [← length_toList]
  exact (List.subperm_of_subset found.nodup hsubset).length_le

/-- A search that ends under a limit ends in the same way under any larger one. -/
theorem explore_mono {limit' rounds' : Nat} (hlimit : limit ≤ limit')
    (hrounds : limit < rounds + position) (hrounds' : rounds ≤ rounds')
    (hfits : found.size ≤ limit ∨ position < found.size ∧ 0 < rounds)
    (hok : explore next limit rounds position found = .ok all) :
    explore next limit' rounds' position found = .ok all := by
  induction rounds generalizing position found rounds' with
  | zero =>
    have hnone : found.items[position]? = none := by
      apply Array.getElem?_eq_none
      have hsize : found.items.size = found.size := rfl
      omega
    cases rounds' with
    | zero => exact hok
    | succ rounds' => simpa only [explore, hnone] using hok
  | succ rounds ih =>
    obtain ⟨rounds', rfl⟩ : ∃ k, rounds' = k + 1 := ⟨rounds' - 1, by omega⟩
    unfold explore at hok ⊢
    split at hok
    · exact hok
    · next a ha =>
      simp only at hok ⊢
      split at hok
      · simp at hok
      · next hsize =>
        rw [if_neg (by omega)]
        exact ih (by omega) (by omega) (Or.inl (by omega)) hok

/-- Where no item stands at the next position, it counts as expanded. -/
theorem Expanded.succ (h : Expanded next root position found) (hend : found.size ≤ position) :
    Expanded next root (position + 1) found := by
  refine { h with expanded := ?_ }
  intro i _ a ha
  have hlength := (List.getElem?_eq_some_iff.mp ha).1
  rw [length_toList] at hlength
  exact h.expanded i (by omega) a ha

/-- The last of the first positions is expanded after the others. -/
theorem expandFirst_succ (next : α → List α) (count : Nat) (found : Discovery α) :
    expandFirst next (count + 1) found = (expandFirst next count found).expand next count := by
  simp [expandFirst, List.range_succ]

/-- Expanding past the last item changes nothing. -/
theorem expand_of_size_le (next : α → List α) (hend : found.size ≤ position) :
    found.expand next position = found := by
  have hnone : found.items[position]? = none := Array.getElem?_eq_none hend
  rw [expand, hnone]

/-- What expanding the next item keeps, and what holds on when none is left, holds after any
number of expansions. -/
theorem expandFirst_induction {P : Nat → Discovery α → Prop} (hstart : P 0 found)
    (hstep : ∀ position found a, P position found → found.toList[position]? = some a →
      P (position + 1) (found.insertAll (next a)))
    (hend : ∀ position found, P position found → found.size ≤ position →
      P (position + 1) found) :
    P count (expandFirst next count found) := by
  induction count with
  | zero => exact hstart
  | succ count ih =>
    rw [expandFirst_succ]
    cases hget : (expandFirst next count found).toList[count]? with
    | none =>
      have hsize := List.getElem?_eq_none_iff.mp hget
      rw [length_toList] at hsize
      rw [expand_of_size_le next hsize]
      exact hend count _ ih hsize
    | some a =>
      have hitem : (expandFirst next count found).items[count]? = some a := by
        rw [← hget]
        exact Array.getElem?_toList.symm
      rw [expand, hitem]
      exact hstep count _ a ih hget

/-- Once no item is left to expand, more steps find nothing more. -/
theorem expandFirst_of_size_le (hend : (expandFirst next count found).size ≤ count)
    (hle : count ≤ rounds) : expandFirst next rounds found = expandFirst next count found := by
  induction hle with
  | refl => rfl
  | step hle ih => rw [expandFirst_succ, ih, expand_of_size_le next (Nat.le_trans hend hle)]

/-- What expanding the next item keeps holds of what a search under a limit has found when it
ends, within the limit and with nothing left to expand. -/
theorem explore_induction {P : Nat → Discovery α → Prop} (hstart : P position found)
    (hstep : ∀ position found a, P position found → found.toList[position]? = some a →
      P (position + 1) (found.insertAll (next a)))
    (hrounds : limit < rounds + position)
    (hfits : found.size ≤ limit ∨ position < found.size ∧ 0 < rounds)
    (hok : explore next limit rounds position found = .ok all) :
    all.size ≤ limit ∧ ∃ expanded, all.size ≤ expanded ∧ P expanded all := by
  induction rounds generalizing position found with
  | zero =>
    have hall : found = all := Except.ok.inj hok
    subst hall
    have hsize : found.size ≤ limit := by omega
    exact ⟨hsize, position, by omega, hstart⟩
  | succ rounds ih =>
    have hsame : found.toList[position]? = found.items[position]? := Array.getElem?_toList
    unfold explore at hok
    split at hok
    · next hnone =>
      have hall : found = all := Except.ok.inj hok
      subst hall
      have hend : found.size ≤ position := by
        have := List.getElem?_eq_none_iff.mp (hsame.trans hnone)
        rwa [length_toList] at this
      exact ⟨by omega, position, hend, hstart⟩
    · next a ha =>
      simp only at hok
      split at hok
      · simp at hok
      · next hsize =>
        exact ih (hstep position found a hstart (hsame.trans ha)) (by omega) (Or.inl (by omega)) hok

variable [DecidableEq α]

/-- What was found stays where it is when more is recorded. -/
theorem prefix_insertAll (found : Discovery α) (items : List α) :
    found.toList <+: (found.insertAll items).toList := by
  rw [toList_insertAll]
  exact prefix_addAllLast found.toList items

/-- What is recorded in addition stands at the end, and was not found before. -/
theorem exists_new_insertAll (found : Discovery α) (items : List α) :
    ∃ new, (found.insertAll items).toList = found.toList ++ new ∧
      ∀ b ∈ new, b ∈ items ∧ b ∉ found.toList := by
  obtain ⟨new, hnew⟩ := prefix_insertAll found items
  refine ⟨new, hnew.symm, fun b hb => ?_⟩
  have hnodup : (found.toList ++ new).Nodup := hnew ▸ (found.insertAll items).nodup
  have hnot : b ∉ found.toList := by
    intro hold
    exact (List.nodup_append.mp hnodup).2.2 b hold b hb rfl
  have hmem : b ∈ addAllLast found.toList items := by
    rw [← toList_insertAll, ← hnew]
    exact List.mem_append_right found.toList hb
  exact ⟨(mem_addAllLast.mp hmem).resolve_left hnot, hnot⟩

/-- Expanding the next item of a search extends what is expanded by that item. -/
theorem Expanded.insertAll (h : Expanded next root position found)
    (ha : found.toList[position]? = some a) :
    Expanded next root (position + 1) (found.insertAll (next a)) := by
  obtain ⟨tail, htail⟩ := prefix_insertAll found (next a)
  have hfound : a ∈ found.toList := List.mem_of_getElem? ha
  constructor
  case head => rw [← htail, List.head?_append, h.head, Option.some_or]
  case reached =>
    intro b hb
    rw [toList_insertAll] at hb
    rcases mem_addAllLast.mp hb with hold | hnew
    · exact h.reached b hold
    · exact (h.reached a hfound).tail hnew
  case expanded =>
    intro i hi b hb c hc
    have hlt : position < found.toList.length := (List.getElem?_eq_some_iff.mp ha).1
    have hsame : found.toList[i]? = some b := by
      rw [← hb, ← htail, List.getElem?_append_left (by omega)]
    by_cases hlast : i = position
    · subst hlast
      have hba : b = a := Option.some.inj (hsame.symm.trans ha)
      subst hba
      rw [toList_insertAll]
      exact mem_addAllLast.mpr (Or.inr hc)
    · rw [← htail]
      exact List.mem_append_left tail (h.expanded i (by omega) b hsame c hc)

/-- Expanding the first items one after the other expands them all. -/
theorem expanded_expandFirst (next : α → List α) (root : α) (count : Nat) :
    Expanded next root count (expandFirst next count (single root)) := by
  refine expandFirst_induction (expanded_single next root) ?_ ?_
  · intro position found a h ha
    exact h.insertAll ha
  · intro position found h hend
    exact h.succ hend

/-- A search over a list that no successor leaves finds exactly what can be reached when it
makes as many steps as the list has items. -/
theorem mem_expandFirst {domain : List α} (hroot : root ∈ domain)
    (hnext : ∀ a ∈ domain, ∀ b ∈ next a, b ∈ domain) :
    a ∈ (expandFirst next domain.length (single root)).toList ↔ Reaches next root a := by
  have hexpanded := expanded_expandFirst next root domain.length
  exact hexpanded.mem_iff (hexpanded.size_le hroot hnext)

/-! ### Searches under a limit -/

/-- A search that gives up is one step over the limit, with items that can all be reached. -/
theorem explore_error {width : Nat} (hwidth : ∀ a, (next a).length ≤ width)
    (h : Expanded next root position found) (hfits : found.size ≤ max limit 1)
    (herror : explore next limit rounds position found = .error count) :
    limit < count ∧ count ≤ max limit 1 + width ∧
      ∃ more : Discovery α, more.size = count ∧ ∀ a ∈ more.toList, Reaches next root a := by
  induction rounds generalizing position found with
  | zero => simp [explore] at herror
  | succ rounds ih =>
    have hsame : found.toList[position]? = found.items[position]? := Array.getElem?_toList
    unfold explore at herror
    split at herror
    · simp at herror
    · next a ha =>
      have hnext := h.insertAll (hsame.trans ha)
      simp only at herror
      split at herror
      · next hsize =>
        have hcount : (found.insertAll (next a)).size = count := Except.error.inj herror
        have hgrowth := length_addAllLast_le found.toList (next a)
        rw [← toList_insertAll, length_toList, length_toList] at hgrowth
        have hrow := hwidth a
        exact ⟨by omega, by omega, _, hcount, hnext.reached⟩
      · next hsize => exact ih hnext (by omega) herror

end Automata.Discovery
