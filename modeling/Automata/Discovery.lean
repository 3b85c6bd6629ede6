import Automata.Distinct
import Std.Data.TreeMap.Lemmas

/-!
# Breadth-first discovery

A search keeps what it has found in the order of discovery, together with the place of each
item, so that it is told quickly whether something was found before, and where it stands.
Expanding the item at a position appends those of its successors that are new, so going
through the positions in order is a breadth-first search, in which the items serve as the
queue.
-/

namespace Automata

/-- What a search has found so far, in order of discovery. -/
structure Discovery (α : Type) [Ord α] [Std.TransOrd α] [Std.LawfulEqOrd α] where
  items : Array α
  /-- Where each item stands, counted from zero. -/
  places : Std.TreeMap α Nat
  places_eq_iff : ∀ (a : α) (i : Nat), places[a]? = some i ↔ items[i]? = some a

namespace Discovery

variable {α : Type} [Ord α] [Std.TransOrd α] [Std.LawfulEqOrd α]

/-- A search that has found nothing. -/
def empty : Discovery α where
  items := #[]
  places := {}
  places_eq_iff := by simp

/-- Nothing is found twice. -/
theorem nodup (found : Discovery α) : found.items.toList.Nodup := by
  rw [List.nodup_iff_pairwise_ne, List.pairwise_iff_getElem]
  intro i j hi hj hlt hsame
  have hfirst := (found.places_eq_iff found.items.toList[i] i).mpr (by simp)
  have hsecond := (found.places_eq_iff found.items.toList[j] j).mpr (by simp)
  rw [hsame, hsecond] at hfirst
  have := Option.some.inj hfirst
  omega

/-- The number of items found. -/
def size (found : Discovery α) : Nat := found.items.size

/-- The place of an item, if it was found. -/
def place? (found : Discovery α) (a : α) : Option Nat := found.places[a]?

/-- The items found, in order of discovery. -/
def toList (found : Discovery α) : List α := found.items.toList

/-- Records an item, unless it was found before. -/
def insert (found : Discovery α) (a : α) : Discovery α :=
  match known : found.places[a]? with
  | some _ => found
  | none =>
    { items := found.items.push a
      places := found.places.insert a found.items.size
      places_eq_iff := by
        intro b i
        have hnew : ¬ found.items[i]? = some a := by simp [← found.places_eq_iff, known]
        rw [Std.TreeMap.getElem?_insert, Array.getElem?_push]
        by_cases hsame : a = b
        · subst hsame
          by_cases hi : i = found.items.size <;> simp [hi, hnew, eq_comm]
        · have hother : ¬ compare a b = .eq := by simpa using hsame
          by_cases hi : i = found.items.size
          · subst hi
            simp [hother, hsame, found.places_eq_iff]
          · simp [hother, hi, found.places_eq_iff] }

/-- A search that has found one item. -/
def single (a : α) : Discovery α := empty.insert a

/-- Nothing is found at first. -/
@[simp] theorem toList_empty : (empty : Discovery α).toList = [] := rfl

/-- A search from one item has found that item alone. -/
@[simp] theorem toList_single (a : α) : (single a).toList = [a] := by
  unfold single insert
  split
  · next known => simp [empty] at known
  · rfl

/-- The items found are as many as the size says. -/
@[simp] theorem length_toList (found : Discovery α) : found.toList.length = found.size := rfl

/-- A place is that of the item that stands there. -/
theorem place?_eq_some_iff {found : Discovery α} {a : α} {place : Nat} :
    found.place? a = some place ↔ found.toList[place]? = some a := by
  rw [place?, found.places_eq_iff, toList, Array.getElem?_toList]

/-- Recording an item adds it at the end, unless it is there. -/
@[simp] theorem toList_insert [DecidableEq α] (found : Discovery α) (a : α) :
    (found.insert a).toList = addLast found.toList a := by
  unfold insert
  split
  · next i known =>
    have hfound := Array.mem_of_getElem? ((found.places_eq_iff a i).mp known)
    exact (addLast_of_mem (Array.mem_def.mp hfound)).symm
  · next known =>
    have hnew : a ∉ found.toList := by
      intro hmem
      obtain ⟨i, hi⟩ := List.mem_iff_getElem?.mp hmem
      simp [(found.places_eq_iff a i).mpr (by simpa [toList] using hi)] at known
    rw [addLast_of_not_mem hnew]
    simp [toList]

/-- Records the items of a list one after the other. -/
def insertAll (found : Discovery α) (items : List α) : Discovery α :=
  items.foldl insert found

/-- Recorded items are added at the end in order, but for those that are there. -/
@[simp] theorem toList_insertAll [DecidableEq α] (found : Discovery α) (items : List α) :
    (found.insertAll items).toList = addAllLast found.toList items := by
  induction items generalizing found with
  | nil => rfl
  | cons a items ih =>
    have hstep : found.insertAll (a :: items) = (found.insert a).insertAll items := rfl
    rw [hstep, ih, toList_insert]
    rfl

/-- Records the successors of the item at a position. -/
def expand (next : α → List α) (found : Discovery α) (position : Nat) : Discovery α :=
  match found.items[position]? with
  | some a => found.insertAll (next a)
  | none => found

/-- Expands the items at the first positions, one after the other. -/
def expandFirst (next : α → List α) (count : Nat) (found : Discovery α) : Discovery α :=
  (List.range count).foldl (expand next) found

/-- Expands the items from a position on until none is left, in at most `rounds` steps.
The search gives up with the number of items found as soon as a step has taken that
number over the limit. -/
def explore (next : α → List α) (limit : Nat) :
    Nat → Nat → Discovery α → Except Nat (Discovery α)
  | 0, _, found => .ok found
  | rounds + 1, position, found =>
    match found.items[position]? with
    | none => .ok found
    | some a =>
      let found := found.insertAll (next a)
      if found.size > limit then .error found.size
      else explore next limit rounds (position + 1) found

end Discovery

end Automata
