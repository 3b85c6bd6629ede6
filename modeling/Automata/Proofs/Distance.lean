import Automata.Proofs.Discovery
import Mathlib.Order.Lattice.Nat

/-!
# Discovery goes by distance

The distance of an item is the least number of successor steps from the root to it. The items
of a breadth-first search stand in the order of their distances. While the item at a position
is expanded, every item at its distance is found, and none that is found lies more than one
step further away; so what its expansion adds lies exactly one step further away.
-/

namespace Automata.Discovery

variable {α : Type} {next : α → List α} {root a b : α} {count position rounds : Nat}

/-! ### Chains and distances -/

/-- A chain with the given number of steps leads from the root to an item. -/
inductive Chain (next : α → List α) (root : α) : Nat → α → Prop where
  | refl : Chain next root 0 root
  | step {count : Nat} {a b : α} (chain : Chain next root count a) (hb : b ∈ next a) :
      Chain next root (count + 1) b

/-- The least number of steps from the root to an item that can be reached. -/
noncomputable def distance (next : α → List α) (root a : α) : Nat :=
  sInf {count | Chain next root count a}

/-- What can be reached is reached in some number of steps. -/
theorem reaches_iff_exists_chain : Reaches next root a ↔ ∃ count, Chain next root count a := by
  constructor
  · intro hreach
    induction hreach with
    | refl => exact ⟨0, .refl⟩
    | tail _ hstep ih =>
      obtain ⟨count, hchain⟩ := ih
      exact ⟨count + 1, hchain.step hstep⟩
  · rintro ⟨count, hchain⟩
    induction hchain with
    | refl => exact .refl
    | step _ hstep ih => exact ih.tail hstep

/-- The distance is a number of steps in which an item can be reached. -/
theorem chain_distance (ha : Reaches next root a) :
    Chain next root (distance next root a) a :=
  Nat.sInf_mem (reaches_iff_exists_chain.mp ha)

/-- No number of steps in which an item can be reached is less than its distance. -/
theorem Chain.distance_le (h : Chain next root count a) : distance next root a ≤ count :=
  Nat.sInf_le h

/-- One step leads at most one step further away. -/
theorem distance_le_succ (ha : Reaches next root a) (hb : b ∈ next a) :
    distance next root b ≤ distance next root a + 1 :=
  ((chain_distance ha).step hb).distance_le

/-- Only the root is at no distance. -/
theorem eq_root_of_distance (hb : Reaches next root b) (hzero : distance next root b = 0) :
    b = root := by
  have hchain := chain_distance hb
  rw [hzero] at hchain
  cases hchain
  rfl

/-- An item that is not the root has a predecessor one step closer to the root. -/
theorem exists_closer (hb : Reaches next root b) (hcount : distance next root b = count + 1) :
    ∃ a, Reaches next root a ∧ b ∈ next a ∧ distance next root a = count := by
  have hchain := chain_distance hb
  rw [hcount] at hchain
  cases hchain with
  | @step _ a _ hchain hstep =>
    have ha : Reaches next root a := reaches_iff_exists_chain.mpr ⟨count, hchain⟩
    have hle := hchain.distance_le
    have hge := distance_le_succ ha hstep
    exact ⟨a, ha, hstep, by omega⟩

/-! ### The queue of a search -/

/-- What holds between the earlier and the later items of a list holds between two positions. -/
theorem rel_of_getElem? {items : List α} {R : α → α → Prop} (h : items.Pairwise R) {i j : Nat}
    (hlt : i < j) (ha : items[i]? = some a) (hb : items[j]? = some b) : R a b := by
  obtain ⟨hi, rfl⟩ := List.getElem?_eq_some_iff.mp ha
  obtain ⟨hj, rfl⟩ := List.getElem?_eq_some_iff.mp hb
  exact List.pairwise_iff_getElem.mp h i j hi hj hlt

variable [Ord α] [Std.TransOrd α] [Std.LawfulEqOrd α] {found : Discovery α}

/-- A search whose items stand in the order of their distances, and none of them lies more
than one step behind the item to be expanded next. -/
structure Layered (next : α → List α) (root : α) (position : Nat) (found : Discovery α) :
    Prop extends Expanded next root position found where
  ordered : found.toList.Pairwise fun a b => distance next root a ≤ distance next root b
  near : ∀ a, found.toList[position]? = some a →
    ∀ b ∈ found.toList, distance next root b ≤ distance next root a + 1

/-- At first the root is found, which is at no distance. -/
theorem layered_single (next : α → List α) (root : α) : Layered next root 0 (single root) where
  toExpanded := expanded_single next root
  ordered := List.pairwise_singleton _ root
  near := by
    intro a ha b hb
    have hroot : root = a := by simpa using ha
    rw [List.mem_singleton.mp hb, hroot]
    omega

/-- What is no further away than the item to be expanded next is found. A predecessor that is
closer to the root stands before that item, since the items are ordered, and is expanded. -/
theorem Layered.mem_of_distance_le (h : Layered next root position found)
    (ha : found.toList[position]? = some a) (hb : Reaches next root b)
    (hle : distance next root b ≤ distance next root a) : b ∈ found.toList := by
  generalize hcount : distance next root b = count
  induction count generalizing b with
  | zero =>
    rw [eq_root_of_distance hb hcount]
    exact h.root_mem
  | succ count ih =>
    obtain ⟨closer, hreach, hstep, hcloser⟩ := exists_closer hb hcount
    have hmem : closer ∈ found.toList := ih hreach (by omega) hcloser
    obtain ⟨i, hi⟩ := List.getElem?_of_mem hmem
    have hbefore : i < position := by
      by_contra hnot
      rcases Nat.lt_or_eq_of_le (Nat.not_lt.mp hnot) with hlt | rfl
      · have hordered := rel_of_getElem? h.ordered hlt ha hi
        omega
      · obtain rfl : a = closer := Option.some.inj (ha.symm.trans hi)
        omega
    exact h.expanded i hbefore closer hi b hstep

/-- A successor that is new lies exactly one step behind the item expanded. -/
theorem Layered.distance_of_new (h : Layered next root position found)
    (ha : found.toList[position]? = some a) (hb : b ∈ next a) (hnew : b ∉ found.toList) :
    distance next root b = distance next root a + 1 := by
  have hreach : Reaches next root a := h.reached a (List.mem_of_getElem? ha)
  have hle := distance_le_succ hreach hb
  have hfar : ¬ distance next root b ≤ distance next root a :=
    fun hnear => hnew (h.mem_of_distance_le ha (hreach.tail hb) hnear)
  omega

variable [DecidableEq α]

/-- Expanding the next item keeps the items in the order of their distances. -/
theorem Layered.insertAll (h : Layered next root position found)
    (ha : found.toList[position]? = some a) :
    Layered next root (position + 1) (found.insertAll (next a)) := by
  obtain ⟨new, hnew, hsuccessors⟩ := exists_new_insertAll found (next a)
  have hlast : ∀ b ∈ new, distance next root b = distance next root a + 1 := by
    intro b hb
    obtain ⟨hnext, hnot⟩ := hsuccessors b hb
    exact h.distance_of_new ha hnext hnot
  have hordered : (found.toList ++ new).Pairwise
      fun b c => distance next root b ≤ distance next root c := by
    refine List.pairwise_append.mpr ⟨h.ordered, ?_, ?_⟩
    · refine List.pairwise_of_forall_mem_list fun b hb c hc => ?_
      rw [hlast b hb, hlast c hc]
    · intro b hb c hc
      rw [hlast c hc]
      exact h.near a ha b hb
  refine { toExpanded := h.toExpanded.insertAll ha, ordered := hnew ▸ hordered, near := ?_ }
  intro c hc b hb
  rw [hnew] at hc hb
  -- The next item is no closer than the one expanded, so what was near enough still is.
  have hle : distance next root a ≤ distance next root c := by
    have hposition : (found.toList ++ new)[position]? = some a := by
      rw [List.getElem?_append_left (List.getElem?_eq_some_iff.mp ha).1, ha]
    have hpair := rel_of_getElem? hordered (Nat.lt_succ_self position) hposition hc
    exact hpair
  rcases List.mem_append.mp hb with hold | hadded
  · exact (h.near a ha b hold).trans (by omega)
  · rw [hlast b hadded]
    omega

/-- Expanding the first items one after the other keeps them in layers. -/
theorem layered_expandFirst (next : α → List α) (root : α) (count : Nat) :
    Layered next root count (expandFirst next count (single root)) := by
  refine expandFirst_induction (layered_single next root) ?_ ?_
  · intro position found a h ha
    exact h.insertAll ha
  · intro position found h hend
    refine { toExpanded := h.toExpanded.succ hend, ordered := h.ordered, near := ?_ }
    intro a ha
    have hlength := (List.getElem?_eq_some_iff.mp ha).1
    rw [length_toList] at hlength
    omega

end Automata.Discovery
