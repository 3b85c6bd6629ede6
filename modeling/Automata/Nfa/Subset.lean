import Automata.Nfa.Run

/-!
# Subsets of states

A set of states is a number whose bits are the positions of its members, so equal sets
are equal numbers. The successor of a closed set on a symbol is the union, over its
members, of what each member reaches on the symbol; these unions are taken from tables
that are computed once. The sets reached from the closure of the start are discovered
breadth first, up to a limit.
-/

namespace Automata.Nfa

/-- The set of the named states. -/
def subsetOf (nfa : Nfa) (members : List String) : Nat :=
  members.foldl (fun subset name => subset ||| 1 <<< nfa.position name) 0

/-- The states reached from a state by one edge with the symbol, with their closures. -/
def reachSubset (nfa : Nfa) (state : State) (symbol : Char) : Nat :=
  (state.targets (.char symbol)).foldl
    (fun subset target => subset ||| nfa.subsetOf (nfa.closure target)) 0

/-- For each symbol of the alphabet, what each state reaches on it. -/
def reachTables (nfa : Nfa) : List (List Nat) :=
  nfa.alphabet.map fun symbol => nfa.states.map fun state => nfa.reachSubset state symbol

/-- The union of those sets in a list whose positions are members of a subset. -/
def unionAt : List Nat → Nat → Nat
  | [], _ => 0
  | set :: rest, subset =>
    if subset.testBit 0 then set ||| unionAt rest (subset / 2) else unionAt rest (subset / 2)

/-- The union has a member exactly if some set at a position in the subset has it. -/
theorem testBit_unionAt {sets : List Nat} {subset i : Nat} :
    (unionAt sets subset).testBit i = true ↔
      ∃ k, subset.testBit k = true ∧ ∃ set, sets[k]? = some set ∧ set.testBit i = true := by
  induction sets generalizing subset with
  | nil => simp [unionAt]
  | cons set rest ih =>
    have hrest : (unionAt rest (subset / 2)).testBit i = true ↔
        ∃ k, subset.testBit (k + 1) = true ∧
          ∃ other, rest[k]? = some other ∧ other.testBit i = true := by
      simp only [ih, Nat.testBit_succ]
    unfold unionAt
    split
    · next hzero =>
      simp only [Nat.testBit_or, Bool.or_eq_true, hrest]
      constructor
      · rintro (h | ⟨k, hk, other, hother, hi⟩)
        · exact ⟨0, hzero, set, rfl, h⟩
        · exact ⟨k + 1, hk, other, hother, hi⟩
      · rintro ⟨k, hk, other, hother, hi⟩
        cases k with
        | zero => exact Or.inl (by simpa [Option.some.inj hother] using hi)
        | succ k => exact Or.inr ⟨k, hk, other, hother, hi⟩
    · next hzero =>
      rw [hrest]
      constructor
      · rintro ⟨k, hk, other, hother, hi⟩
        exact ⟨k + 1, hk, other, hother, hi⟩
      · rintro ⟨k, hk, other, hother, hi⟩
        cases k with
        | zero => exact absurd hk hzero
        | succ k => exact ⟨k, hk, other, hother, hi⟩

/-- The successors of a closed subset, one for each symbol of the alphabet. -/
def nextSubsets (tables : List (List Nat)) (subset : Nat) : List Nat :=
  tables.map fun table => unionAt table subset

/-- The most subsets that a conversion may discover when nothing else is said. -/
def maxSubsets : Nat := 65536

/-- The subsets reached from the closure of the start, in order of discovery, of which at
most `limit` may be found. As long as the search stays within the limit it has at most
that many subsets to expand, so one round more is enough to see that none is left. -/
def subsets (nfa : Nfa) (limit : Nat) : Except Error (List Nat) :=
  match nfa.start with
  | none => .error .noStartState
  | some start =>
    let tables := nfa.reachTables
    let first := Discovery.single (nfa.subsetOf (nfa.closure start))
    match Discovery.explore (nextSubsets tables) limit (limit + 1) 0 first with
    | .ok found => .ok found.toList
    | .error count => .error (.subsetLimitExceeded count limit)

end Automata.Nfa
