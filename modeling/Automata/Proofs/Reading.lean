import Automata.Flags
import Automata.Label

/-!
# How far a run reads

Runs of both kinds of automaton read an input up to the first character outside the
alphabet. They are judged where they stop only at the end of the input or, where the flags
let it end a run, at the mark.
-/

namespace Automata

/-- The characters before the first one outside the alphabet. -/
def readable (alphabet input : List Char) : List Char :=
  input.takeWhile fun c => decide (c ∈ alphabet)

/-- Whether a run is judged where it stops reading. -/
def Judged (alphabet : List Char) (flags : Flags) (input : List Char) : Prop :=
  match input.dropWhile fun c => decide (c ∈ alphabet) with
  | [] => True
  | c :: _ => c = epsilonMark ∧ flags.epsilonShortcut = true

variable {alphabet input : List Char} {flags : Flags} {c : Char}

/-- Nothing is read of no input. -/
@[simp] theorem readable_nil : readable alphabet [] = [] := rfl

/-- A symbol of the alphabet is read, and reading goes on. -/
theorem readable_cons_of_mem (h : c ∈ alphabet) :
    readable alphabet (c :: input) = c :: readable alphabet input := by
  simp [readable, h]

/-- Reading ends before what is not in the alphabet. -/
theorem readable_cons_of_not_mem (h : c ∉ alphabet) : readable alphabet (c :: input) = [] := by
  simp [readable, h]

/-- Input that was read to its end is judged. -/
@[simp] theorem judged_nil : Judged alphabet flags [] := trivial

/-- A symbol of the alphabet leaves the judgement to what follows. -/
theorem judged_cons_of_mem (h : c ∈ alphabet) :
    Judged alphabet flags (c :: input) ↔ Judged alphabet flags input := by
  simp [Judged, h]

/-- What is not in the alphabet is judged only if it is the mark and the flags allow it. -/
theorem judged_cons_of_not_mem (h : c ∉ alphabet) :
    Judged alphabet flags (c :: input) ↔ c = epsilonMark ∧ flags.epsilonShortcut = true := by
  simp [Judged, h]

/-- What is within the alphabet is read. -/
theorem readable_append (h : ∀ c ∈ input, c ∈ alphabet) (rest : List Char) :
    readable alphabet (input ++ rest) = input ++ readable alphabet rest :=
  List.takeWhile_append_of_pos fun c hc => by simpa using h c hc

/-- Input on the alphabet is read as a whole. -/
theorem readable_eq_self (h : ∀ c ∈ input, c ∈ alphabet) : readable alphabet input = input := by
  simpa using readable_append h []

/-- What is within the alphabet has no part in whether a run is judged. -/
theorem judged_append (h : ∀ c ∈ input, c ∈ alphabet) (rest : List Char) :
    Judged alphabet flags (input ++ rest) ↔ Judged alphabet flags rest := by
  induction input with
  | nil => rfl
  | cons c input ih =>
    rw [List.cons_append, judged_cons_of_mem (h c (by simp))]
    exact ih fun other hother => h other (by simp [hother])

/-- Input on the alphabet is judged whatever the flags say. -/
theorem judged_of_mem (h : ∀ c ∈ input, c ∈ alphabet) : Judged alphabet flags input := by
  have hjudged : Judged alphabet flags (input ++ []) := (judged_append h []).mpr judged_nil
  rwa [List.append_nil] at hjudged

/-- How far a run reads depends only on what is in the alphabet. -/
theorem readable_congr {alphabet' : List Char} (h : ∀ c, c ∈ alphabet ↔ c ∈ alphabet') :
    readable alphabet input = readable alphabet' input := by
  simp only [readable, h]

/-- Only what is in the alphabet matters, not in which order. -/
theorem judged_congr {alphabet' : List Char} (h : ∀ c, c ∈ alphabet ↔ c ∈ alphabet') :
    Judged alphabet flags input ↔ Judged alphabet' flags input := by
  simp only [Judged, h]

/-- Where a run is judged, more symbols make it read no further, unless the mark is one of them:
it stops at the end of the input or at the mark. -/
theorem Judged.of_subset {alphabet' : List Char} (h : Judged alphabet flags input)
    (hsubset : alphabet ⊆ alphabet') (hmark : epsilonMark ∉ alphabet') :
    Judged alphabet' flags input ∧ readable alphabet' input = readable alphabet input := by
  induction input with
  | nil => exact ⟨judged_nil, rfl⟩
  | cons c input ih =>
    by_cases hc : c ∈ alphabet
    · rw [judged_cons_of_mem hc] at h
      rw [judged_cons_of_mem (hsubset hc), readable_cons_of_mem hc,
        readable_cons_of_mem (hsubset hc)]
      obtain ⟨hjudged, hsame⟩ := ih h
      exact ⟨hjudged, congrArg (c :: ·) hsame⟩
    · rw [judged_cons_of_not_mem hc] at h
      have hc' : c ∉ alphabet' := h.1 ▸ hmark
      rw [judged_cons_of_not_mem hc', readable_cons_of_not_mem hc, readable_cons_of_not_mem hc']
      exact ⟨h, rfl⟩

/-- The characters are the longest beginning of the input within the alphabet. -/
structure LongestReadable (alphabet input read : List Char) : Prop where
  begins : read <+: input
  within : ∀ c ∈ read, c ∈ alphabet
  longest : ∀ other, other <+: input → (∀ c ∈ other, c ∈ alphabet) → other.length ≤ read.length

/-- All characters that are read are in the alphabet. -/
theorem mem_of_mem_readable (h : c ∈ readable alphabet input) : c ∈ alphabet := by
  have hall := List.all_takeWhile (p := fun c => decide (c ∈ alphabet)) (l := input)
  simpa using List.all_eq_true.mp hall c h

/-- What is read is the longest beginning within the alphabet. -/
theorem longestReadable_readable (alphabet input : List Char) :
    LongestReadable alphabet input (readable alphabet input) where
  begins := List.takeWhile_prefix _
  within := fun _ => mem_of_mem_readable
  longest := by
    rintro other ⟨rest, rfl⟩ hother
    have hsplit : readable alphabet (other ++ rest) = other ++ readable alphabet rest := by
      refine List.takeWhile_append_of_pos fun c hc => ?_
      simpa using hother c hc
    simp [hsplit]

/-- A run is judged when it reads the whole input, or when the mark comes next and may end
it. -/
theorem judged_iff_split :
    Judged alphabet flags input ↔
      input = readable alphabet input ∨
        (∃ rest, input = readable alphabet input ++ epsilonMark :: rest) ∧
          flags.epsilonShortcut = true := by
  have hsplit := List.takeWhile_append_dropWhile (p := fun c => decide (c ∈ alphabet)) (l := input)
  unfold Judged
  split
  · next hend =>
    rw [hend, List.append_nil] at hsplit
    exact iff_of_true trivial (Or.inl hsplit.symm)
  · next c rest hrest =>
    rw [hrest] at hsplit
    change readable alphabet input ++ c :: rest = input at hsplit
    constructor
    · rintro ⟨rfl, hflag⟩
      exact Or.inr ⟨⟨rest, hsplit.symm⟩, hflag⟩
    · rintro (hwhole | ⟨⟨other, hmark⟩, hflag⟩)
      · have hlength := congrArg List.length (hsplit.trans hwhole)
        simp at hlength
      · have hsame := List.append_cancel_left (hsplit.trans hmark)
        exact ⟨(List.cons_eq_cons.mp hsame).1, hflag⟩

/-- The characters before the first mark. -/
def beforeMark (input : List Char) : List Char :=
  input.takeWhile fun c => decide (c ≠ epsilonMark)

/-- Where the mark ends a run and is no symbol, what is read and judged is what stands
before the first mark. -/
theorem judged_iff (hmark : epsilonMark ∉ alphabet) (hflags : flags.epsilonShortcut = true) :
    Judged alphabet flags input ↔ readable alphabet input = beforeMark input := by
  induction input with
  | nil => simp [beforeMark]
  | cons c input ih =>
    by_cases hc : c ∈ alphabet
    · have hne : c ≠ epsilonMark := fun h => hmark (h ▸ hc)
      rw [judged_cons_of_mem hc, readable_cons_of_mem hc, ih]
      simp [beforeMark, hne]
    · rw [judged_cons_of_not_mem hc, readable_cons_of_not_mem hc]
      by_cases hend : c = epsilonMark
      · simp [beforeMark, hend, hflags]
      · simp [beforeMark, hend]

/-- What stands before the first mark is read if the alphabet has all of it. -/
theorem readable_eq_beforeMark (hmark : epsilonMark ∉ alphabet)
    (h : ∀ c ∈ beforeMark input, c ∈ alphabet) : readable alphabet input = beforeMark input := by
  induction input with
  | nil => rfl
  | cons c input ih =>
    by_cases hend : c = epsilonMark
    · rw [readable_cons_of_not_mem (hend ▸ hmark)]
      simp [beforeMark, hend]
    · have hstep : beforeMark (c :: input) = c :: beforeMark input := by
        simp [beforeMark, hend]
      rw [hstep] at h ⊢
      rw [readable_cons_of_mem (h c (by simp)), ih fun other hother => h other (by simp [hother])]

end Automata
