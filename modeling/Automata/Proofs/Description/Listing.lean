import Automata.Proofs.Description.Words
import Mathlib.Data.List.DropRight

/-!
# Lists are read from run to run

A list of items on a line passes over separators, and takes an item where a run begins. It goes
on behind the run if the item is all of it. Otherwise the list ends there, and since a line has
to be read to its end, it cannot be read from that place on. When no item can be read behind
separators, the list ends before them and leaves them to what comes next, which takes them: the
place that is told is where the run begins.
-/

namespace Automata.Description

variable {α : Type} {item : Parser α} {line word after place : List Char} {c : Char}

/-- The items of a list that is all that its line has, but for separators behind it. -/
def settle : Except (List Char) (List α × List Char) → Except (List Char) (List α)
  | .error place => .error place
  | .ok (items, rest) =>
    match rest.dropWhile isSeparator with
    | [] => .ok items
    | c :: rest => .error (c :: rest)

/-- A list is read behind the separators before it, and then has to be settled. -/
theorem readLine_listing (item : Parser α) (line : List Char) :
    readLine (listing item) line =
      settle ((Parser.separatedList0 (.takeWhile1 isSeparator) item).run
        (line.dropWhile isSeparator)) := by
  simp only [readLine, listing, Parser.allConsuming, Parser.delimited, Parser.map, Parser.pair,
    Parser.takeWhile0]
  cases (Parser.separatedList0 (.takeWhile1 isSeparator) item).run
    (line.dropWhile isSeparator) with
  | error place => rfl
  | ok found =>
    obtain ⟨items, rest⟩ := found
    simp only [settle]
    cases rest.dropWhile isSeparator <;> rfl

/-- A line without anything lists nothing. -/
theorem listing_nil (h : item.run [] = .error place) : readLine (listing item) [] = .ok [] := by
  rw [readLine_listing]
  simp [Parser.separatedList0, h, settle]

/-- Separators are passed over. -/
theorem listing_cons_separator (h : isSeparator c = true) (line : List Char) :
    readLine (listing item) (c :: line) = readLine (listing item) line := by
  rw [readLine_listing, readLine_listing, List.dropWhile_cons_of_pos h]

/-- Without a separator there are no more items. -/
theorem moreItems_eq_nil {β : Type} {separator : Parser β} (h : separator.run line = .error place) :
    Parser.moreItems separator item line = .ok ([], line) := by
  rw [Parser.moreItems, h]

/-- A list that goes on is a list of its own, whether or not another item is found. -/
theorem settle_moreItems (hnil : item.run [] = .error place)
    (h : ∀ c ∈ line.head?, isSeparator c = true) :
    settle (Parser.moreItems (.takeWhile1 isSeparator) item line) =
      readLine (listing item) line := by
  cases line with
  | nil =>
    rw [listing_nil hnil, moreItems_eq_nil rfl]
    rfl
  | cons c later =>
    have hc : isSeparator c = true := h c rfl
    have htaken : (Parser.takeWhile1 isSeparator).run (c :: later) =
        .ok ((c :: later).takeWhile isSeparator, later.dropWhile isSeparator) := by
      simp [Parser.takeWhile1, hc]
    have hless : (later.dropWhile isSeparator).length < (c :: later).length :=
      Nat.lt_succ_of_le (List.dropWhile_suffix isSeparator).length_le
    rw [listing_cons_separator hc, readLine_listing, Parser.moreItems, htaken]
    simp only [if_pos hless, Parser.separatedList0]
    split
    · -- The separators are given back, and taken behind the list instead.
      next hnone => simp [hnone, settle, hc, List.dropWhile_idempotent]
    · next hitem => simp [hitem]

/-- A run does not begin with separators. -/
theorem Run.dropWhile_append (h : Run word after) :
    (word ++ after).dropWhile isSeparator = word ++ after := by
  obtain ⟨c, word, rfl⟩ := List.exists_cons_of_ne_nil h.nonempty
  have hc : isSeparator c = false := h.solid c (by simp)
  simp [hc]

/-- An item that is a whole run is listed before those behind it. -/
theorem Run.listing_of_whole (hrun : Run word after) (hnil : item.run [] = .error place) {a : α}
    (h : item.run (word ++ after) = .ok (a, after)) :
    readLine (listing item) (word ++ after) = (readLine (listing item) after).map (a :: ·) := by
  rw [← settle_moreItems hnil hrun.ends, readLine_listing, hrun.dropWhile_append]
  simp only [Parser.separatedList0, h]
  cases Parser.moreItems (.takeWhile1 isSeparator) item after with
  | error place => rfl
  | ok found =>
    obtain ⟨items, rest⟩ := found
    simp only [settle]
    cases rest.dropWhile isSeparator <;> rfl

/-- An item that ends inside a run ends its list. -/
theorem Run.listing_of_part (hrun : Run word after) {a : α} {rest : List Char}
    (h : item.run (word ++ after) = .ok (a, c :: rest)) (hc : isSeparator c = false) :
    readLine (listing item) (word ++ after) = .error (c :: rest) := by
  have hnone : (Parser.takeWhile1 isSeparator).run (c :: rest) = .error (c :: rest) := by
    simp [Parser.takeWhile1, hc]
  rw [readLine_listing, hrun.dropWhile_append]
  simp [Parser.separatedList0, h, moreItems_eq_nil hnone, settle, hc]

/-- A list ends before a run that does not begin with an item. -/
theorem Run.listing_of_none (hrun : Run word after) (h : item.run (word ++ after) = .error place) :
    readLine (listing item) (word ++ after) = .error (word ++ after) := by
  have hstays := hrun.dropWhile_append
  rw [readLine_listing, hstays]
  obtain ⟨c, word, rfl⟩ := List.exists_cons_of_ne_nil hrun.nonempty
  simp only [Parser.separatedList0, h, settle, hstays]
  rfl

end Automata.Description
