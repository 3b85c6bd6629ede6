import Automata.Text.Blank

/-!
# Parsers made of parsers

A parser takes a value off the front of a line, or tells the characters from which on it cannot.
A list with separators takes items as long as there is another one. A separator with no item
behind it does not belong to the list: it is given back, to whatever parser comes next.
-/

namespace Automata.Description

/-- Takes a value off the front of a line. What it leaves is the end of the line. -/
structure Parser (α : Type) where
  run : List Char → Except (List Char) (α × List Char)
  suffix : ∀ ⦃line a rest⦄, run line = .ok (a, rest) → rest <:+ line

namespace Parser

variable {α β γ : Type}

/-! ### Characters -/

/-- The next character, if it is such. -/
def satisfy (wanted : Char → Bool) : Parser Char where
  run
    | [] => .error []
    | c :: rest => if wanted c then .ok (c, rest) else .error (c :: rest)
  suffix := by
    intro line a rest hrun
    split at hrun
    · cases hrun
    · split at hrun
      · cases hrun
        exact List.suffix_cons ..
      · cases hrun

/-- All next characters that are such. -/
def takeWhile0 (wanted : Char → Bool) : Parser (List Char) where
  run line := .ok (line.takeWhile wanted, line.dropWhile wanted)
  suffix := by
    intro line a rest hrun
    cases hrun
    exact List.dropWhile_suffix wanted

/-- All next characters that are such, of which there has to be one. -/
def takeWhile1 (wanted : Char → Bool) : Parser (List Char) where
  run line :=
    if (line.takeWhile wanted).isEmpty then .error line
    else .ok (line.takeWhile wanted, line.dropWhile wanted)
  suffix := by
    intro line a rest hrun
    split at hrun
    · cases hrun
    · cases hrun
      exact List.dropWhile_suffix wanted

/-! ### Parsers in a row -/

/-- The value is changed, and what is left is not. -/
def map (f : α → β) (parser : Parser α) : Parser β where
  run line :=
    match parser.run line with
    | .error place => .error place
    | .ok (a, rest) => .ok (f a, rest)
  suffix := by
    intro line b rest hrun
    split at hrun
    · cases hrun
    · next hfirst =>
      cases hrun
      exact parser.suffix hfirst

/-- The one value and then the other. -/
def pair (first : Parser α) (second : Parser β) : Parser (α × β) where
  run line :=
    match first.run line with
    | .error place => .error place
    | .ok (a, middle) =>
      match second.run middle with
      | .error place => .error place
      | .ok (b, rest) => .ok ((a, b), rest)
  suffix := by
    intro line both rest hrun
    split at hrun
    · cases hrun
    · next hfirst =>
      split at hrun
      · cases hrun
      · next hsecond =>
        cases hrun
        exact (second.suffix hsecond).trans (first.suffix hfirst)

/-- A value between two others, which are dropped. -/
def delimited (before : Parser α) (inner : Parser β) (after : Parser γ) : Parser β :=
  map (fun ((_, b), _) => b) (pair (pair before inner) after)

/-- The value is all that the line has. -/
def allConsuming (parser : Parser α) : Parser α where
  run line :=
    match parser.run line with
    | .error place => .error place
    | .ok (a, []) => .ok (a, [])
    | .ok (_, rest) => .error rest
  suffix := by
    intro line a rest hrun
    split at hrun
    · cases hrun
    · next hinner =>
      cases hrun
      exact parser.suffix hinner
    · cases hrun

/-! ### Lists -/

/-- The items behind the first one. A separator has to take something. -/
def moreItems (separator : Parser β) (item : Parser α) (line : List Char) :
    Except (List Char) (List α × List Char) :=
  match separator.run line with
  | .error _ => .ok ([], line)
  | .ok (_, behind) =>
    if behind.length < line.length then
      match hitem : item.run behind with
      | .error _ => .ok ([], line)
      | .ok (a, rest) =>
        have := (item.suffix hitem).length_le
        match moreItems separator item rest with
        | .error place => .error place
        | .ok (items, last) => .ok (a :: items, last)
    else .error behind
termination_by line.length
decreasing_by omega

/-- What is left behind the items is the end of the line. -/
theorem moreItems_suffix {separator : Parser β} {item : Parser α} {line rest : List Char}
    {items : List α} (h : moreItems separator item line = .ok (items, rest)) : rest <:+ line := by
  fun_induction moreItems separator item line generalizing items rest with
  | case1 line =>
    cases h
    exact List.suffix_refl line
  | case2 line =>
    cases h
    exact List.suffix_refl line
  | case3 => cases h
  | case4 line _ behind hseparator _ a middle hitem _ items last hmore ih =>
    cases h
    exact (ih hmore).trans ((item.suffix hitem).trans (separator.suffix hseparator))
  | case5 => cases h

/-- Any number of items with separators between them. -/
def separatedList0 (separator : Parser β) (item : Parser α) : Parser (List α) where
  run line :=
    match item.run line with
    | .error _ => .ok ([], line)
    | .ok (a, rest) =>
      match moreItems separator item rest with
      | .error place => .error place
      | .ok (items, last) => .ok (a :: items, last)
  suffix := by
    intro line items rest hrun
    split at hrun
    · cases hrun
      exact List.suffix_refl _
    · next hitem =>
      split at hrun
      · cases hrun
      · next hmore =>
        cases hrun
        exact (moreItems_suffix hmore).trans (item.suffix hitem)

end Parser

end Automata.Description
