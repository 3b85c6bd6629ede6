import Automata.Proofs.Distance
import Mathlib.Data.List.Shortlex

/-!
# Discovery goes by first words

Where each item has one successor for each symbol of an alphabet, words on the alphabet lead from
the root to the items. The first word of an item is the shortest that leads to it, and among
equally long ones the one whose symbol, where they first differ, comes earlier in the alphabet.
What stands before the last symbol of a first word is itself a first word. So while the items of
a breadth-first search stand in the order of their first words, all new items have first words
that continue the one of the item that is expanded.
-/

namespace Automata

variable {α : Type} {alphabet word other : List Char} {c d : Char} {a b : α}

/-! ### The order of words -/

/-- The word is shorter than the other, or as long and earlier by the positions of its symbols in
the alphabet. -/
def Precedes (alphabet word other : List Char) : Prop :=
  List.Shortlex (· < ·) (word.map (alphabet.idxOf ·)) (other.map (alphabet.idxOf ·))

/-- Of two words not each comes before the other. -/
theorem Precedes.asymm (h : Precedes alphabet word other) : ¬ Precedes alphabet other word :=
  Std.Asymm.asymm (r := List.Shortlex fun m n : Nat => m < n) _ _ h

/-- Words do not come before one another without end, so one that leads somewhere is the first. -/
theorem wellFounded_precedes (alphabet : List Char) : WellFounded (Precedes alphabet) :=
  InvImage.wf _ (List.Shortlex.wf Nat.lt_wfRel.wf)

/-- The empty word comes before all others. -/
theorem nil_precedes (h : word ≠ []) : Precedes alphabet [] word :=
  .of_length_lt (by simpa using List.length_pos_iff.mpr h)

/-- Nothing comes before the empty word. -/
theorem not_precedes_nil : ¬ Precedes alphabet word [] :=
  List.not_shortlex_nil_right

/-- Lists of the same length, of which one comes first, stay in order when they are continued. -/
theorem lex_concat {r : α → α → Prop} {l l' : List α} (hlength : l.length = l'.length)
    (h : List.Lex r l l') : List.Lex r (l ++ [a]) (l' ++ [b]) := by
  induction h with
  | nil => simp at hlength
  | cons _ ih => exact .cons (ih (by simpa using hlength))
  | rel hfirst => exact .rel hfirst

/-- Words stay in order whatever symbols follow. -/
theorem Precedes.concat (h : Precedes alphabet word other) (c d : Char) :
    Precedes alphabet (word ++ [c]) (other ++ [d]) := by
  simp only [Precedes, List.map_append, List.map_singleton] at h ⊢
  rcases List.shortlex_def.mp h with hshorter | ⟨hlength, hearlier⟩
  · exact .of_length_lt (by simpa using hshorter)
  · exact .of_lex (by simpa using hlength) (lex_concat hlength hearlier)

/-- Words that differ in the last symbol only go by its position. -/
theorem precedes_concat (h : alphabet.idxOf c < alphabet.idxOf d) (word : List Char) :
    Precedes alphabet (word ++ [c]) (word ++ [d]) := by
  simp only [Precedes, List.map_append, List.map_singleton]
  exact List.Shortlex.append_left ((List.shortlex_singleton_iff _ _).mpr h) _

/-- A word on an alphabet is told by the positions of its symbols. -/
theorem eq_of_map_idxOf_eq (hword : ∀ c ∈ word, c ∈ alphabet)
    (h : word.map (alphabet.idxOf ·) = other.map (alphabet.idxOf ·)) : word = other := by
  induction word generalizing other with
  | nil => simpa using h.symm
  | cons c word ih =>
    cases other with
    | nil => simp at h
    | cons d other =>
      obtain ⟨hfirst, hrest⟩ := List.cons.inj h
      rw [ih (fun c hc => hword c (List.mem_cons_of_mem _ hc)) hrest,
        (List.idxOf_inj (hword c List.mem_cons_self)).mp hfirst]

/-- Of two words on an alphabet that differ, one precedes the other. -/
theorem precedes_trichotomy (hword : ∀ c ∈ word, c ∈ alphabet) :
    Precedes alphabet word other ∨ word = other ∨ Precedes alphabet other word := by
  by_cases hbefore : Precedes alphabet word other
  · exact Or.inl hbefore
  by_cases hafter : Precedes alphabet other word
  · exact Or.inr (Or.inr hafter)
  have hsame : word.map (alphabet.idxOf ·) = other.map (alphabet.idxOf ·) :=
    Std.Trichotomous.trichotomous (r := List.Shortlex fun m n : Nat => m < n) _ _ hbefore hafter
  exact Or.inr (Or.inl (eq_of_map_idxOf_eq hword hsame))

/-! ### First words -/

/-- The first of the words on an alphabet that lead somewhere. -/
structure FirstWord (alphabet : List Char) (leads : List Char → Prop) (word : List Char) :
    Prop where
  mem_alphabet : ∀ c ∈ word, c ∈ alphabet
  led : leads word
  first : ∀ other, (∀ c ∈ other, c ∈ alphabet) → leads other →
    word = other ∨ Precedes alphabet word other

variable {leads leads' : List Char → Prop}

/-- No word that leads there comes before the first one. -/
theorem FirstWord.not_precedes (h : FirstWord alphabet leads word)
    (hother : ∀ c ∈ other, c ∈ alphabet) (hleads : leads other) :
    ¬ Precedes alphabet other word := by
  intro hbefore
  rcases h.first other hother hleads with rfl | hafter
  · exact hbefore.asymm hbefore
  · exact hbefore.asymm hafter

/-- Two first words would come before each other. -/
theorem FirstWord.unique (h : FirstWord alphabet leads word) (h' : FirstWord alphabet leads other) :
    word = other :=
  (h.first other h'.mem_alphabet h'.led).resolve_right (h'.not_precedes h.mem_alphabet h.led)

/-- A word that leads there is the first one if none precedes it that does. -/
theorem FirstWord.of_not_precedes (hword : ∀ c ∈ word, c ∈ alphabet) (hleads : leads word)
    (h : ∀ other, (∀ c ∈ other, c ∈ alphabet) → leads other → ¬ Precedes alphabet other word) :
    FirstWord alphabet leads word := by
  refine ⟨hword, hleads, fun other hother hleads' => ?_⟩
  rcases precedes_trichotomy hword with hbefore | hsame | hafter
  · exact Or.inr hbefore
  · exact Or.inl hsame
  · exact absurd hafter (h other hother hleads')

/-- Where some word on the alphabet leads, there is a first one that does. -/
theorem exists_firstWord (hword : ∀ c ∈ word, c ∈ alphabet) (hleads : leads word) :
    ∃ first, FirstWord alphabet leads first := by
  obtain ⟨first, ⟨hfirst, hled⟩, hleast⟩ := (wellFounded_precedes alphabet).has_min
    {word | (∀ c ∈ word, c ∈ alphabet) ∧ leads word} ⟨word, hword, hleads⟩
  exact ⟨first, .of_not_precedes hfirst hled fun other hother hleads' =>
    hleast other ⟨hother, hleads'⟩⟩

/-- Where the same words lead, the same word is the first. -/
theorem FirstWord.congr (h : FirstWord alphabet leads word)
    (hsame : ∀ word, (∀ c ∈ word, c ∈ alphabet) → (leads word ↔ leads' word)) :
    FirstWord alphabet leads' word where
  mem_alphabet := h.mem_alphabet
  led := (hsame word h.mem_alphabet).mp h.led
  first other hother hleads := h.first other hother ((hsame other hother).mpr hleads)

/-- The first word that leads to one item precedes the first word that leads to the other. -/
def Before (alphabet : List Char) (leads : α → List Char → Prop) (a b : α) : Prop :=
  ∃ word other, FirstWord alphabet (leads a) word ∧ FirstWord alphabet (leads b) other ∧
    Precedes alphabet word other

/-- What is before something else has the earlier first word. -/
theorem Before.precedes {leads : α → List Char → Prop} (h : Before alphabet leads a b)
    (ha : FirstWord alphabet (leads a) word) (hb : FirstWord alphabet (leads b) other) :
    Precedes alphabet word other := by
  obtain ⟨word', other', ha', hb', hbefore⟩ := h
  rwa [ha.unique ha', hb.unique hb']

namespace Discovery

variable {move : α → Char → α} {root : α} {position : Nat}

/-! ### Where symbols lead -/

/-- The word leads from the root to the item, one move for each symbol. -/
def LeadsTo (move : α → Char → α) (root a : α) (word : List Char) : Prop :=
  word.foldl move root = a

/-- One more symbol leads on from where the word before it leads. -/
theorem leadsTo_concat : LeadsTo move root b (word ++ [c]) ↔
    ∃ a, LeadsTo move root a word ∧ move a c = b := by
  simp [LeadsTo]

/-- A word is on the alphabet when what comes before its last symbol is, and this symbol too. -/
theorem over_concat_iff : (∀ symbol ∈ word ++ [c], symbol ∈ alphabet) ↔
    (∀ symbol ∈ word, symbol ∈ alphabet) ∧ c ∈ alphabet := by
  simp [or_imp, forall_and]

/-- What stands before the last symbol of a first word is the first word of an item, from which
that symbol leads on. -/
theorem exists_of_firstWord_concat (h : FirstWord alphabet (LeadsTo move root b) (word ++ [c])) :
    ∃ a, FirstWord alphabet (LeadsTo move root a) word ∧ c ∈ alphabet ∧ move a c = b := by
  obtain ⟨hword, hc⟩ := over_concat_iff.mp h.mem_alphabet
  obtain ⟨a, hleads, hmove⟩ := leadsTo_concat.mp h.led
  refine ⟨a, .of_not_precedes hword hleads fun other hother hleads' hbefore => ?_, hc, hmove⟩
  -- The symbol behind an earlier word would make an earlier word that leads on.
  exact h.not_precedes (over_concat_iff.mpr ⟨hother, hc⟩) (leadsTo_concat.mpr ⟨a, hleads', hmove⟩)
    (hbefore.concat c c)

/-- Exactly the items to which words lead can be reached. -/
theorem reaches_iff_exists_firstWord :
    Reaches (fun a => alphabet.map (move a)) root a ↔
      ∃ word, FirstWord alphabet (LeadsTo move root a) word := by
  constructor
  · intro hreach
    suffices h : ∃ word, (∀ c ∈ word, c ∈ alphabet) ∧ LeadsTo move root a word by
      obtain ⟨word, hword, hleads⟩ := h
      exact exists_firstWord hword hleads
    induction hreach with
    | refl => exact ⟨[], by simp, rfl⟩
    | tail _ hnext ih =>
      obtain ⟨word, hword, hleads⟩ := ih
      obtain ⟨c, hc, hmove⟩ := List.mem_map.mp hnext
      exact ⟨word ++ [c], over_concat_iff.mpr ⟨hword, hc⟩, leadsTo_concat.mpr ⟨_, hleads, hmove⟩⟩
  · rintro ⟨word, hfirst⟩
    induction word using List.reverseRecOn generalizing a with
    | nil =>
      obtain rfl : root = a := hfirst.led
      exact .refl
    | append_singleton word c ih =>
      obtain ⟨b, hword, hc, hmove⟩ := exists_of_firstWord_concat hfirst
      exact (ih hword).tail (List.mem_map.mpr ⟨c, hc, hmove⟩)

/-! ### The order of what is added -/

section Added

variable [DecidableEq α] {l values new : List α}

/-- A value in front changes nothing in the order of the others. -/
theorem pairwise_idxOf_cons (ha : a ∉ l)
    (h : l.Pairwise fun b c => values.idxOf b < values.idxOf c) :
    l.Pairwise fun b c => (a :: values).idxOf b < (a :: values).idxOf c := by
  refine h.imp_of_mem fun hb hc hlt => ?_
  rw [List.idxOf_cons_ne values (ne_of_mem_of_not_mem hb ha).symm,
    List.idxOf_cons_ne values (ne_of_mem_of_not_mem hc ha).symm]
  omega

/-- Values that are added one after the other stand in the order in which they first occur. -/
theorem pairwise_of_addAllLast (hnodup : (l ++ new).Nodup) (h : addAllLast l values = l ++ new) :
    new.Pairwise fun a b => values.idxOf a < values.idxOf b := by
  induction values generalizing l new with
  | nil =>
    obtain rfl : new = [] := by simpa [addAllLast] using h
    exact .nil
  | cons a values ih =>
    have hstep : addAllLast (addLast l a) values = l ++ new := h
    by_cases ha : a ∈ l
    · rw [addLast_of_mem ha] at hstep
      have hnot : a ∉ new := fun hnew => (List.nodup_append.mp hnodup).2.2 a ha a hnew rfl
      exact pairwise_idxOf_cons hnot (ih hnodup hstep)
    · rw [addLast_of_not_mem ha] at hstep
      obtain ⟨rest, hrest⟩ := prefix_addAllLast (l ++ [a]) values
      obtain rfl : a :: rest = new := by simpa [hstep] using hrest
      have hnot : a ∉ rest := (List.nodup_cons.mp (List.nodup_append.mp hnodup).2.1).1
      have hsplit : l ++ a :: rest = l ++ [a] ++ rest := by simp
      rw [hsplit] at hnodup hstep
      refine List.pairwise_cons.mpr ⟨fun b hb => ?_, pairwise_idxOf_cons hnot (ih hnodup hstep)⟩
      rw [List.idxOf_cons_self, List.idxOf_cons_ne values (ne_of_mem_of_not_mem hb hnot).symm]
      omega

/-- A value first occurs among the values of a list where its first origin does. -/
theorem idxOf_map_eq {f : Char → α} (hc : c ∈ alphabet) (hf : f c = b)
    (hfirst : ∀ d ∈ alphabet, f d = b → alphabet.idxOf c ≤ alphabet.idxOf d) :
    (alphabet.map f).idxOf b = alphabet.idxOf c := by
  induction alphabet with
  | nil => simp at hc
  | cons e alphabet ih =>
    by_cases he : f e = b
    · have hzero := hfirst e List.mem_cons_self he
      rw [List.idxOf_cons_self] at hzero
      rw [List.map_cons, List.idxOf_cons_eq _ he]
      omega
    · have hne {d : Char} (hd : f d = b) : e ≠ d := by
        rintro rfl
        exact he hd
      rw [List.map_cons, List.idxOf_cons_ne _ he, List.idxOf_cons_ne _ (hne hf)]
      congr 1
      refine ih ((List.mem_cons.mp hc).resolve_left (hne hf).symm) fun d hd hfd => ?_
      have hle := hfirst d (List.mem_cons_of_mem e hd) hfd
      rw [List.idxOf_cons_ne _ (hne hf), List.idxOf_cons_ne _ (hne hfd)] at hle
      omega

end Added

/-! ### The queue of a search -/

variable [Ord α] [Std.TransOrd α] [Std.LawfulEqOrd α] {found : Discovery α}

/-- A search in which the items found stand in the order of their first words, before all that
are still to be found. -/
structure WordOrdered (alphabet : List Char) (move : α → Char → α) (root : α) (position : Nat)
    (found : Discovery α) : Prop
    extends Expanded (fun a => alphabet.map (move a)) root position found where
  ordered : found.toList.Pairwise (Before alphabet (LeadsTo move root))
  ahead : ∀ a ∈ found.toList, ∀ b, Reaches (fun a => alphabet.map (move a)) root b →
    b ∉ found.toList → Before alphabet (LeadsTo move root) a b

/-- The empty word leads to the root, and precedes the first word of anything else. -/
theorem wordOrdered_single (alphabet : List Char) (move : α → Char → α) (root : α) :
    WordOrdered alphabet move root 0 (single root) where
  toExpanded := expanded_single _ root
  ordered := List.pairwise_singleton _ root
  ahead := by
    intro a ha b hreach hb
    rw [toList_single, List.mem_singleton] at ha hb
    obtain ⟨word, hword⟩ := reaches_iff_exists_firstWord.mp hreach
    have hroot : FirstWord alphabet (LeadsTo move root a) [] :=
      .of_not_precedes (by simp) ha.symm fun _ _ _ => not_precedes_nil
    refine ⟨[], word, hroot, hword, nil_precedes ?_⟩
    rintro rfl
    exact hb hword.led.symm

variable (h : WordOrdered alphabet move root position found)
  (ha : found.toList[position]? = some a) (hword : FirstWord alphabet (LeadsTo move root a) word)

include h ha hword

/-- An item whose first word is no later than the one of the item to be expanded next is that
item, or is expanded already. -/
theorem WordOrdered.eq_or_expanded (hb : FirstWord alphabet (LeadsTo move root b) other)
    (hnot : ¬ Precedes alphabet word other) :
    b = a ∨ ∃ i < position, found.toList[i]? = some b := by
  have hreach := reaches_iff_exists_firstWord.mpr ⟨other, hb⟩
  have hmem : b ∈ found.toList := by
    by_contra hunknown
    exact hnot ((h.ahead a (List.mem_of_getElem? ha) b hreach hunknown).precedes hword hb)
  obtain ⟨i, hi⟩ := List.getElem?_of_mem hmem
  rcases Nat.lt_trichotomy i position with hlt | rfl | hgt
  · exact Or.inr ⟨i, hlt, hi⟩
  · exact Or.inl (Option.some.inj (hi.symm.trans ha))
  · exact absurd ((rel_of_getElem? h.ordered hgt ha hi).precedes hword hb) hnot

/-- The first word of an item that is not found continues the one of the item to be expanded next,
or a later word. -/
theorem WordOrdered.firstWord_of_not_mem
    (hreach : Reaches (fun a => alphabet.map (move a)) root b) (hb : b ∉ found.toList) :
    ∃ other c, FirstWord alphabet (LeadsTo move root b) (other ++ [c]) ∧
      (Precedes alphabet word other ∨ other = word ∧ c ∈ alphabet ∧ move a c = b) := by
  obtain ⟨whole, hwhole⟩ := reaches_iff_exists_firstWord.mp hreach
  rcases List.eq_nil_or_concat' whole with rfl | ⟨other, c, rfl⟩
  · exact absurd (hwhole.led ▸ h.root_mem) hb
  · refine ⟨other, c, hwhole, ?_⟩
    obtain ⟨closer, hother, hc, hmove⟩ := exists_of_firstWord_concat hwhole
    by_cases hbefore : Precedes alphabet word other
    · exact Or.inl hbefore
    rcases h.eq_or_expanded ha hword hother hbefore with rfl | ⟨i, hi, hcloser⟩
    · exact Or.inr ⟨hother.unique hword, hc, hmove⟩
    · exact absurd (h.expanded i hi closer hcloser b (List.mem_map.mpr ⟨c, hc, hmove⟩)) hb

variable [DecidableEq α]

/-- The first word of a new successor is the one of the item that is expanded and the first symbol
that leads on to the successor. -/
theorem WordOrdered.firstWord_of_new (hb : b ∈ alphabet.map (move a)) (hnew : b ∉ found.toList) :
    ∃ c, FirstWord alphabet (LeadsTo move root b) (word ++ [c]) ∧
      (alphabet.map (move a)).idxOf b = alphabet.idxOf c := by
  have hreach := (h.reached a (List.mem_of_getElem? ha)).tail hb
  obtain ⟨other, c, hfirst, hbefore | ⟨rfl, hc, hmove⟩⟩ :=
    h.firstWord_of_not_mem ha hword hreach hnew
  · -- Then what continues the earlier word with a symbol that leads on precedes the first word.
    obtain ⟨d, hd, hmove⟩ := List.mem_map.mp hb
    exact absurd (hbefore.concat d c) (hfirst.not_precedes
      (over_concat_iff.mpr ⟨hword.mem_alphabet, hd⟩) (leadsTo_concat.mpr ⟨a, hword.led, hmove⟩))
  · refine ⟨c, hfirst, idxOf_map_eq hc hmove fun d hd hmove' => Nat.not_lt.mp fun hlt => ?_⟩
    exact hfirst.not_precedes (over_concat_iff.mpr ⟨hword.mem_alphabet, hd⟩)
      (leadsTo_concat.mpr ⟨a, hword.led, hmove'⟩) (precedes_concat hlt other)

omit hword

/-- Expanding the next item keeps the items in the order of their first words. -/
theorem WordOrdered.insertAll :
    WordOrdered alphabet move root (position + 1) (found.insertAll (alphabet.map (move a))) := by
  obtain ⟨new, hnew, hsuccessors⟩ := exists_new_insertAll found (alphabet.map (move a))
  obtain ⟨word, hword⟩ :=
    reaches_iff_exists_firstWord.mp (h.reached a (List.mem_of_getElem? ha))
  have hfirst : ∀ b ∈ new, ∃ c, FirstWord alphabet (LeadsTo move root b) (word ++ [c]) ∧
      (alphabet.map (move a)).idxOf b = alphabet.idxOf c := by
    intro b hb
    obtain ⟨hnext, hnot⟩ := hsuccessors b hb
    exact h.firstWord_of_new ha hword hnext hnot
  have hexpanded := h.toExpanded.insertAll ha
  refine { toExpanded := hexpanded, ordered := ?_, ahead := ?_ }
  · rw [hnew]
    refine List.pairwise_append.mpr ⟨h.ordered, ?_, ?_⟩
    · have hnodup : (found.toList ++ new).Nodup := hnew ▸ (found.insertAll _).nodup
      have hplaces := pairwise_of_addAllLast hnodup (by rw [← toList_insertAll, hnew])
      refine hplaces.imp_of_mem fun {b b'} hb hb' hlt => ?_
      obtain ⟨c, hc, hplace⟩ := hfirst b hb
      obtain ⟨c', hc', hplace'⟩ := hfirst b' hb'
      exact ⟨_, _, hc, hc', precedes_concat (by omega) word⟩
    · intro b hb b' hb'
      have hreach := hexpanded.reached b' (by simp [hnew, hb'])
      exact h.ahead b hb b' hreach (hsuccessors b' hb').2
  · intro b hb b' hreach hb'
    rw [toList_insertAll, mem_addAllLast, not_or] at hb'
    rw [hnew] at hb
    rcases List.mem_append.mp hb with hold | hadded
    · exact h.ahead b hold b' hreach hb'.1
    · obtain ⟨c, hc, _⟩ := hfirst b hadded
      obtain ⟨other, c', hc', hbefore | ⟨_, hsymbol, hmove⟩⟩ :=
        h.firstWord_of_not_mem ha hword hreach hb'.1
      · exact ⟨_, _, hc, hc', hbefore.concat c c'⟩
      · exact absurd (List.mem_map.mpr ⟨c', hsymbol, hmove⟩) hb'.2

end Discovery

end Automata
