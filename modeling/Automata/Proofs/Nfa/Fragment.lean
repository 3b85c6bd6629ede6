import Automata.Nfa.Fragment
import Automata.Proofs.Nfa.Combination
import Automata.Proofs.Nfa.Copy

/-!
# Building combined automata

What can be seen of an automaton is its view. Each step of building succeeds on what the
steps before it leave, keeps the automaton consistent and changes the view in one place.
So the three ways to combine automata succeed on automata with a start, and make a choice,
a sequence and a repetition of them.
-/

namespace Automata.Nfa

/-- What can be seen of an automaton. -/
structure View where
  names : List String
  start : Option String
  finals : List String
  flags : Flags
  targets : String → Label → List String

/-- The view of an automaton. -/
def view (nfa : Nfa) : View where
  names := nfa.names
  start := nfa.start
  finals := nfa.finals
  flags := nfa.flags
  targets := nfa.targets

variable {nfa extended other lower upper left right inner : Nfa} {name source target start : String}
variable {label : Label} {added : List String}

/-! ### Steps of building -/

/-- In the view, a state that is added is one more name. -/
theorem view_addState (h : nfa.addState name = .ok extended) :
    extended.view = { nfa.view with names := addLast nfa.names name } := by
  obtain ⟨_, hstart, hfinals, hflags⟩ := addState_keeps h
  simp only [view, View.mk.injEq]
  exact ⟨names_addState h, hstart, hfinals, hflags, funext₂ (targets_addState h)⟩

/-- In the view, a start that is added is one more name and the start. -/
theorem view_addStart (h : nfa.addStart name = .ok extended) :
    extended.view = { nfa.view with names := addLast nfa.names name, start := some name } := by
  obtain ⟨added, hadded, rfl⟩ := exists_addState_of_addStart h
  have hview := view_addState hadded
  simp only [view, View.mk.injEq] at hview ⊢
  obtain ⟨hnames, _, hrest⟩ := hview
  exact ⟨hnames, trivial, hrest⟩

/-- In the view, a final state that is added is one more name and one more final state. -/
theorem view_addFinal (h : nfa.addFinal name = .ok extended) :
    extended.view = { nfa.view with
      names := addLast nfa.names name
      finals := addLast nfa.finals name } := by
  have hnames := names_addFinal h
  have htargets := targets_addFinal h
  obtain ⟨added, hadded, rfl⟩ := exists_addState_of_addFinal h
  obtain ⟨_, hstart, _, hflags⟩ := addState_keeps hadded
  simp only [view, View.mk.injEq]
  exact ⟨hnames, hstart, trivial, hflags, funext₂ htargets⟩

/-- In the view, states that are added are more names. -/
theorem view_addStates (h : nfa.addStates added = .ok extended) :
    extended.view = { nfa.view with names := addAllLast nfa.names added } := by
  obtain ⟨_, hstart, hfinals, hflags⟩ := addStates_keeps h
  simp only [view, View.mk.injEq]
  exact ⟨names_addStates h, hstart, hfinals, hflags, funext₂ (targets_addStates h)⟩

/-- In the view, an edge is one more target, and its character one more in the alphabet. -/
theorem view_addEdge (h : nfa.addEdge source label target = .ok extended) :
    extended.view = { nfa.view with
      targets := fun other read =>
        if other = source ∧ read = label then addLast (nfa.targets other read) target
        else nfa.targets other read } := by
  obtain ⟨hstart, hfinals, hflags⟩ := addEdge_keeps h
  simp only [view, View.mk.injEq]
  exact ⟨names_addEdge h, hstart, hfinals, hflags, funext₂ (targets_addEdge h)⟩

/-- In the view, copied edges join the targets and the alphabets. -/
theorem view_addEdgesOf (hother : other.WellFormed)
    (hnames : ∀ name ∈ other.names, name ∈ nfa.names)
    (h : nfa.addEdgesOf other = .ok extended) :
    extended.view = { nfa.view with
      targets := fun source label =>
        addAllLast (nfa.targets source label) (other.targets source label) } := by
  obtain ⟨hsame, hstart, hfinals, hflags⟩ := addEdgesOf_keeps hother hnames h
  simp only [view, View.mk.injEq]
  exact ⟨hsame, hstart, hfinals, hflags, funext₂ (targets_addEdgesOf hother hnames h)⟩

/-! ### Steps that succeed -/

/-- What can be seen of an automaton without states. -/
theorem view_empty (flags : Flags) : ({ flags } : Nfa).view = {
    names := []
    start := none
    finals := []
    flags
    targets := fun _ _ => [] } := rfl

/-- A state with a name can be added to a consistent automaton, which stays consistent. -/
theorem WellFormed.exists_addState (h : nfa.WellFormed) (hname : name ≠ "") :
    ∃ extended, nfa.addState name = .ok extended ∧ extended.WellFormed ∧
      extended.view = { nfa.view with names := addLast nfa.view.names name } := by
  have hadd : nfa.addState name = .ok _ := addState_eq hname
  exact ⟨_, hadd, h.addState hadd, view_addState hadd⟩

/-- A start with a name can be added to a consistent automaton, which stays consistent. -/
theorem WellFormed.exists_addStart (h : nfa.WellFormed) (hname : name ≠ "") :
    ∃ extended, nfa.addStart name = .ok extended ∧ extended.WellFormed ∧
      extended.view = { nfa.view with
        names := addLast nfa.view.names name
        start := some name } := by
  obtain ⟨extended, hadd⟩ : ∃ extended, nfa.addStart name = .ok extended := by
    rw [Nfa.addStart, addState_eq hname]
    exact ⟨_, rfl⟩
  exact ⟨extended, hadd, h.addStart hadd, view_addStart hadd⟩

/-- A final state with a name can be added to a consistent automaton, which stays consistent. -/
theorem WellFormed.exists_addFinal (h : nfa.WellFormed) (hname : name ≠ "") :
    ∃ extended, nfa.addFinal name = .ok extended ∧ extended.WellFormed ∧
      extended.view = { nfa.view with
        names := addLast nfa.view.names name
        finals := addLast nfa.view.finals name } := by
  obtain ⟨extended, hadd⟩ : ∃ extended, nfa.addFinal name = .ok extended := by
    rw [Nfa.addFinal, addState_eq hname]
    exact ⟨_, rfl⟩
  exact ⟨extended, hadd, h.addFinal hadd, view_addFinal hadd⟩

/-- Final states with names can be added to a consistent automaton, which stays consistent. -/
theorem WellFormed.exists_addFinals (h : nfa.WellFormed) (hadded : ∀ name ∈ added, name ≠ "") :
    ∃ extended, nfa.addFinals added = .ok extended ∧ extended.WellFormed ∧
      extended.view = { nfa.view with
        names := addAllLast nfa.view.names added
        finals := addAllLast nfa.view.finals added } := by
  induction added generalizing nfa with
  | nil => exact ⟨nfa, rfl, h, rfl⟩
  | cons name added ih =>
    obtain ⟨middle, hmiddle, hwf, hfirst⟩ := h.exists_addFinal (hadded name (by simp))
    obtain ⟨extended, hextended, hwf', hrest⟩ :=
      ih hwf fun other hother => hadded other (by simp [hother])
    refine ⟨extended, ?_, hwf', ?_⟩
    · have hstep : nfa.addFinals (name :: added) =
          nfa.addFinal name >>= fun nfa => nfa.addFinals added := rfl
      rw [hstep, hmiddle]
      exact hextended
    · rw [hrest, hfirst]
      rfl

/-- States with names can always be added. -/
theorem WellFormed.exists_addStates (h : nfa.WellFormed) (hadded : ∀ name ∈ added, name ≠ "") :
    ∃ extended, nfa.addStates added = .ok extended ∧ extended.WellFormed ∧
      extended.view = { nfa.view with names := addAllLast nfa.view.names added } := by
  have hadd : nfa.addStates added = .ok _ := addStates_eq fun hempty => hadded "" hempty rfl
  exact ⟨_, hadd, h.addStates hadd, view_addStates hadd⟩

/-- Edges that read nothing can be added between any two states. -/
theorem WellFormed.exists_addEpsilonEdge (h : nfa.WellFormed) (hsource : source ∈ nfa.view.names)
    (htarget : target ∈ nfa.view.names) :
    ∃ extended, nfa.addEdge source .epsilon target = .ok extended ∧ extended.WellFormed ∧
      ∃ targets, extended.view = { nfa.view with targets } ∧
        ∀ other label reached, reached ∈ targets other label ↔
          reached ∈ nfa.view.targets other label ∨
            other = source ∧ label = .epsilon ∧ reached = target := by
  have hadd : nfa.addEdge source .epsilon target = .ok _ := addEdge_eq hsource htarget
  refine ⟨_, hadd, h.addEdge (by simp) hadd, _, view_addEdge hadd, ?_⟩
  intro other label reached
  have htargets := targets_addEdge hadd other label
  rw [← htargets]
  exact mem_targets_addEdge hadd

/-- Edges that read nothing can be added from any states to one. -/
theorem WellFormed.exists_addEpsilonEdges (h : nfa.WellFormed)
    (hadded : ∀ source ∈ added, source ∈ nfa.view.names) (htarget : target ∈ nfa.view.names) :
    ∃ extended, nfa.addEpsilonEdges added target = .ok extended ∧ extended.WellFormed ∧
      ∃ targets, extended.view = { nfa.view with targets } ∧
        ∀ other label reached, reached ∈ targets other label ↔
          reached ∈ nfa.view.targets other label ∨
            other ∈ added ∧ label = .epsilon ∧ reached = target := by
  induction added generalizing nfa with
  | nil => exact ⟨nfa, rfl, h, nfa.targets, rfl, by simp [view]⟩
  | cons source added ih =>
    obtain ⟨middle, hmiddle, hwf, targets, hfirst, htargets⟩ :=
      h.exists_addEpsilonEdge (hadded source (by simp)) htarget
    obtain ⟨extended, hextended, hwf', targets', hrest, htargets'⟩ :=
      ih hwf (fun other hother => by simp [hfirst, hadded other, hother])
        (by simp [hfirst, htarget])
    refine ⟨extended, ?_, hwf', targets', ?_, ?_⟩
    · have hstep : nfa.addEpsilonEdges (source :: added) target =
          nfa.addEdge source .epsilon target >>= fun nfa => nfa.addEpsilonEdges added target := rfl
      rw [hstep, hmiddle]
      exact hextended
    · rw [hrest, hfirst]
    · intro other label reached
      rw [htargets', hfirst, htargets, List.mem_cons]
      tauto

/-- All edges can be copied from an automaton whose states are there. -/
theorem WellFormed.exists_addEdgesOf (h : nfa.WellFormed) (hother : other.WellFormed)
    (hnames : ∀ name ∈ other.names, name ∈ nfa.view.names) :
    ∃ extended, nfa.addEdgesOf other = .ok extended ∧ extended.WellFormed ∧
      ∃ targets, extended.view = { nfa.view with targets } ∧
        ∀ source label target, target ∈ targets source label ↔
          target ∈ nfa.view.targets source label ∨ target ∈ other.targets source label := by
  have hadd := hother.addEdgesOf_eq hnames
  refine ⟨_, hadd, WellFormed.addEdgesOf hother hnames hadd h, _,
    view_addEdgesOf hother hnames hadd, ?_⟩
  intro source label target
  exact mem_addAllLast

/-- The edges of two automata can be copied one after the other. -/
theorem WellFormed.exists_addEdgesOf_both (h : nfa.WellFormed) (hleft : left.WellFormed)
    (hright : right.WellFormed) (hnamesLeft : ∀ name ∈ left.names, name ∈ nfa.view.names)
    (hnamesRight : ∀ name ∈ right.names, name ∈ nfa.view.names) :
    ∃ middle extended, nfa.addEdgesOf left = .ok middle ∧ middle.addEdgesOf right = .ok extended ∧
      extended.WellFormed ∧ ∃ targets, extended.view = { nfa.view with targets } ∧
        ∀ source label target, target ∈ targets source label ↔
          target ∈ nfa.view.targets source label ∨
            target ∈ left.targets source label ∨ target ∈ right.targets source label := by
  obtain ⟨middle, hmiddle, hwf, targets, hfirst, htargets⟩ :=
    h.exists_addEdgesOf hleft hnamesLeft
  obtain ⟨extended, hextended, hwf', targets', hrest, htargets'⟩ :=
    hwf.exists_addEdgesOf hright fun name hname => by simp [hfirst, hnamesRight name hname]
  refine ⟨middle, extended, hmiddle, hextended, hwf', targets', by rw [hrest, hfirst], ?_⟩
  intro source label target
  rw [htargets', hfirst, htargets, or_assoc]

/-- The states of two consistent automata all have names. -/
theorem WellFormed.ne_empty_of_both (hleft : left.WellFormed) (hright : right.WellFormed) :
    ∀ name ∈ left.names ++ right.names, name ≠ "" := by
  intro name hname
  rcases List.mem_append.mp hname with hname | hname
  · exact hleft.names_ne_empty name hname
  · exact hright.names_ne_empty name hname

/-- An automaton can be begun with its final states, its start and its other states. -/
theorem exists_edgeless {finals names : List String} (hnames : ∀ name ∈ names, name ≠ "")
    (hfinals : ∀ final ∈ finals, final ∈ names) (hstart : start ≠ "") :
    ∃ first second nfa, ({} : Nfa).addFinals finals = .ok first ∧
      first.addStart start = .ok second ∧ second.addStates names = .ok nfa ∧ nfa.WellFormed ∧
      (∀ name, name ∈ nfa.view.names ↔ name = start ∨ name ∈ names) ∧
      nfa.view.start = some start ∧ (∀ name, name ∈ nfa.view.finals ↔ name ∈ finals) ∧
      nfa.view.flags = {} ∧ ∀ source label, nfa.view.targets source label = [] := by
  obtain ⟨first, hfirst, hwf, hview⟩ := (wellFormed_empty {}).exists_addFinals
    fun final hfinal => hnames final (hfinals final hfinal)
  obtain ⟨second, hsecond, hwf', hview'⟩ := hwf.exists_addStart hstart
  obtain ⟨nfa, hnfa, hwf'', hview''⟩ := hwf'.exists_addStates hnames
  have hsame : nfa.view = {
      names := addAllLast (addLast (addAllLast [] finals) start) names
      start := some start
      finals := addAllLast [] finals
      flags := {}
      targets := fun _ _ => [] } := by
    rw [hview'', hview', hview, view_empty]
  refine ⟨first, second, nfa, hfirst, hsecond, hnfa, hwf'', ?_⟩
  rw [hsame]
  refine ⟨?_, rfl, ?_, rfl, fun _ _ => rfl⟩
  · intro name
    have hfinal := hfinals name
    simp only [mem_addAllLast, mem_addLast, List.not_mem_nil, false_or]
    tauto
  · intro name
    simp

/-- A start that is there is given. -/
theorem requireStart_eq (h : nfa.start = some start) : nfa.requireStart = .ok start := by
  simp [requireStart, h]

/-! ### The five ways to build -/

/-- The automaton of the empty word has one state, and no edges. -/
theorem exists_ofBlank (hname : name ≠ "") :
    ∃ nfa, ofBlank name = .ok nfa ∧ nfa.WellFormed ∧ nfa.view = {
      names := [name]
      start := some name
      finals := [name]
      flags := {}
      targets := fun _ _ => [] } := by
  obtain ⟨first, hfirst, hwf, hview⟩ := (wellFormed_empty {}).exists_addFinal hname
  obtain ⟨nfa, hnfa, hwf', hview'⟩ := hwf.exists_addStart hname
  refine ⟨nfa, ?_, hwf', ?_⟩
  · simp only [ofBlank, hfirst, bind, Except.bind]
    exact hnfa
  · rw [hview', hview, view_empty]
    simp [addLast]

/-- The automaton of one symbol has one edge, from its start to another state. -/
theorem exists_ofSymbol {final : String} (hstart : start ≠ "") (hfinal : final ≠ "")
    (hne : start ≠ final) (symbol : Char) :
    ∃ nfa, ofSymbol start symbol final = .ok nfa ∧ nfa.WellFormed ∧ nfa.view = {
      names := [final, start]
      start := some start
      finals := [final]
      flags := {}
      targets := fun source label =>
        if source = start ∧ label = .ofChar symbol then [final] else [] } := by
  obtain ⟨first, hfirst, hwf, hview⟩ := (wellFormed_empty {}).exists_addFinal hfinal
  obtain ⟨second, hsecond, hwf', hview'⟩ := hwf.exists_addStart hstart
  have hsame : second.view = ⟨[final, start], some start, [final], {}, fun _ _ => []⟩ := by
    rw [hview', hview, view_empty]
    simp [addLast, hne]
  have hnames : second.names = [final, start] := congrArg View.names hsame
  have htargets : second.targets = fun _ _ => [] := congrArg View.targets hsame
  have hadd : second.addEdge start (.ofChar symbol) final = .ok _ :=
    addEdge_eq (by simp [hnames]) (by simp [hnames])
  refine ⟨_, ?_, hwf'.addEdge (ofChar_ne_char_mark symbol) hadd, ?_⟩
  · simp only [ofSymbol, hfirst, hsecond, bind, Except.bind]
    exact hadd
  · rw [view_addEdge hadd, hsame, htargets]
    simp [addLast]

/-- Automata with a start can be put together as alternatives. -/
theorem exists_alternate {first second : String} (hlower : lower.WellFormed)
    (hupper : upper.WellFormed) (hfirst : lower.start = some first)
    (hsecond : upper.start = some second) (hstart : start ≠ "") :
    ∃ nfa, lower.alternate upper start = .ok nfa ∧ nfa.WellFormed ∧ nfa.flags = {} ∧
      Alternation lower upper start nfa := by
  have hfinals : ∀ final ∈ lower.finals ++ upper.finals, final ∈ lower.names ++ upper.names := by
    intro final hfinal
    rcases List.mem_append.mp hfinal with hfinal | hfinal
    · exact List.mem_append_left _ (hlower.finals_mem final hfinal)
    · exact List.mem_append_right _ (hupper.finals_mem final hfinal)
  obtain ⟨nfa₁, nfa₂, nfa₃, hnfa₁, hnfa₂, hnfa₃, hwf₃, hnames₃, hstart₃, hfinals₃, hflags₃,
      hnone⟩ :=
    exists_edgeless (hlower.ne_empty_of_both hupper) hfinals hstart
  simp only [List.mem_append] at hnames₃ hfinals₃
  have hin := hlower.start_mem first hfirst
  have hin' := hupper.start_mem second hsecond
  have hsource : start ∈ nfa₃.view.names := by simp [hnames₃]
  have htarget : first ∈ nfa₃.view.names := by simp [hnames₃, hin]
  obtain ⟨nfa₄, hnfa₄, hwf₄, targets₄, hview₄, htargets₄⟩ :=
    hwf₃.exists_addEpsilonEdge hsource htarget
  have hsource' : start ∈ nfa₄.view.names := by simp [hview₄, hnames₃]
  have htarget' : second ∈ nfa₄.view.names := by simp [hview₄, hnames₃, hin']
  obtain ⟨nfa₅, hnfa₅, hwf₅, targets₅, hview₅, htargets₅⟩ :=
    hwf₄.exists_addEpsilonEdge hsource' htarget'
  obtain ⟨nfa₆, nfa, hnfa₆, hnfa, hwf, targets, hview, htargets⟩ :=
    hwf₅.exists_addEdgesOf_both hlower hupper
      (fun name hname => by simp [hview₅, hview₄, hnames₃, hname])
      (fun name hname => by simp [hview₅, hview₄, hnames₃, hname])
  rw [hview₅, hview₄] at hview
  refine ⟨nfa, ?_, hwf, (congrArg View.flags hview).trans hflags₃, ?_⟩
  · simp only [alternate, requireStart_eq hfirst, requireStart_eq hsecond, bind, Except.bind,
      hnfa₁, hnfa₂, hnfa₃, hnfa₄, hnfa₅, hnfa₆, hnfa]
  · constructor
    case start_eq => exact (congrArg View.start hview).trans hstart₃
    case mem_names =>
      intro name
      have hnames : nfa.names = nfa₃.view.names := congrArg View.names hview
      rw [hnames, hnames₃]
    case mem_finals =>
      intro name
      have hfinals : nfa.finals = nfa₃.view.finals := congrArg View.finals hview
      rw [hfinals, hfinals₃]
    case mem_targets =>
      intro source label target
      have hsame : nfa.targets = targets := congrArg View.targets hview
      rw [hsame, htargets, hview₅, htargets₅, hview₄, htargets₄, hnone, hfirst, hsecond,
        Option.some.injEq, Option.some.injEq, eq_comm (a := first), eq_comm (a := second)]
      simp only [List.not_mem_nil, false_or]
      tauto

/-- Automata with a start can be put together one after the other. -/
theorem exists_append {first second : String} (hleft : left.WellFormed)
    (hright : right.WellFormed) (hfirst : left.start = some first)
    (hsecond : right.start = some second) :
    ∃ nfa, left.append right = .ok nfa ∧ nfa.WellFormed ∧ nfa.flags = {} ∧
      Sequence left right nfa := by
  have hin := hleft.start_mem first hfirst
  have hin' := hright.start_mem second hsecond
  have hfinals : ∀ final ∈ right.finals, final ∈ right.names ++ left.names :=
    fun final hfinal => List.mem_append_left _ (hright.finals_mem final hfinal)
  obtain ⟨nfa₁, nfa₂, nfa₃, hnfa₁, hnfa₂, hnfa₃, hwf₃, hnames₃, hstart₃, hfinals₃, hflags₃,
      hnone⟩ :=
    exists_edgeless (hright.ne_empty_of_both hleft) hfinals (hleft.names_ne_empty first hin)
  simp only [List.mem_append] at hnames₃
  have hsources : ∀ final ∈ left.finals, final ∈ nfa₃.view.names :=
    fun final hfinal => by simp [hnames₃, hleft.finals_mem final hfinal]
  have htarget : second ∈ nfa₃.view.names := by simp [hnames₃, hin']
  obtain ⟨nfa₄, hnfa₄, hwf₄, targets₄, hview₄, htargets₄⟩ :=
    hwf₃.exists_addEpsilonEdges hsources htarget
  obtain ⟨nfa₅, nfa, hnfa₅, hnfa, hwf, targets, hview, htargets⟩ :=
    hwf₄.exists_addEdgesOf_both hright hleft
      (fun name hname => by simp [hview₄, hnames₃, hname])
      (fun name hname => by simp [hview₄, hnames₃, hname])
  rw [hview₄] at hview
  refine ⟨nfa, ?_, hwf, (congrArg View.flags hview).trans hflags₃, ?_⟩
  · simp only [append, requireStart_eq hfirst, requireStart_eq hsecond, bind, Except.bind,
      hnfa₁, hnfa₂, hnfa₃, hnfa₄, hnfa₅, hnfa]
  · constructor
    case start_eq => exact ((congrArg View.start hview).trans hstart₃).trans hfirst.symm
    case mem_names =>
      intro name
      have hnames : nfa.names = nfa₃.view.names := congrArg View.names hview
      rw [hnames, hnames₃]
      constructor
      · rintro (rfl | hname | hname)
        · exact Or.inl hin
        · exact Or.inr hname
        · exact Or.inl hname
      · rintro (hname | hname)
        · exact Or.inr (Or.inr hname)
        · exact Or.inr (Or.inl hname)
    case mem_finals =>
      intro name
      have hfinals : nfa.finals = nfa₃.view.finals := congrArg View.finals hview
      rw [hfinals, hfinals₃]
    case mem_targets =>
      intro source label target
      have hsame : nfa.targets = targets := congrArg View.targets hview
      rw [hsame, htargets, hview₄, htargets₄, hnone, hsecond, Option.some.injEq,
        eq_comm (a := second)]
      simp only [List.not_mem_nil, false_or]
      tauto

/-- An automaton with a start can be repeated. -/
theorem exists_star {entry : String} (hinner : inner.WellFormed) (hentry : inner.start = some entry)
    (hstart : start ≠ "") :
    ∃ nfa, inner.star start = .ok nfa ∧ nfa.WellFormed ∧ nfa.flags = inner.flags ∧
      Repetition inner start nfa := by
  have hin : entry ∈ inner.view.names := hinner.start_mem entry hentry
  obtain ⟨nfa₁, hnfa₁, hwf₁, targets₁, hview₁, htargets₁⟩ :=
    hinner.exists_addEpsilonEdges hinner.finals_mem hin
  obtain ⟨nfa₂, hnfa₂, hwf₂, hview₂⟩ := hwf₁.exists_addState hstart
  have hsource : start ∈ nfa₂.view.names := by simp [hview₂]
  have htarget : entry ∈ nfa₂.view.names := by simp [hview₂, hview₁, hin]
  obtain ⟨nfa₃, hnfa₃, hwf₃, targets₃, hview₃, htargets₃⟩ :=
    hwf₂.exists_addEpsilonEdge hsource htarget
  obtain ⟨nfa₄, hnfa₄, hwf₄, hview₄⟩ := hwf₃.exists_addStart hstart
  obtain ⟨nfa, hnfa, hwf, hview⟩ := hwf₄.exists_addFinal hstart
  rw [hview₄, hview₃, hview₂, hview₁] at hview
  refine ⟨nfa, ?_, hwf, congrArg View.flags hview, ?_⟩
  · simp only [star, requireStart_eq hentry, bind, Except.bind, hnfa₁, hnfa₂, hnfa₃, hnfa₄, hnfa]
  · constructor
    case start_eq => exact congrArg View.start hview
    case mem_names =>
      intro name
      have hnames : nfa.names =
          addLast (addLast (addLast inner.names start) start) start := congrArg View.names hview
      rw [hnames]
      simp only [mem_addLast]
      tauto
    case mem_finals =>
      intro name
      have hfinals : nfa.finals = addLast inner.finals start := congrArg View.finals hview
      rw [hfinals, mem_addLast, or_comm]
    case mem_targets =>
      intro source label target
      have hsame : nfa.targets = targets₃ := congrArg View.targets hview
      have hinnerTargets : inner.view.targets = inner.targets := rfl
      rw [hsame, htargets₃, hview₂, hview₁, htargets₁, hinnerTargets, hentry, Option.some.injEq,
        eq_comm (a := entry)]
      tauto

/-! ### Languages of the smallest automata -/

/-- Without edges, only the empty word is read, if the start is final. -/
theorem mem_language_of_edgeless {word : List Char} (hstart : nfa.start = some start)
    (hfinal : start ∈ nfa.finals) (hnone : ∀ source label, nfa.targets source label = []) :
    word ∈ nfa.language ↔ word = [] := by
  constructor
  · rintro ⟨source, final, _, _, hpath⟩
    cases hpath with
    | refl => rfl
    | epsilon edge _ => simp [hnone] at edge
    | char edge _ => simp [hnone] at edge
  · rintro rfl
    exact ⟨start, start, hstart, hfinal, .refl start⟩

/-- The word that an edge with the label reads. -/
def wordOf : Label → List Char
  | .epsilon => []
  | .char c => [c]

/-- A character other than the mark reads itself, and the mark reads nothing. -/
theorem wordOf_ofChar (c : Char) : wordOf (.ofChar c) = if c = epsilonMark then [] else [c] := by
  unfold Label.ofChar
  split <;> rfl

/-- With one edge, from the start to the final state, only what the edge reads is read. -/
theorem mem_language_of_single {final : String} {read : List Char} (hne : start ≠ final)
    (hstart : nfa.start = some start) (hfinals : nfa.finals = [final])
    (htargets : ∀ source other, nfa.targets source other =
      if source = start ∧ other = label then [final] else []) :
    read ∈ nfa.language ↔ read = wordOf label := by
  -- No edge leaves the final state.
  have hend : ∀ rest goal, nfa.Path final rest goal → rest = [] := by
    intro rest goal hpath
    cases hpath with
    | refl => rfl
    | epsilon edge _ => simp [htargets, hne.symm] at edge
    | char edge _ => simp [htargets, hne.symm] at edge
  have hedge : final ∈ nfa.targets start label := by simp [htargets]
  constructor
  · rintro ⟨source, goal, hsource, hgoal, hpath⟩
    rw [hstart, Option.some.injEq] at hsource
    rw [hfinals, List.mem_singleton] at hgoal
    subst hsource hgoal
    cases hpath with
    | refl => exact absurd rfl hne
    | epsilon edge rest =>
      rw [htargets] at edge
      split at edge
      · next hplace =>
        rw [List.mem_singleton.mp edge] at rest
        rw [← hplace.2, hend _ _ rest, wordOf]
      · simp at edge
    | char edge rest =>
      rw [htargets] at edge
      split at edge
      · next hplace =>
        rw [List.mem_singleton.mp edge] at rest
        rw [← hplace.2, hend _ _ rest, wordOf]
      · simp at edge
  · rintro rfl
    refine ⟨start, final, hstart, by simp [hfinals], ?_⟩
    cases label with
    | epsilon => exact .epsilon hedge (.refl final)
    | char c => exact .char hedge (.refl final)

end Automata.Nfa
