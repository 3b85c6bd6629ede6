import Automata.Distinct
import Automata.Error
import Mathlib.Data.List.Induction

/-!
# Histories of building

An automaton is built by requests, some of which are refused. Whether one is refused depends
on the states that were granted before it, so a history of requests says by itself which of
them are granted. What an automaton holds after its history can be read off the requests that
were granted: its lists have what these name, each thing where it was named first, and its
start is the one named last.
-/

namespace Automata

/-- A request to an automaton under construction, whose edges carry labels of some kind. -/
inductive Request (L : Type) where
  | start (name : String)
  | state (name : String)
  | final (name : String)
  | edge (source : String) (label : L) (target : String)

namespace Request

variable {L K : Type}

/-! ### What a request names -/

/-- The state that is to be there, unless an edge is requested. -/
def name? : Request L → Option String
  | .start name | .state name | .final name => some name
  | .edge .. => none

/-- The state that is to be the start. -/
def start? : Request L → Option String
  | .start name => some name
  | _ => none

/-- The state that is to be final. -/
def final? : Request L → Option String
  | .final name => some name
  | _ => none

/-- The label of the edge that is requested. -/
def label? : Request L → Option L
  | .edge _ label _ => some label
  | _ => none

/-- The target of the edge that is requested, if it leaves the source with the label. -/
def target? [DecidableEq L] (source : String) (label : L) : Request L → Option String
  | .edge other read target => if other = source ∧ read = label then some target else none
  | _ => none

/-- The states that are joined, the source first, if an edge is requested. -/
def ends : Request L → List String
  | .edge source _ target => [source, target]
  | _ => []

/-- Why a request is refused after others were granted: states need names, and both ends of an
edge have to be there, of which the source is looked for first. -/
def refusal (earlier : List (Request L)) : Request L → Option Error
  | .start name | .state name | .final name => if name = "" then some .emptyStateName else none
  | .edge source _ target =>
    ([source, target].find? fun name => decide (name ∉ earlier.filterMap name?)).map .unknownState

/-- Where an edge fails for its source, or else for its target, when that is not there, it fails
when it is refused. -/
theorem eq_error_iff_refusal_edge {M : Type} {result : Except Error M} {earlier : List (Request L)}
    {names : List String} {source target : String} {label : L}
    (hnames : names = (earlier.filterMap name?).eraseDups)
    (hsource : source ∉ names → result = .error (.unknownState source))
    (htarget : source ∈ names → target ∉ names → result = .error (.unknownState target))
    (hok : source ∈ names → target ∈ names → ∃ extended, result = .ok extended) (error : Error) :
    result = .error error ↔ (edge source label target).refusal earlier = some error := by
  have hmem : ∀ name, name ∈ earlier.filterMap name? ↔ name ∈ names := by
    intro name
    rw [hnames, List.mem_eraseDups]
  simp only [refusal, hmem, List.find?_cons]
  by_cases hin : source ∈ names
  · by_cases hin' : target ∈ names
    · obtain ⟨extended, hextended⟩ := hok hin hin'
      simp [hin, hin', hextended]
    · simp [hin, hin', htarget hin hin']
  · simp [hin, hsource hin]

/-- The requests that are granted out of a history, in order. -/
def granted (history : List (Request L)) : List (Request L) :=
  history.foldl (fun earlier request =>
    if (request.refusal earlier).isNone then earlier ++ [request] else earlier) []

/-- One request more is granted if it is not refused after those granted before. -/
theorem granted_concat (history : List (Request L)) (request : Request L) :
    granted (history ++ [request]) =
      if (request.refusal (granted history)).isNone then granted history ++ [request]
      else granted history := by
  simp [granted]

/-- Where an edge is not refused, both of its ends are there. -/
theorem mem_of_refusal_eq_none {earlier : List (Request L)} {request : Request L}
    (h : request.refusal earlier = none) : ∀ name ∈ request.ends, name ∈ earlier.filterMap name? := by
  intro name hname
  cases request with
  | start other | state other | final other => simp [ends] at hname
  | edge source label target =>
    rw [refusal, Option.map_eq_none_iff, List.find?_eq_none] at h
    simpa using h name hname

/-- The ends of the edges that are granted are states that are granted. -/
theorem mem_of_mem_granted {history : List (Request L)} {request : Request L}
    (h : request ∈ granted history) :
    ∀ name ∈ request.ends, name ∈ (granted history).filterMap name? := by
  induction history using List.reverseRecOn with
  | nil => simp [granted] at h
  | append_singleton history last ih =>
    intro name hname
    rw [granted_concat] at h ⊢
    split at h
    · next hgranted =>
      rw [if_pos hgranted, List.filterMap_append]
      apply List.mem_append_left
      rcases List.mem_append.mp h with hold | hlast
      · exact ih hold name hname
      · obtain rfl := List.mem_singleton.mp hlast
        exact mem_of_refusal_eq_none (Option.isNone_iff_eq_none.mp hgranted) name hname
    · next hrefused =>
      rw [if_neg hrefused]
      exact ih h name hname

/-- Why the first of several requests that is refused is refused, where all those before it
are granted after others. -/
def firstRefusal (earlier : List (Request L)) : List (Request L) → Option Error
  | [] => none
  | request :: rest =>
    match request.refusal earlier with
    | some error => some error
    | none => firstRefusal (earlier ++ [request]) rest

/-- Requests are refused in the first part, or else in the second when the first was granted. -/
theorem firstRefusal_append {earlier first second : List (Request L)} :
    firstRefusal earlier (first ++ second) =
      (firstRefusal earlier first).or (firstRefusal (earlier ++ first) second) := by
  induction first generalizing earlier with
  | nil => simp [firstRefusal]
  | cons request first ih =>
    simp only [List.cons_append, firstRefusal]
    split
    · rfl
    · simp [ih]

/-- Where none of several requests is refused, all of them are granted. -/
theorem granted_append {history requests : List (Request L)}
    (h : firstRefusal (granted history) requests = none) :
    granted (history ++ requests) = granted history ++ requests := by
  induction requests generalizing history with
  | nil => simp
  | cons request requests ih =>
    simp only [firstRefusal] at h
    split at h
    · simp at h
    · next hrefusal =>
      have hone : granted (history ++ [request]) = granted history ++ [request] := by
        simp [granted_concat, hrefusal]
      have hrest := @ih (history ++ [request]) (hone ▸ h)
      simpa [hone] using hrest

/-- When none is refused, all requests are granted. -/
theorem granted_eq_self {requests : List (Request L)} (h : firstRefusal [] requests = none) :
    granted requests = requests :=
  @granted_append L [] requests h

/-- Nothing that names a state is refused, unless the name is empty. -/
theorem firstRefusal_of_names {earlier requests : List (Request L)}
    (h : ∀ request ∈ requests, ∃ name, request.name? = some name ∧ name ≠ "") :
    firstRefusal earlier requests = none := by
  induction requests generalizing earlier with
  | nil => rfl
  | cons request requests ih =>
    obtain ⟨name, hname, hne⟩ := h request (by simp)
    have hrefusal : request.refusal earlier = none := by
      cases request <;> simp_all [refusal, name?]
    simp only [firstRefusal, hrefusal]
    exact ih fun other hother => h other (by simp [hother])

/-- Edges add no states, so the first that is refused is refused for the first of all ends that
is not there. -/
theorem firstRefusal_of_edges {earlier requests : List (Request L)} {names : List String}
    (hnames : ∀ name, name ∈ names ↔ name ∈ earlier.filterMap name?)
    (h : ∀ request ∈ requests, request.name? = none) :
    firstRefusal earlier requests =
      ((requests.flatMap ends).find? fun name => decide (name ∉ names)).map .unknownState := by
  induction requests generalizing earlier with
  | nil => rfl
  | cons request requests ih =>
    have hnone : request.name? = none := h request (by simp)
    -- An edge adds no state, so the rest is judged by the same names.
    have hrest := @ih (earlier ++ [request]) (by simpa [hnone] using hnames)
      fun other hother => h other (by simp [hother])
    cases request with
    | start name | state name | final name => simp [name?] at hnone
    | edge source label target =>
      have hends : ends (edge source label target) = [source, target] := rfl
      simp only [firstRefusal, refusal, ← hnames, hrest, List.flatMap_cons, hends,
        List.find?_append]
      cases [source, target].find? fun name => decide (name ∉ names) <;> rfl

/-! ### Other labels -/

/-- The request with another label in place of its own. -/
def map (f : L → K) : Request L → Request K
  | .start name => .start name
  | .state name => .state name
  | .final name => .final name
  | .edge source label target => .edge source (f label) target

section Map

variable {f : L → K} {request : Request L} {earlier requests : List (Request L)}

/-- Other labels do not change the name that is asked for. -/
@[simp] theorem name?_map : (request.map f).name? = request.name? := by
  cases request <;> rfl

/-- Other labels do not change the start that is asked for. -/
@[simp] theorem start?_map : (request.map f).start? = request.start? := by
  cases request <;> rfl

/-- Other labels do not change the final state that is asked for. -/
@[simp] theorem final?_map : (request.map f).final? = request.final? := by
  cases request <;> rfl

/-- Labels have no part in what is refused. -/
theorem refusal_map : (request.map f).refusal (earlier.map (map f)) = request.refusal earlier := by
  have hnames : (earlier.map (map f)).filterMap name? = earlier.filterMap name? := by
    have hsame : name? ∘ map f = name? := funext fun _ => name?_map
    rw [List.filterMap_map, hsame]
  cases request <;> simp only [map, refusal, hnames]

/-- Labels have no part in a refusal. -/
theorem firstRefusal_map :
    firstRefusal (earlier.map (map f)) (requests.map (map f)) = firstRefusal earlier requests := by
  induction requests generalizing earlier with
  | nil => rfl
  | cons request requests ih =>
    have hrest := @ih (earlier ++ [request])
    rw [List.map_append, List.map_singleton] at hrest
    simp only [List.map_cons, firstRefusal, refusal_map, hrest]

end Map

end Request

/-! ### First occurrences -/

section Occurrences

variable {α β : Type} {l : List α} {a : α} {f : α → Option β}

/-- One value more is a first occurrence if it did not occur before. -/
theorem eraseDups_concat [DecidableEq α] : (l ++ [a]).eraseDups = addLast l.eraseDups a := by
  rw [List.eraseDups_append]
  by_cases h : a ∈ l
  · rw [addLast_of_mem (List.mem_eraseDups.mpr h)]
    simp [List.removeAll, h]
  · rw [addLast_of_not_mem (mt List.mem_eraseDups.mp h)]
    simp [List.removeAll, h, List.eraseDups_cons]

/-- Nothing is a first occurrence twice. -/
theorem nodup_eraseDups [DecidableEq α] (l : List α) : l.eraseDups.Nodup := by
  induction l using List.reverseRecOn with
  | nil => simp
  | append_singleton l a ih =>
    rw [eraseDups_concat]
    exact nodup_addLast ih a

/-- What one item more adds to the first occurrences of what items name. -/
theorem eraseDups_filterMap_concat [DecidableEq β] :
    ((l ++ [a]).filterMap f).eraseDups =
      (f a).elim (l.filterMap f).eraseDups (addLast (l.filterMap f).eraseDups) := by
  cases h : f a with
  | none => simp [h]
  | some b => simp [h, eraseDups_concat]

/-- What one item more does to the last occurrence of what items name. -/
theorem getLast?_filterMap_concat :
    ((l ++ [a]).filterMap f).getLast? = (f a).or (l.filterMap f).getLast? := by
  cases h : f a <;> simp [h]

/-- Where nothing else occurs, the first occurrence is the last one. -/
theorem eraseDups_eq_toList_getLast? [DecidableEq α] (h : ∀ a ∈ l, ∀ b ∈ l, a = b) :
    l.eraseDups = l.getLast?.toList := by
  induction l using List.reverseRecOn with
  | nil => rfl
  | append_singleton l a ih =>
    have hsame : ∀ b ∈ l, b = a := fun b hb => h b (by simp [hb]) a (by simp)
    rw [eraseDups_concat, ih fun b hb c hc => h b (by simp [hb]) c (by simp [hc])]
    cases hlast : l.getLast? with
    | none => simp [addLast]
    | some b => simp [addLast, hsame b (List.mem_of_getLast? hlast)]

end Occurrences

/-! ### Automata that obey the rule -/

/-- A result fails when what it was made of fails. -/
theorem map_eq_error_iff {α β : Type} {f : α → β} {result : Except Error α} {error : Error} :
    result.map f = .error error ↔ result = .error error := by
  cases result <;> simp [Except.map]

/-- Additions to a kind of automaton fail when they are refused, for the reason of the refusal,
and an automaton holds what was granted. -/
structure Obeys {M A L : Type} (add : M → A → Except Error M) (request : A → Request L)
    (Holds : M → List (Request L) → Prop) : Prop where
  error_iff : ∀ {automaton earlier}, Holds automaton earlier → ∀ addition error,
    add automaton addition = .error error ↔ (request addition).refusal earlier = some error
  holds : ∀ {automaton earlier}, Holds automaton earlier → ∀ {addition extended},
    add automaton addition = .ok extended → Holds extended (earlier ++ [request addition])

section Obeys

variable {M A L : Type} {add : M → A → Except Error M} {request : A → Request L}
variable {Holds : M → List (Request L) → Prop} {automaton extended : M}
variable {earlier : List (Request L)} {addition : A}

/-- An addition that succeeds was not to be refused. -/
theorem Obeys.refusal_eq_none (h : Obeys add request Holds) (hholds : Holds automaton earlier)
    (hadd : add automaton addition = .ok extended) :
    (request addition).refusal earlier = none := by
  cases hrefusal : (request addition).refusal earlier with
  | none => rfl
  | some error => simp [(h.error_iff hholds addition error).mpr hrefusal] at hadd

/-- Where failures are passed over, an automaton holds what was granted out of its history. -/
theorem Obeys.holds_foldl (h : Obeys add request Holds) {tryAdd : M → A → M}
    (hok : ∀ {automaton addition extended}, add automaton addition = .ok extended →
      tryAdd automaton addition = extended)
    (herror : ∀ {automaton addition error}, add automaton addition = .error error →
      tryAdd automaton addition = automaton)
    (hempty : Holds automaton []) (additions : List A) :
    Holds (additions.foldl tryAdd automaton) (Request.granted (additions.map request)) := by
  induction additions using List.reverseRecOn with
  | nil => exact hempty
  | append_singleton additions addition ih =>
    rw [List.foldl_append, List.map_append, List.map_singleton, Request.granted_concat]
    cases hadd : add (additions.foldl tryAdd automaton) addition with
    | error error =>
      have hrefusal := (h.error_iff ih addition error).mp hadd
      simpa [hrefusal, herror hadd] using ih
    | ok extended =>
      have hrefusal := h.refusal_eq_none ih hadd
      simpa [hrefusal, hok hadd] using h.holds ih hadd

/-- Where a failure ends the building, it is the first refusal. -/
theorem Obeys.foldlM_cases (h : Obeys add request Holds) (hholds : Holds automaton earlier)
    (additions : List A) :
    (∃ error, Request.firstRefusal earlier (additions.map request) = some error ∧
      additions.foldlM add automaton = .error error) ∨
    (Request.firstRefusal earlier (additions.map request) = none ∧ ∃ extended,
      additions.foldlM add automaton = .ok extended ∧
        Holds extended (earlier ++ additions.map request)) := by
  induction additions generalizing automaton earlier with
  | nil => exact Or.inr ⟨rfl, automaton, rfl, by simpa using hholds⟩
  | cons addition additions ih =>
    simp only [List.map_cons, Request.firstRefusal, List.foldlM_cons]
    cases hadd : add automaton addition with
    | error error =>
      rw [(h.error_iff hholds addition error).mp hadd]
      exact Or.inl ⟨error, rfl, rfl⟩
    | ok extended =>
      have hrest := ih (h.holds hholds hadd)
      rw [List.append_assoc, List.singleton_append] at hrest
      rw [h.refusal_eq_none hholds hadd]
      exact hrest

/-- Additions of which one is to be refused fail with the first refusal. -/
theorem Obeys.foldlM_eq_error (h : Obeys add request Holds) (hholds : Holds automaton earlier)
    {additions : List A} {error : Error}
    (hrefusal : Request.firstRefusal earlier (additions.map request) = some error) :
    additions.foldlM add automaton = .error error := by
  rcases h.foldlM_cases hholds additions with ⟨other, hfirst, hfold⟩ | ⟨hnone, _⟩
  · obtain rfl : error = other := Option.some.inj (hrefusal.symm.trans hfirst)
    exact hfold
  · simp [hnone] at hrefusal

/-- Additions of which none is to be refused all succeed, and are granted in order. -/
theorem Obeys.exists_foldlM (h : Obeys add request Holds) (hholds : Holds automaton earlier)
    {additions : List A}
    (hnone : Request.firstRefusal earlier (additions.map request) = none) :
    ∃ extended, additions.foldlM add automaton = .ok extended ∧
      Holds extended (earlier ++ additions.map request) := by
  rcases h.foldlM_cases hholds additions with ⟨error, hfirst, _⟩ | ⟨_, hextended⟩
  · simp [hnone] at hfirst
  · exact hextended

end Obeys

end Automata
