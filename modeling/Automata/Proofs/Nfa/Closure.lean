import Automata.Proofs.Distance
import Automata.Proofs.Nfa.Run

/-!
# Closures are exact and nearest first

A closure is a breadth-first search along the edges that read nothing. Cycles and loops of
such edges do not keep it from ending: each state is expanded at most once, so after as many
steps as the automaton has states none is left to expand.
-/

namespace Automata.Nfa

variable {nfa : Nfa} {name member target : String} {rounds : Nat}

/-- The targets of the edges that leave a state without reading anything. -/
abbrev epsilonTargets (nfa : Nfa) (name : String) : List String := nfa.targets name .epsilon

/-- The least number of edges on a way from one state to another that reads nothing. -/
noncomputable def epsilonDistance (nfa : Nfa) (source target : String) : Nat :=
  Discovery.distance nfa.epsilonTargets source target

/-- The closure of a state is found. -/
theorem findClosure_of_mem (hname : name ∈ nfa.names) :
    nfa.findClosure name = .ok (nfa.closure name) :=
  if_pos (hasState_iff.mpr hname)

/-- What is no state has no closure to be found. -/
theorem findClosure_of_not_mem (hname : name ∉ nfa.names) :
    nfa.findClosure name = .error (.unknownState name) :=
  if_neg fun hfound => hname (hasState_iff.mp hfound)

/-- No state is in a closure twice. -/
theorem nodup_closure (nfa : Nfa) (name : String) : (nfa.closure name).Nodup :=
  (Discovery.expandFirst nfa.epsilonTargets nfa.states.length (Discovery.single name)).nodup

/-- The state itself comes first in its closure. -/
theorem head?_closure (nfa : Nfa) (name : String) : (nfa.closure name).head? = some name :=
  (Discovery.expanded_expandFirst nfa.epsilonTargets name nfa.states.length).head

/-- Nearer states come earlier in a closure. -/
theorem pairwise_closure (nfa : Nfa) (name : String) :
    (nfa.closure name).Pairwise
      fun a b => nfa.epsilonDistance name a ≤ nfa.epsilonDistance name b :=
  (Discovery.layered_expandFirst nfa.epsilonTargets name nfa.states.length).ordered

/-- A search for the closure of a state has nothing left to expand when it ends. -/
theorem WellFormed.expandFirst_eq (h : nfa.WellFormed) (hname : name ∈ nfa.names)
    (hrounds : nfa.states.length ≤ rounds) :
    (Discovery.expandFirst nfa.epsilonTargets rounds (Discovery.single name)).toList =
      nfa.closure name := by
  have hlength : nfa.names.length = nfa.states.length := by simp [names]
  have hsize := (Discovery.expanded_expandFirst nfa.epsilonTargets name
    nfa.states.length).size_le hname fun state _ => h.targets_mem state .epsilon
  rw [Discovery.expandFirst_of_size_le (hlength ▸ hsize) hrounds]
  rfl

/-- What a member of a closure reaches without reading anything is in the closure. -/
theorem WellFormed.closure_subset (h : nfa.WellFormed) (hname : name ∈ nfa.names)
    (hmember : member ∈ nfa.closure name) : nfa.closure member ⊆ nfa.closure name := by
  have hpath := (h.mem_closure hname).mp hmember
  intro target htarget
  have hrest := (h.mem_closure (h.path_mem hname hpath)).mp htarget
  exact (h.mem_closure hname).mpr (hpath.append hrest)

/-- The closure of a state is found in at most as many steps as there are states, and more
steps find nothing more. It lists the state first and each state just once, namely those that
can be reached without reading anything, in the order of their least numbers of edges. The
closures of its members lie inside it. A name that is not a state has no closure. -/
theorem findClosure_breadth_first (h : nfa.Built) (name : String) :
    (name ∈ nfa.names →
      ∃ found, nfa.findClosure name = .ok found ∧ found.Nodup ∧ found.head? = some name ∧
        (∀ target, target ∈ found ↔ nfa.Path name [] target) ∧
        (found.Pairwise fun a b => nfa.epsilonDistance name a ≤ nfa.epsilonDistance name b) ∧
        (∀ rounds ≥ nfa.states.length,
          (Discovery.expandFirst nfa.epsilonTargets rounds (Discovery.single name)).toList =
            found) ∧
        ∀ member ∈ found, ∃ within, nfa.findClosure member = .ok within ∧ within ⊆ found) ∧
      (name ∉ nfa.names → nfa.findClosure name = .error (.unknownState name)) := by
  refine ⟨?_, findClosure_of_not_mem⟩
  intro hname
  have hnfa := h.wellFormed
  refine ⟨nfa.closure name, findClosure_of_mem hname, nodup_closure nfa name,
    head?_closure nfa name, fun _ => hnfa.mem_closure hname, pairwise_closure nfa name,
    fun _ => hnfa.expandFirst_eq hname, ?_⟩
  intro member hmember
  have hpath := (hnfa.mem_closure hname).mp hmember
  exact ⟨nfa.closure member, findClosure_of_mem (hnfa.path_mem hname hpath),
    hnfa.closure_subset hname hmember⟩

/-- Three states in a ring of edges that read nothing, with a loop and a way out that reads. -/
def ringWithLoop : Nfa :=
  ofAdditions {} [.state "a", .state "b", .state "c", .state "d", .epsilonEdge "a" "b",
    .epsilonEdge "b" "c", .epsilonEdge "c" "a", .epsilonEdge "c" "c", .edge "c" 'x' "d"]

/-- In the ring with a loop, the states come in the order of the ring, from wherever the closure
begins. -/
theorem findClosure_breadth_first_ringWithLoop :
    ringWithLoop.Built ∧ "c" ∈ ringWithLoop.names ∧
      ringWithLoop.findClosure "c" = .ok ["c", "a", "b"] ∧
      (∀ target, target ∈ ["c", "a", "b"] ↔ ringWithLoop.Path "c" [] target) ∧
      (["c", "a", "b"].Pairwise fun a b =>
        ringWithLoop.epsilonDistance "c" a ≤ ringWithLoop.epsilonDistance "c" b) ∧
      ringWithLoop.findClosure "y" = .error (.unknownState "y") := by
  have hbuilt : ringWithLoop.Built := ⟨_, _, rfl⟩
  have hname : "c" ∈ ringWithLoop.names := by decide
  have hfound : ringWithLoop.findClosure "c" = .ok ["c", "a", "b"] := rfl
  obtain ⟨found, hok, _, _, hpaths, hordered, _⟩ :=
    (findClosure_breadth_first hbuilt "c").1 hname
  have hsame : ["c", "a", "b"] = found := Except.ok.inj (hfound.symm.trans hok)
  refine ⟨hbuilt, hname, hfound, hsame ▸ hpaths, hsame ▸ hordered, ?_⟩
  exact (findClosure_breadth_first hbuilt "y").2 (by decide)

end Automata.Nfa
