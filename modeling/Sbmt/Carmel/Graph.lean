import Sbmt.Carmel.Wfst
import Sbmt.Lib.DepthFirst

/-!
# The graph of a transducer (`shared/graph.cc`)

| here | there |
| --- | --- |
| `GraphArc` | `GraphArc` (`shared/graph.h:23-62`), without the pointer to what it was made from |
| `Graph` | `Graph`: for each state its arcs |

A list of arcs grows at its front.  `getCost` is the member of the weights.
-/

namespace Sbmt.Carmel

open Sbmt.Lib List

variable {W C : Type*}

structure GraphArc (C : Type*) where
  src : Nat
  dest : Nat
  weight : C
deriving DecidableEq

abbrev Graph (C : Type*) := List (List (GraphArc C))

def Graph.arcs (g : Graph C) (s : Nat) : List (GraphArc C) := g.getD s []

def makeGraph (getCost : W → C) (states : List (List (FSTArc W))) : Graph C :=
  states.mapIdx fun i arcs => arcs.foldl (fun g l => ⟨i, l.dest, getCost l.weight⟩ :: g) []

def reverseGraph (g : Graph C) : Graph C :=
  g.flatten.foldl (fun rev l => rev.modify l.dest (⟨l.dest, l.src, l.weight⟩ :: ·)) (replicate g.length [])

/-- The states visited from `startState`, none before. -/
def depthFirstSearch (g : Graph C) (startState : Nat) : Option (Nat → Bool) :=
  DepthFirst.search (fun s => (g.arcs s).map GraphArc.dest) (g.length + 1) startState fun _ => false

theorem makeGraph_length (getCost : W → C) (states : List (List (FSTArc W))) :
    (makeGraph getCost states).length = states.length := length_mapIdx

theorem foldl_push {α β : Type*} (f : α → β) : ∀ (l : List α) (g : List β),
    l.foldl (fun g a => f a :: g) g = (l.map f).reverse ++ g
  | [], g => rfl
  | a :: l, g => by
    rw [foldl_cons, foldl_push f l, map_cons, reverse_cons, append_assoc]
    rfl

variable {e : GraphArc C} {s : Nat} {x : Wfst W}

theorem mem_makeGraph (getCost : W → C) :
    e ∈ (makeGraph getCost x.states).arcs s ↔ ∃ a ∈ x.arcs s, e = ⟨s, a.dest, getCost a.weight⟩ := by
  unfold Graph.arcs Wfst.arcs makeGraph
  rw [getD_eq_getElem?_getD, getD_eq_getElem?_getD, getElem?_mapIdx]
  cases x.states[s]? with
  | none =>
    constructor
    · intro h
      cases h
    · rintro ⟨a, ha, -⟩
      cases ha
  | some arcs =>
    rw [Option.map_some, Option.getD_some, foldl_push, append_nil, mem_reverse, mem_map]
    exact exists_congr fun a => and_congr_right fun _ => eq_comm

theorem mem_arcs_lt {g : Graph C} (h : e ∈ g.arcs s) : s < g.length := by
  by_contra hge
  unfold Graph.arcs at h
  rw [getD_eq_getElem?_getD, getElem?_eq_none (Nat.le_of_not_lt hge)] at h
  cases h

/-- Every arc the other way round, at the state it led to. -/
theorem mem_reverseGraph {g : Graph C} :
    e ∈ (reverseGraph g).arcs s ↔ s < g.length ∧ ∃ l ∈ g.flatten, l.dest = s ∧ e = ⟨l.dest, l.src, l.weight⟩ := by
  have hloop : ∀ (ls : List (GraphArc C)) (rev : Graph C),
      e ∈ Graph.arcs (ls.foldl (fun rev l => rev.modify l.dest (⟨l.dest, l.src, l.weight⟩ :: ·)) rev) s ↔
        e ∈ rev.arcs s ∨ s < rev.length ∧ ∃ l ∈ ls, l.dest = s ∧ e = ⟨l.dest, l.src, l.weight⟩ := by
    intro ls
    induction ls with
    | nil =>
      intro rev
      exact ⟨.inl, fun h => h.elim id fun ⟨_, _, hl, _⟩ => absurd hl not_mem_nil⟩
    | cons l ls ih =>
      intro rev
      rw [foldl_cons, ih, List.length_modify]
      have hhead : e ∈ Graph.arcs (rev.modify l.dest (⟨l.dest, l.src, l.weight⟩ :: ·)) s ↔
          e ∈ rev.arcs s ∨ s < rev.length ∧ l.dest = s ∧ e = ⟨l.dest, l.src, l.weight⟩ := by
        unfold Graph.arcs
        by_cases hs : s < rev.length
        · by_cases hl : l.dest = s
          · simp [hl, hs, or_comm]
          · simp [hl]
        · simp [hs]
      simp only [mem_cons, exists_eq_or_imp]
      tauto
  unfold reverseGraph
  rw [hloop, length_replicate]
  refine ⟨fun h => h.resolve_left fun hmem => ?_, .inr⟩
  unfold Graph.arcs at hmem
  rw [getD_eq_getElem?_getD, getElem?_replicate] at hmem
  split at hmem
  · cases hmem
  · cases hmem

theorem reverseGraph_length (g : Graph C) : (reverseGraph g).length = g.length := by
  have hloop : ∀ (ls : List (GraphArc C)) (rev : Graph C),
      (ls.foldl (fun rev l => rev.modify l.dest (⟨l.dest, l.src, l.weight⟩ :: ·)) rev).length = rev.length := by
    intro ls
    induction ls with
    | nil => exact fun _ => rfl
    | cons l ls ih =>
      intro rev
      rw [foldl_cons, ih, List.length_modify]
  unfold reverseGraph
  rw [hloop, length_replicate]

/-! ## What a search from a state visits -/

variable {t : Nat}

/-- A step of the graph, forwards. -/
theorem mem_next_makeGraph (getCost : W → C) :
    t ∈ ((makeGraph getCost x.states).arcs s).map GraphArc.dest ↔ ∃ a ∈ x.arcs s, a.dest = t := by
  rw [mem_map]
  constructor
  · rintro ⟨e, he, rfl⟩
    obtain ⟨a, ha, rfl⟩ := (mem_makeGraph getCost).1 he
    exact ⟨a, ha, rfl⟩
  · rintro ⟨a, ha, rfl⟩
    exact ⟨_, (mem_makeGraph getCost).2 ⟨a, ha, rfl⟩, rfl⟩

variable {getCost : W → C}

theorem mem_flatten_makeGraph :
    e ∈ (makeGraph getCost x.states).flatten ↔ ∃ s, ∃ a ∈ x.arcs s, e = ⟨s, a.dest, getCost a.weight⟩ := by
  constructor
  · intro h
    obtain ⟨arcs, harcs, he⟩ := mem_flatten.1 h
    obtain ⟨s, hs⟩ := mem_iff_getElem?.1 harcs
    have hmem : e ∈ (makeGraph getCost x.states).arcs s := by
      unfold Graph.arcs
      rw [getD_eq_getElem?_getD, hs]
      exact he
    exact ⟨s, (mem_makeGraph getCost).1 hmem⟩
  · rintro ⟨s, a, ha, rfl⟩
    have hmem := (mem_makeGraph getCost).2 ⟨a, ha, rfl⟩
    have hlt := mem_arcs_lt hmem
    unfold Graph.arcs at hmem
    rw [getD_eq_getElem _ _ hlt] at hmem
    exact mem_flatten.2 ⟨_, getElem_mem hlt, hmem⟩

/-- A step of the graph, backwards. -/
theorem mem_next_reverseGraph :
    t ∈ ((reverseGraph (makeGraph getCost x.states)).arcs s).map GraphArc.dest ↔ ∃ a ∈ x.arcs t, a.dest = s := by
  rw [mem_map]
  constructor
  · rintro ⟨e, he, rfl⟩
    obtain ⟨-, l, hl, rfl, rfl⟩ := mem_reverseGraph.1 he
    obtain ⟨s, a, ha, rfl⟩ := mem_flatten_makeGraph.1 hl
    exact ⟨a, ha, rfl⟩
  · rintro ⟨a, ha, rfl⟩
    obtain ⟨i, hi⟩ := mem_iff_getElem?.1 ha
    have hlt := (Wfst.arc?_lt (p := ⟨t, i⟩) hi).2
    refine ⟨_, mem_reverseGraph.2 ⟨by rw [makeGraph_length]; exact hlt, _, mem_flatten_makeGraph.2 ⟨t, a, ha, rfl⟩,
      rfl, rfl⟩, rfl⟩

theorem Wfst.Path.snoc {ps : List ArcPtr} {p : ArcPtr} {a : FSTArc W} (ha : x.arc? p = some a)
    (h : x.Path s ps p.src) : x.Path s (ps ++ [p]) a.dest := by
  generalize hu : p.src = u at h
  induction h with
  | nil s =>
    subst hu
    exact .cons ha (.nil _)
  | cons hb _ ih => exact .cons hb (ih hu)

theorem reachable_makeGraph_iff (getCost : W → C) :
    DepthFirst.Reachable (fun s => ((makeGraph getCost x.states).arcs s).map GraphArc.dest) s t ↔
      ∃ ps, x.Path s ps t := by
  constructor
  · intro h
    induction h with
    | refl => exact ⟨[], .nil s⟩
    | @tail u v _ hmem ih =>
      obtain ⟨ps, hps⟩ := ih
      obtain ⟨a, ha, rfl⟩ := (mem_next_makeGraph getCost).1 hmem
      obtain ⟨i, hi⟩ := mem_iff_getElem?.1 ha
      exact ⟨ps ++ [⟨u, i⟩], .snoc (p := ⟨u, i⟩) hi hps⟩
  · rintro ⟨ps, hps⟩
    induction hps with
    | nil s => exact .refl
    | cons ha _ ih => exact .head ((mem_next_makeGraph getCost).2 ⟨_, mem_of_getElem? ha, rfl⟩) ih

theorem reachable_reverseGraph_iff :
    DepthFirst.Reachable (fun s => ((reverseGraph (makeGraph getCost x.states)).arcs s).map GraphArc.dest) t s ↔
      ∃ ps, x.Path s ps t := by
  rw [← reachable_makeGraph_iff getCost]
  unfold DepthFirst.Reachable
  rw [← Relation.reflTransGen_swap]
  have hstep : (fun v w => w ∈ ((reverseGraph (makeGraph getCost x.states)).arcs v).map GraphArc.dest) =
      Function.swap fun v w => w ∈ ((makeGraph getCost x.states).arcs v).map GraphArc.dest := by
    funext v w
    exact propext (mem_next_reverseGraph.trans (mem_next_makeGraph getCost).symm)
  rw [hstep]

section

variable (getCost : W → C) (x : Wfst W)

/-- The search visits the states a path leads to. -/
theorem depthFirstSearch_makeGraph (hs : s < x.numStates) :
    ∃ visited, depthFirstSearch (makeGraph getCost x.states) s = some visited ∧
      ∀ t, visited t = true ↔ ∃ ps, x.Path s ps t := by
  have hclosed : ∀ v ∈ Finset.range x.numStates,
      ∀ w ∈ ((makeGraph getCost x.states).arcs v).map GraphArc.dest, w ∈ Finset.range x.numStates := by
    intro v _ w hw
    obtain ⟨a, ha, rfl⟩ := (mem_next_makeGraph getCost).1 hw
    obtain ⟨i, hi⟩ := mem_iff_getElem?.1 ha
    exact Finset.mem_range.2 (Wfst.arc?_lt (p := ⟨v, i⟩) hi).2
  obtain ⟨visited, hrun, hvisited⟩ := DepthFirst.search_spec hclosed (Finset.mem_range.2 hs)
  rw [Finset.card_range] at hrun
  refine ⟨visited, ?_, fun t => (hvisited t).trans (reachable_makeGraph_iff getCost)⟩
  unfold depthFirstSearch
  rw [makeGraph_length]
  exact hrun

/-- On the arcs turned round, those a path comes from. -/
theorem depthFirstSearch_reverseGraph (ht : t < x.numStates) :
    ∃ visited, depthFirstSearch (reverseGraph (makeGraph getCost x.states)) t = some visited ∧
      ∀ s, visited s = true ↔ ∃ ps, x.Path s ps t := by
  have hclosed : ∀ v ∈ Finset.range x.numStates,
      ∀ w ∈ ((reverseGraph (makeGraph getCost x.states)).arcs v).map GraphArc.dest, w ∈ Finset.range x.numStates := by
    intro v _ w hw
    obtain ⟨a, ha, -⟩ := mem_next_reverseGraph.1 hw
    obtain ⟨i, hi⟩ := mem_iff_getElem?.1 ha
    exact Finset.mem_range.2 (Wfst.arc?_lt (p := ⟨w, i⟩) hi).1
  obtain ⟨visited, hrun, hvisited⟩ := DepthFirst.search_spec hclosed (Finset.mem_range.2 ht)
  rw [Finset.card_range] at hrun
  refine ⟨visited, ?_, fun s => (hvisited s).trans reachable_reverseGraph_iff⟩
  unfold depthFirstSearch
  rw [reverseGraph_length, makeGraph_length]
  exact hrun

end

end Sbmt.Carmel
