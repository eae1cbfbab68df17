import Mathlib

/-!
# Weighted finite state transducers

| here | there |
| --- | --- |
| `Wfst` | a valid `WFST`: its states, each with its arcs, and the final state; the start is state 0 (`carmel/src/fst.h`) |
| `ArcPtr`, `arc?` | a `FSTArc *`: an arc of a state by its place in the list |
| `visitArcs` | the order of `WFST::visit_arcs` (`carmel/src/fst.h:1489-1495`) |
| `Path`, `Accepting` | the paths from a state to a state, from the start to the final state |

Two arcs of a state may have the same labels, destination and weight; a path is
told by which arcs it takes, so it is a list of pointers.
-/

namespace Sbmt.Carmel

open List

/-- `FSTArc::epsilon`, the index of `*e*` in every alphabet. -/
def epsilonIndex : Nat := 0

/-- `FSTArc::no_group`. -/
def noGroup : Nat := 2 ^ 32 - 1

/-- `FSTArc::locked_group`. -/
def lockedGroup : Nat := 0

structure FSTArc (W : Type*) where
  inp : Nat
  out : Nat
  dest : Nat
  weight : W
  groupId : Nat
deriving DecidableEq

structure Wfst (W : Type*) where
  states : List (List (FSTArc W))
  final : Nat
  nonempty : 0 < states.length
  final_lt : final < states.length
  dest_lt : ∀ arcs ∈ states, ∀ a ∈ arcs, a.dest < states.length

structure ArcPtr where
  src : Nat
  pos : Nat
deriving DecidableEq

namespace Wfst

variable {W : Type*} (x : Wfst W)

def numStates : Nat := x.states.length

/-- The arcs of a state. -/
def arcs (s : Nat) : List (FSTArc W) := x.states.getD s []

def arc? (p : ArcPtr) : Option (FSTArc W) := (x.arcs p.src)[p.pos]?

inductive Path : Nat → List ArcPtr → Nat → Prop
  | nil (s : Nat) : Path s [] s
  | cons {p : ArcPtr} {ps : List ArcPtr} {a : FSTArc W} {t : Nat} (h : x.arc? p = some a) (rest : Path a.dest ps t) :
      Path p.src (p :: ps) t

variable (ps : List ArcPtr)

/-- An accepting path. -/
def Accepting : Prop := x.Path 0 ps x.final

/-- The symbols of a label that are not epsilon. -/
def nonEpsilon (l : Nat) : Option Nat := if l = epsilonIndex then none else some l

/-- The arcs a path takes. -/
def taken : List (FSTArc W) := ps.filterMap x.arc?

/-- The input a path reads. -/
def pathIn : List Nat := (x.taken ps).filterMap fun a => nonEpsilon a.inp

/-- The output a path writes. -/
def pathOut : List Nat := (x.taken ps).filterMap fun a => nonEpsilon a.out

def pathWeight [Monoid W] : W := ((x.taken ps).map FSTArc.weight).prod

/-- The order in which the arcs are visited. -/
def visitArcs : List ArcPtr :=
  (range x.numStates).flatMap fun s => (range (x.arcs s).length).map fun i => ⟨s, i⟩

variable {x}

variable {a : FSTArc W} {ps : List ArcPtr} {p : ArcPtr}

section

variable (h : x.arc? p = some a)
include h

theorem taken_cons : x.taken (p :: ps) = a :: x.taken ps := by
  unfold taken
  rw [filterMap_cons_some h]

theorem pathIn_cons : x.pathIn (p :: ps) = (nonEpsilon a.inp).toList ++ x.pathIn ps := by
  unfold pathIn
  rw [taken_cons h, filterMap_cons]
  cases nonEpsilon a.inp with
  | none => rfl
  | some _ => rfl

theorem pathOut_cons : x.pathOut (p :: ps) = (nonEpsilon a.out).toList ++ x.pathOut ps := by
  unfold pathOut
  rw [taken_cons h, filterMap_cons]
  cases nonEpsilon a.out with
  | none => rfl
  | some _ => rfl

theorem pathWeight_cons [Monoid W] : x.pathWeight (p :: ps) = a.weight * x.pathWeight ps := by
  unfold pathWeight
  rw [taken_cons h, map_cons, prod_cons]

/-- An arc leads from a state to a state. -/
theorem arc?_lt : p.src < x.numStates ∧ a.dest < x.numStates := by
  have hmem : a ∈ x.arcs p.src := mem_of_getElem? h
  unfold arcs at hmem
  have hlt : p.src < x.states.length := by
    by_contra hge
    rw [getD_eq_getElem?_getD, getElem?_eq_none (Nat.le_of_not_lt hge)] at hmem
    cases hmem
  refine ⟨hlt, ?_⟩
  rw [getD_eq_getElem?_getD, getElem?_eq_getElem hlt] at hmem
  exact x.dest_lt _ (getElem_mem hlt) a hmem

end

theorem mem_visitArcs : p ∈ x.visitArcs ↔ ∃ a, x.arc? p = some a := by
  unfold visitArcs
  simp only [mem_flatMap, mem_range, mem_map]
  constructor
  · rintro ⟨s, -, i, hi, rfl⟩
    exact ⟨_, getElem?_eq_getElem hi⟩
  · rintro ⟨a, ha⟩
    exact ⟨p.src, (arc?_lt ha).1, p.pos, (List.getElem?_eq_some_iff.1 ha).1, rfl⟩

theorem visitArcs_nodup : x.visitArcs.Nodup := by
  unfold visitArcs
  rw [nodup_flatMap]
  constructor
  · intro s _
    refine nodup_range.map ?_
    intro i j hij
    exact congrArg ArcPtr.pos hij
  · refine nodup_range.imp ?_
    intro s t hst p hp hq
    obtain ⟨i, -, rfl⟩ := mem_map.1 hp
    obtain ⟨j, -, hj⟩ := mem_map.1 hq
    exact hst (congrArg ArcPtr.src hj).symm

end Wfst

end Sbmt.Carmel
