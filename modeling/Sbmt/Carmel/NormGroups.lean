import Sbmt.Carmel.Wfst
import Sbmt.Lib.Blockwise

/-!
# The groups of arcs whose weights are normalized together (`carmel/src/fst.h:1591-1680`)

| here | there |
| --- | --- |
| `FSTArc.normal`, `FSTArc.locked`, `FSTArc.tied` | the same of a group id (`shared/arc.h:66-84`) |
| `KeyOrder` | the order in which a `HashTable<IntKey, …>` that got these keys gives them back, each once |
| `indexInput` | `State::indexBy(input)` (`carmel/src/state.h:200-213`): the arcs with each input, the last first |
| `normGroups` | the groups that a `NormGroupIter` stops at |
| `reweight` | the same arcs with other weights |

`normGroup` is the group of an arc, said without an iterator: the arcs from its state, with its input if the grouping
is `CONDITIONAL`.  The groups of the iterator are these in some order, and take each arc once.
-/

namespace Sbmt.Carmel

open Sbmt.Lib List

variable {W V : Type*}

def FSTArc.normal (groupId : Nat) : Bool := groupId == noGroup

def FSTArc.locked (groupId : Nat) : Bool := groupId == lockedGroup

def FSTArc.tied (groupId : Nat) : Bool := !FSTArc.locked groupId && !FSTArc.normal groupId

theorem FSTArc.not_locked_of_normal {groupId : Nat} (h : FSTArc.normal groupId = true) :
    FSTArc.locked groupId = false := by
  obtain rfl : groupId = noGroup := by simpa [FSTArc.normal] using h
  rfl

theorem FSTArc.normal_or_locked {groupId : Nat} (h : FSTArc.tied groupId = false) :
    FSTArc.normal groupId = !FSTArc.locked groupId := by
  cases hlocked : FSTArc.locked groupId with
  | true =>
    cases hnormal : FSTArc.normal groupId with
    | true => rw [FSTArc.not_locked_of_normal hnormal] at hlocked; cases hlocked
    | false => rfl
  | false => simpa [FSTArc.tied, hlocked] using h

inductive NormGroupBy where
  | conditional
  | joint
  | none
deriving DecidableEq

structure KeyOrder where
  order : List Nat → List Nat
  nodup : ∀ ks, (order ks).Nodup
  mem_iff : ∀ ks k, k ∈ order ks ↔ k ∈ ks

namespace Wfst

variable (x : Wfst W)

def groupAt (p : ArcPtr) : Nat := ((x.arc? p).map FSTArc.groupId).getD noGroup

def inAt (p : ArcPtr) : Nat := ((x.arc? p).map FSTArc.inp).getD epsilonIndex

def weightAt [Zero W] (p : ArcPtr) : W := ((x.arc? p).map FSTArc.weight).getD 0

/-- The arcs of a state, in their order. -/
def stateArcs (s : Nat) : List ArcPtr := (range (x.arcs s).length).map fun i => ⟨s, i⟩

def indexInput (s : Nat) : Nat → List ArcPtr := Blockwise.index x.inAt (x.stateArcs s)

def conditionalGroups (o : KeyOrder) (x : Wfst W) (s : Nat) : List (List ArcPtr) :=
  (o.order ((x.stateArcs s).map x.inAt)).map (x.indexInput s)

def normGroups (o : KeyOrder) (x : Wfst W) : NormGroupBy → List (List ArcPtr)
  -- states without arcs are passed over, but not the first state
  | .conditional =>
    (if (x.arcs 0).isEmpty then [[]] else []) ++ (range x.numStates).flatMap (conditionalGroups o x)
  | .joint => (range x.numStates).map x.stateArcs
  | .none => []

def reweight (v : ArcPtr → V) : Wfst V where
  states := x.states.mapIdx fun s arcs => arcs.mapIdx fun i a => ⟨a.inp, a.out, a.dest, v ⟨s, i⟩, a.groupId⟩
  final := x.final
  nonempty := by simpa using x.nonempty
  final_lt := by simpa using x.final_lt
  dest_lt := by
    intro arcs' harcs' a' ha'
    obtain ⟨s, hs, rfl⟩ := mem_mapIdx.1 harcs'
    obtain ⟨i, hi, rfl⟩ := mem_mapIdx.1 ha'
    rw [length_mapIdx]
    exact x.dest_lt _ (getElem_mem hs) _ (getElem_mem hi)

/-- The arcs that share their weight with the arc. -/
def normGroup (group : NormGroupBy) (p : ArcPtr) : List ArcPtr :=
  x.visitArcs.filter fun q => q.src = p.src ∧ (group = .conditional → x.inAt q = x.inAt p)

variable {x : Wfst W} {p q : ArcPtr}

theorem mem_stateArcs {s : Nat} : p ∈ x.stateArcs s ↔ p ∈ x.visitArcs ∧ p.src = s := by
  unfold stateArcs
  rw [mem_visitArcs, mem_map]
  constructor
  · rintro ⟨i, hi, rfl⟩
    exact ⟨⟨_, getElem?_eq_getElem (mem_range.1 hi)⟩, rfl⟩
  · rintro ⟨⟨a, ha⟩, rfl⟩
    exact ⟨p.pos, mem_range.2 (List.getElem?_eq_some_iff.1 ha).1, rfl⟩

variable {group : NormGroupBy}

theorem mem_normGroup :
    q ∈ x.normGroup group p ↔ q ∈ x.visitArcs ∧ q.src = p.src ∧ (group = .conditional → x.inAt q = x.inAt p) := by
  rw [normGroup, mem_filter, decide_eq_true_eq]

section

variable (o : KeyOrder)

theorem conditionalGroups_perm (x : Wfst W) (s : Nat) : (conditionalGroups o x s).flatten.Perm (x.stateArcs s) := by
  apply Blockwise.blocks_perm (o.nodup _)
  intro p hp
  rw [o.mem_iff]
  exact mem_map_of_mem hp

/-- **The groups take each arc once.** -/
theorem normGroups_perm (x : Wfst W) (hgroup : group ≠ .none) : (x.normGroups o group).flatten.Perm x.visitArcs := by
  cases group with
  | none => exact absurd rfl hgroup
  | joint =>
    exact .refl _
  | conditional =>
    have hfirst : (if (x.arcs 0).isEmpty then [[]] else [] : List (List ArcPtr)).flatten = [] := by split <;> rfl
    show ((if (x.arcs 0).isEmpty then [[]] else []) ++
      (range x.numStates).flatMap (conditionalGroups o x)).flatten.Perm _
    rw [flatten_append, hfirst, flatMap_def, flatten_flatten, map_map]
    exact Perm.flatMap_left _ fun s _ => conditionalGroups_perm o x s

theorem normGroups_nodup (x : Wfst W) (hgroup : group ≠ .none) :
    (x.normGroups o group).flatten.Nodup := (normGroups_perm o x hgroup).nodup_iff.2 x.visitArcs_nodup

theorem mem_normGroups_flatten (hgroup : group ≠ .none) :
    p ∈ (x.normGroups o group).flatten ↔ p ∈ x.visitArcs := (normGroups_perm o x hgroup).mem_iff

/-- **A group that an arc is in is the group of the arc.** -/
theorem normGroups_mem (hgroup : group ≠ .none) {g : List ArcPtr}
    (hg : g ∈ x.normGroups o group) (hp : p ∈ g) : q ∈ g ↔ q ∈ x.normGroup group p := by
  rw [mem_normGroup]
  cases group with
  | none => exact absurd rfl hgroup
  | joint =>
    obtain ⟨s, -, rfl⟩ := mem_map.1 hg
    obtain ⟨-, rfl⟩ := mem_stateArcs.1 hp
    rw [mem_stateArcs]
    exact and_congr_right fun _ => (and_iff_left fun h => absurd h (by decide)).symm
  | conditional =>
    rcases mem_append.1 hg with hfirst | hg
    · split at hfirst
      · obtain rfl := mem_singleton.1 hfirst
        cases hp
      · cases hfirst
    · obtain ⟨s, -, hg⟩ := mem_flatMap.1 hg
      obtain ⟨k, -, rfl⟩ := mem_map.1 hg
      obtain ⟨hps, rfl⟩ := Blockwise.mem_index.1 hp
      obtain ⟨-, rfl⟩ := mem_stateArcs.1 hps
      rw [indexInput, Blockwise.mem_index, mem_stateArcs, and_assoc]
      exact and_congr_right fun _ => and_congr_right fun _ => ⟨fun h _ => h, fun h => h rfl⟩

theorem exists_normGroups (hgroup : group ≠ .none) (hp : p ∈ x.visitArcs) :
    ∃ g ∈ x.normGroups o group, p ∈ g ∧ g.Perm (x.normGroup group p) := by
  obtain ⟨g, hg, hpg⟩ := mem_flatten.1 ((mem_normGroups_flatten o hgroup).2 hp)
  refine ⟨g, hg, hpg, ?_⟩
  have hnodup := (nodup_flatten.1 (normGroups_nodup o x hgroup)).1 g hg
  apply (perm_ext_iff_of_nodup hnodup (x.visitArcs_nodup.filter _)).2
  exact fun q => normGroups_mem o hgroup hg hpg

end

/-! ## Arcs with other weights -/

variable (x : Wfst W)

variable (v : ArcPtr → V)

@[simp] theorem arc?_reweight (p : ArcPtr) :
    (x.reweight v).arc? p = (x.arc? p).map fun a => ⟨a.inp, a.out, a.dest, v p, a.groupId⟩ := by
  unfold arc? arcs reweight
  rw [getD_eq_getElem?_getD, getD_eq_getElem?_getD, getElem?_mapIdx]
  cases x.states[p.src]? with
  | none => rfl
  | some arcs => exact getElem?_mapIdx

@[simp] theorem groupAt_reweight : (x.reweight v).groupAt = x.groupAt := by
  funext p
  unfold groupAt
  rw [arc?_reweight, Option.map_map]
  rfl

@[simp] theorem inAt_reweight : (x.reweight v).inAt = x.inAt := by
  funext p
  unfold inAt
  rw [arc?_reweight, Option.map_map]
  rfl

theorem weightAt_reweight [Zero V] (hp : p ∈ x.visitArcs) : (x.reweight v).weightAt p = v p := by
  obtain ⟨a, ha⟩ := mem_visitArcs.1 hp
  rw [weightAt, arc?_reweight, ha]
  rfl

theorem length_arcs_reweight (s : Nat) : ((x.reweight v).arcs s).length = (x.arcs s).length := by
  unfold arcs reweight
  rw [getD_eq_getElem?_getD, getD_eq_getElem?_getD, getElem?_mapIdx]
  cases x.states[s]? with
  | none => rfl
  | some arcs => exact length_mapIdx

@[simp] theorem visitArcs_reweight : (x.reweight v).visitArcs = x.visitArcs := by
  unfold visitArcs numStates
  rw [reweight, length_mapIdx]
  exact congrArg (fun f => (range x.states.length).flatMap f)
    (funext fun s => by rw [← length_arcs_reweight x v s]; rfl)

@[simp] theorem normGroup_reweight (group : NormGroupBy) (p : ArcPtr) :
    (x.reweight v).normGroup group p = x.normGroup group p := by
  unfold normGroup
  rw [visitArcs_reweight, inAt_reweight]

end Wfst

end Sbmt.Carmel
