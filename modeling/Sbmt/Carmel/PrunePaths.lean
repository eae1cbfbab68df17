import Sbmt.Carmel.PathCosts

/-!
# Pruning a transducer by its best paths (`carmel/src/fst.cc:359-454`)

| here | there |
| --- | --- |
| `Sorts` | what is known of `std::sort` by `lesscost`: states of one cost come in any order |
| `pruneState` | what the first loop does with a state (`:416-440`) |
| `overLimit` | what the second one does (`:441-444`) |
| `prunePaths` | `WFST::prunePaths` (`:370-454`); besides the transducer the array `remove` is returned |

Costs are exact, the ratio is given by its logarithm.
-/

namespace Sbmt.Carmel

open Sbmt.Lib List Function

variable {W : Type*} {K : Type} [AddCommMonoid K] [LinearOrder K]

def unlimited : Int := -1

structure Sorts (sort : List (WithTop K × Nat) → List (WithTop K × Nat)) : Prop where
  perm : ∀ l, (sort l).Perm l
  ordered : ∀ l, (sort l).Pairwise fun a b => a.1 ≤ b.1

/-- The states, each with what it keeps of its arcs, and the array `remove`. -/
structure Pruning (S : Type*) where
  states : List S
  remove : Nat → Bool

def arcWithin (getCost : W → WithTop K) (worstPath : WithTop K) (forDist revDist : Nat → WithTop K) (st : Nat)
    (a : FSTArc W) : Bool :=
  decide (¬ worstPath < getCost a.weight + forDist st + revDist a.dest)

/-- `thin st` is the loop over the arcs of `st`. -/
def pruneState {S : Type*} (allPaths : Bool) (worstPath : WithTop K) (thin : Nat → S → S) (o : Pruning S)
    (c : WithTop K × Nat) : Pruning S :=
  let st := c.2
  if allPaths then { o with remove := update o.remove st false }
  else if worstPath < c.1 then { o with remove := update o.remove st true }
  else { states := o.states.modify st (thin st), remove := update o.remove st false }

def overLimit {S : Type*} (o : Pruning S) (c : WithTop K × Nat) : Pruning S :=
  { o with remove := update o.remove c.2 true }

def allowedStates (maxStates : Int) (nStates : Nat) : Nat :=
  if maxStates = unlimited ∨ maxStates > nStates then nStates else maxStates.toNat

def prunePaths (getCost : W → WithTop K) (sort : List (WithTop K × Nat) → List (WithTop K × Nat)) (x : NamedWfst W)
    (maxStates : Int) (keepPathsWithinRatio : WithTop K) : Option (Fst W × (Nat → Bool)) :=
  let allPaths := decide (keepPathsWithinRatio = ⊤)
  if maxStates = unlimited ∧ allPaths then some (x.toFst, fun _ => false)
  else
    let nStates := x.numStates
    let forGraph := makeGraph getCost x.states
    (shortestDistancesFrom forGraph 0).bind fun f => (shortestDistancesFrom (reverseGraph forGraph) x.final).map fun r =>
      let worstPath := f.dist x.final + keepPathsWithinRatio
      let bestPathCost := sort ((range nStates).map fun i => (f.dist i + r.dist i, i))
      let allowed := allowedStates maxStates nStates
      let thin st := List.filter (arcWithin getCost worstPath f.dist r.dist st)
      let o := (bestPathCost.take allowed).foldl (pruneState allPaths worstPath thin) ⟨x.states, fun _ => false⟩
      let o := (bestPathCost.drop allowed).foldl overLimit o
      (removeMarkedStates { x.toFst with states := o.states } o.remove, o.remove)

/-! ## The loops -/

section Loops

variable {S : Type*} {allPaths : Bool} {worstPath : WithTop K} {thin : Nat → S → S} {cost : Nat → WithTop K}

variable (cost) in
omit [AddCommMonoid K] in
theorem pruneLoop_remove {s : Nat} : ∀ (l : List (WithTop K × Nat)) (o : Pruning S), (∀ c ∈ l, c.1 = cost c.2) →
    (l.foldl (pruneState allPaths worstPath thin) o).remove s =
      if s ∈ l.map Prod.snd then !allPaths && decide (worstPath < cost s) else o.remove s
  | [], o, _ => rfl
  | c :: l, o, hc => by
    rw [foldl_cons, pruneLoop_remove l _ fun c' hc' => hc c' (mem_cons_of_mem c hc')]
    have hcost := hc c mem_cons_self
    by_cases hl : s ∈ l.map Prod.snd
    · have hmem : s ∈ (c :: l).map Prod.snd := mem_cons_of_mem _ hl
      rw [if_pos hl, if_pos hmem]
    · rw [if_neg hl]
      by_cases hs : s = c.2
      · have hmem : s ∈ (c :: l).map Prod.snd := by
          rw [hs]
          exact mem_cons_self
        rw [if_pos hmem, pruneState, hs, hcost]
        cases allPaths with
        | true => simp
        | false =>
          by_cases hworst : worstPath < cost c.2
          · simp [hworst]
          · simp [hworst]
      · have hmem : s ∉ (c :: l).map Prod.snd := by
          rw [map_cons, mem_cons, not_or]
          exact ⟨hs, hl⟩
        rw [if_neg hmem, pruneState]
        cases allPaths with
        | true => simp [update_of_ne hs]
        | false =>
          by_cases hworst : worstPath < c.1
          · simp [hworst, update_of_ne hs]
          · simp [hworst, update_of_ne hs]

/-- Whether a loop over `l` looks at the arcs of a state. -/
def Thinned (allPaths : Bool) (worstPath : WithTop K) (cost : Nat → WithTop K) (l : List Nat) (s : Nat) : Prop :=
  s ∈ l ∧ allPaths = false ∧ ¬ worstPath < cost s

instance (l : List Nat) (s : Nat) : Decidable (Thinned allPaths worstPath cost l s) :=
  inferInstanceAs (Decidable (s ∈ l ∧ allPaths = false ∧ ¬ worstPath < cost s))

variable (cost) in
omit [AddCommMonoid K] in
theorem pruneLoop_states : ∀ (l : List (WithTop K × Nat)) (o : Pruning S), (∀ c ∈ l, c.1 = cost c.2) →
    (l.map Prod.snd).Nodup → ∀ s : Nat, (l.foldl (pruneState allPaths worstPath thin) o).states[s]? =
      o.states[s]?.map (if Thinned allPaths worstPath cost (l.map Prod.snd) s then thin s else id)
  | [], o, _, _, s => by
    rw [foldl_nil, if_neg fun h => not_mem_nil h.1, Option.map_id]
    rfl
  | c :: l, o, hc, hnodup, s => by
    obtain ⟨hnot, hnodup⟩ := nodup_cons.1 hnodup
    rw [foldl_cons, pruneLoop_states l _ (fun c' hc' => hc c' (mem_cons_of_mem c hc')) hnodup, pruneState,
      hc c mem_cons_self, map_cons]
    by_cases hs : s = c.2
    · subst hs
      have hlater : ¬ Thinned allPaths worstPath cost (l.map Prod.snd) c.2 := fun h => hnot h.1
      rw [if_neg hlater]
      cases allPaths with
      | true => simp [Thinned]
      | false =>
        by_cases hworst : worstPath < cost c.2
        · simp [Thinned, hworst]
        · simp [Thinned, hworst]
    · have hsame : Thinned allPaths worstPath cost (c.2 :: l.map Prod.snd) s ↔
          Thinned allPaths worstPath cost (l.map Prod.snd) s := by
        simp [Thinned, hs]
      rw [if_congr hsame rfl rfl]
      cases allPaths with
      | true => rfl
      | false =>
        by_cases hworst : worstPath < cost c.2
        · simp [hworst]
        · simp [hworst, Ne.symm hs]

omit [AddCommMonoid K] [LinearOrder K]

theorem overLimit_states (l : List (WithTop K × Nat)) (o : Pruning S) : (l.foldl overLimit o).states = o.states := by
  induction l generalizing o with
  | nil => rfl
  | cons c l ih => exact ih _

theorem overLimit_remove {s : Nat} (l : List (WithTop K × Nat)) (o : Pruning S) :
    (l.foldl overLimit o).remove s = (decide (s ∈ l.map Prod.snd) || o.remove s) := by
  induction l generalizing o with
  | nil => simp
  | cons c l ih =>
    rw [foldl_cons, ih, overLimit, map_cons]
    generalize l.map Prod.snd = m
    by_cases hs : s = c.2
    · simp [hs]
    · simp [hs]

end Loops

/-! ## What is left -/

variable (x : NamedWfst W) (keep : Nat → FSTArc W → Bool)

/-- A transducer without the arcs that `keep` does not name. -/
def filterArcs : NamedWfst W where
  states := x.states.mapIdx fun s => List.filter (keep s)
  final := x.final
  nonempty := by
    rw [length_mapIdx]
    exact x.nonempty
  final_lt := by
    rw [length_mapIdx]
    exact x.final_lt
  dest_lt arcs harcs a ha := by
    rw [length_mapIdx]
    obtain ⟨s, hs, rfl⟩ := mem_mapIdx.1 harcs
    exact x.dest_lt _ (getElem_mem hs) a (mem_of_mem_filter ha)
  stateNames := x.stateNames
  names_le := by
    rw [length_mapIdx]
    exact x.names_le

def Fst.arcs (y : Fst W) (s : Nat) : List (FSTArc W) := y.states.getD s []

/-- `y` has the states of `x` that are not to be removed, and of their arcs to each other those that `keep` names. -/
structure Part (y : Fst W) (x : Wfst W) (remove : Nat → Bool) (keep : Nat → FSTArc W → Bool) : Prop where
  final : y.final = Numbering.newIndex remove x.final
  arcs : ∀ s k : Nat, (kept remove x.numStates)[s]? = some k →
    y.arcs s = ((x.arcs k).filter (keep k)).filterMap (keepArc remove (fun _ _ => false) k)
  outside : ∀ s : Nat, (kept remove x.numStates)[s]? = none → y.arcs s = []

theorem filterArcs_arcs (s : Nat) :
    (filterArcs x keep).arcs s = (x.arcs s).filter (keep s) := by
  unfold Wfst.arcs
  show (x.states.mapIdx _).getD s [] = _
  rw [getD_eq_getElem?_getD, getD_eq_getElem?_getD, getElem?_mapIdx]
  cases x.states[s]? with
  | none => rfl
  | some arcs => rfl

theorem part_removeMarkedStates (remove : Nat → Bool) :
    Part (removeMarkedStates (filterArcs x keep).toFst remove) x.toWfst remove keep := by
  have hnum : (filterArcs x keep).numStates = x.numStates := length_mapIdx
  rw [removeMarkedStates_eq]
  refine ⟨rfl, ?_, ?_⟩
  · intro s k hs
    unfold Fst.arcs
    rw [restrictStates, getD_eq_getElem?_getD, getElem?_map, hnum, hs, Option.map_some, Option.getD_some,
      filterArcs_arcs]
  · intro s hs
    unfold Fst.arcs
    rw [restrictStates, getD_eq_getElem?_getD, getElem?_map, hnum, hs]
    rfl

theorem newIndex_false (k : Nat) : Numbering.newIndex (fun _ => false) k = some k :=
  newIndex_of_unmarked (n := k + 1) (by simp [kept]) (Nat.lt_succ_self k)

theorem part_all : Part x.toFst x.toWfst (fun _ => false) fun _ _ => true where
  final := (newIndex_false x.final).symm
  arcs s k hs := by
    obtain ⟨-, hnew⟩ := getElem?_kept_iff.1 hs
    obtain rfl : k = s := Option.some.inj ((newIndex_false k).symm.trans hnew)
    rw [filter_eq_self.2 fun a _ => rfl, filterMap_congr (g := some) fun a _ => keepArc_some rfl (newIndex_false a.dest),
      filterMap_some]
    rfl
  outside s hs := by
    by_cases hlt : s < x.numStates
    · rw [getElem?_kept_iff.2 ⟨hlt, newIndex_false s⟩] at hs
      cases hs
    · show x.states.getD s [] = []
      rw [getD_eq_getElem?_getD, getElem?_eq_none (Nat.le_of_not_lt hlt)]
      rfl

/-! ## The result -/

section Result

variable [IsOrderedAddMonoid K] {getCost : W → WithTop K} {x : NamedWfst W} {maxStates : Int} {ratio : WithTop K}
  {sort : List (WithTop K × Nat) → List (WithTop K × Nat)}

/-- Of the arcs of a state those that a loop over `l` leaves. -/
def keptArc (getCost : W → WithTop K) (allPaths : Bool) (worstPath : WithTop K) (f r : Nat → WithTop K) (l : List Nat)
    (st : Nat) (a : FSTArc W) : Bool :=
  decide (Thinned allPaths worstPath (fun s => f s + r s) l st → arcWithin getCost worstPath f r st a = true)

/-- The states before the limit, when they are sorted by the cost of the best path through them. -/
def ranked (sort : List (WithTop K × Nat) → List (WithTop K × Nat)) (n allowed : Nat) (f r : Nat → WithTop K) : List Nat :=
  ((sort ((range n).map fun i => (f i + r i, i))).take allowed).map Prod.snd

section

variable (hsort : Sorts sort)
include hsort

omit [IsOrderedAddMonoid K]

/-- What is sorted are the costs of the best paths through the states. -/
theorem sorted_costs (n : Nat) (f r : Nat → WithTop K) :
    ∀ c ∈ sort ((range n).map fun i => (f i + r i, i)), c.1 = f c.2 + r c.2 := by
  intro c hc
  obtain ⟨i, -, rfl⟩ := mem_map.1 ((hsort.perm _).mem_iff.1 hc)
  rfl

theorem sorted_states (n : Nat) (f r : Nat → WithTop K) :
    ((sort ((range n).map fun i => (f i + r i, i))).map Prod.snd).Perm (range n) := by
  have h := (hsort.perm ((range n).map fun i => (f i + r i, i))).map Prod.snd
  rw [map_map] at h
  change Perm _ ((range n).map id) at h
  rwa [map_id] at h

theorem ranked_nodup (n allowed : Nat) (f r : Nat → WithTop K) : (ranked sort n allowed f r).Nodup :=
  ((take_sublist _ _).map _).nodup ((sorted_states hsort n f r).nodup_iff.2 nodup_range)

/-- A state comes before the limit or after it. -/
theorem over_iff {n allowed s : Nat} (f r : Nat → WithTop K) (hs : s < n) :
    s ∈ ((sort ((range n).map fun i => (f i + r i, i))).drop allowed).map Prod.snd ↔ s ∉ ranked sort n allowed f r := by
  have hperm := sorted_states hsort n f r
  have hnodup := hperm.nodup_iff.2 nodup_range
  have hmem := hperm.mem_iff.2 (mem_range.2 hs)
  unfold ranked
  rw [← take_append_drop allowed (sort _), map_append] at hnodup hmem
  constructor
  · exact fun hover hfirst => (nodup_append.1 hnodup).2.2 _ hfirst _ hover rfl
  · intro hfirst
    exact (mem_append.1 hmem).resolve_left hfirst

/-- What the two loops do. -/
theorem pruneLoops_spec {S : Type*} (n allowed : Nat) (f r : Nat → WithTop K) (allPaths : Bool)
    (worstPath : WithTop K) (thin : Nat → S → S) (states : List S) :
    let bestPathCost := sort ((range n).map fun i => (f i + r i, i))
    let o := (bestPathCost.drop allowed).foldl overLimit
      ((bestPathCost.take allowed).foldl (pruneState allPaths worstPath thin) ⟨states, fun _ => false⟩)
    (∀ s < n, o.remove s = true ↔ s ∉ ranked sort n allowed f r ∨ allPaths = false ∧ worstPath < f s + r s) ∧
      ∀ s : Nat, o.states[s]? = states[s]?.map
        (if Thinned allPaths worstPath (fun s => f s + r s) (ranked sort n allowed f r) s then thin s else id) := by
  intro bestPathCost o
  have hfirst : ∀ c ∈ bestPathCost.take allowed, c.1 = f c.2 + r c.2 :=
    fun c hc => sorted_costs hsort _ _ _ c (mem_of_mem_take hc)
  constructor
  · intro s hs
    rw [overLimit_remove, Bool.or_eq_true, decide_eq_true_eq, over_iff hsort _ _ hs,
      pruneLoop_remove (fun s => f s + r s) _ _ hfirst]
    change _ ∨ (if s ∈ ranked sort n allowed f r then _ else false) = true ↔ _
    by_cases hmem : s ∈ ranked sort n allowed f r
    · rw [if_pos hmem, Bool.and_eq_true, Bool.not_eq_true', decide_eq_true_eq]
    · exact iff_of_true (.inl hmem) (.inl hmem)
  · intro s
    rw [overLimit_states]
    exact pruneLoop_states (fun s => f s + r s) _ _ hfirst (ranked_nodup hsort n allowed f r) s

end

theorem prunePaths_spec (hw : ∀ s, ∀ a ∈ x.arcs s, 0 ≤ getCost a.weight) (hsort : Sorts sort)
    (hgo : ¬ (maxStates = unlimited ∧ ratio = ⊤)) :
    ∃ f r y remove, prunePaths getCost sort x maxStates ratio = some (y, remove) ∧
      DistancesFrom getCost x.toWfst 0 f ∧ DistancesTo getCost x.toWfst x.final r ∧
      (∀ s < x.numStates, remove s = true ↔
        s ∉ ranked sort x.numStates (allowedStates maxStates x.numStates) f r ∨ ratio ≠ ⊤ ∧ f x.final + ratio < f s + r s) ∧
      Part y x.toWfst remove (keptArc getCost (decide (ratio = ⊤)) (f x.final + ratio) f r
        (ranked sort x.numStates (allowedStates maxStates x.numStates) f r)) := by
  obtain ⟨f, hrunf, hf⟩ := shortestDistancesFrom_forward hw x.nonempty
  obtain ⟨r, hrunr, hr⟩ := shortestDistancesFrom_backward hw x.final_lt
  have hgo' : ¬ (maxStates = unlimited ∧ decide (ratio = ⊤) = true) := by rwa [decide_eq_true_eq]
  rw [prunePaths]
  dsimp only
  rw [if_neg hgo', hrunf, hrunr]
  obtain ⟨hremove, hstates⟩ := pruneLoops_spec hsort x.numStates (allowedStates maxStates x.numStates) f.dist r.dist
    (decide (ratio = ⊤)) (f.dist x.final + ratio)
    (fun st => List.filter (arcWithin getCost (f.dist x.final + ratio) f.dist r.dist st)) x.states
  refine ⟨f.dist, r.dist, _, _, rfl, hf, hr, ?_, ?_⟩
  · intro s hs
    rw [hremove s hs, decide_eq_false_iff_not]
  · have hfilter : ∀ (l : List (List (FSTArc W))) keep, l = (filterArcs x keep).states →
        ({ x.toFst with states := l } : Fst W) = (filterArcs x keep).toFst := by
      rintro l keep rfl
      rfl
    rw [hfilter]
    · exact part_removeMarkedStates x _ _
    · apply ext_getElem?
      intro s
      rw [hstates, filterArcs, getElem?_mapIdx]
      refine congrArg (Option.map · _) ?_
      funext arcs
      unfold keptArc
      split
      · rename_i h
        refine filter_congr fun a _ => ?_
        rw [Bool.eq_iff_iff, decide_eq_true_eq]
        exact ⟨fun ha _ => ha, fun ha => ha h⟩
      · rename_i h
        exact (filter_eq_self.2 fun a _ => decide_eq_true fun h' => absurd h' h).symm

end Result

end Sbmt.Carmel
