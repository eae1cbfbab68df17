import Sbmt.Carmel.NormGroups
import Sbmt.Carmel.PrunePaths
import Sbmt.Lib.Machine

/-!
# States that count and index their arcs (`carmel/src/state.h`)

| here | there |
| --- | --- |
| `State`, `Index` | `State` and its `Index` (`carmel/src/state.h:113-156`); an index is given by the arcs it points to |
| `State.indexBy`, `State.flush` | `:168-219` |
| `State.addArc` | `:248-262` |
| `State.eraseLoop` | a loop with an `erase_iterator`: `f` is the arc as the loop leaves it, `none` where it goes by `State::remove` (`:317-320`) |
| `State.reduce` | `:275-297`, `combineArcWeight` (`:264-273`) |
| `State.removeEpsilonsTo`, `State.prune`, `State.renumberDestinations` | `:298-332` |
| `IndexedFst` | the states of a `WFST`, its final state and `indexed_by`; `index`, `indexFlush` (`carmel/src/fst.h:704-739`) |
| `IndexedFst.pruneArcs`, `consolidateArcs` | `carmel/src/fst.cc:18-22`, `:515-519` |
| `IndexedFst.assignWeights` | `carmel/src/fst.cc:238-265`; it erases without `State::remove` |
| `IndexedFst.prunePaths`, `removeMarkedStates` | `carmel/src/fst.cc:370-454`, `:521-537` |
| `ArcAct` | one of these operations, called from outside |

Of the weights only the members used here are given.
-/

namespace Sbmt.Carmel

open Sbmt.Lib

variable {W : Type*} {K : Type} [AddCommMonoid K] [LinearOrder K]

structure ArcWeightOps (W : Type*) where
  isZero : W → Bool
  add : W → W → W
  less : W → W → Bool
  one : W

structure Index (W : Type*) where
  output : Bool
  arcs : List (FSTArc W)

structure State (W : Type*) where
  arcs : List (FSTArc W)
  size : Int
  index : Option (Index W)

namespace State

def flush (s : State W) : State W := { s with index := none }

def indexBy (output : Bool) (s : State W) : State W :=
  match s.index with
  | some _ => s
  | none => { s with index := some ⟨output, s.arcs⟩ }

def addArc (arc : FSTArc W) (s : State W) : State W := { s with arcs := arc :: s.arcs, size := s.size + 1 }

def eraseFrom (f : FSTArc W → Option (FSTArc W)) : List (FSTArc W) → Int → List (FSTArc W) × Int
  | [], size => ([], size)
  | l :: ls, size =>
    match f l with
    | none => eraseFrom f ls (size - 1)
    | some l' =>
      let o := eraseFrom f ls size
      (l' :: o.1, o.2)

def eraseLoop (f : FSTArc W → Option (FSTArc W)) (s : State W) : State W :=
  let o := eraseFrom f s.arcs s.size
  { s with arcs := o.1, size := o.2 }

def removeIf (cond : FSTArc W → Bool) (s : State W) : State W := s.eraseLoop fun l => if cond l then none else some l

variable (ops : ArcWeightOps W)

def prune (thresh : W) (s : State W) : State W := s.removeIf fun l => ops.less l.weight thresh

def removeEpsilonsTo (dest : Nat) (s : State W) : State W :=
  s.flush.removeIf fun a => decide (a.inp = 0) && decide (a.out = 0) && decide (a.dest = dest)

def renumberDestinations (oldToNew : Nat → Option Nat) (s : State W) : State W :=
  s.flush.eraseLoop fun l => (oldToNew l.dest).map fun d => { l with dest := d }

def combineArcWeight (sum clamp : Bool) (w d : W) : W :=
  if sum then
    let w := ops.add w d
    if clamp && ops.less ops.one w then ops.one else w
  else if ops.less w d then d
  else w

def sameUnArc (l k : FSTArc W) : Bool := decide (l.inp = k.inp) && decide (l.out = k.out) && decide (l.dest = k.dest)

/-- `kept` is what the loop has passed, where `hWeights` points. -/
def reduceFrom (ops : ArcWeightOps W) (sum clamp : Bool) :
    List (FSTArc W) → List (FSTArc W) → Int → List (FSTArc W) × Int
  | kept, [], size => (kept, size)
  | kept, l :: ls, size =>
    if ops.isZero l.weight then reduceFrom ops sum clamp kept ls (size - 1)
    else if kept.any (sameUnArc l) then
      reduceFrom ops sum clamp (kept.map fun k => if sameUnArc l k then
        { k with weight := combineArcWeight ops sum clamp k.weight l.weight } else k) ls (size - 1)
    else reduceFrom ops sum clamp (kept ++ [l]) ls size

def reduce (sum clamp : Bool) (s : State W) : State W :=
  let s := s.flush
  let o := reduceFrom ops sum clamp [] s.arcs s.size
  { s with arcs := o.1, size := o.2 }

end State

structure IndexedFst (W : Type*) where
  states : List (State W)
  final : Option Nat
  indexedBy : Option Bool

namespace IndexedFst

variable (y : IndexedFst W)

def modifyState (s : Nat) (f : State W → State W) : Option (IndexedFst W) :=
  if s < y.states.length then some { y with states := y.states.modify s f } else none

def mapStates (f : State W → State W) : IndexedFst W := { y with states := y.states.map f }

def index (output : Bool) : IndexedFst W :=
  if y.indexedBy = some output then y
  else { y.mapStates fun s => s.flush.indexBy output with indexedBy := some output }

def indexFlush : IndexedFst W := { y.mapStates State.flush with indexedBy := none }

def groupWeight (source : IndexedFst W) : Nat → Option W :=
  (source.states.flatMap State.arcs).foldl
    (fun m a => if FSTArc.tied a.groupId then Function.update m a.groupId (some a.weight) else m) fun _ => none

def assignArc (weight : Nat → Option W) (a : FSTArc W) : Option (FSTArc W) :=
  if FSTArc.tied a.groupId then (weight a.groupId).map fun w => { a with weight := w } else some a

def assignWeights (y source : IndexedFst W) : IndexedFst W :=
  y.mapStates fun s =>
    let s := s.flush
    -- the count stays
    { s with arcs := s.arcs.filterMap (assignArc source.groupWeight) }

def removeMarkedStates (marked : Nat → Bool) : IndexedFst W :=
  let o := indicesAfterRemoveMarked marked y.states.length
  if y.states.length = o.2 then y
  else
    { y with
      states := (removeMarkedSwap marked y.states).map (State.renumberDestinations fun d => o.1[d]?.join)
      final := y.final.bind fun f => o.1[f]?.join }

def prunePaths (getCost : W → WithTop K) (sort : List (WithTop K × Nat) → List (WithTop K × Nat)) (maxStates : Int)
    (keepPathsWithinRatio : WithTop K) (y : IndexedFst W) : Option (IndexedFst W) :=
  let allPaths := decide (keepPathsWithinRatio = ⊤)
  if maxStates = unlimited ∧ allPaths then some y
  else y.final.bind fun final =>
    let nStates := y.states.length
    let forGraph := makeGraph getCost (y.states.map State.arcs)
    (shortestDistancesFrom forGraph 0).bind fun f => (shortestDistancesFrom (reverseGraph forGraph) final).map fun r =>
      let worstPath := f.dist final + keepPathsWithinRatio
      let bestPathCost := sort ((List.range nStates).map fun i => (f.dist i + r.dist i, i))
      let allowed := allowedStates maxStates nStates
      let thin st := State.removeIf fun a => !arcWithin getCost worstPath f.dist r.dist st a
      let o := (bestPathCost.take allowed).foldl (pruneState allPaths worstPath thin) ⟨y.states, fun _ => false⟩
      let o := (bestPathCost.drop allowed).foldl overLimit o
      removeMarkedStates { y with states := o.states } o.remove

end IndexedFst

inductive ArcAct (W : Type*) (K : Type) [LinearOrder K]
  | index (output : Bool)
  | indexFlush
  | addArc (s : Nat) (arc : FSTArc W)
  | reduce (s : Nat) (sum clamp : Bool)
  | consolidateArcs (sum clamp : Bool)
  | removeEpsilonsTo (s dest : Nat)
  | prune (s : Nat) (thresh : W)
  | pruneArcs (thresh : W)
  | renumberDestinations (s : Nat) (oldToNew : Nat → Option Nat)
  | removeMarkedStates (marked : Nat → Bool)
  | prunePaths (sort : {sort : List (WithTop K × Nat) → List (WithTop K × Nat) // Sorts sort}) (maxStates : Int)
      (ratio : WithTop K)
  | assignWeights (source : IndexedFst W)

/-- The operation `a`; `none` where it is not to be called. -/
def ArcAct.next (ops : ArcWeightOps W) (getCost : W → WithTop K) (y : IndexedFst W) : ArcAct W K → Option (IndexedFst W)
  | .index output => some (y.index output)
  | .indexFlush => some y.indexFlush
  | .addArc s arc => y.modifyState s (State.addArc arc)
  | .reduce s sum clamp => y.modifyState s (State.reduce ops sum clamp)
  | .consolidateArcs sum clamp => some (y.mapStates (State.reduce ops sum clamp))
  | .removeEpsilonsTo s dest => y.modifyState s (State.removeEpsilonsTo dest)
  | .prune s thresh => y.modifyState s (State.prune ops thresh)
  | .pruneArcs thresh => some (y.mapStates (State.prune ops thresh))
  | .renumberDestinations s oldToNew => y.modifyState s (State.renumberDestinations oldToNew)
  | .removeMarkedStates marked => some (y.removeMarkedStates marked)
  | .prunePaths sort maxStates ratio => y.prunePaths getCost sort.1 maxStates ratio
  | .assignWeights source => some (y.assignWeights source)

end Sbmt.Carmel
