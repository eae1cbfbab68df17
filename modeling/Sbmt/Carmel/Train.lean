import Sbmt.Carmel.CachedDerivs
import Sbmt.Lib.TopoSort

/-!
# forward_backward::estimate: expected counts by matrix or by lattice

| here | there |
| --- | --- |
| `WeightOps` | `logweight`: `Weight(double)` and `pow`, which leaves zero alone (`shared/weight.h:393, 486-493`) |
| `DWPair`, `forwardIo`, `backwardIo` | `DWPair`, `matrix_io_index` (`carmel/src/train.h:80-86`, `train.cc:87-113`) |
| `eTopo` | `makeEGraph`, `e_topo_populate` (`fst.cc:332-357`, `train.cc:380-402`) |

A weight is exact and not negative. `/` of two zeros is not a number there, which
`isZero` and `+` take for a zero; here it is zero. Warnings and `check_fb_agree` are
left out. `none` would be a search that does not end, `.error` is the exception.
-/

namespace Sbmt.Carmel

open Sbmt.Lib Function

variable {W F : Type}

/-- What a `Weight` takes from floating point numbers. -/
structure WeightOps (W F : Type) [Zero W] where
  ofReal : F → W
  /-- `exp (power * log w)`, of a positive `w` -/
  power : W → F → W
  power_ne_zero : ∀ w p, w ≠ 0 → power w p ≠ 0

def WeightOps.pow [Zero W] [DecidableEq W] (ops : WeightOps W F) (w : W) (p : F) : W :=
  if w = 0 then w else ops.power w p

/-! ## The matrix -/

structure DWPair where
  dest : Nat
  id : Nat
deriving DecidableEq

/-- `forward[s][io]` -/
def forwardIo (x : Wfst W) (s sIn sOut : Nat) : List DWPair := (x.forIo s sIn sOut).map fun id => ⟨x.destOf id, id⟩

/-- `backward[d][io]` -/
def backwardIo (x : Wfst W) (d sIn sOut : Nat) : List DWPair :=
  ((List.range x.visitArcs.length).filter fun id =>
    (x.arc? (x.ptrOf id)).any fun a => a.dest == d && a.inp == sIn && a.out == sOut).map fun id => ⟨(x.ptrOf id).src, id⟩

/-- The weight of the arc with an id. -/
def arcWeight [Zero W] (x : Wfst W) (id : Nat) : W := ((x.arc? (x.ptrOf id)).map FSTArc.weight).getD 0

/-- A matrix by input position, state and output position. -/
abbrev Matrix (W : Type) := DerivState → W

section MatrixCompute

variable [Semiring W]

def matrixForwardProp (wt : Nat → W) (m : Matrix W) (fio : List DWPair) (s i o dI dO : Nat) : Matrix W :=
  fio.foldl (fun m dw =>
    update m ⟨i + dI, dw.dest, o + dO⟩ (m ⟨i + dI, dw.dest, o + dO⟩ + m ⟨i, s, o⟩ * wt dw.id)) m

section

variable [DecidableEq W] (wt : Nat → W) (io : Nat → Nat → Nat → List DWPair) (inLet outLet : List Nat) (i o : Nat)

/-- The arcs of a state that read or write something. -/
def matrixState (w : Matrix W) (s : Nat) : Matrix W :=
  if w ⟨i, s, o⟩ = 0 then w
  else
    let w₁ := if o < outLet.length then
        let w₀ := matrixForwardProp wt w (io s epsilonIndex (outLet.getD o 0)) s i o 0 1
        if i < inLet.length then matrixForwardProp wt w₀ (io s (inLet.getD i 0) (outLet.getD o 0)) s i o 1 1 else w₀
      else w
    if i < inLet.length then matrixForwardProp wt w₁ (io s (inLet.getD i 0) epsilonIndex) s i o 1 0 else w₁

def matrixCell (nSt : Nat) (eTopo : List Nat) (w : Matrix W) : Matrix W :=
  (List.range nSt).foldl (matrixState wt io inLet outLet i o)
    (eTopo.foldl (fun w s => matrixForwardProp wt w (io s epsilonIndex epsilonIndex) s i o 0 0) w)

end

def matrixCompute [DecidableEq W] (wt : Nat → W) (io : Nat → Nat → Nat → List DWPair) (inLet outLet : List Nat)
    (start nSt : Nat) (eTopo : List Nat) : Matrix W :=
  (List.range (inLet.length + 1)).foldl (fun w i =>
    (List.range (outLet.length + 1)).foldl (fun w o => matrixCell wt io inLet outLet i o nSt eTopo w) w)
    fun c => if c = ⟨0, start, 0⟩ then 1 else 0

end MatrixCompute

/-- Two rows swapped. -/
def swapIn (w : Matrix W) (i j : Nat) : Matrix W := fun c => w ⟨if c.i = i then j else if c.i = j then i else c.i, c.s, c.o⟩

/-- Two entries of a row swapped. -/
def swapOut (w : Matrix W) (row i j : Nat) : Matrix W := fun c =>
  if c.i = row then w ⟨c.i, c.s, if c.o = i then j else if c.o = j then i else c.o⟩ else w c

def matrixReverseIo (w : Matrix W) (maxI maxO : Nat) : Matrix W :=
  (List.range (maxI + 1)).foldl (fun w i =>
    (List.range (maxO / 2 + 1)).foldl (fun w o => swapOut w i o (maxO - o)) w)
    ((List.range (maxI / 2 + 1)).foldl (fun w i => swapIn w i (maxI - i)) w)

/-! ## The order of the epsilon arcs -/

/-- The arcs of `makeEGraph`, the last one first. -/
def eNext (x : Wfst W) (s : Nat) : List Nat :=
  (((x.arcs s).filter fun a => a.inp == epsilonIndex && a.out == epsilonIndex).map FSTArc.dest).reverse

/-- `reverseGraph` of it. -/
def eNextReversed (x : Wfst W) (s : Nat) : List Nat :=
  ((List.range x.numStates).flatMap fun r => ((eNext x r).filter fun d => d = s).map fun _ => r).reverse

/-- `order_crucial` -/
def eTopo (x : Wfst W) (next : Nat → List Nat) : Option (List Nat) :=
  (TopoSort.order next (x.numStates + 1) ((List.range x.numStates).filter fun s => !(next s).isEmpty) .empty).map
    TopoSort.out

/-! ## estimate_matrix -/

/-- What `estimate` returns and leaves: the probabilities, the counts of the arcs by
id, and the examples of the corpus. -/
structure Estimate (W F : Type) where
  prob : W
  unweighted : W
  counts : Nat → W
  examples : List (IOSymSeq F)

section EstimateMatrix

variable [Semifield W] [DecidableEq W] (ops : WeightOps W F) (x : Wfst W)

def matrixForward (e : List Nat) (n : IOSymSeq F) : Matrix W :=
  matrixCompute (arcWeight x) (forwardIo x) n.i n.o 0 x.numStates e

def matrixBackward (eRev : List Nat) (n : IOSymSeq F) : Matrix W :=
  matrixReverseIo (matrixCompute (arcWeight x) (backwardIo x) n.i.reverse n.o.reverse x.final x.numStates eRev)
    n.i.length n.o.length

def matrixCount (wt : Nat → W) (f b : Matrix W) (scratch : Nat → W) (fio : List DWPair) (s i o dI dO : Nat) : Nat → W :=
  fio.foldl (fun scratch dw =>
    update scratch dw.id
      (scratch dw.id + f ⟨i, s, o⟩ * wt dw.id * b ⟨i + dI, dw.dest, o + dO⟩)) scratch

/-- The counts of the arcs out of a state. -/
def matrixCountState (f b : Matrix W) (inLet outLet : List Nat) (i o : Nat) (scratch : Nat → W) (s : Nat) : Nat → W :=
  let count := matrixCount (arcWeight x) f b
  let scratch₁ := if i < inLet.length then
      let both := if o < outLet.length then
          count scratch (forwardIo x s (inLet.getD i 0) (outLet.getD o 0)) s i o 1 1
        else scratch
      count both (forwardIo x s (inLet.getD i 0) epsilonIndex) s i o 1 0
    else scratch
  let scratch₂ := if o < outLet.length then
      count scratch₁ (forwardIo x s epsilonIndex (outLet.getD o 0)) s i o 0 1
    else scratch₁
  count scratch₂ (forwardIo x s epsilonIndex epsilonIndex) s i o 0 0

def matrixCounts (f b : Matrix W) (n : IOSymSeq F) : Nat → W :=
  (List.range (n.i.length + 1)).foldl (fun scratch i =>
    (List.range (n.o.length + 1)).foldl (fun scratch o =>
      (List.range x.numStates).foldl (matrixCountState x f b n.i n.o i o) scratch) scratch) fun _ => 0

/-- `add_weighted_scratch` -/
def addWeightedScratch (w : W) (scratch counts : Nat → W) : Nat → W := fun id =>
  if scratch id = 0 then counts id else counts id + w * scratch id

/-- One example; one without a derivation is taken out of the corpus. -/
def matrixExample (e eRev : List Nat) (acc : Estimate W F) (n : IOSymSeq F) : Estimate W F :=
  let f := matrixForward x e n
  let b := matrixBackward x eRev n
  let fin := f ⟨n.i.length, x.final, n.o.length⟩
  let prob := acc.prob * ops.pow fin n.weight
  let unweighted := acc.unweighted * fin
  if fin = 0 then { acc with prob := prob, unweighted := unweighted }
  else
    { prob := prob
      unweighted := unweighted
      counts := addWeightedScratch (ops.ofReal n.weight / fin) (matrixCounts x f b n) acc.counts
      examples := acc.examples ++ [n] }

def estimateMatrix (examples : List (IOSymSeq F)) : Option (Estimate W F) := do
  let e ← eTopo x (eNext x)
  let eRev ← eTopo x (eNextReversed x)
  some (examples.foldl (matrixExample ops x e eRev) ⟨1, 1, fun _ => 0, []⟩)

end EstimateMatrix

/-! ## estimate_cached -/

section Lattice

def propagatePathsInOrder [Semiring W] (arcs : Nat → List (Link Nat)) (wt : Nat → W) (order : List Nat) (w : Nat → W) :
    Nat → W :=
  order.foldl (fun w src => (arcs src).foldl (fun w a =>
    update w a.dest (w a.dest + w src * wt a.label)) w) w

/-- The arcs by their destination, from there to where they come from. -/
def addReversedArcs (g : List (List (Link Nat))) : Nat → List (Link Nat) :=
  g.flatten.foldl (fun rev l => update rev l.dest (⟨l.dest, l.src, l.label⟩ :: rev l.dest)) fun _ => []

/-- `make_order`, the start first. -/
def latticeOrder (g : List (List (Link Nat))) : Option (List Nat) :=
  (TopoSort.orderFrom (fun k => (Numbering.arcsOf g k).map Link.dest) (g.length + 1) 0 .empty).map TopoSort.out

variable [Semifield W] (ops : WeightOps W F) (x : Wfst W)

def latticeForward (d : Derivations) (order : List Nat) : Nat → W :=
  propagatePathsInOrder (Numbering.arcsOf d.g) (arcWeight x) order fun k => if k = 0 then 1 else 0

def latticeBackward (d : Derivations) (order : List Nat) : Nat → W :=
  propagatePathsInOrder (addReversedArcs d.g) (arcWeight x) order.reverse fun k => if k = d.fin then 1 else 0

/-- The probability of the example and the counts with what it adds. -/
def collectCounts (d : Derivations) (weight : F) (counts : Nat → W) : Option (W × (Nat → W)) := do
  let order ← latticeOrder d.g
  let f := latticeForward x d order
  let b := latticeBackward x d order
  let prob := f d.fin
  some (prob, (List.range d.g.length).foldl (fun counts s =>
    (Numbering.arcsOf d.g s).foldl (fun counts a =>
      update counts a.label
        (counts a.label + arcWeight x a.label * f a.src * b a.dest * ops.ofReal weight / prob)) counts) counts)

variable [DecidableEq W]

/-- `operator()`, for each lattice. -/
def latticeExample (acc : Estimate W F) (d : Derivations × F) : Option (Estimate W F) :=
  (collectCounts ops x d.1 d.2 acc.counts).map fun r =>
    { acc with
      prob := acc.prob * ops.pow r.1 d.2
      unweighted := acc.unweighted * r.1
      counts := r.2 }

/-- The graphs `foreach_deriv` goes through, each with the weight of its example. -/
def lattices (prune : Bool) (examples : List (IOSymSeq F)) : List (Derivations × F) :=
  examples.filterMap fun n => (initAndCompute x prune n).map fun d => (d, n.weight)

variable [Zero F] [Add F] [Mul F] [NatCast F]

def estimateCached (cache prune : Bool) (examples : List (IOSymSeq F)) : Option (Estimate W F) :=
  (lattices x prune examples).foldlM (latticeExample ops x)
    ⟨1, 1, fun _ => 0, (foreachDeriv x prune (CachedDerivs.new x cache prune examples)).2.examples⟩

/-! ## estimate -/

/-- `cache_level`, whether it caches or not, with `prune` -/
inductive EstimateBy
  | matrix
  | lattice (cache prune : Bool)
deriving DecidableEq

/-- `throw_if_no_derivation` -/
def throwIfNoDerivation (e : Estimate W F) : Except String (Estimate W F) :=
  if e.examples = [] then .error "No training example had a derivation - aborting training." else .ok e

def estimate (examples : List (IOSymSeq F)) : EstimateBy → Option (Except String (Estimate W F))
  | .matrix => (estimateMatrix ops x examples).map throwIfNoDerivation
  | .lattice cache prune => (estimateCached ops x cache prune examples).map throwIfNoDerivation

end Lattice

end Sbmt.Carmel
