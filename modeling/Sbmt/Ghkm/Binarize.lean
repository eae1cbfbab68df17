import Sbmt.Ghkm.Tree
import Sbmt.Lib.Assoc
import Sbmt.Lib.Phrase

/-!
# Parallel binarization

| here | there |
| --- | --- |
| `LabSpanSig`, `labSpanSig`, `LabSpanSig.text` | `LabSpanSig` (`restruct/LabelSpan.cpp:27-69`), `operator<<` (`LabelSpan.h:37-40`) |
| `AndNode`, `OrNode`, `PackedForest` | `restruct/ForestNodes.h:42-146`, `PackedForest.h:18-117` |
| `addNodeBySig`, `getNode` | `PackedForest.cpp:44-77`, `:101-110` |
| `ParallelBinarizer` | `Restructurer.h:87-148` |
| `withinLimit` | `Restructurer.cpp:400-423` |
| `factorizable`, `getESpan` | `:430-500`, `:517-532` |
| `converterFactorizable` | `Tree2ForestConverter::factorizable` (`:537-549`) |
| `genOR`, `factorize` | `:161-185`, `:190-397` |
| `restruct` | `:141-156` |

A pointer to an OR node is its place in `m_nodes`, which only grows. Nodes of the
parse are compared by pointer there; here by value, since two nodes of one parse
have different spans or one stands above the other. `genOR` and `factorize` call
each other; each round spends one unit of fuel.
-/

namespace Sbmt.Ghkm

open Sbmt.Lib Sbmt.Lib.Phrase

mutual

def TreeNode.decEq : (t u : TreeNode) → Decidable (t = u)
  | .node d ts, .node e us =>
    match instDecidableEqNodeData d e, TreeNode.decEqs ts us with
    | isTrue hd, isTrue hs => isTrue (by rw [hd, hs])
    | isFalse hd, _ => isFalse fun h => hd (TreeNode.node.inj h).1
    | _, isFalse hs => isFalse fun h => hs (TreeNode.node.inj h).2

def TreeNode.decEqs : (ts us : List TreeNode) → Decidable (ts = us)
  | [], [] => isTrue rfl
  | [], _ :: _ => isFalse (List.cons_ne_nil _ _).symm
  | _ :: _, [] => isFalse (List.cons_ne_nil _ _)
  | t :: ts, u :: us =>
    match TreeNode.decEq t u, TreeNode.decEqs ts us with
    | isTrue ht, isTrue hs => isTrue (by rw [ht, hs])
    | isFalse ht, _ => isFalse fun h => ht (List.cons.inj h).1
    | _, isFalse hs => isFalse fun h => hs (List.cons.inj h).2

end

instance : DecidableEq TreeNode := TreeNode.decEq

/-! ## Signatures -/

structure LabSpanSig where
  label : String
  /-- "the label is an internal node label" -/
  isInternal : Bool
  span : Interval
deriving DecidableEq, Repr

def LabSpanSig.text (s : LabSpanSig) : Text :=
  s.label.toList ++ ' ' :: (showNat s.span.1 ++ ' ' :: (showNat s.span.2 ++ [' ', if s.isInternal then '1' else '0', '\n']))

/-- The signature of some siblings below `parent`, or of the word at `parent` where there is none. -/
def labSpanSig (srt : IntervalSort) (parent : TreeNode) (sibs : List TreeNode) : LabSpanSig :=
  let spans := srt.sort (if sibs = [] then [parent.data.eSpan] else sibs.map fun t => t.data.eSpan)
  { label :=
      if sibs = [] then parent.data.word
      else if sibs.length < parent.subtrees.length then parent.data.cat ++ "-BAR"
      else parent.data.cat
    isInternal := !sibs.isEmpty
    span := ((spans.head?.map Prod.fst).getD 0, (spans.getLast?.map Prod.snd).getD 0) }

/-! ## Packed forests -/

structure AndNode where
  sig : LabSpanSig
  branches : List Nat
deriving DecidableEq, Repr

structure OrNode where
  id : Nat
  alternatives : List AndNode
deriving DecidableEq, Repr

structure PackedForest where
  nodes : List OrNode
  indexBySig : List (Text × Nat)
  root : Option Nat
deriving DecidableEq, Repr

namespace PackedForest

def empty : PackedForest := ⟨[], [], none⟩

def getNode (F : PackedForest) (sig : Text) : Option Nat := find sig F.indexBySig

/-- The id of an OR node. -/
def idOf (F : PackedForest) (k : Nat) : Nat := (F.nodes[k]?.map OrNode.id).getD 0

/-- AND nodes are compared as the lists of OR nodes they are. -/
def OrNode.push (o : OrNode) (a : AndNode) : OrNode :=
  if o.alternatives.any fun b => b.branches = a.branches then o else { o with alternatives := o.alternatives ++ [a] }

def addNodeBySig (a : AndNode) (F : PackedForest) : Nat × PackedForest :=
  match F.getNode a.sig.text with
  | some k => (k, { F with nodes := F.nodes.modify k fun o => OrNode.push o a })
  | none =>
    (F.nodes.length,
      { F with
        nodes := F.nodes ++ [⟨F.nodes.length + 2, [a]⟩]
        indexBySig := upsert a.sig.text (fun _ => F.nodes.length) F.indexBySig })

end PackedForest

/-! ## The binarizer -/

structure ParallelBinarizer where
  aln : Alignment
  /-- a `short` -/
  factorLimit : Int
  exceptCats : List String

/-- `get_e_span`; there are nodes, so that the end found is no less than zero. -/
def getESpan (nodes : List TreeNode) : Interval :=
  nodes.foldl (fun r t => (min r.1 t.data.eSpan.1, max r.2 t.data.eSpan.2)) (100000, 0)

/-- The child with the head word, where there is one. -/
def getHeadTree (headIndex : TreeNode → Nat) (t : TreeNode) : Option TreeNode := t.subtrees[headIndex t]?

namespace ParallelBinarizer

variable (srt : IntervalSort) (headIndex : TreeNode → Nat) (b : ParallelBinarizer)

def setFactorLimit (limit : Int) : ParallelBinarizer := { b with factorLimit := limit.bmod (2 ^ 16) }

/-- The limit is compared as a `size_t`. -/
def withinLimit (parent : TreeNode) (nodes : List TreeNode) : Bool :=
  if b.exceptCats.contains parent.data.cat then true
  else if (b.factorLimit % 2 ^ 64).toNat < nodes.length then
    nodes.any fun t => getHeadTree headIndex parent = some t
  else true

/-- "the inside span of these nodes should have no overlap with the outside span" -/
def factorizable (parent : TreeNode) (nodes : List TreeNode) : Bool :=
  if nodes = [] then true
  else
    let outsideNodes := parent.subtrees.filter fun t => !decide (t ∈ nodes)
    let inside := mergeSpans srt b.aln (nodes.flatMap fun t => t.data.cSpans)
    let outside := mergeSpans srt b.aln (parent.data.cCompSpans ++ outsideNodes.flatMap fun t => t.data.cSpans)
    if inside.length = 1 then
      cleanChineseToEnglish b.aln { parent.data with cSpans := inside, eSpan := getESpan nodes } &&
        apart (srt.sort (inside ++ outside))
    else false

end ParallelBinarizer

/-- `Tree2ForestConverter::factorizable` -/
def converterFactorizable (parent : TreeNode) (nodes : List TreeNode) : Bool :=
  nodes.isEmpty || !decide (nodes.length < parent.subtrees.length)

/-- What a binarizer decides by: `factorizable` is virtual. -/
structure Policy where
  withinLimit : TreeNode → List TreeNode → Bool
  factorizable : TreeNode → List TreeNode → Bool

/-- The pointer to the OR node, the forest, and the set of ids that was passed by reference. -/
abbrev GenOR := TreeNode → List TreeNode → PackedForest → Finset Nat → Option (Nat × PackedForest × Finset Nat)

/-- "if this is a PoS node, we apply the hack" -/
def branchOf (t : TreeNode) : List TreeNode := if t.subtrees = [] then [t] else t.subtrees

/-- One way to factor: the nodes but the first, or the nodes but the last. -/
structure Factoring where
  factorable : Bool
  withinLimit : Bool
  andNode : AndNode
  /-- `idLeft` and `idRight` are declared `bool` -/
  id : Bool
  ids : Finset Nat

namespace Factoring

def kept (f : Factoring) : List AndNode := if f.withinLimit then [f.andNode] else []

/-- Only `f` is factorable; `g` is kept for the factorable nodes below it that `f` has not. -/
def prefer (f g : Factoring) (ids : Finset Nat) : List AndNode × Finset Nat :=
  (f.kept ++ (if ¬ g.ids ⊆ f.ids ∧ g.ids.Nonempty then g.kept else []), insert f.id.toNat ids ∪ f.ids ∪ g.ids)

def choose (right left : Factoring) (ids : Finset Nat) : List AndNode × Finset Nat :=
  match left.factorable, right.factorable with
  | true, true => (right.kept ++ left.kept, insert right.id.toNat (insert left.id.toNat ids) ∪ left.ids ∪ right.ids)
  | true, false => prefer left right ids
  | false, true => prefer right left ids
  | false, false =>
    (if left.ids = right.ids then if right.ids.Nonempty then right.kept else []
     else (if right.ids.Nonempty then right.kept else []) ++ (if left.ids.Nonempty then left.kept else []),
     ids ∪ left.ids ∪ right.ids)

end Factoring

section
variable (srt : IntervalSort) (pol : Policy)

/-- The branches of one AND node over all of `sibV`. `tmp` is `tmp_set`. -/
def flatBranches (gen : GenOR) (parent : TreeNode) (sibV : List TreeNode) :
    List TreeNode → PackedForest → Finset Nat → Finset Nat → Option (List Nat × PackedForest × Finset Nat)
  | [], F, ids, _ => some ([], F, ids)
  | t :: ts, F, ids, tmp =>
    if t.subtrees = [] then do
      -- "we have reached a leaf": the word itself below a preterminal, the preterminal elsewhere
      let (k, F, tmp) ← gen t (if sibV.head? = some parent then [] else [t]) F tmp
      let (ks, F, ids) ← flatBranches gen parent sibV ts F ids tmp
      some (k :: ks, F, ids)
    else do
      let (k, F, ids) ← gen t t.subtrees F ∅
      let (ks, F, ids) ← flatBranches gen parent sibV ts F ids tmp
      some (k :: ks, F, ids)

variable (gen : GenOR)

def flat (parent : TreeNode) (sibV : List TreeNode) (F : PackedForest) (ids tmp : Finset Nat) :
    Option (List AndNode × PackedForest × Finset Nat) := do
  let (ks, F, ids) ← flatBranches gen parent sibV sibV F ids tmp
  some ([⟨labSpanSig srt parent sibV, ks⟩], F, ids)

/-- The factoring `[first branch, the others]`. -/
def factorRight (parent first : TreeNode) (sibV : List TreeNode) (F : PackedForest) (tmp : Finset Nat) :
    Option (Factoring × PackedForest × Finset Nat) := do
  let (k, F, tmp) ← gen first (branchOf first) F tmp
  let (rest, F, ids) ← gen parent sibV.tail F ∅
  some (⟨pol.factorizable parent sibV.tail, pol.withinLimit parent sibV.tail,
    ⟨labSpanSig srt parent sibV, [k, rest]⟩, F.idOf rest ≠ 0, ids⟩, F, tmp)

/-- The factoring `[the others, last branch]`. -/
def factorLeft (parent last : TreeNode) (sibV : List TreeNode) (F : PackedForest) (tmp : Finset Nat) :
    Option (Factoring × PackedForest × Finset Nat) := do
  let (rest, F, ids) ← gen parent sibV.dropLast F ∅
  let (k, F, tmp) ← gen last (branchOf last) F tmp
  some (⟨pol.factorizable parent sibV.dropLast, pol.withinLimit parent sibV.dropLast,
    ⟨labSpanSig srt parent sibV, [rest, k]⟩, F.idOf rest ≠ 0, ids⟩, F, tmp)

/-- "each ANDNode has only one auxiliary child" -/
def factorize (parent : TreeNode) (sibV : List TreeNode) (F : PackedForest) (ids : Finset Nat) :
    Option (List AndNode × PackedForest × Finset Nat) :=
  match sibV with
  | first :: _ :: last :: more => do
    let (right, F, tmp) ← factorRight srt pol gen parent first sibV F ∅
    let (left, F, tmp) ← factorLeft srt pol gen parent (more.getLastD last) sibV F tmp
    match Factoring.choose right left ids with
    -- "cannot be factorized any way"
    | ([], ids) => flat srt gen parent sibV F ids tmp
    | (andNodes, ids) => some (andNodes, F, ids)
  -- "We dont binarize nodes having <= 2 children."
  | _ => flat srt gen parent sibV F ∅ ∅

/-- The answer of the last call is kept. -/
def addNodes (andNodes : List AndNode) (F : PackedForest) : Option Nat × PackedForest :=
  andNodes.foldl (fun r a => (some (r.2.addNodeBySig a).1, (r.2.addNodeBySig a).2)) (none, F)

def genOR : Nat → GenOR
  | 0, _, _, _, _ => none
  | n + 1, parent, sibV, F, ids =>
    match F.getNode (labSpanSig srt parent sibV).text with
    | some k => some (k, F, ids)
    | none => do
      let (andNodes, F, ids) ← factorize srt pol (genOR n) parent sibV F ids
      match addNodes andNodes F with
      | (some k, F) => some (k, F, ids)
      | (none, _) => none

mutual

/-- More than the calls that stand open at once, below a node. -/
def TreeNode.weight : TreeNode → Nat
  | .node _ [] => 3
  | .node _ (t :: ts) => 1 + (t.weight + TreeNode.weightOf ts)

def TreeNode.weightOf : List TreeNode → Nat
  | [] => 0
  | t :: ts => t.weight + TreeNode.weightOf ts

end

def restructBy (root : TreeNode) : Option PackedForest := do
  let (k, F, _) ← genOR srt pol root.weight root root.subtrees .empty ∅
  some { F with root := some k }

end

section
variable (srt : IntervalSort) (headIndex : TreeNode → Nat) (b : ParallelBinarizer)

def ParallelBinarizer.policy : Policy :=
  ⟨b.withinLimit headIndex, b.factorizable srt⟩

/-- `ParallelBinarizer::restruct`, on the root of a tree. -/
def ParallelBinarizer.restruct (root : TreeNode) : Option PackedForest :=
  restructBy srt (b.policy srt headIndex) root

/-- `restruct` of a `Tree2ForestConverter`. -/
def convert (root : TreeNode) : Option PackedForest :=
  restructBy srt ⟨b.withinLimit headIndex, converterFactorizable⟩ root

end

end Sbmt.Ghkm
