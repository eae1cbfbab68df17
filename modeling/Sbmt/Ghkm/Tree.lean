import Sbmt.Lib.Intervals

/-!
# Aligned parse trees

| here | there |
| --- | --- |
| `Alignment` | `Alignment` (`xrs-extract/c++-src/Alignment.h:37-105`), its two tables of sets of positions |
| `NodeData`, `TreeNode` | the members of `TreeNode` that rule extraction reads (`TreeNode.h`) |
| `cleanChineseToEnglish` | `clean_chinese_to_english_alignment` (`TreeNode.C:868-880`) |

A tree has no OR nodes, so no node is met twice and `memoize` plays no part. The
collecting of crossings under `find_bad_align` is left out. `span_sort` compares
with `<=`, which is no strict order: what `stable_sort` makes of equal left ends
is left open (`IntervalSort`).
-/

namespace Sbmt.Ghkm

open Sbmt.Lib

/-- The links between the words of the two sentences, by source and by target position. -/
structure Alignment where
  sourceTable : List (List Nat)
  targetTable : List (List Nat)
  mirror : ∀ s t, t ∈ sourceTable.getD s [] ↔ s ∈ targetTable.getD t []

namespace Alignment

variable (a : Alignment)

def sourceToTarget (s : Nat) : List Nat := a.sourceTable.getD s []

def targetToSource (t : Nat) : List Nat := a.targetTable.getD t []

def sourceAlignmentLen : Nat := a.sourceTable.length

def targetAlignmentLen : Nat := a.targetTable.length

end Alignment

structure NodeData where
  cat : String
  word : String
  eSpan : Interval
  cSpans : List Interval
  cCompSpans : List Interval
  extractionNode : Bool
  frontierNode : Bool
deriving DecidableEq, Repr

/-- A node with its subtrees; at a leaf, a preterminal, `word` is the word below it. -/
inductive TreeNode where
  | node (data : NodeData) (subtrees : List TreeNode)

namespace TreeNode

def data : TreeNode → NodeData
  | node d _ => d

def subtrees : TreeNode → List TreeNode
  | node _ ts => ts

def isInternal (t : TreeNode) : Bool := !t.subtrees.isEmpty

theorem induct {P : TreeNode → Prop} (h : ∀ d ts, (∀ t ∈ ts, P t) → P (.node d ts)) (t : TreeNode) : P t :=
  @TreeNode.rec P (fun ts => ∀ t ∈ ts, P t) (fun d ts ih => h d ts ih)
    (fun _ ht => absurd ht List.not_mem_nil)
    (fun _ _ hhead htail _ ht => (List.mem_cons.1 ht).elim (fun he => he ▸ hhead) (htail _)) t

mutual

/-- The positions of the words below a node, from left to right. -/
def words : TreeNode → List Nat
  | node d [] => [d.eSpan.1]
  | node _ (t :: ts) => t.words ++ wordsOf ts

def wordsOf : List TreeNode → List Nat
  | [] => []
  | t :: ts => t.words ++ wordsOf ts

end

mutual

/-- A node and all nodes below it. -/
def nodes : TreeNode → List TreeNode
  | node d ts => node d ts :: nodesOf ts

def nodesOf : List TreeNode → List TreeNode
  | [] => []
  | t :: ts => t.nodes ++ nodesOf ts

end

theorem wordsOf_eq (ts : List TreeNode) : wordsOf ts = ts.flatMap words := by
  induction ts with
  | nil => rfl
  | cons t ts ih => rw [wordsOf, ih, List.flatMap_cons]

theorem words_node (d : NodeData) {ts : List TreeNode} (h : ts ≠ []) : (node d ts).words = ts.flatMap words := by
  cases ts with
  | nil => exact absurd rfl h
  | cons t ts => rw [words, wordsOf_eq, List.flatMap_cons]

theorem nodesOf_eq (ts : List TreeNode) : nodesOf ts = ts.flatMap nodes := by
  induction ts with
  | nil => rfl
  | cons t ts ih => rw [nodesOf, ih, List.flatMap_cons]

theorem mem_nodes {m : TreeNode} {d : NodeData} {ts : List TreeNode} :
    m ∈ (node d ts).nodes ↔ m = node d ts ∨ ∃ t ∈ ts, m ∈ t.nodes := by
  rw [nodes, nodesOf_eq, List.mem_cons, List.mem_flatMap]

theorem self_mem_nodes (t : TreeNode) : t ∈ t.nodes := by
  cases t with
  | node d ts => exact mem_nodes.2 (.inl rfl)

end TreeNode

/-! ## Spans -/

/-- What keeps two spans apart: a position that is aligned, or one that is none. -/
def Alignment.blocks (a : Alignment) (i : Nat) : Bool := decide (a.targetAlignmentLen ≤ i) || !(a.targetToSource i).isEmpty

variable (srt : IntervalSort) (a : Alignment)

/-- `merge_spans` -/
def mergeSpans (s : List Interval) : List Interval := coalesce a.blocks srt s

variable (d : NodeData)

/-- `clean_english_to_chinese_alignment` -/
def cleanEnglishToChinese : Bool := d.cSpans.length = 1

/-- `clean_chinese_to_english_alignment` -/
def cleanChineseToEnglish : Bool :=
  match d.cSpans with
  | [] => false
  | c :: _ =>
    if a.targetAlignmentLen ≤ c.2 then false
    else (List.range' c.1 (c.2 + 1 - c.1)).all fun i =>
      (a.targetToSource i).all fun s => !(decide (s < d.eSpan.1) || decide (d.eSpan.2 < s))

/-- "Check if any rule can be extracted from the current node". -/
def checkExtraction : NodeData :=
  if cleanEnglishToChinese d && cleanChineseToEnglish a d then { d with extractionNode := true } else d

def leafSpans : List Interval :=
  mergeSpans srt a (((a.sourceToTarget d.eSpan.1).filter fun t => t < a.targetAlignmentLen).map fun t => (t, t))

/-- The valid spans of the subtrees, merged. -/
def innerSpans (ts : List TreeNode) : List Interval :=
  mergeSpans srt a (ts.flatMap fun t => t.data.cSpans.filter fun c =>
    decide (c.1 < a.targetAlignmentLen) && decide (c.2 < a.targetAlignmentLen))

/-- The span from the first to the last subtree. -/
def innerSpan (ts : List TreeNode) (span : Interval) : Interval :=
  ((ts.head?.map fun t => t.data.eSpan.1).getD span.1, (ts.getLast?.map fun t => t.data.eSpan.2).getD span.2)

mutual

/-- `none` where a leaf fails the consistency check. -/
def assignAlignmentSpans (srt : IntervalSort) (a : Alignment) : TreeNode → Option TreeNode
  | .node d [] =>
    if a.sourceAlignmentLen ≤ d.eSpan.1 then none
    else some (.node (checkExtraction a { d with cSpans := leafSpans srt a d }) [])
  | .node d (t :: ts) => do
    let t' ← assignAlignmentSpans srt a t
    let ts' ← assignSubtrees srt a ts
    some (.node (checkExtraction a
      { d with cSpans := innerSpans srt a (t' :: ts'), eSpan := innerSpan (t' :: ts') d.eSpan }) (t' :: ts'))

def assignSubtrees (srt : IntervalSort) (a : Alignment) : List TreeNode → Option (List TreeNode)
  | [] => some []
  | t :: ts => do
    let t' ← assignAlignmentSpans srt a t
    let ts' ← assignSubtrees srt a ts
    some (t' :: ts')

end

mutual

/-- The node with the complement spans it is given, and its subtrees with theirs. -/
def complementNode (srt : IntervalSort) (a : Alignment) (given : List Interval) : TreeNode → TreeNode
  | .node d ts =>
    .node { d with cCompSpans := mergeSpans srt a (d.cCompSpans ++ given) }
      (complementSubtrees srt a (mergeSpans srt a (d.cCompSpans ++ given)) [] ts)

/-- Each subtree gets the spans of its siblings and the complement spans `comp` of the node above. -/
def complementSubtrees (srt : IntervalSort) (a : Alignment) (comp before : List Interval) : List TreeNode → List TreeNode
  | [] => []
  | t :: ts =>
    complementNode srt a (before ++ (ts.flatMap fun u => u.data.cSpans) ++ comp) t ::
      complementSubtrees srt a comp (before ++ t.data.cSpans) ts

end

def assignComplementAlignmentSpans : TreeNode → TreeNode
  | .node d ts => .node d (complementSubtrees srt a d.cCompSpans [] ts)

/-- Each span ends before the next one begins. -/
def apart : List Interval → Bool
  | [] => true
  | [_] => true
  | i :: j :: s => decide (i.2 < j.1) && apart (j :: s)

/-- "If there is any overlap, this means that it isn't a pot frontier node". -/
def checkFrontier : NodeData :=
  if d.extractionNode then { d with frontierNode := apart (srt.sort (d.cSpans ++ d.cCompSpans)) } else d

mutual

def assignFrontierNode (srt : IntervalSort) : TreeNode → TreeNode
  | .node d ts => .node (checkFrontier srt d) (assignFrontierNodes srt ts)

def assignFrontierNodes (srt : IntervalSort) : List TreeNode → List TreeNode
  | [] => []
  | t :: ts => assignFrontierNode srt t :: assignFrontierNodes srt ts

end

/-- The three passes over a tree (`extract.C:675-677`). -/
def assignSpans (t : TreeNode) : Option TreeNode :=
  (assignAlignmentSpans srt a t).map fun t => assignFrontierNode srt (assignComplementAlignmentSpans srt a t)

end Sbmt.Ghkm
