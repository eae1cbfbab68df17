import Sbmt.Lib.Istream
import Sbmt.Lib.Replace

/-!
# The text of a packed forest

| here | there (`xrs-extract/c++-src/`) |
| --- | --- |
| `AndNode`, `OrNode`, `PackedForest` | `ForestNodes.h:38-133`, `PackedForest.h:30-127`, `LabelSpan.h:15-48` |
| `getORNode`, `addNodeById` | `PackedForest.C:120-128`, `:81-106` |
| `readOrNode`, `readAlternatives` | `read_an_OR_node` (`:156-203`) and its loop |
| `readAndNode`, `readChildren`, `readLeaf` | `read_an_AND_node` (`:207-265`) and its loops |
| `escape`, `unescape` | the loops on words (`:304-316`, `:246-258`) |
| `writeOrNode`, `writeAndNode`, `put` | `writeNode`, `put` (`:268-332`) |
| `AndNode.computeSpan`, `OrNode.computeSpan` | `ForestNodes.C:41-65`, `:129-139` |
| `AndNode.copyUp`, `OrNode.copyUp` | `:7-34`, `:71-106` |
| `get` | `PackedForest.C:130-149` |

A pointer to an OR node is its place in `m_nodes`, which only grows, and `none` is `NULL`.  An AND node is known by its
OR node and its place there.  The loops of the readers spend fuel: `unfinished` is a run that has not ended yet.
-/

namespace Sbmt.Ghkm.ForestText

open Sbmt.Lib Sbmt.Lib.Phrase Sbmt.Lib.Istream

/-! ## Nodes -/

structure AndNode where
  label : Text
  isInternal : Bool
  span : Int × Int
  children : List (Option Nat)
deriving DecidableEq

structure OrNode where
  id : Int
  alternatives : List AndNode
deriving DecidableEq

structure PackedForest where
  nodes : List OrNode
  root : Option Nat
deriving DecidableEq

/-- `SimplePackedForest forest;` (`extract.C:640`). -/
def PackedForest.empty : PackedForest := ⟨[], none⟩

/-- How a run ends other than by returning: the exception leaves the nodes behind that were read before. -/
inductive Stop where
  | formatError (nodes : List OrNode)
  | nullDeref
  | assertion
  | unfinished
deriving DecidableEq

def getORNode (nodes : List OrNode) (id : Int) : Option Nat := nodes.findIdx? (·.id = id)

def OrNode.pushBack (andNode : AndNode) (n : OrNode) : OrNode := { n with alternatives := n.alternatives ++ [andNode] }

def addNodeById (nodes : List OrNode) (andNode : AndNode) (id : Int) : Nat × List OrNode :=
  match getORNode nodes id with
  | some i => (i, nodes.modify i (OrNode.pushBack andNode))
  | none => (nodes.length, nodes ++ [{ id := id, alternatives := [andNode] }])

/-! ## Words -/

def rrb : Text := ['-', 'R', 'R', 'B', '-']

def lrb : Text := ['-', 'L', 'R', 'B', '-']

/-- Each of the two loops ends, a round for each parenthesis. -/
def escape (label : Text) : Text :=
  let label := Replace.replaceWhile [')'] rrb label.length label
  Replace.replaceWhile ['('] lrb label.length label

/-- Each of the two loops ends, since a round shortens the label. -/
def unescape (label : Text) : Text :=
  let label := Replace.replaceWhile rrb [')'] label.length label
  Replace.replaceWhile lrb ['('] label.length label

/-! ## Reading -/

/-- What is in the locals `char ch` and `int nodeID` before something is read into them. -/
structure Junk where
  ch : Char
  nodeID : Int

/-- `while (in.peek() == ' ') { in >> ws; }`: what is seen behind white space is not a blank. -/
def skipBlanks (s : Istream) : Istream :=
  if s.peek.1 = some ' ' then s.peek.2.ws.peek.2 else s.peek.2

/-- `while (in.peek() != ')') { in >> ch; label += ch; }` -/
def readLeaf : Nat → Char → Text → Istream → Except Stop (Text × Istream)
  | 0, _, _, _ => .error .unfinished
  | fuel + 1, ch, label, s =>
    if s.peek.1 = some ')' then .ok (label, s.peek.2)
    else
      let (ch, s) := s.peek.2.getChar ch
      readLeaf fuel ch (label ++ [ch]) s

abbrev Reader (α : Type) := Istream → List OrNode → Except Stop (α × Istream × List OrNode)

/-- `while (in.peek() != ')') { andNode->push_back(read_an_OR_node(in, height+1)); … }` -/
def readChildren (readOr : Reader (Option Nat)) : Nat → List (Option Nat) → Reader (List (Option Nat))
  | 0, _, _, _ => .error .unfinished
  | fuel + 1, children, s, nodes =>
    if s.peek.1 = some ')' then .ok (children, s.peek.2, nodes)
    else
      match readOr s.peek.2 nodes with
      | .error e => .error e
      | .ok (p, s, nodes) => readChildren readOr fuel (children ++ [p]) (skipBlanks s) nodes

section

variable (junk : Junk)

/-- `none` is the null pointer that is returned at the end of the text. -/
def readAndNode (readOr : Reader (Option Nat)) (fuel : Nat) : Reader (Option AndNode) := fun s nodes =>
  let s := skipBlanks s
  if s.eof then .ok (none, s, nodes)
  else if s.peek.1 = some '(' then
    let (ch, s) := s.peek.2.getChar junk.ch
    let (label, s) := s.getWord []
    match readChildren readOr fuel [] (skipBlanks s) nodes with
    | .error e => .error e
    | .ok (children, s, nodes) =>
      let (_, s) := (skipBlanks s).getChar ch
      .ok (some ⟨label, true, (-1, -1), children⟩, s, nodes)
  else
    match readLeaf fuel junk.ch [] s.peek.2 with
    | .error e => .error e
    | .ok (label, s) => .ok (some ⟨unescape label, false, (-1, -1), []⟩, s, nodes)

/-- `while (in.peek() != ')') { … porNode = addNodeById(*pandNode, nodeID); … }` -/
def readAlternatives (readAnd : Reader (Option AndNode)) (nodeID : Int) : Nat → Option Nat → Reader (Option Nat)
  | 0, _, _, _ => .error .unfinished
  | fuel + 1, porNode, s, nodes =>
    if s.peek.1 = some ')' then .ok (porNode, (s.peek.2.getChar junk.ch).2, nodes)
    else
      match readAnd s.peek.2 nodes with
      | .error e => .error e
      | .ok (none, _, _) => .error .nullDeref
      | .ok (some andNode, s, nodes) =>
        let (i, nodes) := addNodeById nodes andNode nodeID
        readAlternatives readAnd nodeID fuel (some i) (skipBlanks s) nodes

def readOrNode : Nat → Reader (Option Nat)
  | 0, _, _ => .error .unfinished
  | fuel + 1, s, nodes =>
    let s := skipBlanks s
    if s.eof then .ok (none, s, nodes)
    else
      let (ch, s) := s.getChar junk.ch
      if ch ≠ '(' then .error (.formatError nodes)
      else
        let (ch, s) := s.getChar ch
        if ch ≠ '#' then .error (.formatError nodes)
        else
          let (nodeID, s) := s.getInt junk.nodeID
          let s := skipBlanks s
          if s.peek.1 = some ')' then .ok (getORNode nodes nodeID, (s.peek.2.getChar ch).2, nodes)
          else readAlternatives junk (readAndNode junk (readOrNode fuel) fuel) nodeID fuel none s.peek.2 nodes

end

/-! ## Spans -/

variable (nodes : List OrNode)

def andNode? (a : Nat × Nat) : Option AndNode :=
  (nodes[a.1]?).bind fun n => n.alternatives[a.2]?

def setSpan (a : Nat × Nat) (span : Int × Int) : List OrNode :=
  nodes.modify a.1 fun n => { n with alternatives := n.alternatives.modify a.2 fun b => { b with span := span } }

def deref (p : Option Nat) : Except Stop (Nat × OrNode) :=
  match p with
  | none => .error .nullDeref
  | some i =>
    match nodes[i]? with
    | none => .error .nullDeref
    | some n => if n.alternatives = [] then .error .assertion else .ok (i, n)

def getSpan (p : Option Nat) : Except Stop (Int × Int) :=
  (deref nodes p).map fun r => ((r.2.alternatives.head?).map AndNode.span).getD (0, 0)

structure SpanState where
  wdIndex : Int
  leavesComputed : Nat × Nat → Bool
  nodes : List OrNode

def OrNode.computeSpan (visit : Nat × Nat → SpanState → Except Stop SpanState) (st : SpanState) (p : Option Nat) :
    Except Stop SpanState :=
  match deref st.nodes p with
  | .error e => .error e
  | .ok (i, n) => (List.range n.alternatives.length).foldlM (fun st j => visit (i, j) st) st

def AndNode.computeSpan : Nat → Nat × Nat → SpanState → Except Stop SpanState
  | 0, _, _ => .error .unfinished
  | fuel + 1, a, st =>
    if st.leavesComputed a then .ok st
    else
      let st := { st with leavesComputed := Function.update st.leavesComputed a true }
      match (andNode? st.nodes a).map AndNode.children with
      | none => .error .nullDeref
      | some [] =>
        .ok { st with wdIndex := st.wdIndex + 1, nodes := setSpan st.nodes a (st.wdIndex, st.wdIndex) }
      | some (p :: ps) =>
        match (p :: ps).foldlM (OrNode.computeSpan (AndNode.computeSpan fuel)) st with
        | .error e => .error e
        | .ok st =>
          match getSpan st.nodes p, getSpan st.nodes ((p :: ps).getLast (List.cons_ne_nil p ps)) with
          | .ok first, .ok last => .ok { st with nodes := setSpan st.nodes a (first.1, last.2) }
          | .error e, _ => .error e
          | _, .error e => .error e

def computeSpans (fuel : Nat) (forest : PackedForest) : Except Stop (List OrNode) :=
  match forest.root with
  | none => .ok forest.nodes
  | some i => (OrNode.computeSpan (AndNode.computeSpan fuel) ⟨0, fun _ => false, forest.nodes⟩ (some i)).map (·.nodes)

/-! ## Copying up -/

/-- The nodes whose `_sub_trees` is not empty any more. -/
structure CopyState where
  ors : Nat → Bool
  ands : Nat × Nat → Bool

/-- Each child is pushed to `_sub_trees`, and its parent is set, before it copies its own. -/
def AndNode.copyUp (visit : Option Nat → CopyState → Except Stop CopyState) (nodes : List OrNode) (a : Nat × Nat)
    (st : CopyState) : Except Stop CopyState :=
  if st.ands a then .ok st
  else (((andNode? nodes a).map AndNode.children).getD []).foldlM
    (fun st p => visit p { st with ands := Function.update st.ands a true }) st

def OrNode.copyUp (nodes : List OrNode) : Nat → Option Nat → CopyState → Except Stop CopyState
  | 0, _, _ => .error .unfinished
  | fuel + 1, p, st =>
    match p with
    | none => .error .nullDeref
    | some i =>
      if st.ors i then .ok st
      else
        match deref nodes p with
        | .error e => .error e
        | .ok (i, n) =>
          (List.range n.alternatives.length).foldlM (fun st j =>
            AndNode.copyUp (OrNode.copyUp nodes fuel) nodes (i, j) { st with ors := Function.update st.ors i true }) st

/-! ## `get` and `put` -/

def get (junk : Junk) (fuel : Nat) (forest : PackedForest) (text : Text) : Except Stop PackedForest :=
  let (c, s) := (reading text).peek
  if c = some '0' then .ok { forest with root := none }
  else
    match readOrNode junk fuel s forest.nodes with
    | .error (.formatError nodes) => .ok { nodes := nodes, root := none }
    | .error e => .error e
    | .ok (orNode, _, nodes) =>
      match computeSpans fuel { nodes := nodes, root := orNode } with
      | .error e => .error e
      | .ok nodes => (OrNode.copyUp nodes fuel orNode ⟨fun _ => false, fun _ => false⟩).map fun _ => ⟨nodes, orNode⟩

/-- What is written for the elements of a list, and the ids that have been written out then. -/
def writeList {α : Type} (write : α → List Int → Except Stop (Text × List Int)) :
    List α → List Int → Except Stop (Text × List Int)
  | [], written => .ok ([], written)
  | x :: xs, written =>
    match write x written with
    | .error e => .error e
    | .ok (text, written) => (writeList write xs written).map fun r => (text ++ r.1, r.2)

def writeAndNode (writeOr : Option Nat → List Int → Except Stop (Text × List Int)) (a : AndNode) (written : List Int) :
    Except Stop (Text × List Int) :=
  if a.children = [] then .ok (' ' :: escape a.label, written)
  else (writeList writeOr a.children written).map fun r => (' ' :: '(' :: (a.label ++ ' ' :: (r.1 ++ [')'])), r.2)

def writeOrNode (nodes : List OrNode) : Nat → Option Nat → List Int → Except Stop (Text × List Int)
  | 0, _, _ => .error .unfinished
  | fuel + 1, p, written =>
    match p.bind (nodes[·]?) with
    | none => .error .nullDeref
    | some n =>
      if n.id ∈ written then .ok (' ' :: '(' :: '#' :: (showInt n.id ++ [')']), written)
      else (writeList (writeAndNode (writeOrNode nodes fuel)) n.alternatives written).map fun r =>
        (' ' :: '(' :: '#' :: (showInt n.id ++ (r.1 ++ [')'])), n.id :: r.2)

def put (fuel : Nat) (forest : PackedForest) : Except Stop Text :=
  match forest.root with
  | none => .ok ['0', '\n']
  | some i => (writeOrNode forest.nodes fuel (some i) []).map Prod.fst

end Sbmt.Ghkm.ForestText
