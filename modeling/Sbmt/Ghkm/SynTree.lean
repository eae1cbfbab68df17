import Mathlib

/-!
# Binarizing a parse in place (`ghkm/restruct/Restructurer.cpp:11-135`)

| here | there |
| --- | --- |
| `SynTreeNode`, `SynTree` | `SynTreeNode`, `Tree` (`restruct/SyntaxTree.h:14-75`); `addr` is where a node is, `head` a pointer to a child |
| `insertBefore`, `reparent` | `insert` before a sibling iterator, `reparent` of one sibling (`treelib/tree.hh:872-898`, `:1089-1131`) |
| `factorOutNodes` | `factorOutNodes` of the three binarizers (`restruct/Restructurer.cpp:61-135`); `none` where the iterator it returns is none of the tree |
| `factorLoop`, `restruct` | the loop and `Binarizer::restruct` (`:16-55`); `next` is where the next node is allocated |

Each round of the loop and each call spends one unit of fuel.  Of a node only the label and what tells its head are kept.
-/

namespace Sbmt.Ghkm

structure SynTreeNode where
  label : String
  /-- 0 stands for undefined -/
  headPosition : Nat
  head : Option Nat
deriving DecidableEq

inductive SynTree where
  | node (addr : Nat) (data : SynTreeNode) (children : List SynTree)

inductive Binarizer where
  | leftBranch
  | rightBranch
  | headOutwards
deriving DecidableEq

namespace SynTree

def addr : SynTree → Nat
  | node a _ _ => a

def data : SynTree → SynTreeNode
  | node _ d _ => d

def children : SynTree → List SynTree
  | node _ _ cs => cs

theorem induct {P : SynTree → Prop} (h : ∀ a d cs, (∀ c ∈ cs, P c) → P (.node a d cs)) (t : SynTree) : P t :=
  @SynTree.rec P (fun cs => ∀ c ∈ cs, P c) (fun a d cs ih => h a d cs ih)
    (fun _ hc => absurd hc List.not_mem_nil)
    (fun _ _ hhead htail _ hc => (List.mem_cons.1 hc).elim (fun he => he ▸ hhead) (htail _)) t

mutual

/-- A node and all nodes below it. -/
def nodes : SynTree → List SynTree
  | node a d cs => node a d cs :: nodesOf cs

def nodesOf : List SynTree → List SynTree
  | [] => []
  | c :: cs => c.nodes ++ nodesOf cs

end

def markHead (d : SynTreeNode) (cs : List SynTree) : SynTreeNode :=
  let headPosition := if d.headPosition = 0 then cs.length else d.headPosition
  let headPosition := if headPosition > 0 ∧ headPosition > cs.length then cs.length else headPosition
  if headPosition > 0 then { d with headPosition, head := cs[headPosition - 1]?.map addr } else { d with headPosition }

mutual

def markHeads : SynTree → SynTree
  | node a d [] => node a d []
  | node a d (c :: cs) => node a (markHead d (c :: cs)) (c.markHeads :: markHeadsOf cs)

def markHeadsOf : List SynTree → List SynTree
  | [] => []
  | c :: cs => c.markHeads :: markHeadsOf cs

end

/-! ## Factoring -/

structure Factored where
  nodes : List Nat
  /-- The sibling before which the new node goes, or the end. -/
  before : Option Nat

/-- The loop over the siblings; `prev` is the one before. -/
def scanHeads (head : Option Nat) : Option SynTree → List SynTree → List Nat × Option (Option Nat) →
    List Nat × Option (Option Nat)
  | _, [], ret => ret
  | prev, sibit :: rest, ret =>
    scanHeads head (some sibit) rest <|
      if head = some sibit.addr then
        match rest with
        | [] => (ret.1 ++ (prev.map addr).toList ++ [sibit.addr], some none)
        | it1 :: rest => (sibit.addr :: it1.addr :: ret.1, some (rest.head?.map addr))
      else ret

def factorOutNodes (head : Option Nat) (cs : List SynTree) : Binarizer → Option Factored
  | .leftBranch =>
    match cs.reverse with
    | y :: x :: _ => some ⟨[x.addr, y.addr], none⟩
    | _ => none
  | .rightBranch =>
    match cs with
    | x :: y :: rest => some ⟨[x.addr, y.addr], rest.head?.map addr⟩
    | _ => none
  | .headOutwards =>
    let ret := scanHeads head none cs ([], none)
    ret.2.map fun before => ⟨ret.1, before⟩

def insertBefore (newit : SynTree) (cs : List SynTree) : Option Nat → List SynTree
  | none => cs ++ [newit]
  | some a => cs.takeWhile (fun c => decide (c.addr ≠ a)) ++ newit :: cs.dropWhile fun c => decide (c.addr ≠ a)

def push (t : SynTree) : SynTree → SynTree
  | node a d cs => node a d (cs ++ [t])

/-- The sibling at `a` goes to the end of the children of the one at `newit`. -/
def reparent (newit : Nat) (cs : List SynTree) (a : Nat) : List SynTree :=
  match cs.find? fun c => decide (c.addr = a) with
  | none => cs
  | some t => (cs.filter fun c => decide (c.addr ≠ a)).map fun c => if c.addr = newit then push t c else c

def factorLoop (b : Binarizer) : Nat → SynTreeNode → Nat → List SynTree → Option (SynTreeNode × List SynTree × Nat)
  | 0, _, _, _ => none
  | fuel + 1, d, next, cs =>
    if cs.length ≤ 2 then some (d, cs, next)
    else
      (factorOutNodes d.head cs b).bind fun factoredSet =>
        let newit := node next ⟨d.label ++ "-BAR", 0, none⟩ []
        let cs := insertBefore newit cs factoredSet.before
        let d := { d with head := some next }
        factorLoop b fuel d (next + 1) (factoredSet.nodes.foldl (reparent next) cs)

def restructAll (f : Nat → SynTree → Option (SynTree × Nat)) : Nat → List SynTree → Option (List SynTree × Nat)
  | next, [] => some ([], next)
  | next, c :: cs => (f next c).bind fun o => (restructAll f o.2 cs).map fun o' => (o.1 :: o'.1, o'.2)

def restruct (b : Binarizer) : Nat → Nat → SynTree → Option (SynTree × Nat)
  | 0, _, _ => none
  | fuel + 1, next, node a d cs =>
    (factorLoop b fuel d next cs).bind fun o =>
      (restructAll (restruct b fuel) o.2.2 o.2.1).map fun o' => (node a o.1 o'.1, o'.2)

/-! ## What is left of the original -/

mutual

/-- The tree without the nodes from `base` on, each replaced by its children; heads are forgotten. -/
def unbar (base : Nat) : SynTree → List SynTree
  | node a d cs => if a < base then [node a { d with head := none } (unbarOf base cs)] else unbarOf base cs

def unbarOf (base : Nat) : List SynTree → List SynTree
  | [] => []
  | c :: cs => c.unbar base ++ unbarOf base cs

end

mutual

def forgetHeads : SynTree → SynTree
  | node a d cs => node a { d with head := none } (forgetHeadsOf cs)

def forgetHeadsOf : List SynTree → List SynTree
  | [] => []
  | c :: cs => c.forgetHeads :: forgetHeadsOf cs

end

mutual

/-- The original nodes right under a node from `base` on. -/
def tops (base : Nat) : SynTree → List Nat
  | node a _ cs => if a < base then [a] else topsOf base cs

def topsOf (base : Nat) : List SynTree → List Nat
  | [] => []
  | c :: cs => c.tops base ++ topsOf base cs

end

/-- The nodes from `base` on at the top of a tree have this label, and the head is under all of them. -/
inductive Bars (base : Nat) (label : String) (head : Option Nat) : SynTree → Prop
  | old {t : SynTree} (h : t.addr < base) : Bars base label head t
  | bar {a : Nat} {d : SynTreeNode} {cs : List SynTree} (ha : base ≤ a) (hlabel : d.label = label)
      (hhead : ∀ h, head = some h → h ∈ topsOf base cs) (hcs : ∀ c ∈ cs, Bars base label head c) :
      Bars base label head (node a d cs)

/-- What binarizing `t` should make of it; new nodes are allocated from `base` on. -/
structure Binarized (b : Binarizer) (base : Nat) (t t' : SynTree) : Prop where
  children_le : ∀ s ∈ t'.nodes, s.children.length ≤ 2
  unbar_eq : t'.unbar base = [t.forgetHeads]
  bars : ∀ s ∈ t.nodes, ∀ s' ∈ t'.nodes, s'.addr = s.addr → ∀ c ∈ s'.children, Bars base (s.data.label ++ "-BAR") none c
  head : b = .headOutwards → ∀ s ∈ t.nodes, 2 < s.children.length → ∃ hd ∈ s.children, s.data.head = some hd.addr ∧
    ∀ s' ∈ t'.nodes, s'.addr = s.addr → ∀ c ∈ s'.children, Bars base (s.data.label ++ "-BAR") (some hd.addr) c

end SynTree

end Sbmt.Ghkm
