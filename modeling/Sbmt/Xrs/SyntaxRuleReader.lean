import Sbmt.Xrs.RuleReader
import Sbmt.Xrs.SyntaxRuleTree

/-!
# Syntax rules from the rule reader

| here | there |
| --- | --- |
| `preorderInit`, `preorderChildren` | `preorder_init` (`sbmt/grammar/impl/syntax_rule.ipp:432-475`) |
| `SyntaxRule.initReader` | `init(Rule&)` (`:270-297`) |

Offsets and positions are kept in `rule_offset_t`, so each is taken modulo `capacity + 1`.  The recursion fills the
part of the array behind what it has filled, and leaves the rest (`preorderInit_eq`): the link to a next child is set
when the child is complete.
-/

namespace Sbmt.Xrs

open Sbmt.Lib Sbmt.Lib.Phrase Sbmt.Forest List

variable {T : Type}

section
variable (tf : TokenFactory T)

def tokenFromXrsRulenode : RuleReader.RuleNode → T
  | .lexical str => tf.nativeWord str
  | .pointer _ pos => tf.tag pos
  | .nonterminal str _ _ => if str = "TOP".toList then tf.toplevelTag else tf.tag str

/-- The arrays as they are filled. -/
structure Arrays (T : Type) where
  lhsTree : List (TreeNode T)
  rhsRule : List (RuleNode T)

def Arrays.modify (a : Arrays T) (pos : Nat) (f : TreeNode T → TreeNode T) : Arrays T :=
  { a with lhsTree := a.lhsTree.modify pos f }

mutual

/-- The node is put to `idx`, and all below it behind; the position behind the last comes back. -/
def preorderInit (capacity : Nat) : RuleReader.RuleNode → Nat → Arrays T → Arrays T × Nat
  | .lexical str, idx, a =>
    let a := a.modify idx fun n => { n with t := tokenFromXrsRulenode tf (.lexical str) }
    (a, (idx + 1) % (capacity + 1))
  | .pointer c pos, idx, a =>
    let t := tokenFromXrsRulenode tf (.pointer c pos)
    let a := a.modify idx fun n => { n with t := t }
    -- the only leaves with a tag
    let a := a.modify idx fun n => { n with idx := c % (capacity + 1) }
    ({ a with rhsRule := a.rhsRule.modify c fun _ => ⟨idx, t⟩ }, (idx + 1) % (capacity + 1))
  | .nonterminal str k ks, idx, a =>
    let a := a.modify idx fun n => { n with t := tokenFromXrsRulenode tf (.nonterminal str k ks) }
    let idxNext := (idx + 1) % (capacity + 1)
    let a := a.modify idx fun n => { n with firstChild := (((idxNext : Int) - idx) % (capacity + 1)).toNat }
    let (a, idxNew) := preorderInit capacity k idxNext a
    let a := if ks = [] then a
      else a.modify idxNext fun n => { n with nextSibling := (((idxNew : Int) - idxNext) % (capacity + 1)).toNat }
    preorderChildren capacity ks idxNew a

/-- The loop over the children. -/
def preorderChildren (capacity : Nat) : List RuleReader.RuleNode → Nat → Arrays T → Arrays T × Nat
  | [], idxNext, a => (a, idxNext)
  | k :: ks, idxNext, a =>
    let (a, idxNew) := preorderInit capacity k idxNext a
    let a := if ks = [] then a
      else a.modify idxNext fun n => { n with nextSibling := (((idxNew : Int) - idxNext) % (capacity + 1)).toNat }
    preorderChildren capacity ks idxNew a

end

/-- The loop over the right-hand side. -/
def lexicalLoop (items : List Text) (rhs : List (RuleNode T)) : List (RuleNode T) :=
  List.zipWith (fun item rn => if item = [] then rn else { rn with t := tf.foreignWord item }) items rhs

/-- `unset` is the token of a `tree_node()`. -/
def SyntaxRule.initReader (unset : T) (blank : RuleNode T) (capacity : Nat) (r : RuleReader.Rule) : Option (SyntaxRule T) :=
  if capacity ≤ RuleReader.numNodes r.lhsRoot ∨ capacity ≤ r.rhsLexicalItems.length then none
  else
    let a := (preorderInit tf capacity r.lhsRoot 0
      ⟨replicate (RuleReader.numNodes r.lhsRoot) ⟨0, 0, 0, unset⟩, replicate r.rhsLexicalItems.length blank⟩).1
    some
      { id := r.id
        lhsTree := a.lhsTree
        rhsRule := lexicalLoop tf r.rhsLexicalItems a.rhsRule }

mutual

/-- The tree that the rule reader has. -/
def shape : RuleReader.RuleNode → Rose (T × Nat)
  | .lexical str => .node (tokenFromXrsRulenode tf (.lexical str), 0) []
  | .pointer c pos => .node (tokenFromXrsRulenode tf (.pointer c pos), c) []
  | .nonterminal str k ks => .node (tokenFromXrsRulenode tf (.nonterminal str k ks), 0) (shape k :: shapes ks)

def shapes : List RuleReader.RuleNode → List (Rose (T × Nat))
  | [] => []
  | k :: ks => shape k :: shapes ks

end

end

section
variable {tf : TokenFactory T} {capacity : Nat}

/-! ## The arrays of the rule reader -/

mutual

theorem size_shape : ∀ r : RuleReader.RuleNode, Rose.size (shape tf r) = RuleReader.numNodes r
  | .lexical _ => rfl
  | .pointer _ _ => rfl
  | .nonterminal str k ks => by
    rw [shape, Rose.size, Rose.sizes, RuleReader.numNodes, size_shape k, sizes_shapes ks]

theorem sizes_shapes : ∀ ks : List RuleReader.RuleNode, Rose.sizes (shapes tf ks) = RuleReader.numNodesOf ks
  | [] => rfl
  | k :: ks => by rw [shapes, Rose.sizes, RuleReader.numNodesOf, size_shape k, sizes_shapes ks]

end

theorem shapes_eq_nil {ks : List RuleReader.RuleNode} : shapes tf ks = [] ↔ ks = [] := by
  cases ks with
  | nil => simp [shapes]
  | cons k ks => simp [shapes]

theorem isNativeTag_tag (l : Text) : tf.isNativeTag (tf.tag l) = true := by
  simp [TokenFactory.isNativeTag, tf.type_tag]

theorem isNativeTag_nativeWord (l : Text) : tf.isNativeTag (tf.nativeWord l) = false := by
  simp [TokenFactory.isNativeTag, tf.type_nativeWord]

/-- What is still to be filled. -/
def unsetNodes (unset : T) (n : Nat) : List (TreeNode T) := replicate n ⟨0, 0, 0, unset⟩

theorem unsetNodes_add (unset : T) (m n : Nat) : unsetNodes unset (m + n) = unsetNodes unset m ++ unsetNodes unset n :=
  replicate_add ..

variable (tf) in
/-- The arrays when what is behind `pre` has been filled with `l`. -/
def Arrays.filled (pre l post : List (TreeNode T)) (rhs : List (RuleNode T)) : Arrays T :=
  ⟨pre ++ l ++ post, backLinks tf pre.length l rhs⟩

/-- The link of a child is set when the child is complete. -/
theorem filled_link (A : Rose (T × Nat)) (v : Nat) (pre post : List (TreeNode T)) (rhs : List (RuleNode T)) :
    (Arrays.filled tf pre (Rose.encode TreeNode.layout 0 A) post rhs).modify pre.length (fun n => { n with nextSibling := v }) =
      Arrays.filled tf pre (Rose.encode TreeNode.layout v A) post rhs := by
  cases A with
  | node a ks =>
    rw [Arrays.filled, Arrays.modify, append_assoc, modify_length_append, Arrays.filled, append_assoc]
    rfl

variable (tf) in
theorem filled_append (l l' pre post : List (TreeNode T)) (rhs : List (RuleNode T)) :
    Arrays.filled tf (pre ++ l) l' post (backLinks tf pre.length l rhs) = Arrays.filled tf pre (l ++ l') post rhs := by
  rw [Arrays.filled, Arrays.filled, length_append, backLinks, setLoop_append, append_assoc pre]

/-- Below the capacity the arithmetic of offsets is exact. -/
theorem mod_succ {n : Nat} (h : n ≤ capacity) : n % (capacity + 1) = n := Nat.mod_eq_of_lt (by omega)

theorem toNat_sub_emod {m n : Nat} (hmn : m ≤ n) (hn : n ≤ capacity) :
    (((n : Int) - m) % (capacity + 1)).toNat = n - m := by
  rw [Int.emod_eq_of_lt (by omega) (by omega)]
  omega

open RuleReader (numNodes numNodesOf pointers pointersOf)

/-- A child is filled, then linked to the next, then the others are filled. -/
theorem preorderChildren_cons {unset : T} {k : RuleReader.RuleNode} {ks : List RuleReader.RuleNode}
    (pre post : List (TreeNode T)) (rhs : List (RuleNode T)) (hsize : pre.length + (numNodes k + numNodesOf ks) ≤ capacity)
    (hk : ∀ post, preorderInit tf capacity k pre.length ⟨pre ++ unsetNodes unset (numNodes k) ++ post, rhs⟩ =
      (Arrays.filled tf pre (Rose.encode TreeNode.layout 0 (shape tf k)) post rhs, pre.length + numNodes k))
    (hks : ∀ (pre : List (TreeNode T)) rhs, pre.length + numNodesOf ks ≤ capacity →
      preorderChildren tf capacity ks pre.length ⟨pre ++ unsetNodes unset (numNodesOf ks) ++ post, rhs⟩ =
        (Arrays.filled tf pre (Rose.encodes TreeNode.layout (shapes tf ks)) post rhs, pre.length + numNodesOf ks)) :
    preorderChildren tf capacity (k :: ks) pre.length ⟨pre ++ unsetNodes unset (numNodes k + numNodesOf ks) ++ post, rhs⟩ =
      (Arrays.filled tf pre (Rose.encodes TreeNode.layout (shapes tf (k :: ks))) post rhs,
        pre.length + (numNodes k + numNodesOf ks)) := by
  -- the first child with its link
  set F := Rose.encode TreeNode.layout (if shapes tf ks = [] then 0 else Rose.size (shape tf k)) (shape tf k) with hF
  have hlength : (pre ++ F).length = pre.length + numNodes k := by
    rw [length_append, Rose.length_encode, size_shape]
  have hlinked : ∀ post, (if ks = [] then Arrays.filled tf pre (Rose.encode TreeNode.layout 0 (shape tf k)) post rhs
      else (Arrays.filled tf pre (Rose.encode TreeNode.layout 0 (shape tf k)) post rhs).modify pre.length fun n =>
        { n with nextSibling := ((((pre.length + numNodes k : Nat) : Int) - pre.length) % (capacity + 1)).toNat }) =
      Arrays.filled tf pre F post rhs := by
    intro post
    by_cases hnil : ks = []
    · rw [if_pos hnil, hF, if_pos (shapes_eq_nil.2 hnil)]
    · rw [if_neg hnil, hF, if_neg (fun h => hnil (shapes_eq_nil.1 h)), filled_link,
        toNat_sub_emod (by omega) (by omega), Nat.add_sub_cancel_left, size_shape]
  have hrest := hks (pre ++ F) (backLinks tf pre.length F rhs) (by rw [hlength]; omega)
  rw [hlength, filled_append, append_assoc (pre ++ F)] at hrest
  rw [preorderChildren, unsetNodes_add, ← append_assoc pre, append_assoc (pre ++ _), hk]
  dsimp only
  rw [hlinked, Arrays.filled, hrest, shapes, Rose.encodes, Nat.add_assoc]

theorem preorderInit_nonterminal (str : Text) (k : RuleReader.RuleNode) (ks : List RuleReader.RuleNode) {idx : Nat}
    (a : Arrays T) (hidx : idx + 1 ≤ capacity) : preorderInit tf capacity (.nonterminal str k ks) idx a =
      preorderChildren tf capacity (k :: ks) (idx + 1)
        (a.modify idx fun n => { n with t := tokenFromXrsRulenode tf (.nonterminal str k ks), firstChild := 1 }) := by
  rw [preorderInit, mod_succ hidx, toNat_sub_emod (by omega) hidx, Nat.add_sub_cancel_left, Arrays.modify,
    Arrays.modify, modify_modify_eq]
  rfl

mutual

/-- **The recursion fills its part of the array** with the tree, whatever stands before and behind. -/
theorem preorderInit_eq (unset : T) : ∀ (r : RuleReader.RuleNode) (pre post : List (TreeNode T)) (rhs : List (RuleNode T)),
    pre.length + numNodes r ≤ capacity → (∀ c ∈ pointers r, c ≤ capacity) →
      preorderInit tf capacity r pre.length ⟨pre ++ unsetNodes unset (numNodes r) ++ post, rhs⟩ =
        (Arrays.filled tf pre (Rose.encode TreeNode.layout 0 (shape tf r)) post rhs, pre.length + numNodes r)
  | .lexical str, pre, post, rhs, hsize, _ => by
    rw [numNodes] at hsize
    rw [preorderInit, mod_succ hsize, Arrays.modify, append_assoc, modify_length_append]
    simp [Arrays.filled, numNodes, unsetNodes, shape, Rose.encode, Rose.encodes, TreeNode.layout, backLinks, setLoop, TreeNode.indexed,
      tokenFromXrsRulenode, isNativeTag_nativeWord]
  | .pointer c pos, pre, post, rhs, hsize, hc => by
    rw [numNodes] at hsize
    rw [preorderInit, mod_succ hsize, mod_succ (hc c (by simp [pointers])), Arrays.modify, Arrays.modify,
      append_assoc, modify_length_append, modify_length_append]
    simp [Arrays.filled, numNodes, unsetNodes, shape, Rose.encode, Rose.encodes, TreeNode.layout, backLinks, setLoop, TreeNode.indexed,
      tokenFromXrsRulenode, isNativeTag_tag, set_eq_modify]
  | .nonterminal str k ks, pre, post, rhs, hsize, hc => by
    rw [numNodes] at hsize
    obtain ⟨hk, hks⟩ := forall_mem_append.1 hc
    -- the root, with the link to the first child, refers to nothing on the right
    set root : TreeNode T := ⟨0, 1, 0, tokenFromXrsRulenode tf (.nonterminal str k ks)⟩ with hroot
    have hlength : (pre ++ [root]).length = pre.length + 1 := length_append
    have hlinks : backLinks tf pre.length [root] rhs = rhs := by simp [backLinks, setLoop, TreeNode.indexed, hroot]
    have harray : (⟨pre ++ unsetNodes unset (1 + (numNodes k + numNodesOf ks)) ++ post, rhs⟩ : Arrays T).modify pre.length
        (fun n => { n with t := tokenFromXrsRulenode tf (.nonterminal str k ks), firstChild := 1 }) =
          ⟨pre ++ [root] ++ unsetNodes unset (numNodes k + numNodesOf ks) ++ post, rhs⟩ := by
      rw [Arrays.modify, append_assoc, modify_length_append, unsetNodes_add]
      simp [unsetNodes, hroot]
    have hchildren := preorderChildren_cons (pre ++ [root]) post rhs (by rw [hlength]; omega)
      (fun post => preorderInit_eq unset k (pre ++ [root]) post rhs (by rw [hlength]; omega) hk)
      (fun pre rhs hsize => preorderChildren_eq unset ks pre post rhs hsize hks)
    have hfilled := filled_append tf [root] (Rose.encodes TreeNode.layout (shapes tf (k :: ks))) pre post rhs
    rw [hlinks] at hfilled
    rw [preorderInit_nonterminal _ _ _ _ (by omega), numNodes, harray, ← hlength, hchildren, hfilled, hlength, Nat.add_assoc]
    rfl

theorem preorderChildren_eq (unset : T) : ∀ (ks : List RuleReader.RuleNode) (pre post : List (TreeNode T))
    (rhs : List (RuleNode T)), pre.length + numNodesOf ks ≤ capacity → (∀ c ∈ pointersOf ks, c ≤ capacity) →
      preorderChildren tf capacity ks pre.length ⟨pre ++ unsetNodes unset (numNodesOf ks) ++ post, rhs⟩ =
        (Arrays.filled tf pre (Rose.encodes TreeNode.layout (shapes tf ks)) post rhs, pre.length + numNodesOf ks)
  | [], pre, post, rhs, _, _ => by
    simp [preorderChildren, numNodesOf, unsetNodes, shapes, Rose.encodes, backLinks, setLoop, Arrays.filled]
  | k :: ks, pre, post, rhs, hsize, hc => by
    rw [numNodesOf] at hsize
    obtain ⟨hk, hks⟩ := forall_mem_append.1 hc
    exact preorderChildren_cons pre post rhs hsize (fun post => preorderInit_eq unset k pre post rhs (by omega) hk)
      (fun pre rhs hsize => preorderChildren_eq unset ks pre post rhs hsize hks)

end

mutual

/-- Only a variable has an index that counts. -/
theorem idx_shape : ∀ (r : RuleReader.RuleNode) (next : Nat), ∀ n ∈ Rose.encode TreeNode.layout next (shape tf r),
    tf.isNativeTag n.t = false → n.idx = 0
  | .lexical str, next => by simp [shape, Rose.encode, Rose.encodes, TreeNode.layout]
  | .pointer c pos, next => by
    simp [shape, Rose.encode, Rose.encodes, TreeNode.layout, tokenFromXrsRulenode, isNativeTag_tag]
  | .nonterminal str k ks, next => by
    intro n hn htag
    rw [shape, Rose.encode, Rose.encodes, mem_cons, mem_append] at hn
    rcases hn with rfl | hn | hn
    · rfl
    · exact idx_shape k _ n hn htag
    · exact idx_shapes ks n hn htag

theorem idx_shapes : ∀ (ks : List RuleReader.RuleNode), ∀ n ∈ Rose.encodes TreeNode.layout (shapes tf ks),
    tf.isNativeTag n.t = false → n.idx = 0
  | [] => by simp [shapes, Rose.encodes]
  | k :: ks => by
    intro n hn htag
    rw [shapes, Rose.encodes, mem_append] at hn
    rcases hn with hn | hn
    · exact idx_shape k _ n hn htag
    · exact idx_shapes ks n hn htag

end

mutual

/-- The positions that were taken are those that the leaves refer to. -/
theorem exists_leaf_iff : ∀ (r : RuleReader.RuleNode) (next c : Nat),
    (∃ n ∈ Rose.encode TreeNode.layout next (shape tf r), n.indexed tf = true ∧ n.idx = c) ↔ c ∈ pointers r
  | .lexical str, next, c => by
    simp [pointers, shape, Rose.encode, Rose.encodes, TreeNode.layout, TreeNode.indexed, tokenFromXrsRulenode,
      isNativeTag_nativeWord]
  | .pointer c' pos, next, c => by
    simp [pointers, shape, Rose.encode, Rose.encodes, TreeNode.layout, TreeNode.indexed, tokenFromXrsRulenode,
      isNativeTag_tag, @eq_comm _ c]
  | .nonterminal str k ks, next, c => by
    have hroot : ∀ (a : T × Nat) n, (TreeNode.layout.node a n 1).indexed tf = false := fun a n => Bool.and_false _
    rw [shape, Rose.encode, Rose.encodes, pointers, exists_mem_cons_iff, if_neg (cons_ne_nil _ _), hroot]
    simp only [Bool.false_eq_true, false_and, false_or, mem_append, or_and_right, exists_or]
    exact or_congr (exists_leaf_iff k _ c) (exists_leaves_iff ks c)

theorem exists_leaves_iff : ∀ (ks : List RuleReader.RuleNode) (c : Nat),
    (∃ n ∈ Rose.encodes TreeNode.layout (shapes tf ks), n.indexed tf = true ∧ n.idx = c) ↔ c ∈ pointersOf ks
  | [], c => by simp [shapes, Rose.encodes, pointersOf]
  | k :: ks, c => by
    rw [shapes, Rose.encodes, pointersOf]
    simp only [mem_append, or_and_right, exists_or]
    exact or_congr (exists_leaf_iff k _ c) (exists_leaves_iff ks c)

end

variable (tf) in
/-- The rule reader's constructor fills the arrays from its tree. -/
theorem initReader_eq (blank : RuleNode T) (unset : T) {rr : RuleReader.Rule} (hlhs : numNodes rr.lhsRoot < capacity)
    (hrhs : rr.rhsLexicalItems.length < capacity) (hpointers : ∀ c ∈ pointers rr.lhsRoot, c ≤ capacity) :
    SyntaxRule.initReader tf unset blank capacity rr =
      some ⟨rr.id, Rose.encode TreeNode.layout 0 (shape tf rr.lhsRoot), lexicalLoop tf rr.rhsLexicalItems
        (backLinks tf 0 (Rose.encode TreeNode.layout 0 (shape tf rr.lhsRoot))
          (replicate rr.rhsLexicalItems.length blank))⟩ := by
  have hfill := @preorderInit_eq T tf capacity unset rr.lhsRoot [] [] (replicate rr.rhsLexicalItems.length blank)
    (by rw [length_nil, Nat.zero_add]; exact hlhs.le) hpointers
  rw [append_nil, nil_append, length_nil] at hfill
  rw [SyntaxRule.initReader, if_neg (by omega)]
  dsimp only
  rw [← unsetNodes, hfill]
  simp [Arrays.filled]

end

end Sbmt.Xrs
