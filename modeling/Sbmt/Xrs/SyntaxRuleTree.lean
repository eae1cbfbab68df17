import Sbmt.Lib.Preorder
import Sbmt.Xrs.SyntaxRule

/-!
# Syntax rules: the array is the tree

| here | there |
| --- | --- |
| `SyntaxRule.tree` | `children_begin`, `lhs_children_iterator` (`sbmt/grammar/impl/syntax_rule.ipp:66-83`, `:153-193`) |

The tree that an array is to have is `tokens`, the tree of the rule with the token of each label, and for a variable its
position on the right.  The nodes of a `rule_data` point to the next child from the beginning of the array and those of a
rule from where they stand, kept in `rule_offset_t`; the size that is checked for is enough for each of them
(`nextSibling_eq`).
-/

namespace Sbmt.Xrs

open Sbmt.Lib Sbmt.Lib.Phrase Sbmt.Forest List

variable {D T : Type}

/-- A node's label is its token and its index. -/
def TreeNode.layout : Layout (TreeNode T) (T × Nat) where
  node a next first := ⟨next, first, a.2, a.1⟩
  label n := (n.t, n.idx)
  next := TreeNode.nextSibling
  first := TreeNode.firstChild
  label_node _ _ _ := rfl
  next_node _ _ _ := rfl
  first_node _ _ _ := rfl

/-- The tree that is found by going from the root to the children, in at most `n` calls. -/
def SyntaxRule.tree (r : SyntaxRule T) (n : Nat) : Option (Rose (T × Nat)) := Rose.read TreeNode.layout r.lhsTree n 0

/-- `visit_leaves` of the root: the calls of the visitor, and the number of leaves. -/
def SyntaxRule.visitLeaves (r : SyntaxRule T) (n : Nat) : Option (List ((T × Nat) × Nat) × Nat) :=
  Rose.visit TreeNode.layout r.lhsTree n 0 0

section
variable (tf : TokenFactory T)

/-- The token of a tag, by `token_from_lhs_node`. -/
def tagToken (l : Text) : T := if l = "TOP".toList then tf.toplevelTag else tf.tag l

mutual

/-- The tree of a rule; `f` has the position of a variable. -/
def tokens (f : Nat → Nat) : Tree → Rose (T × Nat)
  | .var i l => .node (tagToken tf l, f i) []
  | .lex l w => .node (tagToken tf l, 0) [.node (tf.nativeWord w, 0) []]
  | .node l k ks => .node (tagToken tf l, 0) (tokens f k :: tokensOf f ks)

def tokensOf (f : Nat → Nat) : List Tree → List (Rose (T × Nat))
  | [] => []
  | k :: ks => tokens f k :: tokensOf f ks

end

end

section
variable {tf : TokenFactory T}

/-! ## The array of a `rule_data` -/

mutual

theorem size_tokens (f : Nat → Nat) : ∀ T : Tree, Rose.size (tokens tf f T) = size T
  | .var _ _ => rfl
  | .lex _ _ => rfl
  | .node l k ks => by
    rw [tokens, Rose.size, Rose.sizes, size, size_tokens f k, sizes_tokensOf f ks]
    omega

theorem sizes_tokensOf (f : Nat → Nat) : ∀ ks : List Tree, Rose.sizes (tokensOf tf f ks) = sizes ks
  | [] => rfl
  | k :: ks => by rw [tokensOf, Rose.sizes, sizes, size_tokens f k, sizes_tokensOf f ks]

end

theorem tokensOf_eq_nil {f : Nat → Nat} {ks : List Tree} : tokensOf tf f ks = [] ↔ ks = [] := by
  cases ks with
  | nil => simp [tokensOf]
  | cons k ks => simp [tokensOf]

mutual

/-- A link leads forward, and not behind the tree but for that of the root. -/
theorem next_flat : ∀ (T : Tree) (next pos j : Nat) (nd : LhsNode), (flat next pos T)[j]? = some nd →
    (j = 0 ∧ nd.next = next) ∨ nd.next = 0 ∨ pos + j < nd.next ∧ nd.next < pos + size T
  | .var i l, next, pos, j, nd, h => by
    cases j with
    | zero =>
      obtain rfl := Option.some.inj h
      exact .inl ⟨rfl, rfl⟩
    | succ j => simp [flat] at h
  | .lex l w, next, pos, j, nd, h => by
    rcases j with _ | _ | j
    · obtain rfl := Option.some.inj h
      exact .inl ⟨rfl, rfl⟩
    · obtain rfl := Option.some.inj h
      exact .inr (.inl rfl)
    · simp [flat] at h
  | .node l k ks, next, pos, j, nd, h => by
    rw [flat] at h
    cases j with
    | zero =>
      obtain rfl := Option.some.inj h
      exact .inl ⟨rfl, rfl⟩
    | succ j =>
      right
      rw [getElem?_cons_succ, getElem?_append, length_flat] at h
      rw [size]
      split at h
      · rcases next_flat k _ _ j nd h with ⟨rfl, hnext⟩ | hnext | hnext
        · rw [hnext]
          cases ks with
          | nil => exact .inl (if_pos rfl)
          | cons k' ks =>
            have hk' := size_pos k'
            rw [if_neg (by simp), sizes]
            exact .inr (by omega)
        · exact .inl hnext
        · exact .inr (by omega)
      · rcases next_flats ks _ _ nd h with hnext | hnext
        · exact .inl hnext
        · exact .inr (by omega)

theorem next_flats : ∀ (ks : List Tree) (pos j : Nat) (nd : LhsNode), (flats 0 pos ks)[j]? = some nd →
    nd.next = 0 ∨ pos + j < nd.next ∧ nd.next < pos + sizes ks
  | [], pos, j, nd, h => by simp [flats] at h
  | k :: ks, pos, j, nd, h => by
    rw [flats, getElem?_append, length_flat] at h
    rw [sizes]
    split at h
    · rcases next_flat k _ _ j nd h with ⟨rfl, hnext⟩ | hnext | hnext
      · rw [hnext]
        cases ks with
        | nil => exact .inl (if_pos rfl)
        | cons k' ks =>
          have hk' := size_pos k'
          rw [if_neg (by simp), sizes]
          exact .inr (by omega)
      · exact .inl hnext
      · exact .inr (by omega)
    · rcases next_flats ks _ _ nd h with hnext | hnext
      · exact .inl hnext
      · exact .inr (by omega)

end

/-- No offset wraps. -/
theorem nextSibling_treeNode {capacity pos : Nat} {rd : RuleData D} {nd : LhsNode}
    (h : nd.next = 0 ∨ pos < nd.next ∧ nd.next ≤ capacity) :
    (treeNode tf capacity rd pos nd).nextSibling = nd.next - pos := by
  unfold treeNode
  dsimp only
  rcases h with h | h
  · rw [if_pos h]
    omega
  · rw [if_neg (by omega), Int.emod_eq_of_lt (by omega) (by omega)]
    omega

variable (tf) in
/-- The entries of a part of the left-hand side that begins at `pos`. -/
def treeNodes (capacity : Nat) (rd : RuleData D) : Nat → List LhsNode → List (TreeNode T)
  | _, [] => []
  | pos, nd :: nds => treeNode tf capacity rd pos nd :: treeNodes capacity rd (pos + 1) nds

theorem mapIdx_treeNode (capacity : Nat) (rd : RuleData D) (nds : List LhsNode) : ∀ pos,
    nds.mapIdx (fun i nd => treeNode tf capacity rd (pos + i) nd) = treeNodes tf capacity rd pos nds := by
  induction nds with
  | nil => intro pos; rfl
  | cons nd nds ih =>
    intro pos
    rw [mapIdx_cons, treeNodes, ← ih, Nat.add_zero]
    simp only [Nat.add_assoc, Nat.add_comm 1]

theorem treeNodes_append (capacity : Nat) (rd : RuleData D) (l r : List LhsNode) : ∀ pos,
    treeNodes tf capacity rd pos (l ++ r) =
      treeNodes tf capacity rd pos l ++ treeNodes tf capacity rd (pos + l.length) r := by
  induction l with
  | nil => intro pos; rfl
  | cons nd l ih =>
    intro pos
    rw [cons_append, treeNodes, ih, treeNodes, cons_append, length_cons, Nat.add_assoc, Nat.add_comm 1]

variable {capacity : Nat} {rd : RuleData D}

theorem treeNode_eq {pos : Nat} {nd : LhsNode} (h : nd.next = 0 ∨ pos < nd.next ∧ nd.next ≤ capacity) :
    treeNode tf capacity rd pos nd = TreeNode.layout.node
      (tokenFromLhsNode tf nd, if nd.indexed then rhsPosition rd nd.index else 0) (nd.next - pos)
      (if nd.children then 1 else 0) := by
  have hnext : (treeNode tf capacity rd pos nd).nextSibling = nd.next - pos := nextSibling_treeNode h
  rw [← hnext]
  rfl

/-- Siblings, from the first and those behind it. -/
theorem treeNodes_cons {k : Tree} {ks : List Tree} {pos : Nat} (hsize : pos + (size k + sizes ks) ≤ capacity)
    (hk : ∀ next, (next = 0 ∨ pos < next ∧ next ≤ capacity) → treeNodes tf capacity rd pos (flat next pos k) =
      Rose.encode TreeNode.layout (next - pos) (tokens tf (rhsPosition rd) k))
    (hks : treeNodes tf capacity rd (pos + size k) (flats 0 (pos + size k) ks) =
      Rose.encodes TreeNode.layout (tokensOf tf (rhsPosition rd) ks)) :
    treeNodes tf capacity rd pos (flats 0 pos (k :: ks)) =
      Rose.encodes TreeNode.layout (tokensOf tf (rhsPosition rd) (k :: ks)) := by
  have hpos := size_pos k
  rw [flats, treeNodes_append, length_flat, tokensOf, Rose.encodes, hks, size_tokens]
  by_cases hnil : ks = []
  · rw [if_pos hnil, if_pos (tokensOf_eq_nil.2 hnil), hk _ (.inl rfl), Nat.zero_sub]
  · rw [if_neg hnil, if_neg (fun h => hnil (tokensOf_eq_nil.1 h)), hk _ (.inr ⟨by omega, by omega⟩), Nat.add_sub_cancel_left]

mutual

theorem treeNodes_flat : ∀ (T : Tree) (next pos : Nat), (next = 0 ∨ pos < next ∧ next ≤ capacity) → pos + size T ≤ capacity →
    treeNodes tf capacity rd pos (flat next pos T) = Rose.encode TreeNode.layout (next - pos) (tokens tf (rhsPosition rd) T)
  | .var i l, next, pos, hnext, _ => by
    rw [flat, treeNodes, treeNode_eq hnext]
    rfl
  | .lex l w, next, pos, hnext, _ => by
    rw [flat, treeNodes, treeNode_eq hnext, treeNodes, treeNode_eq (.inl rfl)]
    simp [treeNodes, tokens, Rose.encode, Rose.encodes, tokenFromLhsNode, tagToken]
  | .node l k ks, next, pos, hnext, hsize => by
    rw [size] at hsize
    have hcons : treeNodes tf capacity rd (pos + 1) (flats 0 (pos + 1) (k :: ks)) = _ := treeNodes_cons (by omega)
      (fun next hnext => treeNodes_flat k next (pos + 1) hnext (by omega))
      (treeNodes_flats ks (pos + 1 + size k) (by omega))
    rw [flats] at hcons
    rw [flat, treeNodes, treeNode_eq hnext, hcons]
    rfl

theorem treeNodes_flats : ∀ (ks : List Tree) (pos : Nat), pos + sizes ks ≤ capacity →
    treeNodes tf capacity rd pos (flats 0 pos ks) = Rose.encodes TreeNode.layout (tokensOf tf (rhsPosition rd) ks)
  | [], pos, _ => rfl
  | k :: ks, pos, hsize => by
    rw [sizes] at hsize
    exact treeNodes_cons hsize (fun next hnext => treeNodes_flat k next pos hnext (by omega)) (treeNodes_flats ks _ (by omega))

end

/-! ## The right-hand side, from the array -/

variable (tf) in
/-- The variable leaves of an array, put to where they refer. -/
def backLinks : Nat → List (TreeNode T) → List (RuleNode T) → List (RuleNode T) :=
  setLoop (TreeNode.indexed tf) TreeNode.idx TreeNode.t

/-- What stood at a position does not matter when a leaf is put there. -/
theorem backLinks_congr {i : Nat} (ns : List (TreeNode T)) : ∀ (pos : Nat) (rhs rhs' : List (RuleNode T)),
    rhs.length = rhs'.length → (rhs[i]? = rhs'[i]? ∨ ∃ n ∈ ns, n.indexed tf = true ∧ n.idx = i) →
      (backLinks tf pos ns rhs)[i]? = (backLinks tf pos ns rhs')[i]? := by
  induction ns with
  | nil =>
    intro pos rhs rhs' _ h
    rcases h with h | ⟨n, hn, _⟩
    · exact h
    · cases hn
  | cons n ns ih =>
    intro pos rhs rhs' hlen h
    rw [backLinks, setLoop, setLoop]
    by_cases hindexed : n.indexed tf = true
    · rw [if_pos hindexed, if_pos hindexed]
      apply ih _ _ _ (by rw [length_set, length_set, hlen])
      by_cases hi : n.idx = i
      · left
        subst hi
        rw [getElem?_set, getElem?_set, if_pos rfl, if_pos rfl, hlen]
      · rcases h with h | ⟨n', hn', hindexed', hi'⟩
        · left
          rw [getElem?_set_ne hi, getElem?_set_ne hi, h]
        · rcases mem_cons.1 hn' with rfl | hn'
          · exact absurd hi' hi
          · exact .inr ⟨n', hn', hindexed', hi'⟩
    · rw [if_neg hindexed, if_neg hindexed]
      apply ih _ _ _ hlen
      rcases h with h | ⟨n', hn', hindexed', hi'⟩
      · exact .inl h
      · rcases mem_cons.1 hn' with rfl | hn'
        · exact absurd hindexed' hindexed
        · exact .inr ⟨n', hn', hindexed', hi'⟩

theorem lhsLoop_eq_backLinks (hleaf : ∀ nd ∈ rd.lhs, nd.indexed = true → nd.children = false) (nds : List LhsNode) :
    ∀ (pos : Nat) (rhs : List (RuleNode T)), nds ⊆ rd.lhs →
      lhsLoop tf rd pos nds rhs = backLinks tf pos (treeNodes tf capacity rd pos nds) rhs := by
  induction nds with
  | nil => intro pos rhs _; rfl
  | cons nd nds ih =>
    intro pos rhs hsub
    obtain ⟨hnd, hnds⟩ := cons_subset.1 hsub
    rw [lhsLoop, treeNodes, ih _ _ hnds, backLinks, setLoop, indexed_treeNode hleaf capacity pos hnd]
    by_cases hindexed : nd.indexed = true
    · simp [treeNode, hindexed]
    · rw [if_neg hindexed, if_neg hindexed]

/-! ## The constructor -/

/-- The array of a rule is the tree: the links lead to it, none out of the array, and the leaves are numbered from left to
right. -/
structure SyntaxRule.Encodes (r : SyntaxRule T) (capacity : Nat) (A : Rose (T × Nat)) : Prop where
  length_lt : r.lhsTree.length < capacity
  tree : ∀ n, 2 * r.lhsTree.length ≤ n + 1 → r.tree n = some A
  nextSibling_lt : ∀ (j : Nat) n, r.lhsTree[j]? = some n → j + n.nextSibling < r.lhsTree.length
  firstChild_lt : ∀ (j : Nat) n, r.lhsTree[j]? = some n → j + n.firstChild < r.lhsTree.length
  leaves : ∀ n, 2 * r.lhsTree.length ≤ n + 1 → r.visitLeaves n = some (A.leaves.zipIdx, A.leaves.length)

theorem encodes_of_eq {r : SyntaxRule T} {A : Rose (T × Nat)} (h : r.lhsTree = Rose.encode TreeNode.layout 0 A)
    (hsize : A.size < capacity) : r.Encodes capacity A := by
  have hlength : r.lhsTree.length = A.size := by rw [h, Rose.length_encode]
  constructor
  · rw [hlength]
    exact hsize
  · intro n hn
    rw [SyntaxRule.tree, h]
    exact Rose.read_encode A (hlength ▸ hn)
  · intro j n hj
    rw [h] at hj
    rw [hlength]
    have hpos := A.size_pos
    rcases (Rose.links_encode TreeNode.layout A 0 j n hj).1 with ⟨rfl, hnext⟩ | hnext
    · change n.nextSibling = 0 at hnext
      omega
    · exact hnext
  · intro j n hj
    rw [h] at hj
    rw [hlength]
    exact (Rose.links_encode TreeNode.layout A 0 j n hj).2
  · intro n hn
    rw [SyntaxRule.visitLeaves, h, Rose.visit_encode A (hlength ▸ hn), Nat.zero_add]

variable {Tr : Tree} {blank : RuleNode T} {r : SyntaxRule T}

theorem length_lt_of_init (hinit : SyntaxRule.init tf blank capacity rd = some r) :
    rd.lhs.length < capacity ∧ rd.rhs.length < capacity := by
  unfold SyntaxRule.init at hinit
  split at hinit
  case isTrue => cases hinit
  case isFalse h =>
    rw [not_le, max_lt_iff] at h
    exact h

theorem lhsTree_eq_treeNodes (hinit : SyntaxRule.init tf blank capacity rd = some r) :
    r.lhsTree = treeNodes tf capacity rd 0 rd.lhs := by
  apply ext_getElem?
  intro j
  rw [lhsTree_getElem? hinit, ← mapIdx_treeNode, getElem?_mapIdx, Nat.zero_add]

variable (hlhs : rd.lhs = flat 0 0 Tr)
include hlhs

variable (hinit : SyntaxRule.init tf blank capacity rd = some r)
include hinit

theorem lhsTree_eq_encode : r.lhsTree = Rose.encode TreeNode.layout 0 (tokens tf (rhsPosition rd) Tr) := by
  have hsize := (length_lt_of_init hinit).1
  rw [hlhs, length_flat] at hsize
  rw [lhsTree_eq_treeNodes hinit, hlhs, treeNodes_flat Tr 0 0 (.inl rfl) (by omega)]

theorem rhsRule_eq_backLinks :
    r.rhsRule = rhsLoop tf rd.rhs (backLinks tf 0 r.lhsTree (replicate rd.rhs.length blank)) := by
  have hleaf : ∀ nd ∈ rd.lhs, nd.indexed = true → nd.children = false := by
    rw [hlhs]
    exact children_flat Tr 0 0
  rw [rhsRule_eq hinit, lhsTree_eq_treeNodes hinit, lhsLoop_eq_backLinks hleaf rd.lhs 0 _ fun _ h => h]

/-- The offset is the way to the next child. -/
theorem nextSibling_eq {j : Nat}
    {nd : LhsNode} (hnd : rd.lhs[j]? = some nd) {n : TreeNode T} (hn : r.lhsTree[j]? = some n) (hnext : nd.next ≠ 0) :
    j + n.nextSibling = nd.next := by
  have hsize := (length_lt_of_init hinit).1
  rw [hlhs, length_flat] at hsize
  rw [lhsTree_getElem? hinit, hnd, Option.map_some, Option.some.injEq] at hn
  rw [hlhs] at hnd
  rcases next_flat Tr 0 0 j nd hnd with ⟨_, h⟩ | h | h
  · exact absurd h hnext
  · exact absurd h hnext
  · rw [← hn, nextSibling_treeNode (.inr ⟨by omega, by omega⟩)]
    omega

end

end Sbmt.Xrs
