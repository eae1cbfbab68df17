import Sbmt.Forest.Basic
import Sbmt.Xrs.RuleRoundTrip

/-!
# Syntax rules: the two sides refer to each other

| here | there |
| --- | --- |
| `TokenFactory` | `fat_token_factory`, `dictionary` (`sbmt/token/fat_token.hpp`, `indexed_token.hpp:140-330`) |
| `TreeNode`, `RuleNode`, `SyntaxRule` | `syntax_rule::tree_node`, `rule_node`, `lhs_tree`, `rhs_rule` (`sbmt/grammar/syntax_rule.hpp:152-300`) |

`rule_node()` leaves `lhs_pos` as it is in memory, so the array is filled with a
node of any content. `varray::at` checks nothing: where an index of the left-hand
side is missing on the right, the node behind the array is written, and nothing
in it.
-/

namespace Sbmt.Xrs

open Sbmt.Lib.Phrase Sbmt.Forest List Option

/-- The tokens a factory has, or makes, for labels. -/
structure TokenFactory (T : Type) where
  type : T → TokenType
  tag : Text → T
  toplevelTag : T
  nativeWord : Text → T
  foreignWord : Text → T
  type_tag : ∀ l, type (tag l) = .tag
  type_toplevelTag : type toplevelTag = .top
  type_nativeWord : ∀ l, type (nativeWord l) = .native
  type_foreignWord : ∀ l, type (foreignWord l) = .foreign

namespace TokenFactory

/-- `is_native_tag` -/
def isNativeTag {T : Type} (tf : TokenFactory T) (t : T) : Bool := decide (tf.type t = .tag ∨ tf.type t = .top)

end TokenFactory

structure TreeNode (T : Type) where
  nextSibling : Nat
  firstChild : Nat
  /-- "refers to position of rule_node in rhs (which refers back to us)" -/
  idx : Nat
  t : T
deriving DecidableEq

structure RuleNode (T : Type) where
  lhsPos : Nat
  t : T
deriving DecidableEq

structure SyntaxRule (T : Type) where
  id : Int64
  lhsTree : List (TreeNode T)
  rhsRule : List (RuleNode T)
deriving DecidableEq

variable {D T : Type} (tf : TokenFactory T)

def TreeNode.indexed (n : TreeNode T) : Bool := tf.isNativeTag n.t && n.firstChild = 0

def TreeNode.isLeaf (n : TreeNode T) : Bool := n.firstChild = 0

def RuleNode.indexed (n : RuleNode T) : Bool := tf.isNativeTag n.t

/-- `lhs_position` -/
def SyntaxRule.lhsPosition (r : SyntaxRule T) (n : RuleNode T) : Option (TreeNode T) := r.lhsTree[n.lhsPos]?

/-- Where the index stands on the right; the number of nodes if it does not. -/
def rhsPosition (rd : RuleData D) (idx : Nat) : Nat := rd.rhs.idxOf (.index idx)

def tokenFromLhsNode (lnode : LhsNode) : T :=
  if lnode.indexed || lnode.children then
    if lnode.label = "TOP".toList then tf.toplevelTag else tf.tag lnode.label
  else tf.nativeWord lnode.label

/-- An entry of the left-hand side; `capacity` is the greatest `rule_offset_t`. -/
def treeNode (capacity : Nat) (rd : RuleData D) (pos : Nat) (nd : LhsNode) : TreeNode T where
  nextSibling := if nd.next = 0 then 0 else (((nd.next : Int) - pos) % (capacity + 1)).toNat
  firstChild := if nd.children then 1 else 0
  idx := if nd.indexed then rhsPosition rd nd.index else 0
  t := tokenFromLhsNode tf nd

/-- The loop over the left-hand side writes to the right-hand side as well. -/
def lhsLoop (rd : RuleData D) : Nat → List LhsNode → List (RuleNode T) → List (RuleNode T)
  | _, [], rhs => rhs
  | pos, nd :: nds, rhs =>
    lhsLoop rd (pos + 1) nds
      (if nd.indexed then rhs.set (rhsPosition rd nd.index) ⟨pos, tokenFromLhsNode tf nd⟩ else rhs)

/-- The loop over the right-hand side. -/
def rhsLoop (nds : List RhsNode) (rhs : List (RuleNode T)) : List (RuleNode T) :=
  List.zipWith (fun nd rn => match nd with
    | .index _ => rn
    | .word label => { rn with t := tf.foreignWord label }) nds rhs

/-- `none`: "rule size exceeds syntax_rule storage capacity". -/
def SyntaxRule.init (blank : RuleNode T) (capacity : Nat) (rd : RuleData D) : Option (SyntaxRule T) :=
  if capacity ≤ max rd.lhs.length rd.rhs.length then none
  else some
    { id := rd.id
      lhsTree := rd.lhs.mapIdx (treeNode tf capacity rd)
      rhsRule := rhsLoop tf rd.rhs (lhsLoop tf rd 0 rd.lhs (replicate rd.rhs.length blank)) }

/-! ## What was read -/

mutual

theorem children_flat : ∀ (T : Tree) (next pos : Nat), ∀ nd ∈ flat next pos T, nd.indexed = true → nd.children = false
  | .var i l, next, pos => by simp [flat]
  | .lex l w, next, pos => by simp [flat]
  | .node l k ks, next, pos => by
    intro nd hnd hindexed
    rcases mem_cons.1 hnd with rfl | hnd
    · cases hindexed
    rcases mem_append.1 hnd with hnd | hnd
    · exact children_flat k _ _ nd hnd hindexed
    · exact children_flats ks _ _ nd hnd hindexed

theorem children_flats : ∀ (ks : List Tree) (next pos : Nat), ∀ nd ∈ flats next pos ks, nd.indexed = true → nd.children = false
  | [], next, pos => by simp [flats]
  | k :: ks, next, pos => by
    intro nd hnd hindexed
    rcases mem_append.1 hnd with hnd | hnd
    · exact children_flat k _ _ nd hnd hindexed
    · exact children_flats ks _ _ nd hnd hindexed

end

variable {rd : RuleData D}

/-- What the constructor may rely on: variables are leaves, and there are as many on either side. -/
theorem parseXrs_vars {R : Reals D} {memory : Int64} {line : Text} (h : parseXrs R memory line = some rd) :
    (∀ nd ∈ rd.lhs, nd.indexed = true → nd.children = false) ∧ sameVars rd.lhs rd.rhs = true := by
  unfold parseXrs at h
  split at h
  · exact absurd h (by simp)
  rename_i s t hlhs
  simp only [bind_eq_some_iff] at h
  obtain ⟨t1, _, t2, _, t3, _, hend⟩ := h
  split_ifs at hend with hfull
  obtain rfl := Option.some.inj hend
  refine ⟨?_, hfull.2⟩
  obtain ⟨T, u, hT⟩ := lhsRoot_read hlhs
  have hlhs_eq : s.lhs = flat 0 0 T := by
    rw [hT.effect, effectRoot_lhs hT.isRoot]
    rfl
  show ∀ nd ∈ s.lhs, _
  rw [hlhs_eq]
  exact children_flat T 0 0

/-- The indices of the variables on the left, in order. -/
def RuleData.lhsIndices (rd : RuleData D) : List Nat := rd.lhs.filterMap fun nd => if nd.indexed then some nd.index else none

def RuleData.rhsIndices (rd : RuleData D) : List Nat := rd.rhs.filterMap fun nd => match nd with
  | .index i => some i
  | .word _ => none

theorem mem_lhsIndices {v : Nat} : v ∈ rd.lhsIndices ↔ ∃ nd ∈ rd.lhs, nd.indexed = true ∧ nd.index = v := by
  unfold RuleData.lhsIndices
  rw [mem_filterMap]
  constructor
  · rintro ⟨nd, hnd, h⟩
    split at h
    case isTrue hindexed => exact ⟨nd, hnd, hindexed, Option.some.inj h⟩
    case isFalse => cases h
  · rintro ⟨nd, hnd, hindexed, rfl⟩
    exact ⟨nd, hnd, if_pos hindexed⟩

theorem mem_rhsIndices {v : Nat} : v ∈ rd.rhsIndices ↔ RhsNode.index v ∈ rd.rhs := by
  unfold RuleData.rhsIndices
  rw [mem_filterMap]
  constructor
  · rintro ⟨nd, hnd, h⟩
    cases nd with
    | index i => exact Option.some.inj h ▸ hnd
    | word l => cases h
  · intro h
    exact ⟨_, h, rfl⟩

theorem length_indices (h : sameVars rd.lhs rd.rhs = true) : rd.lhsIndices.length = rd.rhsIndices.length := by
  have hcount := of_decide_eq_true h
  have hlhs : ∀ l : List LhsNode, (l.filterMap fun nd => if nd.indexed then some nd.index else none).length =
      l.countP fun nd => nd.indexed := by
    intro l
    induction l with
    | nil => rfl
    | cons nd l ih =>
      by_cases hnd : nd.indexed = true
      · simp [hnd, ih]
      · simp [hnd, ih]
  have hrhs : ∀ l : List RhsNode, (l.filterMap fun nd => match nd with
      | .index i => some i
      | .word _ => none).length = l.countP fun nd => match nd with
      | .index _ => true
      | .word _ => false := by
    intro l
    induction l with
    | nil => rfl
    | cons nd l ih => cases nd <;> simp [ih]
  rw [RuleData.lhsIndices, hlhs, hcount]
  exact (hrhs rd.rhs).symm

/-! ## The arrays -/

section
variable {tf}

section

variable {ν : Type} (indexed : ν → Bool) (idx : ν → Nat) (tok : ν → T)

/-- The loop over the left-hand side, for the nodes before they are in the array and after. -/
def setLoop : Nat → List ν → List (RuleNode T) → List (RuleNode T)
  | _, [], rhs => rhs
  | pos, n :: ns, rhs => setLoop (pos + 1) ns (if indexed n then rhs.set (idx n) ⟨pos, tok n⟩ else rhs)

variable {indexed idx tok}

theorem length_setLoop (ns : List ν) : ∀ (pos : Nat) (rhs : List (RuleNode T)),
    (setLoop indexed idx tok pos ns rhs).length = rhs.length := by
  induction ns with
  | nil => intro pos rhs; rfl
  | cons n ns ih =>
    intro pos rhs
    rw [setLoop, ih]
    split
    · exact length_set
    · rfl

theorem setLoop_append (l r : List ν) : ∀ (pos : Nat) (rhs : List (RuleNode T)),
    setLoop indexed idx tok pos (l ++ r) rhs =
      setLoop indexed idx tok (pos + l.length) r (setLoop indexed idx tok pos l rhs) := by
  induction l with
  | nil => intro pos rhs; rfl
  | cons n l ih =>
    intro pos rhs
    rw [cons_append, setLoop, ih, setLoop, length_cons, Nat.add_assoc, Nat.add_comm 1]

/-- Where no variable is put, the loop leaves what there was. -/
theorem setLoop_of_forall_ne {i : Nat} (ns : List ν) : ∀ (pos : Nat) (rhs : List (RuleNode T)),
    (∀ n ∈ ns, indexed n = true → idx n ≠ i) → (setLoop indexed idx tok pos ns rhs)[i]? = rhs[i]? := by
  induction ns with
  | nil => intro pos rhs _; rfl
  | cons n ns ih =>
    intro pos rhs hne
    obtain ⟨hn, hns⟩ := forall_mem_cons.1 hne
    rw [setLoop, ih _ _ hns]
    split
    case isTrue hindexed => exact getElem?_set_ne (hn hindexed)
    case isFalse => rfl

end

theorem lhsLoop_eq (rd : RuleData D) (nds : List LhsNode) : ∀ (pos : Nat) (rhs : List (RuleNode T)),
    lhsLoop tf rd pos nds rhs = setLoop LhsNode.indexed (fun nd => rhsPosition rd nd.index) (tokenFromLhsNode tf) pos nds rhs := by
  induction nds with
  | nil => intro pos rhs; rfl
  | cons nd nds ih => exact fun pos rhs => ih _ _

variable {nd : LhsNode}

variable (tf) in
/-- The last variable that is put to a position stays there. -/
theorem lhsLoop_of_last (rd : RuleData D) (hindexed : nd.indexed = true) (l r : List LhsNode)
    (rhs : List (RuleNode T)) (hpos : rhsPosition rd nd.index < rhs.length)
    (hlast : ∀ nd' ∈ r, nd'.indexed = true → rhsPosition rd nd'.index ≠ rhsPosition rd nd.index) :
    (lhsLoop tf rd 0 (l ++ nd :: r) rhs)[rhsPosition rd nd.index]? = some ⟨l.length, tokenFromLhsNode tf nd⟩ := by
  rw [lhsLoop_eq, setLoop_append, setLoop, setLoop_of_forall_ne r _ _ hlast, if_pos hindexed, Nat.zero_add]
  exact getElem?_set_self (by rw [length_setLoop]; exact hpos)

theorem isNativeTag_tokenFromLhsNode (h : nd.indexed = true) : tf.isNativeTag (tokenFromLhsNode tf nd) = true := by
  unfold tokenFromLhsNode
  rw [if_pos (by rw [h, Bool.true_or])]
  split
  · simp [TokenFactory.isNativeTag, tf.type_toplevelTag]
  · simp [TokenFactory.isNativeTag, tf.type_tag]

theorem indexed_treeNode (hleaf : ∀ nd ∈ rd.lhs, nd.indexed = true → nd.children = false)
    (capacity pos : Nat) (hnd : nd ∈ rd.lhs) : (treeNode tf capacity rd pos nd).indexed tf = nd.indexed := by
  cases hi : nd.indexed with
  | true => simp [TreeNode.indexed, treeNode, isNativeTag_tokenFromLhsNode hi, hleaf nd hnd hi]
  | false =>
    cases hc : nd.children with
    | true => simp [TreeNode.indexed, treeNode, hc]
    | false => simp [TreeNode.indexed, treeNode, TokenFactory.isNativeTag, tokenFromLhsNode, hi, hc, tf.type_nativeWord]

end

/-- Each variable of the right-hand side refers to a leaf that refers back to it, of the same token, and each variable
leaf is referred to once. -/
structure SyntaxRule.Biconnected (r : SyntaxRule T) : Prop where
  leaf : ∀ (i : Nat) rn, r.rhsRule[i]? = some rn → rn.indexed tf = true →
    ∃ n, r.lhsPosition rn = some n ∧ n.isLeaf = true ∧ n.indexed tf = true ∧ n.idx = i ∧ n.t = rn.t
  once : ∀ (j : Nat) n, r.lhsTree[j]? = some n → n.indexed tf = true →
    ∃! i : Nat, ∃ rn, r.rhsRule[i]? = some rn ∧ rn.indexed tf = true ∧ rn.lhsPos = j

section
variable {tf}

variable {v : Nat} {rd : RuleData D}

theorem rhsPosition_lt : rhsPosition rd v < rd.rhs.length ↔ RhsNode.index v ∈ rd.rhs :=
  idxOf_lt_length_iff

/-- With each index once on the left and also on the right, both sides have the same variables. -/
theorem perm_indices (hvars : sameVars rd.lhs rd.rhs = true) (hnodup : rd.lhsIndices.Nodup)
    (hall : ∀ v ∈ rd.lhsIndices, RhsNode.index v ∈ rd.rhs) : rd.lhsIndices.Perm rd.rhsIndices := by
  have hsub : rd.lhsIndices ⊆ rd.rhsIndices := fun v hv => mem_rhsIndices.2 (hall v hv)
  exact (subperm_of_subset hnodup hsub).perm_of_length_le (length_indices hvars).ge

variable {i : Nat}

/-- An index that stands once on the right stands where it is looked up. -/
theorem rhsPosition_eq (hnodup : rd.rhsIndices.Nodup) (h : rd.rhs[i]? = some (.index v)) : rhsPosition rd v = i := by
  have hmem : RhsNode.index v ∈ rd.rhs := mem_of_getElem? h
  have hlt := rhsPosition_lt.2 hmem
  have hat : rd.rhs[rhsPosition rd v]? = some (.index v) := by
    rw [getElem?_eq_getElem hlt]
    exact congrArg some (getElem_idxOf hlt)
  have hpair := pairwise_filterMap.1 hnodup
  rw [pairwise_iff_getElem] at hpair
  have hi := (List.getElem?_eq_some_iff.1 h).1
  obtain ⟨_, hget⟩ := List.getElem?_eq_some_iff.1 h
  obtain ⟨_, hget'⟩ := List.getElem?_eq_some_iff.1 hat
  rcases Nat.lt_trichotomy (rhsPosition rd v) i with hlt' | heq | hgt
  · exact absurd rfl (hpair _ _ hlt hi hlt' v (by rw [hget']) v (by rw [hget]))
  · exact heq
  · exact absurd rfl (hpair _ _ hi hlt hgt v (by rw [hget]) v (by rw [hget']))

variable {R : Reals D} {memory : Int64} {line : Text} {rd : RuleData D} {blank : RuleNode T} {capacity : Nat} {r : SyntaxRule T}

section

variable (hinit : SyntaxRule.init tf blank capacity rd = some r)
include hinit

theorem lhsTree_getElem? (j : Nat) : r.lhsTree[j]? = rd.lhs[j]?.map (treeNode tf capacity rd j) := by
  unfold SyntaxRule.init at hinit
  split at hinit
  · cases hinit
  · obtain rfl := Option.some.inj hinit
    exact getElem?_mapIdx

theorem rhsRule_eq : r.rhsRule = rhsLoop tf rd.rhs (lhsLoop tf rd 0 rd.lhs (replicate rd.rhs.length blank)) := by
  unfold SyntaxRule.init at hinit
  split at hinit
  · cases hinit
  · obtain rfl := Option.some.inj hinit
    rfl

theorem length_rhsRule : r.rhsRule.length = rd.rhs.length := by
  rw [rhsRule_eq hinit, rhsLoop, length_zipWith, lhsLoop_eq, length_setLoop, length_replicate, Nat.min_self]

/-- A word on the right is no variable. -/
theorem rhsRule_word {w : Text} (hw : rd.rhs[i]? = some (.word w))
    {rn : RuleNode T} (hrn : r.rhsRule[i]? = some rn) : rn.indexed tf = false := by
  rw [rhsRule_eq hinit, rhsLoop, List.getElem?_zipWith, hw] at hrn
  split at hrn
  case h_1 nd rn' hnd hrn' =>
    obtain rfl := Option.some.inj hnd
    obtain rfl := Option.some.inj hrn
    simp [RuleNode.indexed, TokenFactory.isNativeTag, tf.type_foreignWord]
  case h_2 => cases hrn

/-- A variable on the right refers to the last leaf with its index. -/
theorem rhsRule_index (hnodup : rd.rhsIndices.Nodup)
    (hi : rd.rhs[i]? = some (.index v)) {nd : LhsNode} {l more : List LhsNode} (hlhs : rd.lhs = l ++ nd :: more)
    (hindexed : nd.indexed = true) (hv : nd.index = v)
    (hlast : ∀ nd' ∈ more, nd'.indexed = true → rhsPosition rd nd'.index ≠ rhsPosition rd nd.index) :
    r.rhsRule[i]? = some ⟨l.length, tokenFromLhsNode tf nd⟩ := by
  subst hv
  have hpos := rhsPosition_eq hnodup hi
  have hloop := lhsLoop_of_last tf rd hindexed l more (replicate rd.rhs.length blank)
    (by rw [length_replicate, rhsPosition_lt]; exact mem_of_getElem? hi) hlast
  rw [← hlhs, hpos] at hloop
  rw [rhsRule_eq hinit, rhsLoop, List.getElem?_zipWith, hi, hloop]

end

theorem biconnected_of_nodup (hparse : parseXrs R memory line = some rd) (hinit : SyntaxRule.init tf blank capacity rd = some r)
    (hnodup : rd.lhsIndices.Nodup) (hall : ∀ v ∈ rd.lhsIndices, RhsNode.index v ∈ rd.rhs) : r.Biconnected tf := by
  obtain ⟨hleaf, hvars⟩ := parseXrs_vars hparse
  have hperm := perm_indices hvars hnodup hall
  have hrhsnodup := hperm.nodup hnodup
  -- each variable on the left is the only one with its index
  have hpair := pairwise_filterMap.1 hnodup
  have hfrom : ∀ (j : Nat) nd, rd.lhs[j]? = some nd → nd.indexed = true → ∀ i : Nat, rd.rhs[i]? = some (.index nd.index) →
      r.rhsRule[i]? = some ⟨j, tokenFromLhsNode tf nd⟩ := by
    intro j nd hj hindexed i hi
    obtain ⟨hlt, hget⟩ := List.getElem?_eq_some_iff.1 hj
    have hlhs : rd.lhs = rd.lhs.take j ++ nd :: rd.lhs.drop (j + 1) := by
      rw [← hget, getElem_cons_drop, take_append_drop]
    have hlast : ∀ nd' ∈ rd.lhs.drop (j + 1), nd'.indexed = true → rhsPosition rd nd'.index ≠ rhsPosition rd nd.index := by
      intro nd' hnd' hindexed' heq
      have hsplit := hpair
      rw [hlhs] at hsplit
      have hrel := rel_of_pairwise_cons (pairwise_append.1 hsplit).2.1 hnd'
      refine hrel nd.index (if_pos hindexed) nd'.index (if_pos hindexed') ?_
      have hmem : RhsNode.index nd'.index ∈ rd.rhs :=
        hall _ (mem_lhsIndices.2 ⟨nd', mem_of_mem_drop hnd', hindexed', rfl⟩)
      have hlt' := rhsPosition_lt.2 hmem
      have hat' : rd.rhs[rhsPosition rd nd'.index]? = some (.index nd'.index) := by
        rw [getElem?_eq_getElem hlt']
        exact congrArg some (getElem_idxOf hlt')
      rw [heq, rhsPosition_eq hrhsnodup hi, hi] at hat'
      exact RhsNode.index.inj (Option.some.inj hat')
    have hrn := rhsRule_index hinit hrhsnodup hi hlhs hindexed rfl hlast
    rwa [length_take, Nat.min_eq_left hlt.le] at hrn
  have hback : ∀ (i : Nat) rn, r.rhsRule[i]? = some rn → rn.indexed tf = true →
      ∃ (j : Nat) (nd : LhsNode), rd.lhs[j]? = some nd ∧ nd.indexed = true ∧ rd.rhs[i]? = some (.index nd.index) := by
    intro i rn hrn hindexed
    have hlt := (List.getElem?_eq_some_iff.1 hrn).1
    rw [length_rhsRule hinit] at hlt
    cases hi : rd.rhs[i]? with
    | none => exact absurd (List.getElem?_eq_none_iff.1 hi) (by omega)
    | some x =>
      cases x with
      | word w => exact absurd hindexed (by rw [rhsRule_word hinit hi hrn]; exact Bool.false_ne_true)
      | index v =>
        have hv := hperm.mem_iff.2 (mem_rhsIndices.2 (mem_of_getElem? hi))
        obtain ⟨nd, hnd, hndi, rfl⟩ := mem_lhsIndices.1 hv
        obtain ⟨j, hj⟩ := mem_iff_getElem?.1 hnd
        exact ⟨j, nd, hj, hndi, rfl⟩
  constructor
  · intro i rn hrn hindexed
    obtain ⟨j, nd, hj, hndi, hi⟩ := hback i rn hrn hindexed
    have hfound := hfrom j nd hj hndi i hi
    rw [hrn] at hfound
    obtain rfl := Option.some.inj hfound
    refine ⟨treeNode tf capacity rd j nd, ?_, ?_, ?_, ?_, rfl⟩
    · rw [SyntaxRule.lhsPosition, lhsTree_getElem? hinit, hj]
      rfl
    · simp [TreeNode.isLeaf, treeNode, hleaf nd (mem_of_getElem? hj) hndi]
    · rw [indexed_treeNode hleaf capacity j (mem_of_getElem? hj), hndi]
    · rw [treeNode, if_pos hndi]
      exact rhsPosition_eq hrhsnodup hi
  · intro j n hn hindexed
    rw [lhsTree_getElem? hinit] at hn
    obtain ⟨nd, hj, rfl⟩ := map_eq_some_iff.1 hn
    rw [indexed_treeNode hleaf capacity j (mem_of_getElem? hj)] at hindexed
    have hmem := hall _ (mem_lhsIndices.2 ⟨nd, mem_of_getElem? hj, hindexed, rfl⟩)
    obtain ⟨i, hi⟩ := mem_iff_getElem?.1 hmem
    refine ⟨i, ⟨_, hfrom j nd hj hindexed i hi, isNativeTag_tokenFromLhsNode hindexed, rfl⟩, ?_⟩
    rintro i' ⟨rn, hrn, hrni, hpos⟩
    obtain ⟨j', nd', hj', hndi', hi'⟩ := hback i' rn hrn hrni
    have hfound := hfrom j' nd' hj' hndi' i' hi'
    rw [hrn] at hfound
    obtain rfl := Option.some.inj hfound
    obtain rfl : j' = j := hpos
    obtain rfl := mem_unique hj' hj
    rw [← rhsPosition_eq hrhsnodup hi, ← rhsPosition_eq hrhsnodup hi']

/-- A repeated index puts two leaves to one position, a missing one puts a leaf behind the last. -/
theorem nodup_of_biconnected (hparse : parseXrs R memory line = some rd) (hinit : SyntaxRule.init tf blank capacity rd = some r)
    (h : r.Biconnected tf) : rd.lhsIndices.Nodup ∧ ∀ v ∈ rd.lhsIndices, RhsNode.index v ∈ rd.rhs := by
  obtain ⟨hleaf, hvars⟩ := parseXrs_vars hparse
  have hreached : ∀ (j : Nat) nd, rd.lhs[j]? = some nd → nd.indexed = true →
      ∃ rn, r.rhsRule[rhsPosition rd nd.index]? = some rn ∧ rn.lhsPos = j := by
    intro j nd hj hindexed
    have htree := lhsTree_getElem? hinit j
    rw [hj] at htree
    obtain ⟨i, ⟨rn, hrn, hrni, hpos⟩, _⟩ := h.once j _ htree
      (by rw [indexed_treeNode hleaf capacity j (mem_of_getElem? hj), hindexed])
    obtain ⟨n, hn, _, _, hidx, _⟩ := h.leaf i rn hrn hrni
    rw [SyntaxRule.lhsPosition, hpos, htree] at hn
    obtain rfl := Option.some.inj hn
    have hi : rhsPosition rd nd.index = i := by simpa [treeNode, hindexed] using hidx
    exact ⟨rn, by rw [hi]; exact hrn, hpos⟩
  constructor
  · refine pairwise_filterMap.2 (pairwise_iff_getElem.2 fun j j' hj hj' hlt v hv v' hv' heq => ?_)
    split at hv
    case isFalse => cases hv
    case isTrue hindexed =>
      split at hv'
      case isFalse => cases hv'
      case isTrue hindexed' =>
        obtain ⟨rn, hrn, hpos⟩ := hreached j _ (getElem?_eq_getElem hj) hindexed
        obtain ⟨rn', hrn', hpos'⟩ := hreached j' _ (getElem?_eq_getElem hj') hindexed'
        rw [Option.some.inj hv, heq, ← Option.some.inj hv', hrn'] at hrn
        obtain rfl := Option.some.inj hrn
        omega
  · intro v hv
    obtain ⟨nd, hnd, hindexed, rfl⟩ := mem_lhsIndices.1 hv
    obtain ⟨j, hj⟩ := mem_iff_getElem?.1 hnd
    obtain ⟨rn, hrn, _⟩ := hreached j nd hj hindexed
    have hlt := (List.getElem?_eq_some_iff.1 hrn).1
    rw [length_rhsRule hinit] at hlt
    exact rhsPosition_lt.1 hlt

/-- **The two sides of a rule refer to each other** just where each variable stands once on the left and on the right as well. -/
theorem init_biconnected_iff (R : Reals D) (tf : TokenFactory T) (blank : RuleNode T) (capacity : Nat) {memory : Int64} {line : Text}
    {rd : RuleData D} {r : SyntaxRule T} (hparse : parseXrs R memory line = some rd)
    (hinit : SyntaxRule.init tf blank capacity rd = some r) :
    r.Biconnected tf ↔ rd.lhsIndices.Nodup ∧ ∀ v ∈ rd.lhsIndices, RhsNode.index v ∈ rd.rhs :=
  ⟨nodup_of_biconnected hparse hinit, fun h => biconnected_of_nodup hparse hinit h.1 h.2⟩

end

/-- `fat_token_factory`: a token is its label and its type. -/
def TokenFactory.fat : TokenFactory (Text × TokenType) where
  type := Prod.snd
  tag l := (l, .tag)
  toplevelTag := ("TOP".toList, .top)
  nativeWord l := (l, .native)
  foreignWord l := (l, .foreign)
  type_tag _ := rfl
  type_toplevelTag := rfl
  type_nativeWord _ := rfl
  type_foreignWord _ := rfl

theorem init_biconnected_swapped : ∃ rd r, parseXrs Reals.digits 0 "A(x0:B x1:C) -> x1 \"a\" x0 ###".toList = some rd ∧
    SyntaxRule.init .fat ⟨7, [], .foreign⟩ 255 rd = some r ∧ r.Biconnected .fat := by
  obtain ⟨rd, hparse⟩ : ∃ rd, parseXrs Reals.digits 0 "A(x0:B x1:C) -> x1 \"a\" x0 ###".toList = some rd :=
    isSome_iff_exists.1 (by decide +kernel)
  have hinits : ((parseXrs Reals.digits 0 "A(x0:B x1:C) -> x1 \"a\" x0 ###".toList).bind
      (SyntaxRule.init .fat ⟨7, [], .foreign⟩ 255)).isSome = true := by decide +kernel
  have hvars : (parseXrs Reals.digits 0 "A(x0:B x1:C) -> x1 \"a\" x0 ###".toList).map (fun rd =>
      decide (rd.lhsIndices.Nodup ∧ ∀ v ∈ rd.lhsIndices, RhsNode.index v ∈ rd.rhs)) = some true := by decide +kernel
  rw [hparse] at hinits hvars
  obtain ⟨r, hinit⟩ := isSome_iff_exists.1 hinits
  exact ⟨rd, r, hparse, hinit, (init_biconnected_iff Reals.digits .fat _ 255 hparse hinit).2
    (of_decide_eq_true (Option.some.inj hvars))⟩

/-- The index 0 stands twice on the left: both leaves are put to the first position. -/
theorem not_init_biconnected : ¬ ∀ (line : Text) (rd : RuleData Nat) (blank : RuleNode (Text × TokenType))
    (r : SyntaxRule (Text × TokenType)), parseXrs Reals.digits 0 line = some rd →
      SyntaxRule.init .fat blank 255 rd = some r → r.Biconnected .fat := by
  intro h
  obtain ⟨rd, hparse⟩ : ∃ rd, parseXrs Reals.digits 0 "A(x0:B x0:C) -> x0 x1 ###".toList = some rd :=
    isSome_iff_exists.1 (by decide +kernel)
  have hinits : ((parseXrs Reals.digits 0 "A(x0:B x0:C) -> x0 x1 ###".toList).bind
      (SyntaxRule.init .fat ⟨7, [], .foreign⟩ 255)).isSome = true := by decide +kernel
  have hvars : (parseXrs Reals.digits 0 "A(x0:B x0:C) -> x0 x1 ###".toList).map (fun rd =>
      decide rd.lhsIndices.Nodup) = some false := by decide +kernel
  rw [hparse] at hinits hvars
  obtain ⟨r, hinit⟩ := isSome_iff_exists.1 hinits
  exact of_decide_eq_false (Option.some.inj hvars) (nodup_of_biconnected hparse hinit (h _ rd _ r hparse hinit)).1

end Sbmt.Xrs
