import Sbmt.Lib.BlockTree

/-!
# ITG bracketing: `stacking` / `combine` / `bracketing`

The binarizer reads an xrs rule as the permutation `Alignment` of its variables and parses it with a
reduce-preferred shift-reduce loop (`itg-binarizer/binal.cc:2326-2428`).

| here | there |
|---|---|
| `Node` | `struct node` (`:200`), `-1` children are `none`, `tag` 1/2/3 is `Tag` |
| `Parse` | the globals `nodes`, `stck`, `top`; the stack is a list with its top first |
| `combine` | `combine` (`:2337`), one equation per pass of the `while` |
| `bracketing` | the loop of `bracketing` (`:2369-2375`); `top` is `stck.length` |

The parser is greedy: it never backtracks. `bracketing_sound_complete` says that nothing is lost by that.
-/

namespace Sbmt.Itg

open Sbmt.Lib List

/-- `node::tag`: 1 a straight node, 2 an inverted node, 3 a leaf. -/
inductive Tag
  | straight
  | inverted
  | leaf
  deriving DecidableEq, Repr, Inhabited

/-- `struct node` (`binal.cc:200`). The constructor leaves the word spans and the label unset. -/
structure Node where
  left : Int
  right : Int
  cLeftIdx : Int := 0
  cRightIdx : Int := 0
  eLeftIdx : Int := 0
  eRightIdx : Int := 0
  leftchild : Option Nat
  rightchild : Option Nat
  tag : Tag
  virt : Bool
  label : List Char := []
  deriving DecidableEq, Repr, Inhabited

/-- The parser's globals. -/
structure Parse where
  nodes : List Node
  stck : List Nat
  deriving DecidableEq, Repr

/-- `#define stacking(lft, rht, aidx, bidx, t, v)`. -/
def stacking (lft rht : Int) (aidx bidx : Option Nat) (t : Tag) (v : Bool) (s : Parse) : Parse where
  nodes := s.nodes ++ [{ left := lft, right := rht, leftchild := aidx, rightchild := bidx, tag := t, virt := v }]
  stck := s.nodes.length :: s.stck

/-- `#define straight(na, nb)`. -/
def straight (na nb : Node) : Bool := na.right == nb.left - 1

/-- `#define inverted(na, nb)`. -/
def inverted (na nb : Node) : Bool := na.left == nb.right + 1

/-- `combine` (`binal.cc:2337`) on a stack whose top is `bidx`: every pass of the loop pops two entries and
pushes their join, so the loop recurses on what lies below the top. -/
def combine (nodes : List Node) (bidx : Nat) : List Nat → Parse
  | [] => ⟨nodes, [bidx]⟩
  | aidx :: rest =>
    let na := nodes.getD aidx default
    let nb := nodes.getD bidx default
    if straight na nb then
      combine (stacking na.left nb.right (some aidx) (some bidx) .straight true ⟨nodes, rest⟩).nodes
        nodes.length rest
    else if inverted na nb then
      combine (stacking nb.left na.right (some aidx) (some bidx) .inverted true ⟨nodes, rest⟩).nodes
        nodes.length rest
    else ⟨nodes, bidx :: aidx :: rest⟩

/-- One turn of the `for` of `bracketing`: shift, then reduce as long as possible. -/
def shift (s : Parse) (a : Int) : Parse :=
  combine (stacking a a none none .leaf false s).nodes s.nodes.length s.stck

/-- The loop of `bracketing` (`binal.cc:2363-2376`). -/
def bracketing (alignment : List Int) : Parse := alignment.foldl shift ⟨[], []⟩

/-! ## The tree stored in the node table -/

/-- A bracketing tree, with the table entry of each of its nodes. -/
inductive ItgTree
  | leaf (nd : Node)
  | node (nd : Node) (l r : ItgTree)

namespace ItgTree

/-- The table entry of the root. -/
def root : ItgTree → Node
  | leaf nd => nd
  | node nd _ _ => nd

/-- The target values of the leaves, in source order. -/
def leaves : ItgTree → List Int
  | leaf nd => [nd.left]
  | node _ l r => l.leaves ++ r.leaves

/-- The shape without the table entries. -/
def toBinTree : ItgTree → BinTree Int
  | leaf nd => .leaf nd.left
  | node _ l r => .node l.toBinTree r.toBinTree

@[simp] theorem leaves_toBinTree : ∀ t : ItgTree, t.toBinTree.leaves = t.leaves
  | leaf _ => rfl
  | node _ l r => by simp [toBinTree, BinTree.leaves, leaves, leaves_toBinTree l, leaves_toBinTree r]

theorem leaves_ne_nil : ∀ t : ItgTree, t.leaves ≠ []
  | leaf _ => by simp [leaves]
  | node _ l r => by simp [leaves, leaves_ne_nil l]

end ItgTree

/-- Entry `i` of the table is the root of `t`: the tree one gets by following the child indices. -/
inductive Reads (nodes : List Node) : Nat → ItgTree → Prop
  | leaf {i nd} : nodes[i]? = some nd → nd.tag = .leaf → nd.leftchild = none → nd.rightchild = none →
      Reads nodes i (.leaf nd)
  | node {i nd a b l r} : nodes[i]? = some nd → nd.tag ≠ .leaf → nd.leftchild = some a → nd.rightchild = some b →
      Reads nodes a l → Reads nodes b r → Reads nodes i (.node nd l r)

variable {i : Nat} {nodes : List Node}

theorem Reads.root {t : ItgTree} (h : Reads nodes i t) : nodes.getD i default = t.root := by
  cases h with
  | leaf h => simp [getD_eq_getElem?_getD, h, ItgTree.root]
  | node h => simp [getD_eq_getElem?_getD, h, ItgTree.root]

variable {nd : Node}

theorem getElem?_push {nd' : Node} (h : nodes[i]? = some nd) : (nodes ++ [nd'])[i]? = some nd := by
  rw [getElem?_append_left (List.getElem?_eq_some_iff.1 h).1]
  exact h

/-- `push_back` never disturbs what is already in the table. -/
theorem Reads.push {t : ItgTree} (h : Reads nodes i t) (nd : Node) : Reads (nodes ++ [nd]) i t := by
  induction h with
  | leaf h ht hl hr => exact .leaf (getElem?_push h) ht hl hr
  | node h ht hl hr _ _ ihl ihr => exact .node (getElem?_push h) ht hl hr ihl ihr

/-- `[left, right]` is exactly the set of the values in `l`. -/
def Covers (nd : Node) (l : List Int) : Prop := ∀ x, x ∈ l ↔ nd.left ≤ x ∧ x ≤ nd.right

/-- What a tag promises about the values under the two children. -/
def Tag.Says : Tag → List Int → List Int → Prop
  | .straight, l, r => ∀ x ∈ l, ∀ y ∈ r, x < y
  | .inverted, l, r => ∀ x ∈ l, ∀ y ∈ r, y < x
  | .leaf, _, _ => False

/-- Every node covers exactly the values of its leaves and is tagged by the order of its children. -/
def ItgTree.Truthful : ItgTree → Prop
  | .leaf nd => Covers nd [nd.left]
  | .node nd l r => Covers nd (l.leaves ++ r.leaves) ∧ nd.tag.Says l.leaves r.leaves ∧ l.Truthful ∧ r.Truthful

theorem ItgTree.Truthful.covers : ∀ {t : ItgTree}, t.Truthful → Covers t.root t.leaves
  | .leaf _, h => h
  | .node _ _ _, h => h.1

theorem Covers.le {l : List Int} (h : Covers nd l) (hl : l ≠ []) : nd.left ≤ nd.right := by
  obtain ⟨x, hx⟩ := exists_mem_of_ne_nil l hl
  have := (h x).1 hx
  omega

theorem Covers.block {l : List Int} (h : Covers nd l) (hl : l ≠ []) : Block l := by
  refine ⟨hl, ⟨fun x hx y hy z hz => ?_⟩⟩
  have hx := (h x).1 hx
  have hy := (h y).1 hy
  exact (h z).2 ⟨le_trans hx.1 hz.1, le_trans hz.2 hy.2⟩

theorem ItgTree.Truthful.intervalwise : ∀ {t : ItgTree}, t.Truthful → t.toBinTree.Intervalwise
  | .leaf _, _ => trivial
  | .node nd l r, h => by
    refine ⟨h.2.2.1.intervalwise, h.2.2.2.intervalwise, ?_⟩
    simpa using h.1.block (by simp [l.leaves_ne_nil])

/-! ## Joining two neighbours of the stack -/

/-- The two topmost entries may be reduced. -/
def Combinable (na nb : Node) : Prop := straight na nb = true ∨ inverted na nb = true

/-- Two disjoint covered blocks with a gapless union are `straight` or `inverted` neighbours. -/
theorem combinable_of_block {na nb : Node} {x y : List Int} (hx : Covers na x) (hy : Covers nb y) (hxne : x ≠ [])
    (hyne : y ≠ []) (hdisj : ∀ a ∈ x, ∀ b ∈ y, a ≠ b) (hb : Block (x ++ y)) : Combinable na nb := by
  have hle1 := hx.le hxne
  have hle2 := hy.le hyne
  have hsep : na.right < nb.left ∨ nb.right < na.left := by
    by_contra hcon
    have hm : max na.left nb.left ∈ x ∧ max na.left nb.left ∈ y := ⟨(hx _).2 (by omega), (hy _).2 (by omega)⟩
    exact hdisj _ hm.1 _ hm.2 rfl
  have hmem : ∀ z, z ∈ x ++ y → (na.left ≤ z ∧ z ≤ na.right) ∨ (nb.left ≤ z ∧ z ≤ nb.right) := fun z hz =>
    (mem_append.1 hz).imp (hx z).1 (hy z).1
  rcases hsep with hlt | hlt
  · -- the point right of `na` lies between the two blocks
    have := hmem (na.right + 1) (hb.conn.out (x := na.right) (y := nb.left) (mem_append.2 (.inl ((hx _).2 (by omega))))
      (mem_append.2 (.inr ((hy _).2 (by omega)))) ⟨by omega, by omega⟩)
    exact .inl (by simp only [straight, beq_iff_eq]; omega)
  · have := hmem (nb.right + 1) (hb.conn.out (x := nb.right) (y := na.left) (mem_append.2 (.inr ((hy _).2 (by omega))))
      (mem_append.2 (.inl ((hx _).2 (by omega)))) ⟨by omega, by omega⟩)
    exact .inr (by simp only [inverted, beq_iff_eq]; omega)

/-- Either way of combining two truthful trees gives one. -/
theorem truthful_node {l r : ItgTree} (hl : l.Truthful) (hr : r.Truthful)
    (h : straight l.root r.root = true ∧ nd.left = l.root.left ∧ nd.right = r.root.right ∧ nd.tag = .straight ∨
      inverted l.root r.root = true ∧ nd.left = r.root.left ∧ nd.right = l.root.right ∧ nd.tag = .inverted) :
    (ItgTree.node nd l r).Truthful := by
  have hcl := hl.covers
  have hcr := hr.covers
  have hle1 := hcl.le l.leaves_ne_nil
  have hle2 := hcr.le r.leaves_ne_nil
  simp only [straight, inverted, beq_iff_eq] at h
  rcases h with ⟨h, hleft, hright, htag⟩ | ⟨h, hleft, hright, htag⟩
  all_goals
    refine ⟨fun x => ?_, ?_, hl, hr⟩
    · rw [mem_append, hcl x, hcr x]
      omega
    · rw [htag]
      intro x hx y hy
      have := (hcl x).1 hx
      have := (hcr y).1 hy
      omega

/-! ## The stack invariant -/

/-- The stack holds truthful trees, top first, that spell out the consumed prefix. -/
structure Stacked (pre : List Int) (s : Parse) (ts : List ItgTree) : Prop where
  reads : Forall₂ (Reads s.nodes) s.stck ts
  truthful : ∀ t ∈ ts, t.Truthful
  yield : (ts.reverse.map ItgTree.leaves).flatten = pre

/-- No two neighbours can be reduced. -/
def Stuck (ts : List ItgTree) : Prop := ts.IsChain fun b a => ¬ Combinable a.root b.root

variable {ts : List ItgTree}

theorem forall₂_push {stck : List Nat} (nd : Node)
    (h : Forall₂ (Reads nodes) stck ts) : Forall₂ (Reads (nodes ++ [nd])) stck ts :=
  h.imp fun _ _ hr => hr.push nd

variable {pre : List Int}

/-- Reducing the two topmost entries to `nd` keeps the invariant. -/
theorem Stacked.reduce {aidx bidx : Nat} {rest : List Nat} {b a : ItgTree}
    (h : Stacked pre ⟨nodes, bidx :: aidx :: rest⟩ (b :: a :: ts))
    (htag : nd.tag ≠ .leaf) (hl : nd.leftchild = some aidx) (hr : nd.rightchild = some bidx)
    (ht : (ItgTree.node nd a b).Truthful) :
    Stacked pre ⟨nodes ++ [nd], nodes.length :: rest⟩ (.node nd a b :: ts) := by
  obtain ⟨hreads, htr, hy⟩ := h
  simp only [List.forall₂_cons] at hreads
  obtain ⟨hb, ha, hrest⟩ := hreads
  refine ⟨?_, ?_, ?_⟩
  · exact .cons (.node (by simp) htag hl hr (ha.push nd) (hb.push nd)) (forall₂_push nd hrest)
  · intro t hmem
    rcases mem_cons.1 hmem with rfl | hmem
    · exact ht
    · exact htr t (by simp [hmem])
  · rw [← hy]
    simp [ItgTree.leaves]

/-- `combine` keeps the invariant and leaves nothing to reduce. The induction follows the stack below the top;
only the pair at the top may still be reducible. -/
theorem combine_spec : ∀ {rest : List Nat} {nodes : List Node} {bidx : Nat} {b : ItgTree}
    {ts : List ItgTree}, Stacked pre ⟨nodes, bidx :: rest⟩ (b :: ts) → Stuck ts →
    ∃ ts', Stacked pre (combine nodes bidx rest) ts' ∧ Stuck ts' ∧ ts' ≠ []
  | [], nodes, bidx, b, ts, h, _ => by
    refine ⟨b :: ts, h, ?_, by simp⟩
    have := h.reads.length_eq
    obtain rfl : ts = [] := by simpa using this
    exact .singleton b
  | aidx :: rest, nodes, bidx, b, [], h, _ => by
    have := h.reads.length_eq
    simp at this
  | aidx :: rest, nodes, bidx, b, a :: ts, h, hs => by
    have hreads := h.reads
    simp only [List.forall₂_cons] at hreads
    have hta := h.truthful a (by simp)
    have htb := h.truthful b (by simp)
    have hs' : Stuck ts := IsChain.tail hs
    simp only [combine, hreads.1.root, hreads.2.1.root]
    split
    · rename_i hst
      exact combine_spec (h.reduce (by simp) rfl rfl (truthful_node hta htb (.inl ⟨hst, rfl, rfl, rfl⟩))) hs'
    · rename_i hst
      split
      · rename_i hinv
        exact combine_spec (h.reduce (by simp) rfl rfl (truthful_node hta htb (.inr ⟨hinv, rfl, rfl, rfl⟩))) hs'
      · rename_i hinv
        refine ⟨b :: a :: ts, h, IsChain.cons_cons ?_ hs, by simp⟩
        rintro (hc | hc)
        · exact hst hc
        · exact hinv hc

variable {s : Parse}

theorem shift_spec (h : Stacked pre s ts) (hs : Stuck ts) (a : Int) :
    ∃ ts', Stacked (pre ++ [a]) (shift s a) ts' ∧ Stuck ts' ∧ ts' ≠ [] := by
  obtain ⟨nodes, stck⟩ := s
  refine combine_spec (?hst : Stacked (pre ++ [a]) (stacking a a none none .leaf false ⟨nodes, stck⟩)
      (.leaf ⟨a, a, 0, 0, 0, 0, none, none, .leaf, false, []⟩ :: ts)) hs
  refine ⟨?_, ?_, ?_⟩
  · exact .cons (.leaf (by simp [stacking]) rfl rfl rfl) (forall₂_push _ h.reads)
  · intro t hmem
    rcases mem_cons.1 hmem with rfl | hmem
    · intro x
      simp only [mem_singleton]
      omega
    · exact h.truthful t hmem
  · have hy := h.yield
    simpa [ItgTree.leaves] using hy

/-- The invariant holds after every turn of the loop. -/
theorem foldl_shift_spec (as : List Int) : ∀ {ts : List ItgTree}, Stacked pre s ts →
    Stuck ts → (pre ≠ [] → ts ≠ []) → ∃ ts', Stacked (pre ++ as) (as.foldl shift s) ts' ∧ Stuck ts' ∧
      (pre ++ as ≠ [] → ts' ≠ []) := by
  induction as generalizing pre s with
  | nil => exact fun {ts} h hs hne => ⟨ts, by simpa using h, hs, by simpa using hne⟩
  | cons a as ih =>
    intro ts h hs hne
    obtain ⟨ts', h', hs', hne'⟩ := shift_spec h hs a
    obtain ⟨ts'', h'', hs'', hne''⟩ := ih h' hs' (fun _ => hne')
    exact ⟨ts'', by simpa using h'', hs'', fun _ => hne'' (by simp)⟩

theorem bracketing_spec (alignment : List Int) :
    ∃ ts, Stacked alignment (bracketing alignment) ts ∧ Stuck ts ∧ (alignment ≠ [] → ts ≠ []) := by
  have hempty : Stacked [] ⟨[], []⟩ [] := ⟨.nil, by simp, by simp⟩
  simpa [bracketing] using foldl_shift_spec alignment hempty .nil (by simp)

/-! ## Soundness and completeness -/

/-- Some binary tree over the source order covers a gapless target interval at every node. A rule without
variables has no tree to build. -/
def Binarizable (alignment : List Int) : Prop :=
  alignment = [] ∨ ∃ t : BinTree Int, t.leaves = alignment ∧ t.Intervalwise

/-- A stuck stack with two or more entries refutes binarizability: `exists_joinable` finds a reducible pair. -/
theorem not_binarizable_of_stuck {alignment : List Int} (h : Stacked alignment s ts)
    (hs : Stuck ts) (hnd : alignment.Nodup) (hlen : 2 ≤ ts.length) : ¬ Binarizable alignment := by
  rintro (rfl | ⟨t, rfl, ht⟩)
  · obtain ⟨t, hmem⟩ := exists_mem_of_length_pos (l := ts) (by omega)
    have := flatten_eq_nil_iff.1 h.yield t.leaves (by simpa using ⟨t, hmem, rfl⟩)
    exact t.leaves_ne_nil this
  · have hblock : ∀ b ∈ ts.reverse.map ItgTree.leaves, Block b := by
      intro b hb
      obtain ⟨u, hu, rfl⟩ := mem_map.1 hb
      exact (h.truthful u (by simpa using hu)).covers.block u.leaves_ne_nil
    obtain ⟨pre, x, y, post, he, hxy⟩ :=
      BinTree.exists_joinable ht hnd h.yield hblock (by simpa using hlen)
    rw [map_eq_append_iff] at he
    obtain ⟨us, vs, hus, rfl, hvs⟩ := he
    obtain ⟨a, vs', rfl, rfl, hvs'⟩ := map_eq_cons_iff.1 hvs
    obtain ⟨b, vs, rfl, rfl, -⟩ := map_eq_cons_iff.1 hvs'
    have hts : ts = vs.reverse ++ b :: a :: us.reverse := by
      have := congrArg List.reverse hus
      simpa using this
    have hchain : ¬ Combinable a.root b.root := by
      have := hs
      rw [hts] at this
      exact (isChain_append.1 this).2.1.rel
    have hnd' := h.yield ▸ hnd
    have hdisj : ∀ p ∈ a.leaves, ∀ q ∈ b.leaves, p ≠ q := by
      rw [hus] at hnd'
      simp only [map_append, map_cons, flatten_append, flatten_cons, nodup_append] at hnd'
      intro p hp q hq
      exact hnd'.2.1.2.2 p hp q (by simp [hq])
    exact hchain (combinable_of_block (h.truthful a (by simp [hts])).covers (h.truthful b (by simp [hts])).covers
      a.leaves_ne_nil b.leaves_ne_nil hdisj hxy)

/-- **The shift-reduce bracketer is sound and complete.** For every permutation of `1..n` the loop ends with at
most one stack entry iff the permutation is binarizable; and then (there being variables at all) that entry is the
root of a tree over the whole `Alignment` in source order, whose nodes cover exactly the values of their leaves
and are tagged by the true order of their children. -/
theorem bracketing_sound_complete (n : Nat) (alignment : List Int)
    (hperm : alignment.Perm ((range n).map fun i : Nat => (i : Int) + 1)) :
    ((bracketing alignment).stck.length ≤ 1 ↔ Binarizable alignment) ∧
    ((bracketing alignment).stck.length ≤ 1 →
      (alignment = [] ∧ (bracketing alignment).stck = []) ∨
      ∃ i t, (bracketing alignment).stck = [i] ∧ Reads (bracketing alignment).nodes i t ∧
        t.leaves = alignment ∧ t.Truthful) := by
  have hnd : alignment.Nodup := by
    refine hperm.nodup_iff.2 (Nodup.map ?_ nodup_range)
    intro i j h
    have : (i : Int) + 1 = j + 1 := h
    omega
  obtain ⟨ts, h, hs, hne⟩ := bracketing_spec alignment
  have hlen := h.reads.length_eq
  have hroot : (bracketing alignment).stck.length ≤ 1 →
      (alignment = [] ∧ (bracketing alignment).stck = []) ∨
      ∃ i t, (bracketing alignment).stck = [i] ∧ Reads (bracketing alignment).nodes i t ∧
        t.leaves = alignment ∧ t.Truthful := by
    intro hle
    match ts, hlen, h, hne with
    | [], hlen, _, hne =>
      exact .inl ⟨by simpa using hne, by simpa using hlen⟩
    | [t], hlen, h, _ =>
      obtain ⟨i, hi⟩ := length_eq_one_iff.1 (by simpa using hlen)
      have hr := h.reads
      rw [hi] at hr
      exact .inr ⟨i, t, hi, by simpa using hr, by simpa using h.yield, h.truthful t (by simp)⟩
    | _ :: _ :: _, hlen, _, _ => simp at hlen; omega
  refine ⟨⟨fun hle => ?_, fun hbin => ?_⟩, hroot⟩
  · rcases hroot hle with ⟨hnil, -⟩ | ⟨i, t, -, -, hy, ht⟩
    · exact .inl hnil
    · exact .inr ⟨t.toBinTree, by simpa using hy, ht.intervalwise⟩
  · by_contra hgt
    exact not_binarizable_of_stuck h hs hnd (by omega) hbin

/-- The permutation `3 1 2` of the README's kind: binarizable, and parsed to one inverted node over a straight one. -/
theorem bracketing_sound_complete_312 : (bracketing [3, 1, 2]).stck.length ≤ 1 ∧ Binarizable [3, 1, 2] := by
  have hlen : (bracketing [3, 1, 2]).stck.length ≤ 1 := by decide
  exact ⟨hlen, (bracketing_sound_complete 3 [3, 1, 2] (by decide)).1.1 hlen⟩

end Sbmt.Itg
