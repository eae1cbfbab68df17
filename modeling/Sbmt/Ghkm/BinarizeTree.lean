import Sbmt.Ghkm.Binarize

/-!
# What a signature says of a parse

The groups of nodes that the binarizer names: a word, a preterminal, all
children of a node, or at least two of them in a row (`Group`). A group has a
meaning, the nodes that a derivation from its OR node should spell, and a rank,
which falls from a group to those it is split into (`Parts`).

The text of a signature gives back its label, span and flag (`text_injective`).
Two groups of one signature have the same meaning and rank, unless a node stands
above another one with its label and span (`Distinct`, `eq_of_labSpanSig`).
-/

namespace Sbmt.Ghkm

open Sbmt.Lib Sbmt.Lib.Phrase List

/-! ## The text of a signature -/

theorem append_space_inj {u v w z : Text} (hv : ∀ c ∈ v, c ≠ ' ') (hz : ∀ c ∈ z, c ≠ ' ')
    (h : u ++ ' ' :: v = w ++ ' ' :: z) : u = w ∧ v = z := by
  rcases append_eq_append_iff.1 h with ⟨a, hw, ha⟩ | ⟨a, hu, ha⟩
  · cases a with
    | nil => exact ⟨by simpa using hw.symm, by simpa using ha⟩
    | cons c a =>
      simp only [cons_append, List.cons.injEq] at ha
      exact absurd rfl (hv ' ' (by rw [ha.2]; simp))
  · cases a with
    | nil => exact ⟨by simpa using hu, by simpa using ha.symm⟩
    | cons c a =>
      simp only [cons_append, List.cons.injEq] at ha
      exact absurd rfl (hz ' ' (by rw [ha.2]; simp))

theorem showNat_no_space (n : Nat) : ∀ c ∈ showNat n, c ≠ ' ' := by
  rintro c hc rfl
  exact absurd (isDigit_of_mem_showNat hc) (by decide)

/-- The label may hold any characters; the fields after it are read from the right. -/
theorem LabSpanSig.text_injective {s s' : LabSpanSig} (h : s.text = s'.text) : s = s' := by
  have hflag : ∀ b : Bool, ∀ c ∈ [if b then '1' else '0', '\n'], c ≠ ' ' := by
    intro b
    cases b <;> simp
  have hassoc : ∀ s : LabSpanSig, s.text = ((s.label.toList ++ ' ' :: showNat s.span.1) ++ ' ' :: showNat s.span.2) ++
      ' ' :: [if s.isInternal then '1' else '0', '\n'] := by
    simp [LabSpanSig.text]
  rw [hassoc, hassoc] at h
  obtain ⟨h, hint⟩ := append_space_inj (hflag _) (hflag _) h
  obtain ⟨h, hsecond⟩ := append_space_inj (showNat_no_space _) (showNat_no_space _) h
  obtain ⟨hlabel, hfirst⟩ := append_space_inj (showNat_no_space _) (showNat_no_space _) h
  obtain ⟨l, b, i, j⟩ := s
  obtain ⟨l', b', i', j'⟩ := s'
  obtain rfl := String.toList_inj.1 hlabel
  obtain rfl := showNat_injective hfirst
  obtain rfl := showNat_injective hsecond
  cases b <;> cases b' <;> simp_all

/-! ## Spans in a parse -/

namespace TreeNode

def eSpan (t : TreeNode) : Interval := t.data.eSpan

/-- The spans that the reader leaves: one word at a leaf, and from the first child to the last, one after the other. -/
def Contiguous : TreeNode → Prop
  | .node d [] => d.eSpan.1 = d.eSpan.2
  | .node d (t :: ts) => d.eSpan = innerSpan (t :: ts) d.eSpan ∧
    (t :: ts).IsChain fun x y => y.data.eSpan.1 = x.data.eSpan.2 + 1

/-- No node stands above another one with its label and span. -/
def Distinct (root : TreeNode) : Prop :=
  ∀ m ∈ root.nodes, ∀ m' ∈ m.nodes, m'.data.cat = m.data.cat → m'.data.eSpan = m.data.eSpan → m' = m

end TreeNode

open TreeNode

variable {root m m' p p' t t' : TreeNode} {ts sibs sibs' : List TreeNode}

theorem mem_nodes_trans (hm : m ∈ t.nodes) : t ∈ root.nodes → m ∈ root.nodes := by
  induction root using TreeNode.induct with
  | h d ts ih =>
    intro ht
    rcases TreeNode.mem_nodes.1 ht with rfl | ⟨c, hc, htc⟩
    · exact hm
    · exact TreeNode.mem_nodes.2 (.inr ⟨c, hc, ih c hc htc⟩)

theorem mem_nodes_of_mem_subtrees (h : t ∈ p.subtrees) : t ∈ p.nodes := by
  cases p with
  | node d ts => exact TreeNode.mem_nodes.2 (.inr ⟨t, h, t.self_mem_nodes⟩)

theorem sizeOf_lt_of_mem_subtrees (h : t ∈ p.subtrees) : sizeOf t < sizeOf p := by
  cases p with
  | node d ts =>
    have := sizeOf_lt_of_mem h
    rw [TreeNode.node.sizeOf_spec]
    simp only [subtrees] at this
    omega

section
variable (hspans : ∀ m ∈ root.nodes, m.Contiguous)
include hspans

theorem contiguous_of_mem (hm : m ∈ root.nodes) : ∀ m' ∈ m.nodes, m'.Contiguous :=
  fun _ hm' => hspans _ (mem_nodes_trans hm' hm)

omit hspans in
theorem pairwise_of_isChain (hle : ∀ t ∈ ts, t.eSpan.1 ≤ t.eSpan.2)
    (h : ts.IsChain fun x y => y.data.eSpan.1 = x.data.eSpan.2 + 1) : ts.Pairwise fun x y => x.eSpan.2 < y.eSpan.1 := by
  induction ts with
  | nil => exact .nil
  | cons t ts ih =>
    have htail := ih (fun u hu => hle u (mem_cons_of_mem _ hu)) h.tail
    refine pairwise_cons.2 ⟨?_, htail⟩
    cases ts with
    | nil => simp
    | cons u us =>
      have hnext : u.eSpan.1 = t.eSpan.2 + 1 := (isChain_cons_cons.1 h).1
      have hu := hle u (by simp)
      rintro v (_ | ⟨_, hv⟩)
      · omega
      · have := rel_of_pairwise_cons htail hv
        omega

omit hspans in
/-- The first and the last of the spans enclose all. -/
theorem innerSpan_encloses (hle : ∀ t ∈ ts, t.eSpan.1 ≤ t.eSpan.2) (hapart : ts.Pairwise fun x y => x.eSpan.2 < y.eSpan.1)
    (s : Interval) (ht : t ∈ ts) : (innerSpan ts s).1 ≤ t.eSpan.1 ∧ t.eSpan.2 ≤ (innerSpan ts s).2 := by
  constructor
  · cases ts with
    | nil => exact absurd ht not_mem_nil
    | cons u us =>
      show u.eSpan.1 ≤ t.eSpan.1
      rcases mem_cons.1 ht with rfl | ht
      · exact le_rfl
      · have hlt := rel_of_pairwise_cons hapart ht
        have hu := hle u mem_cons_self
        omega
  · rcases eq_nil_or_concat ts with rfl | ⟨us, v, rfl⟩
    · exact absurd ht not_mem_nil
    · have hlast : (innerSpan (us.concat v) s).2 = v.eSpan.2 := by simp [innerSpan, eSpan]
      rw [hlast]
      rw [concat_eq_append] at ht hapart hle
      rcases mem_append.1 ht with ht | ht
      · have hlt := (pairwise_append.1 hapart).2.2 t ht v (mem_singleton_self v)
        have hv := hle v (by simp)
        omega
      · rw [mem_singleton.1 ht]

theorem span_le : root.eSpan.1 ≤ root.eSpan.2 := by
  induction root using TreeNode.induct with
  | h d ts ih =>
    have hroot := hspans _ (TreeNode.self_mem_nodes _)
    cases ts with
    | nil => exact Nat.le_of_eq hroot
    | cons t ts =>
      have hle : ∀ u ∈ t :: ts, u.eSpan.1 ≤ u.eSpan.2 := fun u hu =>
        ih u hu fun m hm => hspans m (TreeNode.mem_nodes.2 (.inr ⟨u, hu, hm⟩))
      have hhull := innerSpan_encloses hle (pairwise_of_isChain hle hroot.2) d.eSpan mem_cons_self
      have ht := hle t mem_cons_self
      show d.eSpan.1 ≤ d.eSpan.2
      rw [hroot.1]
      omega

theorem span_le_of_mem (hm : m ∈ root.nodes) : m.eSpan.1 ≤ m.eSpan.2 := span_le (contiguous_of_mem hspans hm)

theorem subtrees_apart (hp : p ∈ root.nodes) : p.subtrees.Pairwise fun x y => x.eSpan.2 < y.eSpan.1 := by
  have hcont := hspans p hp
  have hle : ∀ t ∈ p.subtrees, t.eSpan.1 ≤ t.eSpan.2 := fun t ht =>
    span_le_of_mem hspans (mem_nodes_trans (mem_nodes_of_mem_subtrees ht) hp)
  rcases p with ⟨d, _ | ⟨t, ts⟩⟩
  · exact .nil
  · exact pairwise_of_isChain hle hcont.2

theorem eSpan_eq_innerSpan (hp : p ∈ root.nodes) (hsub : p.subtrees ≠ []) (s : Interval) : p.eSpan = innerSpan p.subtrees s := by
  have hcont := hspans p hp
  rcases p with ⟨d, _ | ⟨t, ts⟩⟩
  · exact absurd rfl hsub
  · rw [eSpan, data, hcont.1]
    simp [innerSpan, subtrees, getLast?_cons]

theorem subtree_span (hp : p ∈ root.nodes) (ht : t ∈ p.subtrees) : p.eSpan.1 ≤ t.eSpan.1 ∧ t.eSpan.2 ≤ p.eSpan.2 := by
  rw [eSpan_eq_innerSpan hspans hp (ne_nil_of_mem ht) (0, 0)]
  exact innerSpan_encloses (fun u hu => span_le_of_mem hspans (mem_nodes_trans (mem_nodes_of_mem_subtrees hu) hp))
    (subtrees_apart hspans hp) _ ht

/-- What stands below a node lies within its span. -/
theorem node_span (hm : m ∈ root.nodes) : root.eSpan.1 ≤ m.eSpan.1 ∧ m.eSpan.2 ≤ root.eSpan.2 := by
  induction root using TreeNode.induct with
  | h d ts ih =>
    rcases TreeNode.mem_nodes.1 hm with rfl | ⟨t, ht, hmt⟩
    · exact ⟨le_rfl, le_rfl⟩
    · have hbelow := ih t ht (fun m hm => hspans m (TreeNode.mem_nodes.2 (.inr ⟨t, ht, hm⟩))) hmt
      have htop := subtree_span hspans (TreeNode.self_mem_nodes _) ht
      omega

/-- Two children that have a word in common are one. -/
theorem subtree_eq (hp : p ∈ root.nodes) (ht : t ∈ p.subtrees) (ht' : t' ∈ p.subtrees)
    (h : t.eSpan.1 ≤ t'.eSpan.2) (h' : t'.eSpan.1 ≤ t.eSpan.2) : t = t' := by
  by_contra hne
  have hsymm : p.subtrees.Pairwise fun x y => x.eSpan.2 < y.eSpan.1 ∨ y.eSpan.2 < x.eSpan.1 :=
    (subtrees_apart hspans hp).imp fun h => .inl h
  have : Std.Symm fun x y : TreeNode => x.eSpan.2 < y.eSpan.1 ∨ y.eSpan.2 < x.eSpan.1 := ⟨fun _ _ => Or.symm⟩
  have hapart := hsymm.forall ht ht' hne
  omega

/-- Two nodes that have a word in common stand one above the other. -/
theorem above_or_below (hm : m ∈ root.nodes) (hm' : m' ∈ root.nodes) (h : m.eSpan.1 ≤ m'.eSpan.2)
    (h' : m'.eSpan.1 ≤ m.eSpan.2) : m ∈ m'.nodes ∨ m' ∈ m.nodes := by
  induction root using TreeNode.induct with
  | h d ts ih =>
    rcases TreeNode.mem_nodes.1 hm with rfl | ⟨t, ht, hmt⟩
    · exact .inr hm'
    rcases TreeNode.mem_nodes.1 hm' with rfl | ⟨t', ht', hmt'⟩
    · exact .inl hm
    have hbelow : ∀ u ∈ ts, ∀ m ∈ u.nodes, m.Contiguous := fun u hu m hm =>
      hspans m (TreeNode.mem_nodes.2 (.inr ⟨u, hu, hm⟩))
    have hin := node_span (hbelow t ht) hmt
    have hin' := node_span (hbelow t' ht') hmt'
    obtain rfl := subtree_eq hspans (TreeNode.self_mem_nodes _) ht ht' (by omega) (by omega)
    exact ih t ht (hbelow t ht) hmt hmt'

theorem Distinct.eq (hdistinct : root.Distinct) (hm : m ∈ root.nodes) (hm' : m' ∈ root.nodes)
    (hcat : m.data.cat = m'.data.cat) (hspan : m.eSpan = m'.eSpan) : m = m' := by
  have hle := span_le_of_mem hspans hm
  rcases above_or_below hspans hm hm' (hspan ▸ hle) (hspan ▸ hle) with h | h
  · exact hdistinct m' hm' m h hcat hspan
  · exact (hdistinct m hm m' h hcat.symm hspan.symm).symm

end

/-! ## Groups -/

/-- What the binarizer makes OR nodes for, under `p`. -/
inductive Group (root p : TreeNode) : List TreeNode → Prop
  | word (hp : p ∈ root.nodes) (hleaf : p.subtrees = []) : Group root p []
  | tag (hp : p ∈ root.nodes) (hleaf : p.subtrees = []) : Group root p [p]
  | row {s : List TreeNode} (hp : p ∈ root.nodes) (hne : s ≠ []) (hrow : s <:+: p.subtrees)
      (hmany : s = p.subtrees ∨ 2 ≤ s.length) : Group root p s

/-- A tree of labels. -/
inductive Labelled where
  | node (label : String) (kids : List Labelled)

mutual

/-- The parse with each word a node of its own. -/
def TreeNode.shown : TreeNode → Labelled
  | .node d [] => .node d.cat [.node d.word []]
  | .node d (t :: ts) => .node d.cat (t.shown :: TreeNode.shownAll ts)

def TreeNode.shownAll : List TreeNode → List Labelled
  | [] => []
  | t :: ts => t.shown :: TreeNode.shownAll ts

end

theorem shownAll_eq (ts : List TreeNode) : TreeNode.shownAll ts = ts.map shown := by
  induction ts with
  | nil => rfl
  | cons t ts ih => rw [TreeNode.shownAll, ih, map_cons]

theorem shown_leaf (h : p.subtrees = []) : p.shown = .node p.data.cat [.node p.data.word []] := by
  rcases p with ⟨d, _ | ⟨t, ts⟩⟩
  · rfl
  · exact absurd h (cons_ne_nil _ _)

theorem shown_inner (h : p.subtrees ≠ []) : p.shown = .node p.data.cat (p.subtrees.map shown) := by
  rcases p with ⟨d, _ | ⟨t, ts⟩⟩
  · exact absurd rfl h
  · rw [shown, shownAll_eq]
    rfl

/-- Made for a factored-out group. -/
def isBar (label : String) : Bool := "-BAR".toList.isSuffixOf label.toList

/-- What the branches of a group spell together. -/
def content (p : TreeNode) (sibs : List TreeNode) : List Labelled :=
  if sibs = [] then [] else if p.subtrees = [] then [.node p.data.word []] else sibs.map shown

/-- What the OR node of a group spells. -/
def meaning (p : TreeNode) (sibs : List TreeNode) : List Labelled :=
  if sibs = [] then [.node p.data.word []]
  else if sibs.length < p.subtrees.length then sibs.map shown
  else [p.shown]

def rank (p : TreeNode) (sibs : List TreeNode) : Nat :=
  if sibs = [] then 1 else if p.subtrees = [] then 2 else TreeNode.weightOf sibs

theorem group_branchOf (hp : p ∈ root.nodes) : Group root p (branchOf p) := by
  unfold branchOf
  split
  case isTrue hleaf => exact .tag hp hleaf
  case isFalse hsub => exact .row hp hsub (infix_refl _) (.inl rfl)

theorem meaning_branchOf (p : TreeNode) : meaning p (branchOf p) = [p.shown] := by
  unfold meaning branchOf
  split <;> simp_all

theorem weightOf_subtrees_lt (p : TreeNode) : TreeNode.weightOf p.subtrees < p.weight := by
  rcases p with ⟨d, _ | ⟨t, ts⟩⟩
  · simp [weightOf, weight, subtrees]
  · simp only [subtrees, weight, weightOf]
    omega

theorem weight_pos (t : TreeNode) : 0 < t.weight := by
  have := weightOf_subtrees_lt t
  omega

theorem weightOf_append (ts us : List TreeNode) : TreeNode.weightOf (ts ++ us) = TreeNode.weightOf ts + TreeNode.weightOf us := by
  induction ts with
  | nil => simp [weightOf]
  | cons t ts ih =>
    rw [cons_append, weightOf, weightOf]
    omega

theorem weight_le (h : t ∈ ts) : t.weight ≤ TreeNode.weightOf ts := by
  obtain ⟨l, r, rfl⟩ := mem_iff_append.1 h
  rw [weightOf_append, weightOf]
  omega

theorem rank_branchOf_lt (p : TreeNode) : rank p (branchOf p) < p.weight := by
  unfold rank branchOf
  by_cases hleaf : p.subtrees = []
  · rcases p with ⟨d, _ | ⟨t, ts⟩⟩
    · simp [subtrees, weight]
    · exact absurd hleaf (cons_ne_nil _ _)
  · simp only [hleaf, if_false]
    exact weightOf_subtrees_lt p

/-! ## Signatures of groups -/

theorem sort_eq (srt : IntervalSort) {l : List Interval} (h : l.Pairwise fun i j => i.1 < j.1) : srt.sort l = l := by
  have hdistinct : ∀ i ∈ l, ∀ j ∈ l, i.1 = j.1 → i = j := by
    intro i hi j hj hij
    by_contra hne
    have : Std.Symm fun i j : Interval => i.1 ≠ j.1 := ⟨fun _ _ => Ne.symm⟩
    exact (h.imp Nat.ne_of_lt).forall hi hj hne hij
  refine (srt.perm l).eq_of_pairwise (fun i j hi hj hij hji => ?_) (srt.sorted l) (h.imp Nat.le_of_lt)
  exact hdistinct i ((srt.perm l).mem_iff.1 hi) j hj (Nat.le_antisymm hij hji)

/-- How far a span reaches. -/
def width (i : Interval) : Nat := i.2 + 1 - i.1

/-- One span lies within another. -/
def Within (i j : Interval) : Prop := j.1 ≤ i.1 ∧ i.2 ≤ j.2

theorem innerSpan_within (hle : ∀ t ∈ ts, t.eSpan.1 ≤ t.eSpan.2) (hapart : ts.Pairwise fun x y => x.eSpan.2 < y.eSpan.1)
    (hne : sibs ≠ []) (hsub : sibs ⊆ ts) (s s' : Interval) : Within (innerSpan sibs s) (innerSpan ts s') := by
  obtain ⟨t, us, rfl⟩ := exists_cons_of_ne_nil hne
  constructor
  · exact (innerSpan_encloses hle hapart s' (hsub mem_cons_self)).1
  · have hlast := hsub (getLast_mem hne)
    exact (innerSpan_encloses hle hapart s' hlast).2

section
variable (srt : IntervalSort) (hspans : ∀ m ∈ root.nodes, m.Contiguous)
include hspans

namespace Group

omit hspans

theorem mem (h : Group root p sibs) : p ∈ root.nodes := by
  cases h with
  | word hp _ => exact hp
  | tag hp _ => exact hp
  | row hp _ _ _ => exact hp

/-- A word, a node with all below it, or some of the children. -/
theorem kinds (h : Group root p sibs) : (sibs = [] ∧ p.subtrees = []) ∨ sibs = branchOf p ∨
    (sibs <:+: p.subtrees ∧ 2 ≤ sibs.length ∧ sibs.length < p.subtrees.length) := by
  cases h with
  | word _ hleaf => exact .inl ⟨rfl, hleaf⟩
  | tag _ hleaf => exact .inr (.inl (by rw [branchOf, if_pos hleaf]))
  | row _ hne hrow hmany =>
    rcases Nat.lt_or_ge sibs.length p.subtrees.length with hlt | hge
    · refine .inr (.inr ⟨hrow, hmany.resolve_left ?_, hlt⟩)
      rintro rfl
      exact lt_irrefl _ hlt
    · obtain rfl := hrow.sublist.eq_of_length_le hge
      exact .inr (.inl (by rw [branchOf, if_neg hne]))

end Group

section

omit hspans in
/-- Of nodes in order, those in a row are the ones within their span. -/
theorem infix_eq_filter (hle : ∀ t ∈ ts, t.eSpan.1 ≤ t.eSpan.2) (hapart : ts.Pairwise fun x y => x.eSpan.2 < y.eSpan.1)
    (hne : sibs ≠ []) (hrow : sibs <:+: ts) (s : Interval) :
    sibs = ts.filter fun t => decide ((innerSpan sibs s).1 ≤ t.eSpan.1) && decide (t.eSpan.2 ≤ (innerSpan sibs s).2) := by
  obtain ⟨l, r, rfl⟩ := hrow
  obtain ⟨hleft, hright, hbetween⟩ := pairwise_append.1 hapart
  obtain ⟨hl, hsibs, hlsibs⟩ := pairwise_append.1 hleft
  have hencl := fun t (ht : t ∈ sibs) => innerSpan_encloses (fun u hu => hle u (by simp [hu])) hsibs s ht
  obtain ⟨u, hu⟩ := exists_mem_of_ne_nil sibs hne
  have hfirst : ∃ u ∈ sibs, u.eSpan.1 = (innerSpan sibs s).1 := by
    obtain ⟨t, us, rfl⟩ := exists_cons_of_ne_nil hne
    exact ⟨t, mem_cons_self, rfl⟩
  have hlast : ∃ u ∈ sibs, u.eSpan.2 = (innerSpan sibs s).2 :=
    ⟨_, getLast_mem hne, by simp [innerSpan, getLast?_eq_some_getLast hne, eSpan]⟩
  have hnol : l.filter (fun t => decide ((innerSpan sibs s).1 ≤ t.eSpan.1) && decide (t.eSpan.2 ≤ (innerSpan sibs s).2)) = [] := by
    rw [filter_eq_nil_iff]
    intro x hx
    obtain ⟨u, hu, hfirst⟩ := hfirst
    have hxu := hlsibs x hx u hu
    have hxle := hle x (by simp [hx])
    simp only [Bool.and_eq_true, decide_eq_true_eq]
    omega
  have hnor : r.filter (fun t => decide ((innerSpan sibs s).1 ≤ t.eSpan.1) && decide (t.eSpan.2 ≤ (innerSpan sibs s).2)) = [] := by
    rw [filter_eq_nil_iff]
    intro x hx
    obtain ⟨u, hu, hlast⟩ := hlast
    have hux := hbetween u (by simp [hu]) x hx
    have hxle := hle x (by simp [hx])
    simp only [Bool.and_eq_true, decide_eq_true_eq]
    omega
  rw [filter_append, filter_append, hnol, hnor, nil_append, append_nil, eq_comm, filter_eq_self]
  intro t ht
  have := hencl t ht
  simp [this]

variable (hp : p ∈ root.nodes)
include hp

theorem row_le (hsub : sibs ⊆ p.subtrees) : ∀ t ∈ sibs, t.eSpan.1 ≤ t.eSpan.2 :=
  fun _ ht => span_le_of_mem hspans (mem_nodes_trans (mem_nodes_of_mem_subtrees (hsub ht)) hp)

theorem row_apart (hrow : sibs <:+: p.subtrees) :
    sibs.Pairwise fun x y => x.eSpan.2 < y.eSpan.1 := (subtrees_apart hspans hp).sublist hrow.sublist

omit hp in
theorem labSpanSig_span (h : Group root p sibs) : (labSpanSig srt p sibs).span = innerSpan sibs p.eSpan := by
  have hsorted : ∀ l : List TreeNode, (l.map fun t => t.data.eSpan).Pairwise (fun i j => i.1 < j.1) →
      srt.sort (l.map fun t => t.data.eSpan) = l.map fun t => t.data.eSpan := fun l hl => sort_eq srt hl
  have hsingle : srt.sort [p.data.eSpan] = [p.data.eSpan] := hsorted [p] (pairwise_singleton _ _)
  cases h with
  | word _ _ => simp [labSpanSig, hsingle, innerSpan, eSpan]
  | tag _ _ => simp [labSpanSig, hsingle, innerSpan, eSpan]
  | row hp hne hrow _ =>
    have hle := row_le hspans hp hrow.subset
    have hapart := row_apart hspans hp hrow
    have hfirsts := hsorted sibs (pairwise_map.2 (hapart.imp_of_mem fun hx _ hxy => Nat.lt_of_le_of_lt (hle _ hx) hxy))
    simp only [labSpanSig, if_neg hne, hfirsts]
    obtain ⟨t, us, rfl⟩ := exists_cons_of_ne_nil hne
    simp [innerSpan, getLast?_cons]

theorem labSpanSig_word (hleaf : p.subtrees = []) : labSpanSig srt p [] = ⟨p.data.word, false, p.eSpan⟩ := by
  have hspan := labSpanSig_span srt hspans (.word hp hleaf)
  rw [← show innerSpan [] p.eSpan = p.eSpan from rfl, ← hspan]
  simp [labSpanSig]

theorem labSpanSig_branchOf : labSpanSig srt p (branchOf p) = ⟨p.data.cat, true, p.eSpan⟩ := by
  have hspan := labSpanSig_span srt hspans (group_branchOf hp)
  have hinner : innerSpan (branchOf p) p.eSpan = p.eSpan := by
    unfold branchOf
    split
    case isTrue hleaf => rfl
    case isFalse hsub => exact (eSpan_eq_innerSpan hspans hp hsub _).symm
  rw [hinner] at hspan
  rw [← hspan]
  unfold labSpanSig branchOf
  split <;> simp_all

theorem labSpanSig_part (hrow : sibs <:+: p.subtrees) (hmany : 2 ≤ sibs.length)
    (hlt : sibs.length < p.subtrees.length) :
    labSpanSig srt p sibs = ⟨p.data.cat ++ "-BAR", true, innerSpan sibs p.eSpan⟩ := by
  have hne : sibs ≠ [] := by
    rintro rfl
    simp at hmany
  rw [← labSpanSig_span srt hspans (.row hp hne hrow (.inr hmany))]
  simp [labSpanSig, hne, hlt]

/-- Some, but at least two, of the children of a node never span what some children of a node below it do. -/
theorem part_eq_of_mem (hbelow : p' ∈ p.nodes) (hrow : sibs <:+: p.subtrees)
    (hrow' : sibs' <:+: p'.subtrees) (hmany : 2 ≤ sibs.length) (hmany' : 2 ≤ sibs'.length) {s s' : Interval}
    (heq : innerSpan sibs s = innerSpan sibs' s') : p = p' ∧ sibs = sibs' := by
  have hp' := mem_nodes_trans hbelow hp
  have hle := row_le hspans hp hrow.subset
  have hapart := row_apart hspans hp hrow
  have hne' : sibs' ≠ [] := by
    rintro rfl
    simp at hmany'
  have hne : sibs ≠ [] := by
    rintro rfl
    simp at hmany
  have hcases : p' = p ∨ ∃ c ∈ p.subtrees, p' ∈ c.nodes := by
    cases p with
    | node d ts => exact TreeNode.mem_nodes.1 hbelow
  rcases hcases with rfl | ⟨c, hc, hpc⟩
  · refine ⟨rfl, ?_⟩
    have hles := row_le hspans hp (List.Subset.refl _)
    rw [infix_eq_filter hles (subtrees_apart hspans hp) hne hrow s,
      infix_eq_filter hles (subtrees_apart hspans hp) hne' hrow' s', heq]
  · -- the two first of `sibs` would both share words with the child `c`
    obtain ⟨h, l, us, rfl⟩ : ∃ h l us, sibs = h :: l :: us := by
      rcases sibs with _ | ⟨h, _ | ⟨l, us⟩⟩
      · exact absurd rfl hne
      · simp at hmany
      · exact ⟨h, l, us, rfl⟩
    have hcroot := mem_nodes_trans (mem_nodes_of_mem_subtrees hc) hp
    have hpc := node_span (contiguous_of_mem hspans hcroot) hpc
    have hsub' : p'.subtrees ≠ [] := fun h => hne' (infix_nil.1 (h ▸ hrow'))
    have hwithin' := innerSpan_within (row_le hspans hp' (List.Subset.refl _)) (subtrees_apart hspans hp') hne'
      hrow'.subset s' s'
    rw [← eSpan_eq_innerSpan hspans hp' hsub' s', ← heq] at hwithin'
    have hencl := fun t ht => innerSpan_encloses (t := t) hle hapart s ht
    have hh := hencl h (by simp)
    have hl := hencl l (by simp)
    have hhle := hle h (by simp)
    have hlle := hle l (by simp)
    have hhl : h.eSpan.2 < l.eSpan.1 := rel_of_pairwise_cons hapart mem_cons_self
    obtain ⟨hw, hw'⟩ := hwithin'
    have hhc := subtree_eq hspans hp (hrow.subset (by simp)) hc (t := h) (by omega) (by omega)
    rw [hhc] at hhl
    omega

theorem part_eq (hp' : p' ∈ root.nodes) (hrow : sibs <:+: p.subtrees)
    (hrow' : sibs' <:+: p'.subtrees) (hmany : 2 ≤ sibs.length) (hmany' : 2 ≤ sibs'.length) {s s' : Interval}
    (heq : innerSpan sibs s = innerSpan sibs' s') : p = p' ∧ sibs = sibs' := by
  have hwithin : ∀ {p : TreeNode} {sibs : List TreeNode} {s : Interval}, p ∈ root.nodes → sibs <:+: p.subtrees →
      2 ≤ sibs.length → Within (innerSpan sibs s) p.eSpan ∧ (innerSpan sibs s).1 ≤ (innerSpan sibs s).2 := by
    intro p sibs s hp hrow hmany
    have hne : sibs ≠ [] := by
      rintro rfl
      simp at hmany
    have hsub : p.subtrees ≠ [] := fun h => hne (infix_nil.1 (h ▸ hrow))
    constructor
    · rw [eSpan_eq_innerSpan hspans hp hsub s]
      exact innerSpan_within (row_le hspans hp (List.Subset.refl _)) (subtrees_apart hspans hp) hne hrow.subset s s
    · obtain ⟨t, ht⟩ := exists_mem_of_ne_nil sibs hne
      have hle := row_le hspans hp hrow.subset
      have hencl := innerSpan_encloses hle (row_apart hspans hp hrow) s ht
      have := hle t ht
      omega
  obtain ⟨⟨h1, h2⟩, hle⟩ := hwithin (s := s) hp hrow hmany
  obtain ⟨⟨h1', h2'⟩, hle'⟩ := hwithin (s := s') hp' hrow' hmany'
  rw [heq] at h1 h2
  rcases above_or_below hspans hp hp' (by omega) (by omega) with h | h
  · obtain ⟨hpp, hss⟩ := part_eq_of_mem hspans hp' h hrow' hrow hmany' hmany heq.symm
    exact ⟨hpp.symm, hss.symm⟩
  · exact part_eq_of_mem hspans hp h hrow hrow' hmany hmany' heq

end

omit hspans in
theorem meaning_part (hmany : 2 ≤ sibs.length) (hlt : sibs.length < p.subtrees.length) : meaning p sibs = sibs.map shown := by
  have hne : sibs ≠ [] := by
    rintro rfl
    simp at hmany
  rw [meaning, if_neg hne, if_pos hlt]

omit hspans in
theorem isBar_append (label : String) : isBar (label ++ "-BAR") = true := by
  unfold isBar
  rw [String.toList_append, isSuffixOf_iff_suffix]
  exact suffix_append _ _

/-- Under labels of its own, a group is known by its signature. -/
theorem eq_of_labSpanSig (hdistinct : root.Distinct) (hbar : ∀ m ∈ root.nodes, isBar m.data.cat = false)
    (h : Group root p sibs) (h' : Group root p' sibs') (heq : labSpanSig srt p sibs = labSpanSig srt p' sibs') :
    meaning p sibs = meaning p' sibs' ∧ rank p sibs = rank p' sibs' := by
  have hp := h.mem
  have hp' := h'.mem
  have hlabel : ∀ m m' : TreeNode, m ∈ root.nodes → m.data.cat ≠ m'.data.cat ++ "-BAR" := by
    intro m m' hm hcat
    have hno := hbar m hm
    rw [hcat, isBar_append] at hno
    cases hno
  rcases h.kinds with ⟨rfl, hleaf⟩ | rfl | ⟨hrow, hmany, hlt⟩ <;>
    rcases h'.kinds with ⟨rfl, hleaf'⟩ | rfl | ⟨hrow', hmany', hlt'⟩
  · rw [labSpanSig_word srt hspans hp hleaf, labSpanSig_word srt hspans hp' hleaf'] at heq
    simp only [LabSpanSig.mk.injEq] at heq
    simp [meaning, rank, heq.1]
  · rw [labSpanSig_word srt hspans hp hleaf, labSpanSig_branchOf srt hspans hp'] at heq
    simp at heq
  · rw [labSpanSig_word srt hspans hp hleaf, labSpanSig_part srt hspans hp' hrow' hmany' hlt'] at heq
    simp at heq
  · rw [labSpanSig_branchOf srt hspans hp, labSpanSig_word srt hspans hp' hleaf'] at heq
    simp at heq
  · rw [labSpanSig_branchOf srt hspans hp, labSpanSig_branchOf srt hspans hp'] at heq
    simp only [LabSpanSig.mk.injEq] at heq
    obtain rfl := Distinct.eq hspans hdistinct hp hp' heq.1 heq.2.2
    exact ⟨rfl, rfl⟩
  · rw [labSpanSig_branchOf srt hspans hp, labSpanSig_part srt hspans hp' hrow' hmany' hlt'] at heq
    simp only [LabSpanSig.mk.injEq] at heq
    exact absurd heq.1 (hlabel p p' hp)
  · rw [labSpanSig_part srt hspans hp hrow hmany hlt, labSpanSig_word srt hspans hp' hleaf'] at heq
    simp at heq
  · rw [labSpanSig_part srt hspans hp hrow hmany hlt, labSpanSig_branchOf srt hspans hp'] at heq
    simp only [LabSpanSig.mk.injEq] at heq
    exact absurd heq.1.symm (hlabel p' p hp')
  · rw [labSpanSig_part srt hspans hp hrow hmany hlt, labSpanSig_part srt hspans hp' hrow' hmany' hlt'] at heq
    simp only [LabSpanSig.mk.injEq] at heq
    obtain ⟨rfl, rfl⟩ := part_eq hspans hp hp' hrow hrow' hmany hmany' heq.2.2
    exact ⟨rfl, rfl⟩

end

/-! ## How many words a group has -/

mutual

def Labelled.leaves : Labelled → Nat
  | .node _ [] => 1
  | .node _ (t :: ts) => t.leaves + Labelled.leavesOf ts

def Labelled.leavesOf : List Labelled → Nat
  | [] => 0
  | t :: ts => t.leaves + Labelled.leavesOf ts

end

open Labelled

theorem leaves_node (l : String) {ts : List Labelled} (h : ts ≠ []) : (Labelled.node l ts).leaves = leavesOf ts := by
  cases ts with
  | nil => exact absurd rfl h
  | cons t ts => rfl

theorem leavesOf_append (ts us : List Labelled) : leavesOf (ts ++ us) = leavesOf ts + leavesOf us := by
  induction ts with
  | nil => simp [leavesOf]
  | cons t ts ih =>
    rw [cons_append, leavesOf, leavesOf]
    omega

/-- Children reach as far together as the span over them. -/
theorem leavesOf_row (hne : ts ≠ []) (hle : ∀ t ∈ ts, t.eSpan.1 ≤ t.eSpan.2)
    (hleaves : ∀ t ∈ ts, t.shown.leaves = width t.eSpan)
    (hchain : ts.IsChain fun x y => y.data.eSpan.1 = x.data.eSpan.2 + 1) (s : Interval) :
    leavesOf (ts.map shown) = width (innerSpan ts s) := by
  induction ts with
  | nil => exact absurd rfl hne
  | cons t us ih =>
    have ht := hleaves t mem_cons_self
    cases us with
    | nil => simpa [leavesOf, innerSpan, eSpan] using ht
    | cons u us =>
      have htail := ih (cons_ne_nil _ _) (fun x hx => hle x (mem_cons_of_mem _ hx))
        (fun x hx => hleaves x (mem_cons_of_mem _ hx)) hchain.tail
      have hencl := innerSpan_encloses (fun x hx => hle x (mem_cons_of_mem _ hx))
        (pairwise_of_isChain (fun x hx => hle x (mem_cons_of_mem _ hx)) hchain.tail) s mem_cons_self
      have hnext : u.eSpan.1 = t.eSpan.2 + 1 := (isChain_cons_cons.1 hchain).1
      have hfirst : (innerSpan (u :: us) s).1 = u.eSpan.1 := rfl
      have hlast : (innerSpan (t :: u :: us) s).2 = (innerSpan (u :: us) s).2 := by
        simp [innerSpan, getLast?_cons]
      have hstart : (innerSpan (t :: u :: us) s).1 = t.eSpan.1 := rfl
      have hlet := hle t mem_cons_self
      have hleu := hle u (by simp)
      rw [map_cons, leavesOf, htail, ht]
      unfold width
      omega

section
variable (srt : IntervalSort) (hspans : ∀ m ∈ root.nodes, m.Contiguous)
include hspans

theorem subtrees_chain (hp : p ∈ root.nodes) : p.subtrees.IsChain fun x y => y.data.eSpan.1 = x.data.eSpan.2 + 1 := by
  have hcont := hspans p hp
  rcases p with ⟨d, _ | ⟨t, ts⟩⟩
  · exact .nil
  · exact hcont.2

theorem leaves_shown : root.shown.leaves = width root.eSpan := by
  induction root using TreeNode.induct with
  | h d ts ih =>
    have hself := TreeNode.self_mem_nodes (.node d ts)
    cases ts with
    | nil =>
      have hroot : d.eSpan.1 = d.eSpan.2 := hspans _ hself
      simp [shown, leaves, leavesOf, width, eSpan, data, hroot]
    | cons t ts =>
      have hleaves : ∀ u ∈ t :: ts, u.shown.leaves = width u.eSpan := fun u hu =>
        ih u hu fun m hm => hspans m (TreeNode.mem_nodes.2 (.inr ⟨u, hu, hm⟩))
      have hsub : (TreeNode.node d (t :: ts)).subtrees ≠ [] := cons_ne_nil _ _
      rw [shown_inner hsub, eSpan_eq_innerSpan hspans hself hsub (0, 0)]
      exact leavesOf_row (cons_ne_nil _ _) (row_le hspans hself (List.Subset.refl _)) hleaves
        (subtrees_chain hspans hself) _

theorem leavesOf_meaning (h : Group root p sibs) : leavesOf (meaning p sibs) = width (labSpanSig srt p sibs).span := by
  have hp := h.mem
  have hshown : ∀ m ∈ root.nodes, m.shown.leaves = width m.eSpan := fun m hm => leaves_shown (contiguous_of_mem hspans hm)
  rcases h.kinds with ⟨rfl, hleaf⟩ | rfl | ⟨hrow, hmany, hlt⟩
  · have hroot : p.data.eSpan.1 = p.data.eSpan.2 := by
      have hcont := hspans p hp
      rcases p with ⟨d, _ | ⟨t, ts⟩⟩
      · exact hcont
      · exact absurd hleaf (cons_ne_nil _ _)
    rw [labSpanSig_word srt hspans hp hleaf]
    simp [meaning, leavesOf, leaves, width, eSpan, hroot]
  · rw [labSpanSig_branchOf srt hspans hp, meaning_branchOf]
    simp [leavesOf, hshown p hp]
  · have hne : sibs ≠ [] := by
      rintro rfl
      simp at hmany
    rw [labSpanSig_part srt hspans hp hrow hmany hlt, meaning_part hmany hlt]
    have hchain := IsChain.infix (subtrees_chain hspans hp) hrow
    exact leavesOf_row hne (row_le hspans hp hrow.subset)
      (fun t ht => hshown t (mem_nodes_trans (mem_nodes_of_mem_subtrees (hrow.subset ht)) hp)) hchain _

end

/-! ## Splitting a group -/

/-- Groups that one AND node may branch to. -/
structure Parts (srt : IntervalSort) (root p : TreeNode) (sibs : List TreeNode) (gs : List (TreeNode × List TreeNode)) :
    Prop where
  group : ∀ g ∈ gs, Group root g.1 g.2
  falls : ∀ g ∈ gs, rank g.1 g.2 < rank p sibs
  within : ∀ g ∈ gs, Within (labSpanSig srt g.1 g.2).span (labSpanSig srt p sibs).span
  spells : gs.flatMap (fun g => meaning g.1 g.2) = content p sibs

/-- What `flatBranches` generates for `t`. -/
def flatGroup (p : TreeNode) (sibs : List TreeNode) (t : TreeNode) : List TreeNode :=
  if t.subtrees = [] then (if sibs.head? = some p then [] else [t]) else t.subtrees

theorem content_row (hne : sibs ≠ []) (hsub : p.subtrees ≠ []) : content p sibs = sibs.map shown := by
  rw [content, if_neg hne, if_neg hsub]

theorem rank_row (hne : sibs ≠ []) (hsub : p.subtrees ≠ []) : rank p sibs = TreeNode.weightOf sibs := by
  rw [rank, if_neg hne, if_neg hsub]

theorem leavesOf_content (h : Group root p sibs) (hne : sibs ≠ []) : leavesOf (content p sibs) = leavesOf (meaning p sibs) := by
  cases h with
  | word _ _ => exact absurd rfl hne
  | tag _ hleaf => simp [content, meaning, hleaf, shown_leaf hleaf, leavesOf, leaves]
  | row _ _ hrow _ =>
    have hsub : p.subtrees ≠ [] := fun h => hne (infix_nil.1 (h ▸ hrow))
    rw [content_row hne hsub]
    rcases Nat.lt_or_ge sibs.length p.subtrees.length with hlt | hge
    · rw [meaning, if_neg hne, if_pos hlt]
    · obtain rfl := hrow.sublist.eq_of_length_le hge
      rw [meaning, shown_inner hsub]
      simp [leavesOf, leaves_node, hne]

section
variable (srt : IntervalSort) (hspans : ∀ m ∈ root.nodes, m.Contiguous)
include hspans

/-- A branch over one of the children in a row. -/
theorem branchOf_within (hp : p ∈ root.nodes) (hrow : sibs <:+: p.subtrees) (hmany : sibs = p.subtrees ∨ 2 ≤ sibs.length)
    (ht : t ∈ sibs) : Group root t (branchOf t) ∧ rank t (branchOf t) < rank p sibs ∧
      Within (labSpanSig srt t (branchOf t)).span (labSpanSig srt p sibs).span := by
  have hne := ne_nil_of_mem ht
  have hsub : p.subtrees ≠ [] := fun h => hne (infix_nil.1 (h ▸ hrow))
  have htroot := mem_nodes_trans (mem_nodes_of_mem_subtrees (hrow.subset ht)) hp
  refine ⟨group_branchOf htroot, ?_, ?_⟩
  · have hweight := weight_le ht
    have hlt := rank_branchOf_lt t
    rw [rank_row hne hsub]
    omega
  · rw [labSpanSig_branchOf srt hspans htroot, labSpanSig_span srt hspans (.row hp hne hrow hmany)]
    exact innerSpan_encloses (row_le hspans hp hrow.subset) (row_apart hspans hp hrow) _ ht

/-- A row of at least two, shorter by a node at one of its ends. -/
theorem shorter_within (hp : p ∈ root.nodes) (hrow : sibs <:+: p.subtrees) (hmany : 2 ≤ sibs'.length)
    (hshorter : sibs' <:+: sibs) (hlt : sibs'.length < sibs.length) : Group root p sibs' ∧ rank p sibs' < rank p sibs ∧
      Within (labSpanSig srt p sibs').span (labSpanSig srt p sibs).span ∧ meaning p sibs' = sibs'.map shown := by
  have hne' : sibs' ≠ [] := by
    rintro rfl
    simp at hmany
  have hne : sibs ≠ [] := fun h => hne' (infix_nil.1 (h ▸ hshorter))
  have hsub : p.subtrees ≠ [] := fun h => hne (infix_nil.1 (h ▸ hrow))
  have hgroup : Group root p sibs' := .row hp hne' (hshorter.trans hrow) (.inr hmany)
  refine ⟨hgroup, ?_, ?_, meaning_part hmany (Nat.lt_of_lt_of_le hlt hrow.length_le)⟩
  · rw [rank_row hne' hsub, rank_row hne hsub]
    obtain ⟨l, r, rfl⟩ := hshorter
    rw [weightOf_append, weightOf_append]
    have hpos : 0 < TreeNode.weightOf l + TreeNode.weightOf r := by
      have hout : ∃ t, t ∈ l ∨ t ∈ r := by
        by_contra hno
        push Not at hno
        have hl := eq_nil_iff_forall_not_mem.2 fun t => (hno t).1
        have hr := eq_nil_iff_forall_not_mem.2 fun t => (hno t).2
        simp [hl, hr] at hlt
      obtain ⟨t, ht⟩ := hout
      have hpos := weight_pos t
      rcases ht with ht | ht
      · have := weight_le ht
        omega
      · have := weight_le ht
        omega
    omega
  · rw [labSpanSig_span srt hspans hgroup, labSpanSig_span srt hspans (.row hp hne hrow (.inr (by omega)))]
    exact innerSpan_within (row_le hspans hp hrow.subset) (row_apart hspans hp hrow) hne' hshorter.subset _ _

theorem parts_flat (h : Group root p sibs) : Parts srt root p sibs (sibs.map fun t => (t, flatGroup p sibs t)) := by
  cases h with
  | word hp hleaf =>
    exact ⟨by simp, by simp, by simp, by simp [content]⟩
  | tag hp hleaf =>
    have hflat : flatGroup p [p] p = [] := by simp [flatGroup, hleaf]
    have hword := labSpanSig_word srt hspans hp hleaf
    have hbranch : branchOf p = [p] := by rw [branchOf, if_pos hleaf]
    have htag := labSpanSig_branchOf srt hspans hp
    rw [hbranch] at htag
    simp only [map_cons, map_nil, hflat]
    refine ⟨by simpa using .word hp hleaf, by simp [rank, hleaf], ?_, by simp [meaning, content, hleaf]⟩
    simp [hword, htag, Within]
  | row hp hne hrow hmany =>
    have hsub : p.subtrees ≠ [] := fun h => hne (infix_nil.1 (h ▸ hrow))
    have hhead : sibs.head? ≠ some p := by
      intro hhead
      have hlt := sizeOf_lt_of_mem_subtrees (hrow.subset (mem_of_head? hhead))
      exact lt_irrefl _ hlt
    have hflat : ∀ t, flatGroup p sibs t = branchOf t := fun t => by simp [flatGroup, branchOf, hhead]
    have hone := fun t (ht : t ∈ sibs) => branchOf_within srt hspans hp hrow hmany ht
    simp only [hflat]
    refine ⟨?_, ?_, ?_, ?_⟩
    · exact forall_mem_map.2 fun t ht => (hone t ht).1
    · exact forall_mem_map.2 fun t ht => (hone t ht).2.1
    · exact forall_mem_map.2 fun t ht => (hone t ht).2.2
    · rw [content_row hne hsub, flatMap_map]
      simp only [meaning_branchOf]
      exact flatMap_singleton' (sibs.map shown) ▸ by simp [flatMap_map]

omit hspans in
/-- A row of three or more is one of the children. -/
theorem Group.row_of_length (h : Group root p sibs) (hlong : 3 ≤ sibs.length) : p ∈ root.nodes ∧ sibs <:+: p.subtrees := by
  cases h with
  | word _ _ => simp at hlong
  | tag _ _ => simp at hlong
  | row hp _ hrow _ => exact ⟨hp, hrow⟩

theorem parts_right {us : List TreeNode} (h : Group root p (t :: us)) (hlong : 2 ≤ us.length) :
    Parts srt root p (t :: us) [(t, branchOf t), (p, us)] := by
  obtain ⟨hp, hrow⟩ := h.row_of_length (by simpa using hlong)
  have hsub : p.subtrees ≠ [] := fun h => cons_ne_nil _ _ (infix_nil.1 (h ▸ hrow))
  obtain ⟨hgroup, hfalls, hwithin⟩ := branchOf_within srt hspans hp hrow (.inr (by simp; omega)) mem_cons_self
  obtain ⟨hgroup', hfalls', hwithin', hmeaning⟩ := shorter_within srt hspans hp hrow hlong
    (suffix_cons t us).isInfix (by simp)
  refine ⟨?_, ?_, ?_, ?_⟩
  · simpa using ⟨hgroup, hgroup'⟩
  · simpa using ⟨hfalls, hfalls'⟩
  · simpa using ⟨hwithin, hwithin'⟩
  · simp [meaning_branchOf, hmeaning, content_row (cons_ne_nil t us) hsub]

theorem parts_left {us : List TreeNode} (h : Group root p (us ++ [t])) (hlong : 2 ≤ us.length) :
    Parts srt root p (us ++ [t]) [(p, us), (t, branchOf t)] := by
  obtain ⟨hp, hrow⟩ := h.row_of_length (by simpa using hlong)
  have hne : us ++ [t] ≠ [] := by simp
  have hsub : p.subtrees ≠ [] := fun h => hne (infix_nil.1 (h ▸ hrow))
  obtain ⟨hgroup, hfalls, hwithin⟩ := branchOf_within srt hspans hp hrow (.inr (by simp; omega))
    (mem_append_right us mem_cons_self)
  obtain ⟨hgroup', hfalls', hwithin', hmeaning⟩ := shorter_within srt hspans hp hrow hlong
    (prefix_append us [t]).isInfix (by simp)
  refine ⟨?_, ?_, ?_, ?_⟩
  · simpa using ⟨hgroup', hgroup⟩
  · simpa using ⟨hfalls', hfalls⟩
  · simpa using ⟨hwithin', hwithin⟩
  · simp [meaning_branchOf, hmeaning, content_row hne hsub]

end

end Sbmt.Ghkm
