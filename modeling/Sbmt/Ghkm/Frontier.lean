import Sbmt.Ghkm.Tree
import Sbmt.Lib.Fallible

/-!
# Frontier nodes

After the three passes the spans of a node are the hulls of the target positions
aligned to the words below it, joined across unaligned positions, and its
complement spans are those of the positions aligned to the other words. From
this the two tests, on the number of spans and on their neighbours, come down to
the definition of a frontier node.
-/

namespace Sbmt.Ghkm

open Sbmt.Lib List

/-! ## The definition -/

namespace Alignment

variable (a : Alignment)

/-- The target position is aligned to a word of `U`. -/
def AlignedTo (U : Nat → Prop) (t : Nat) : Prop := ∃ s ∈ a.targetToSource t, U s

/-- Some word of `U` is aligned, and no target position from the smallest to the largest one that is aligned to `U` is
aligned to a word that is not in `U`. -/
def IsFrontier (U : Nat → Prop) : Prop :=
  (∃ t, a.AlignedTo U t) ∧
    ∀ l t r, a.AlignedTo U l → a.AlignedTo U r → l ≤ t → t ≤ r → ¬ a.AlignedTo (fun s => ¬ U s) t

/-- The spans are in order, pairwise disjoint, and cover the positions aligned to `U` and the unaligned ones between two
of them with no aligned position of another kind in between. -/
structure SpansOf (U : Nat → Prop) (s : List Interval) : Prop where
  le : ∀ i ∈ s, i.1 ≤ i.2
  disjoint : s.Pairwise fun i j => i.2 < j.1
  covered : ∀ p, Covered s p ↔ a.AlignedTo U p ∨ (a.targetToSource p = [] ∧ ∃ l r, l < p ∧ p < r ∧ a.AlignedTo U l ∧
    a.AlignedTo U r ∧ ∀ q, l < q → q < r → a.targetToSource q ≠ [] → a.AlignedTo U q)

variable {a} {U : Nat → Prop} {t : Nat}

theorem AlignedTo.lt (h : a.AlignedTo U t) : t < a.targetAlignmentLen := by
  obtain ⟨s, hs, -⟩ := h
  by_contra hge
  rw [targetToSource, getD_eq_default _ _ (not_lt.1 hge)] at hs
  cases hs

theorem AlignedTo.blocks (h : a.AlignedTo U t) : a.blocks t = true := by
  obtain ⟨s, hs, -⟩ := h
  unfold Alignment.blocks
  cases htab : a.targetToSource t with
  | nil =>
    rw [htab] at hs
    cases hs
  | cons _ _ => simp

theorem blocks_iff (h : t < a.targetAlignmentLen) : a.blocks t = true ↔ a.targetToSource t ≠ [] := by
  unfold blocks
  simp [not_le.2 h]

/-- A position that is aligned is aligned to a word of `U` or to another. -/
theorem alignedTo_or_not (h : a.targetToSource t ≠ []) : a.AlignedTo U t ∨ a.AlignedTo (fun s => ¬ U s) t := by
  obtain ⟨s, hs⟩ := exists_mem_of_ne_nil _ h
  by_cases hU : U s
  · exact .inl ⟨s, hs, hU⟩
  · exact .inr ⟨s, hs, hU⟩

theorem spansOf_hulls {s : List Interval} (h : Hulls a.blocks (a.AlignedTo U) s) (hspaced : Spaced a.blocks s) :
    a.SpansOf U s where
  le i hi := (h.hull i hi).le
  disjoint := hspaced.imp fun ⟨_, hl, hr, _⟩ => hl.trans hr
  covered p := by
    rw [h.covered_iff hspaced (fun q hq => hq.blocks) p]
    constructor
    · rintro (hp | ⟨hfree, l, r, hl, hr, hUl, hUr, hbetween⟩)
      · exact .inl hp
      · have hlt : ∀ {q : Nat}, q < r → q < a.targetAlignmentLen := fun hq => hq.trans hUr.lt
        refine .inr ⟨?_, l, r, hl, hr, hUl, hUr, fun q hlq hqr hq => hbetween q hlq hqr ((blocks_iff (hlt hqr)).2 hq)⟩
        by_contra hne
        rw [(blocks_iff (hlt hr)).2 hne] at hfree
        cases hfree
    · rintro (hp | ⟨hfree, l, r, hl, hr, hUl, hUr, hbetween⟩)
      · exact .inl hp
      · have hlt : ∀ {q : Nat}, q < r → q < a.targetAlignmentLen := fun hq => hq.trans hUr.lt
        refine .inr ⟨Bool.eq_false_iff.2 fun hblock => (blocks_iff (hlt hr)).1 hblock hfree, l, r, hl, hr, hUl, hUr,
          fun q hlq hqr hq => hbetween q hlq hqr ((blocks_iff (hlt hqr)).1 hq)⟩

end Alignment

/-! ## The words below a node -/

namespace TreeNode

theorem words_ne_nil (t : TreeNode) : t.words ≠ [] := by
  induction t using TreeNode.induct with
  | h d ts ih =>
    cases ts with
    | nil => exact cons_ne_nil _ _
    | cons t ts => exact append_ne_nil_of_left_ne_nil (ih t mem_cons_self) _

/-- If the words of a tree are consecutive, so are those below each of its nodes. -/
theorem words_consecutive (t : TreeNode) : ∀ {b k : Nat}, t.words = range' b k →
    ∀ m ∈ t.nodes, ∃ b k, m.words = range' b k := by
  induction t using TreeNode.induct with
  | h d ts ih =>
    intro b k hwords m hm
    rcases mem_nodes.1 hm with rfl | ⟨t, ht, hmt⟩
    · exact ⟨b, k, hwords⟩
    · rw [words_node d (ne_nil_of_mem ht)] at hwords
      obtain ⟨before, after, rfl⟩ := append_of_mem ht
      rw [flatMap_append] at hwords
      obtain ⟨k1, -, -, hrest⟩ := range'_eq_append_iff.1 hwords.symm
      obtain ⟨k2, -, ht', -⟩ := range'_eq_append_iff.1 hrest.symm
      exact ih t ht ht' m hmt

end TreeNode

/-! ## Bottom up: the alignment spans -/

/-- A node as its constructor leaves it, below which the leaves carry positions of the source sentence. -/
structure Fresh (a : Alignment) (m : TreeNode) : Prop where
  comp : m.data.cCompSpans = []
  extraction : m.data.extractionNode = false
  frontier : m.data.frontierNode = false
  leaf : m.subtrees = [] → m.data.eSpan.2 = m.data.eSpan.1 ∧ m.data.eSpan.1 < a.sourceAlignmentLen

/-- What `assign_alignment_spans` leaves at a node. -/
structure Spanned (a : Alignment) (m : TreeNode) : Prop where
  hulls : Hulls a.blocks (a.AlignedTo (· ∈ m.words)) m.data.cSpans
  spaced : Spaced a.blocks m.data.cSpans
  first : m.words.head? = some m.data.eSpan.1
  last : m.words.getLast? = some m.data.eSpan.2
  extraction : m.data.extractionNode = (cleanEnglishToChinese m.data && cleanChineseToEnglish a m.data)

variable {srt : IntervalSort} {a : Alignment}

theorem checkExtraction_eq (d : NodeData) (h : d.extractionNode = false) :
    checkExtraction a d = { d with extractionNode := cleanEnglishToChinese d && cleanChineseToEnglish a d } := by
  unfold checkExtraction
  cases hclean : cleanEnglishToChinese d && cleanChineseToEnglish a d with
  | true => rfl
  | false =>
    rw [if_neg Bool.false_ne_true, ← h]

theorem hulls_leafSpans (d : NodeData) :
    Hulls a.blocks (a.AlignedTo (· ∈ [d.eSpan.1])) (leafSpans srt a d) := by
  refine ((hulls_points _).coalesce srt).congr fun q => ?_
  rw [mem_filter, decide_eq_true_eq]
  constructor
  · rintro ⟨hq, -⟩
    exact ⟨d.eSpan.1, (a.mirror _ _).1 hq, mem_singleton_self _⟩
  · rintro ⟨s, hs, hmem⟩
    cases mem_singleton.1 hmem
    exact ⟨(a.mirror _ _).2 hs, Alignment.AlignedTo.lt (U := fun _ => True) ⟨_, hs, trivial⟩⟩

variable {ts : List TreeNode}

theorem hulls_innerSpans (h : ∀ t ∈ ts, Hulls a.blocks (a.AlignedTo (· ∈ t.words)) t.data.cSpans) :
    Hulls a.blocks (a.AlignedTo (· ∈ ts.flatMap TreeNode.words)) (innerSpans srt a ts) := by
  have hvalid : (ts.flatMap fun t => t.data.cSpans.filter fun c =>
      decide (c.1 < a.targetAlignmentLen) && decide (c.2 < a.targetAlignmentLen)) = ts.flatMap fun t => t.data.cSpans := by
    apply flatMap_congr
    intro t ht
    refine filter_eq_self.2 fun c hc => ?_
    have hhull := (h t ht).hull c hc
    rw [decide_eq_true hhull.first.lt, decide_eq_true hhull.last.lt]
    rfl
  unfold innerSpans mergeSpans
  rw [hvalid]
  refine ((hulls_flatMap h).coalesce srt).congr fun q => ?_
  simp only [mem_flatMap]
  constructor
  · rintro ⟨t, ht, s, hs, hmem⟩
    exact ⟨s, hs, t, ht, hmem⟩
  · rintro ⟨s, hs, t, ht, hmem⟩
    exact ⟨t, ht, s, hs, hmem⟩

variable {t : TreeNode}

theorem head?_flatMap_words : ((t :: ts).flatMap TreeNode.words).head? = t.words.head? := by
  rw [flatMap_cons, head?_append_of_ne_nil _ t.words_ne_nil]

theorem getLast?_flatMap_words (h : ts.getLast? = some t) :
    (ts.flatMap TreeNode.words).getLast? = t.words.getLast? := by
  obtain ⟨before, rfl⟩ := getLast?_eq_some_iff.1 h
  rw [flatMap_append, flatMap_singleton, getLast?_append_of_ne_nil _ t.words_ne_nil]

/-- The nodes of one tree are those of another, in the same order and over the same words. -/
def SameWords (t t' : TreeNode) : Prop := t'.words = t.words ∧ t'.nodes.map TreeNode.words = t.nodes.map TreeNode.words

theorem SameWords.trans {t' t'' : TreeNode} (h : SameWords t t') (h' : SameWords t' t'') : SameWords t t'' :=
  ⟨h'.1.trans h.1, h'.2.trans h.2⟩

theorem sameWords_node {d d' : NodeData} {ts' : List TreeNode} (h : Forall₂ SameWords ts ts')
    (hd : ts = [] → d'.eSpan.1 = d.eSpan.1) : SameWords (.node d ts) (.node d' ts') := by
  have hflat : ts'.flatMap TreeNode.words = ts.flatMap TreeNode.words ∧
      (ts'.flatMap TreeNode.nodes).map TreeNode.words = (ts.flatMap TreeNode.nodes).map TreeNode.words := by
    clear hd
    induction h with
    | nil => exact ⟨rfl, rfl⟩
    | cons hhead _ ih =>
      simp only [flatMap_cons, map_append]
      rw [hhead.1, hhead.2, ih.1, ih.2]
      exact ⟨rfl, rfl⟩
  have hwords : (TreeNode.node d' ts').words = (TreeNode.node d ts).words := by
    cases h with
    | nil =>
      show [d'.eSpan.1] = [d.eSpan.1]
      rw [hd rfl]
    | cons _ _ =>
      rw [TreeNode.words_node d' (cons_ne_nil _ _), TreeNode.words_node d (cons_ne_nil _ _)]
      exact hflat.1
  refine ⟨hwords, ?_⟩
  rw [TreeNode.nodes, TreeNode.nodes, TreeNode.nodesOf_eq, TreeNode.nodesOf_eq, map_cons, map_cons, hwords,
    hflat.2]

theorem assignSubtrees_eq (ts : List TreeNode) : assignSubtrees srt a ts = ts.mapM (assignAlignmentSpans srt a) := by
  induction ts with
  | nil => rfl
  | cons t ts ih =>
    rw [assignSubtrees, ih, mapM_cons]
    rfl

/-- What the first pass leaves below a node. -/
structure Assigned (a : Alignment) (t t' : TreeNode) : Prop where
  same : SameWords t t'
  spanned : ∀ m ∈ t'.nodes, Spanned a m
  comp : ∀ m ∈ t'.nodes, m.data.cCompSpans = []
  frontier : ∀ m ∈ t'.nodes, m.data.frontierNode = false

theorem assigned_node {d d' : NodeData} {ts' : List TreeNode} (h : Forall₂ (Assigned a) ts ts')
    (hd : ts = [] → d'.eSpan.1 = d.eSpan.1) (hspanned : Spanned a (.node d' ts')) (hcomp : d'.cCompSpans = [])
    (hfrontier : d'.frontierNode = false) : Assigned a (.node d ts) (.node d' ts') := by
  have hbelow : ∀ t' ∈ ts', ∃ t ∈ ts, Assigned a t t' := fun t' ht' => exists_of_mem_right h ht'
  refine ⟨sameWords_node (h.imp fun _ _ htt' => htt'.same) hd, ?_, ?_, ?_⟩
  · intro m hm
    rcases TreeNode.mem_nodes.1 hm with rfl | ⟨t', ht', hm⟩
    · exact hspanned
    · obtain ⟨t, -, ht⟩ := hbelow t' ht'
      exact ht.spanned m hm
  · intro m hm
    rcases TreeNode.mem_nodes.1 hm with rfl | ⟨t', ht', hm⟩
    · exact hcomp
    · obtain ⟨t, -, ht⟩ := hbelow t' ht'
      exact ht.comp m hm
  · intro m hm
    rcases TreeNode.mem_nodes.1 hm with rfl | ⟨t', ht', hm⟩
    · exact hfrontier
    · obtain ⟨t, -, ht⟩ := hbelow t' ht'
      exact ht.frontier m hm

variable (srt t) in
/-- The first pass leaves every node spanned. -/
theorem assignAlignmentSpans_spec (h : ∀ m ∈ t.nodes, Fresh a m) :
    ∃ t', assignAlignmentSpans srt a t = some t' ∧ Assigned a t t' := by
  induction t using TreeNode.induct with
  | h d ts ih =>
    have hself := h _ (TreeNode.self_mem_nodes _)
    obtain ⟨ts', hrun, hall⟩ := exists_mapM fun t ht => ih t ht fun m hm => h m (TreeNode.mem_nodes.2 (.inr ⟨t, ht, hm⟩))
    cases hall with
    | nil =>
      obtain ⟨hspan, hlt⟩ := hself.leaf rfl
      refine ⟨.node (checkExtraction a { d with cSpans := leafSpans srt a d }) [], ?_, ?_⟩
      · exact if_neg (not_le.2 hlt)
      · rw [checkExtraction_eq { d with cSpans := leafSpans srt a d } hself.extraction]
        exact assigned_node .nil (fun _ => rfl)
          ⟨hulls_leafSpans d, coalesce_spaced srt _, rfl, congrArg some hspan.symm, rfl⟩ hself.comp hself.frontier
    | cons hhead htail =>
      next t t' ts ts' =>
      refine ⟨.node (checkExtraction a { d with cSpans := innerSpans srt a (t' :: ts'), eSpan := innerSpan (t' :: ts') d.eSpan })
        (t' :: ts'), ?_, ?_⟩
      · rw [mapM_cons] at hrun
        obtain ⟨u, hu, hrest⟩ := Option.bind_eq_some_iff.1 hrun
        obtain ⟨us, hus, hcons⟩ := Option.bind_eq_some_iff.1 hrest
        cases hcons
        unfold assignAlignmentSpans
        rw [hu, assignSubtrees_eq, hus]
        rfl
      · have hspanned : ∀ u ∈ t' :: ts', Spanned a u := by
          intro u hu
          obtain ⟨v, -, huv⟩ := exists_of_mem_right (Forall₂.cons hhead htail) hu
          exact huv.spanned u (TreeNode.self_mem_nodes u)
        obtain ⟨last, hlast⟩ : ∃ u, (t' :: ts').getLast? = some u := ⟨_, getLast?_eq_some_getLast (cons_ne_nil _ _)⟩
        rw [checkExtraction_eq { d with cSpans := innerSpans srt a (t' :: ts'), eSpan := innerSpan (t' :: ts') d.eSpan }
          hself.extraction]
        refine assigned_node (.cons hhead htail) (fun hnil => absurd hnil (cons_ne_nil _ _)) ?_ hself.comp
          hself.frontier
        refine ⟨?_, coalesce_spaced srt _, ?_, ?_, rfl⟩
        · rw [TreeNode.words_node _ (cons_ne_nil _ _)]
          exact hulls_innerSpans fun u hu => (hspanned u hu).hulls
        · rw [TreeNode.words_node _ (cons_ne_nil _ _), head?_flatMap_words]
          exact (hspanned t' mem_cons_self).first
        · rw [TreeNode.words_node _ (cons_ne_nil _ _), getLast?_flatMap_words hlast]
          show _ = some (((t' :: ts').getLast?.map fun t => t.data.eSpan.2).getD d.eSpan.2)
          rw [hlast]
          exact (hspanned last (mem_of_getLast? hlast)).last

/-! ## Top down: the complement spans -/

/-- What the second pass leaves at a node: the complement spans are those of the words that are not below it. -/
structure Complemented (a : Alignment) (m : TreeNode) : Prop where
  spanned : Spanned a m
  frontier : m.data.frontierNode = false
  hulls : Hulls a.blocks (a.AlignedTo (· ∉ m.words)) m.data.cCompSpans
  spaced : Spaced a.blocks m.data.cCompSpans

theorem mergeSpans_nil : mergeSpans srt a [] = [] := by
  unfold mergeSpans coalesce
  rw [Perm.eq_nil (srt.perm [])]

/-- The root is given nothing. -/
theorem assignComplementAlignmentSpans_eq (h : t.data.cCompSpans = []) :
    assignComplementAlignmentSpans srt a t = complementNode srt a [] t := by
  cases t with
  | node d ts =>
    unfold assignComplementAlignmentSpans complementNode
    rw [show d.cCompSpans = [] from h, append_nil, mergeSpans_nil, ← show d.cCompSpans = [] from h]

variable (srt a t) in
theorem sameWords_complementNode : ∀ given : List Interval, SameWords t (complementNode srt a given t) := by
  induction t using TreeNode.induct with
  | h d ts ih =>
    intro given
    have hsub : ∀ (us : List TreeNode) (comp before : List Interval),
        (∀ t ∈ us, ∀ given, SameWords t (complementNode srt a given t)) →
        Forall₂ SameWords us (complementSubtrees srt a comp before us) := by
      intro us
      induction us with
      | nil => exact fun _ _ _ => .nil
      | cons t us ihus =>
        intro comp before hus
        exact .cons (hus t mem_cons_self _) (ihus _ _ fun u hu => hus u (mem_cons_of_mem t hu))
    exact sameWords_node (hsub ts _ _ ih) fun _ => rfl

variable {m : TreeNode}

theorem Spanned.congr {m' : TreeNode} (h : Spanned a m) (hwords : m'.words = m.words)
    (hspans : m'.data.cSpans = m.data.cSpans) (hspan : m'.data.eSpan = m.data.eSpan)
    (hextraction : m'.data.extractionNode = m.data.extractionNode) : Spanned a m' where
  hulls := by
    rw [hwords, hspans]
    exact h.hulls
  spaced := by
    rw [hspans]
    exact h.spaced
  first := by
    rw [hwords, hspan]
    exact h.first
  last := by
    rw [hwords, hspan]
    exact h.last
  extraction := by
    rw [hextraction, h.extraction]
    unfold cleanEnglishToChinese cleanChineseToEnglish
    rw [hspans, hspan]

/-- What a subtree is given: the spans of the siblings before and after it, and those of the words outside the node. -/
theorem hulls_given {done : List Nat} {before comp : List Interval} {us : List TreeNode}
    (hnodup : (done ++ (t :: us).flatMap TreeNode.words).Nodup) (hbefore : Hulls a.blocks (a.AlignedTo (· ∈ done)) before)
    (hafter : ∀ u ∈ us, Hulls a.blocks (a.AlignedTo (· ∈ u.words)) u.data.cSpans)
    (hcomp : Hulls a.blocks (a.AlignedTo (· ∉ done ++ (t :: us).flatMap TreeNode.words)) comp) :
    Hulls a.blocks (a.AlignedTo (· ∉ t.words)) (before ++ (us.flatMap fun u => u.data.cSpans) ++ comp) := by
  refine ((hbefore.append (hulls_flatMap hafter)).append hcomp).congr fun q => ?_
  rw [nodup_append] at hnodup
  obtain ⟨-, hrest, hdone⟩ := hnodup
  obtain ⟨-, -, hsiblings⟩ := nodup_append.1 hrest
  constructor
  · rintro ((⟨s, hs, hmem⟩ | ⟨u, hu, s, hs, hmem⟩) | ⟨s, hs, hmem⟩)
    · exact ⟨s, hs, fun hst => hdone s hmem s (mem_append_left _ hst) rfl⟩
    · exact ⟨s, hs, fun hst => hsiblings s hst s (mem_flatMap.2 ⟨u, hu, hmem⟩) rfl⟩
    · refine ⟨s, hs, fun hst => hmem ?_⟩
      exact mem_append_right _ (mem_append_left _ hst)
  · rintro ⟨s, hs, hst⟩
    by_cases hdone : s ∈ done
    · exact .inl (.inl ⟨s, hs, hdone⟩)
    · by_cases hsibling : s ∈ us.flatMap TreeNode.words
      · obtain ⟨u, hu, hmem⟩ := mem_flatMap.1 hsibling
        exact .inl (.inr ⟨u, hu, s, hs, hmem⟩)
      · refine .inr ⟨s, hs, ?_⟩
        simp only [flatMap_cons, mem_append, not_or]
        exact ⟨hdone, hst, hsibling⟩

variable (srt t) in
/-- Below a node that is given the complement spans of its words, every node gets its own. -/
theorem complementNode_spec : ∀ {given : List Interval}, t.words.Nodup →
    (∀ m ∈ t.nodes, Spanned a m) → (∀ m ∈ t.nodes, m.data.cCompSpans = []) → (∀ m ∈ t.nodes, m.data.frontierNode = false) →
    Hulls a.blocks (a.AlignedTo (· ∉ t.words)) given → ∀ m ∈ (complementNode srt a given t).nodes, Complemented a m := by
  induction t using TreeNode.induct with
  | h d ts ih =>
    intro given hnodup hspanned hempty hfrontier hgiven m hm
    have hself := TreeNode.self_mem_nodes (.node d ts)
    have hcomp : Hulls a.blocks (a.AlignedTo (· ∉ (TreeNode.node d ts).words)) (mergeSpans srt a (d.cCompSpans ++ given)) := by
      rw [show d.cCompSpans = [] from hempty _ hself]
      exact hgiven.coalesce srt
    have hsame := sameWords_complementNode srt a (.node d ts) given
    unfold complementNode at hm hsame
    rcases TreeNode.mem_nodes.1 hm with rfl | ⟨t', ht', hm⟩
    · refine ⟨(hspanned _ hself).congr hsame.1 rfl rfl rfl, hfrontier (.node d ts) hself, ?_, coalesce_spaced srt _⟩
      rw [hsame.1]
      exact hcomp
    · -- the loop over the subtrees, past those with the words `done`
      have hloop : ∀ (us : List TreeNode) (done : List Nat) (before comp : List Interval), (∀ u ∈ us, u ∈ ts) →
          (done ++ us.flatMap TreeNode.words).Nodup → Hulls a.blocks (a.AlignedTo (· ∈ done)) before →
          Hulls a.blocks (a.AlignedTo (· ∉ done ++ us.flatMap TreeNode.words)) comp →
          ∀ t' ∈ complementSubtrees srt a comp before us, ∀ m ∈ t'.nodes, Complemented a m := by
        intro us
        induction us with
        | nil =>
          intro _ _ _ _ _ _ _ t' ht'
          cases ht'
        | cons u us ihus =>
          intro done before comp hus hnodup hbefore hcomp t' ht'
          have hin : ∀ v ∈ u :: us, ∀ m ∈ v.nodes, m ∈ (TreeNode.node d ts).nodes := fun v hv m hm =>
            TreeNode.mem_nodes.2 (.inr ⟨v, hus v hv, hm⟩)
          have hhulls : ∀ v ∈ u :: us, Hulls a.blocks (a.AlignedTo (· ∈ v.words)) v.data.cSpans := fun v hv =>
            (hspanned v (hin v hv v (TreeNode.self_mem_nodes v))).hulls
          rcases mem_cons.1 ht' with rfl | ht'
          · refine ih u (hus u mem_cons_self) ?_ (fun m hm => hspanned m (hin u mem_cons_self m hm))
              (fun m hm => hempty m (hin u mem_cons_self m hm))
              (fun m hm => hfrontier m (hin u mem_cons_self m hm))
              (hulls_given hnodup hbefore (fun v hv => hhulls v (mem_cons_of_mem u hv)) hcomp)
            exact (nodup_append.1 (nodup_append.1 hnodup).2.1).1
          · rw [flatMap_cons, ← append_assoc] at hnodup hcomp
            refine ihus (done ++ u.words) _ _ (fun v hv => hus v (mem_cons_of_mem u hv)) hnodup ?_ hcomp t' ht'
            refine (hbefore.append (hhulls u mem_cons_self)).congr fun q => ?_
            simp only [mem_append]
            constructor
            · rintro (⟨s, hs, hmem⟩ | ⟨s, hs, hmem⟩)
              · exact ⟨s, hs, .inl hmem⟩
              · exact ⟨s, hs, .inr hmem⟩
            · rintro ⟨s, hs, hmem | hmem⟩
              · exact .inl ⟨s, hs, hmem⟩
              · exact .inr ⟨s, hs, hmem⟩
      have hne : ts ≠ [] := by
        rintro rfl
        cases ht'
      rw [TreeNode.words_node d hne] at hnodup hcomp
      refine hloop ts [] [] _ (fun _ hu => hu) hnodup ?_ hcomp t' ht' m hm
      exact hulls_nil.congr fun q => ⟨fun h => h.elim, fun ⟨s, _, hmem⟩ => absurd hmem not_mem_nil⟩

/-! ## The tests -/

/-- Below a node stand the words from the one its span starts with to the one it ends with. -/
theorem Spanned.mem_words (h : Spanned a m) (hcons : ∃ b k, m.words = range' b k) (s : Nat) :
    s ∈ m.words ↔ m.data.eSpan.1 ≤ s ∧ s ≤ m.data.eSpan.2 := by
  obtain ⟨b, k, hwords⟩ := hcons
  have hfirst := h.first
  have hlast := h.last
  rw [hwords] at hfirst hlast ⊢
  rw [head?_range'] at hfirst
  rw [getLast?_range'] at hlast
  split at hfirst
  · cases hfirst
  · next hk =>
    rw [if_neg hk] at hlast
    have hb := Option.some.inj hfirst
    have he := Option.some.inj hlast
    rw [mem_range'_1]
    omega

theorem Spanned.cleanChineseToEnglish_iff (h : Spanned a m) (hcons : ∃ b k, m.words = range' b k)
    {c : Interval} (hc : m.data.cSpans = [c]) :
    cleanChineseToEnglish a m.data = true ↔ ∀ i, c.1 ≤ i → i ≤ c.2 → ¬ a.AlignedTo (· ∉ m.words) i := by
  have hhull := h.hulls.hull c (by rw [hc]; exact mem_singleton_self c)
  have hmem := h.mem_words hcons
  unfold cleanChineseToEnglish
  rw [hc]
  simp only [not_le.2 hhull.last.lt, if_false, all_eq_true, mem_range'_1]
  constructor
  · rintro hclean i hl hr ⟨s, hs, hout⟩
    have hin := hclean i ⟨hl, by omega⟩ s hs
    apply hout
    rw [hmem]
    simpa [not_lt] using hin
  · intro hclean i hi s hs
    by_contra hout
    refine hclean i hi.1 (by omega) ⟨s, hs, fun hin => hout ?_⟩
    rw [hmem] at hin
    simpa [not_lt] using hin

/-- **`is_extraction_node` is the definition of a frontier node.** -/
theorem Spanned.extraction_iff (h : Spanned a m) (hcons : ∃ b k, m.words = range' b k) :
    m.data.extractionNode = true ↔ a.IsFrontier (· ∈ m.words) := by
  rw [h.extraction, Bool.and_eq_true]
  constructor
  · rintro ⟨hone, hclean⟩
    obtain ⟨c, hc⟩ := length_eq_one_iff.1 (of_decide_eq_true hone)
    have hhull := h.hulls.hull c (by rw [hc]; exact mem_singleton_self c)
    have hin : ∀ {t : Nat}, a.AlignedTo (· ∈ m.words) t → c.1 ≤ t ∧ t ≤ c.2 := by
      intro t ht
      obtain ⟨i, hi, hit⟩ := h.hulls.covered t ht
      rw [hc, mem_singleton] at hi
      exact hi ▸ hit
    refine ⟨⟨c.1, hhull.first⟩, fun l t r hl hr hlt htr => ?_⟩
    exact (h.cleanChineseToEnglish_iff hcons hc).1 hclean t ((hin hl).1.trans hlt) (htr.trans (hin hr).2)
  · rintro ⟨⟨t, ht⟩, hbetween⟩
    have hle : m.data.cSpans.length ≤ 1 := by
      refine h.hulls.length_le_one h.spaced fun l q r hl hr hlq hqr hblock => ?_
      exact (Alignment.alignedTo_or_not ((Alignment.blocks_iff (hqr.trans hr.lt)).1 hblock)).resolve_right
        (hbetween l q r hl hr hlq.le hqr.le)
    obtain ⟨i, hi, -⟩ := h.hulls.covered t ht
    have hlen : m.data.cSpans.length = 1 := le_antisymm hle (length_pos_of_mem hi)
    obtain ⟨c, hc⟩ := length_eq_one_iff.1 hlen
    have hhull := h.hulls.hull c (by rw [hc]; exact mem_singleton_self c)
    refine ⟨decide_eq_true hlen, (h.cleanChineseToEnglish_iff hcons hc).2 fun q hl hr => ?_⟩
    exact hbetween c.1 q c.2 hhull.first hhull.last hl hr

theorem apart_of_pairwise {s : List Interval} (h : s.Pairwise fun i j => i.2 < j.1) : apart s = true := by
  induction s with
  | nil => rfl
  | cons i s ih =>
    cases s with
    | nil => rfl
    | cons j s =>
      obtain ⟨hi, htail⟩ := pairwise_cons.1 h
      unfold apart
      rw [decide_eq_true (hi j mem_cons_self), ih htail]
      rfl

/-- Spans of an extraction node and its complement spans do not overlap: a common position would be aligned to both
sides. -/
theorem Complemented.apart (h : Complemented a m) (hfront : a.IsFrontier (· ∈ m.words)) :
    apart (srt.sort (m.data.cSpans ++ m.data.cCompSpans)) = true := by
  have hdisjoint : ∀ i ∈ m.data.cSpans, ∀ j ∈ m.data.cCompSpans, i.2 < j.1 ∨ j.2 < i.1 := by
    intro i hi j hj
    have hi' := h.spanned.hulls.hull i hi
    have hj' := h.hulls.hull j hj
    by_contra hover
    rw [not_or, not_lt, not_lt] at hover
    by_cases hij : i.1 ≤ j.1
    · exact hfront.2 i.1 j.1 i.2 hi'.first hi'.last hij hover.1 hj'.first
    · have hout := hj'.inside i.1 (not_le.1 hij).le hover.2 hi'.first.blocks
      exact hfront.2 i.1 i.1 i.2 hi'.first hi'.last le_rfl hi'.le hout
  have hpair : (m.data.cSpans ++ m.data.cCompSpans).Pairwise fun i j => i.2 < j.1 ∨ j.2 < i.1 := by
    refine pairwise_append.2 ⟨?_, ?_, hdisjoint⟩
    · exact h.spanned.spaced.imp fun ⟨_, hl, hr, _⟩ => .inl (hl.trans hr)
    · exact h.spaced.imp fun ⟨_, hl, hr, _⟩ => .inl (hl.trans hr)
  have hle : ∀ i ∈ m.data.cSpans ++ m.data.cCompSpans, i.1 ≤ i.2 := by
    intro i hi
    rcases mem_append.1 hi with hi | hi
    · exact (h.spanned.hulls.hull i hi).le
    · exact (h.hulls.hull i hi).le
  have hperm := srt.perm (m.data.cSpans ++ m.data.cCompSpans)
  apply apart_of_pairwise
  have hsorted := (Perm.pairwise_iff (fun hij => hij.symm) hperm).2 hpair
  refine (hsorted.and (srt.sorted _)).imp_of_mem ?_
  intro i j hi hj hij
  have := hle j (hperm.mem_iff.1 hj)
  omega

theorem assignFrontierNodes_eq (ts : List TreeNode) : assignFrontierNodes srt ts = ts.map (assignFrontierNode srt) := by
  induction ts with
  | nil => rfl
  | cons t ts ih => rw [assignFrontierNodes, ih, map_cons]

variable (srt t) in
theorem sameWords_assignFrontierNode : SameWords t (assignFrontierNode srt t) := by
  induction t using TreeNode.induct with
  | h d ts ih =>
    refine sameWords_node ?_ fun _ => ?_
    · rw [assignFrontierNodes_eq]
      exact List.forall₂_map_right_iff.2 (List.forall₂_same.2 ih)
    · unfold checkFrontier
      split <;> rfl

theorem mem_nodes_assignFrontierNode (t : TreeNode) (h : m ∈ (assignFrontierNode srt t).nodes) :
    ∃ u ∈ t.nodes, m = assignFrontierNode srt u := by
  induction t using TreeNode.induct with
  | h d ts ih =>
    unfold assignFrontierNode at h
    rw [assignFrontierNodes_eq] at h
    rcases TreeNode.mem_nodes.1 h with rfl | ⟨t', ht', hm⟩
    · refine ⟨.node d ts, TreeNode.self_mem_nodes _, ?_⟩
      rw [assignFrontierNode, assignFrontierNodes_eq]
    · obtain ⟨t, ht, rfl⟩ := mem_map.1 ht'
      obtain ⟨u, hu, rfl⟩ := ih t ht hm
      exact ⟨u, TreeNode.mem_nodes.2 (.inr ⟨t, ht, hu⟩), rfl⟩

/-! ## The three passes -/

/-- What the passes are to leave at a node, from the words below it. -/
structure Marked (a : Alignment) (m : TreeNode) : Prop where
  frontier : m.data.frontierNode = true ↔ a.IsFrontier (· ∈ m.words)
  extraction : m.data.extractionNode = true ↔ a.IsFrontier (· ∈ m.words)
  spans : a.SpansOf (· ∈ m.words) m.data.cSpans
  compSpans : a.SpansOf (· ∉ m.words) m.data.cCompSpans

theorem Complemented.marked (h : Complemented a m) (hcons : ∃ b k, m.words = range' b k) :
    Marked a (assignFrontierNode srt m) := by
  have hwords := (sameWords_assignFrontierNode srt m).1
  have hext := h.spanned.extraction_iff hcons
  have hdata : (assignFrontierNode srt m).data = checkFrontier srt m.data := by
    cases m with
    | node d ts => rfl
  have hspans := Alignment.spansOf_hulls h.spanned.hulls h.spanned.spaced
  have hcomp := Alignment.spansOf_hulls h.hulls h.spaced
  by_cases hex : m.data.extractionNode = true
  · have hcheck : checkFrontier srt m.data = { m.data with frontierNode := true } := by
      unfold checkFrontier
      rw [if_pos hex, h.apart (hext.1 hex)]
    refine ⟨?_, ?_, ?_, ?_⟩ <;> rw [hdata, hcheck, hwords]
    · exact ⟨fun _ => hext.1 hex, fun _ => rfl⟩
    · exact hext
    · exact hspans
    · exact hcomp
  · have hcheck : checkFrontier srt m.data = m.data := by
      unfold checkFrontier
      rw [if_neg hex]
    refine ⟨?_, ?_, ?_, ?_⟩ <;> rw [hdata, hcheck, hwords]
    · rw [h.frontier]
      exact ⟨fun hno => absurd hno Bool.false_ne_true, fun hyes => absurd (hext.2 hyes) hex⟩
    · exact hext
    · exact hspans
    · exact hcomp

/-- **Frontier nodes are those of the definition.** The passes go through on every parse tree whose leaves carry the
positions of the source sentence, and every node of the tree is marked by the words below it. -/
theorem assignSpans_marked (srt : IntervalSort) (a : Alignment) (t : TreeNode) (hfresh : ∀ m ∈ t.nodes, Fresh a m)
    (hwords : t.words = range a.sourceAlignmentLen) :
    ∃ t', assignSpans srt a t = some t' ∧ SameWords t t' ∧ ∀ m ∈ t'.nodes, Marked a m := by
  obtain ⟨t1, hrun, hassigned⟩ := assignAlignmentSpans_spec srt t hfresh
  have hwords1 : t1.words = range a.sourceAlignmentLen := hassigned.same.1.trans hwords
  have hgiven : Hulls a.blocks (a.AlignedTo (· ∉ t1.words)) [] := by
    refine hulls_nil.congr fun q => ⟨fun h => h.elim, ?_⟩
    -- no word is outside the root
    rintro ⟨s, hs, hout⟩
    rw [hwords1, mem_range, not_lt] at hout
    have hmem := (a.mirror s q).2 hs
    rw [getD_eq_default _ _ hout] at hmem
    cases hmem
  have hcomplemented := complementNode_spec srt t1 (by rw [hwords1]; exact nodup_range) hassigned.spanned
    hassigned.comp hassigned.frontier hgiven
  have hsame := sameWords_complementNode srt a t1 []
  have hcons := (complementNode srt a [] t1).words_consecutive (hsame.1.trans (hwords1.trans range_eq_range'))
  refine ⟨assignFrontierNode srt (complementNode srt a [] t1), ?_, ?_, fun m hm => ?_⟩
  · unfold assignSpans
    rw [hrun, Option.map_some, assignComplementAlignmentSpans_eq (hassigned.comp t1 (TreeNode.self_mem_nodes t1))]
  · exact (hassigned.same.trans hsame).trans (sameWords_assignFrontierNode srt _)
  · obtain ⟨u, hu, rfl⟩ := mem_nodes_assignFrontierNode _ hm
    exact (hcomplemented u hu).marked (hcons u hu)

/-- A leaf as it is read, over the word at a position. -/
def leafAt (cat word : String) (i : Nat) : TreeNode := .node ⟨cat, word, (i, i), [], [], false, false⟩ []

/-- `S(NP(DT NN) VB)` over three words. -/
def threeWords : TreeNode :=
  .node ⟨"S", "", (0, 2), [], [], false, false⟩
    [.node ⟨"NP", "", (0, 1), [], [], false, false⟩ [leafAt "DT" "the" 0, leafAt "NN" "house" 1], leafAt "VB" "stands" 2]

/-- The verb stands between the article and the noun. -/
def crossed : Alignment where
  sourceTable := [[0], [3], [1]]
  targetTable := [[0], [2], [], [1]]
  mirror s t := by
    match s, t with
    | 0, 0 | 0, 1 | 0, 2 | 0, 3 | 0, _ + 4 => simp
    | 1, 0 | 1, 1 | 1, 2 | 1, 3 | 1, _ + 4 => simp
    | 2, 0 | 2, 1 | 2, 2 | 2, 3 | 2, _ + 4 => simp
    | _ + 3, 0 | _ + 3, 1 | _ + 3, 2 | _ + 3, 3 | _ + 3, _ + 4 => simp

theorem assignSpans_marked_threeWords :
    ∃ t', assignSpans .stable crossed threeWords = some t' ∧ SameWords threeWords t' ∧ ∀ m ∈ t'.nodes, Marked crossed m := by
  refine assignSpans_marked .stable crossed threeWords ?_ rfl
  intro m hm
  have hcases : m = threeWords ∨ m = .node ⟨"NP", "", (0, 1), [], [], false, false⟩ [leafAt "DT" "the" 0, leafAt "NN" "house" 1] ∨
      m = leafAt "DT" "the" 0 ∨ m = leafAt "NN" "house" 1 ∨ m = leafAt "VB" "stands" 2 := by
    simpa [threeWords, leafAt, TreeNode.nodes, TreeNode.nodesOf] using hm
  rcases hcases with rfl | rfl | rfl | rfl | rfl
  · exact ⟨rfl, rfl, rfl, fun hleaf => by cases hleaf⟩
  · exact ⟨rfl, rfl, rfl, fun hleaf => by cases hleaf⟩
  · exact ⟨rfl, rfl, rfl, fun _ => ⟨rfl, by decide⟩⟩
  · exact ⟨rfl, rfl, rfl, fun _ => ⟨rfl, by decide⟩⟩
  · exact ⟨rfl, rfl, rfl, fun _ => ⟨rfl, by decide⟩⟩

example : ((assignSpans .stable crossed threeWords).map fun t => t.nodes.map fun m => m.data.frontierNode) =
    some [true, false, true, true, true] := by decide

end Sbmt.Ghkm
