import Sbmt.Carmel.MatrixSums

/-!
# The lattice holds the sums over the laid paths

The derivation graph of an example is pushed through in topological order and back
along its reversed arcs. Its trails are the laid paths, so the sums of
`Lib.PathSums` over it are sums over these, as those over the matrix are.
-/

namespace Sbmt.Carmel

open Sbmt.Lib List Function

variable {W F : Type} {x : Wfst W} {inp out : SymSeq}

/-! ## The sums over the laid paths -/

section Spec

theorem ids_lt_of_walk {d e : DerivState} {es : List (Edge DerivState Nat)} (h : Lib.Walk (successors x inp out) d es e) :
    ∀ e ∈ es, e.label < x.visitArcs.length := by
  induction h with
  | nil =>
    intro e he
    cases he
  | cons hmem _ ih =>
    intro e he
    rcases mem_cons.1 he with rfl | he
    · exact (mem_successors.1 hmem).1
    · exact ih e he

variable [Semifield W]

/-- The weight of the laid paths of an example. -/
noncomputable def laidWeight (x : Wfst W) (n : IOSymSeq F) : W :=
  ∑ᶠ ls ∈ {ls | Laying x n.i n.o ls}, x.pathWeight (ls.map Laid.arc)

/-- Their weight times how often they use an arc. -/
noncomputable def laidUse (x : Wfst W) (n : IOSymSeq F) (p : ArcPtr) : W :=
  ∑ᶠ ls ∈ {ls | Laying x n.i n.o ls}, x.pathWeight (ls.map Laid.arc) * ((ls.map Laid.arc).count p : W)

variable {V : Type*} {es : List (Edge V Nat)} {f : Edge V Nat → Laid}

omit [Semifield W] in
theorem arcs_laid (hf : ∀ e, (f e).arc = x.ptrOf e.label) :
    (es.map f).map Laid.arc = (es.map Edge.label).map x.ptrOf := by
  rw [map_map, map_map]
  exact map_congr_left fun e _ => hf e

theorem pathWeight_ptrs (hids : ∀ e ∈ es, e.label < x.visitArcs.length) :
    walkWeight (arcWeight x) es = x.pathWeight ((es.map Edge.label).map x.ptrOf) := by
  induction es with
  | nil => rfl
  | cons e es ih =>
    obtain ⟨a, ha⟩ := Wfst.mem_visitArcs.1 (mem_of_getElem? (ptrOf_getElem? (hids e (mem_cons_self ..))))
    rw [walkWeight_cons, ih fun e' he' => hids e' (mem_cons_of_mem _ he'), map_cons, map_cons, Wfst.pathWeight_cons ha]
    unfold arcWeight
    rw [ha]
    rfl

omit [Semifield W] in
theorem count_ptrs (hids : ∀ e ∈ es, e.label < x.visitArcs.length) {id : Nat} (hid : id < x.visitArcs.length) :
    ((es.map Edge.label).map x.ptrOf).count (x.ptrOf id) = uses id es := by
  unfold uses
  induction es with
  | nil => rfl
  | cons e es ih =>
    have he := hids e (mem_cons_self ..)
    rw [map_cons, map_cons, count_cons, count_cons, ih fun e' he' => hids e' (mem_cons_of_mem _ he')]
    congr 1
    by_cases heq : e.label = id
    · rw [heq, beq_self_eq_true, beq_self_eq_true]
    · have hne : x.ptrOf e.label ≠ x.ptrOf id := fun h => heq (Wfst.ptrOf_inj he hid h)
      rw [beq_false_of_ne heq, beq_false_of_ne hne]

/-- The sums over walks that stand for the laid paths. -/
theorem sums_of_bijOn {n : IOSymSeq F} {S : Set (List (Edge V Nat))} (hf : ∀ e, (f e).arc = x.ptrOf e.label)
    (hS : Set.BijOn (List.map f) S {ls | Laying x n.i n.o ls}) (hids : ∀ es ∈ S, ∀ e ∈ es, e.label < x.visitArcs.length) :
    ∑ᶠ es ∈ S, walkWeight (arcWeight x) es = laidWeight x n ∧
      ∀ id < x.visitArcs.length,
        ∑ᶠ es ∈ S, walkWeight (arcWeight x) es * (uses id es : W) = laidUse x n (x.ptrOf id) := by
  constructor
  · refine finsum_mem_eq_of_bijOn _ hS fun es h => ?_
    rw [arcs_laid hf, pathWeight_ptrs (hids es h)]
  · intro id hid
    refine finsum_mem_eq_of_bijOn _ hS fun es h => ?_
    rw [arcs_laid hf, pathWeight_ptrs (hids es h), count_ptrs (hids es h) hid]

variable [DecidableEq W] [IsCancelAdd W]

/-- **What the matrix holds**: the weight of the laid paths at both ends, and in
the counts the uses of the arcs. -/
theorem matrix_sums (h : EpsAcyclic x) {e eRev : List Nat} (he : EpsOrder x (eNext x) e)
    (heRev : EpsOrder x (eNextReversed x) eRev) (n : IOSymSeq F) :
    matrixForward x e n (goal x n.i n.o) = laidWeight x n ∧ matrixBackward x eRev n ⟨0, 0, 0⟩ = laidWeight x n ∧
      ∀ id < x.visitArcs.length,
        matrixCounts x (matrixForward x e n) (matrixBackward x eRev n) n id = laidUse x n (x.ptrOf id) := by
  obtain ⟨htotal, hused⟩ := sums_of_bijOn (x := x) (n := n) (fun _ => rfl) (walks_bijOn x n.i n.o)
    fun es hes => ids_lt_of_walk hes
  obtain ⟨hf, hb, hcounts⟩ := forward_backward (h.dag n.i n.o) start_mem goal_mem (matrixForward_solves h he n)
    (matrixBackward_solves h heRev n)
  refine ⟨hf.trans htotal, hb.trans htotal, fun id hid => ?_⟩
  rw [matrixCounts_eq, ← hused id hid]
  exact hcounts id

end Spec

/-! ## The lattice as a graph -/

section Lattice

variable {d : Derivations}

/-- The steps of a lattice. -/
def latticeSteps (d : Derivations) (k : Nat) : List (Nat × Nat) := (Numbering.arcsOf d.g k).map fun a => (a.label, a.dest)

theorem steps_lattice (k : Nat) : steps (latticeSteps d) k = (Numbering.arcsOf d.g k).map Link.dest := by
  unfold steps latticeSteps
  rw [map_map]
  rfl

theorem IsLattice.acyclic (h : IsLattice x inp out d) (hx : EpsAcyclic x) : TopoSort.Acyclic (steps (latticeSteps d)) := by
  obtain ⟨name, hname⟩ := h.named
  have hmap : ∀ {k j : Nat}, Relation.TransGen (fun a b => b ∈ steps (latticeSteps d) a) k j →
      Relation.TransGen (fun a b => b ∈ steps (successors x inp out) a) (name k) (name j) := by
    intro k j hkj
    refine hkj.lift name ?_
    intro k j hj
    rw [steps_lattice] at hj
    obtain ⟨a, ha, rfl⟩ := mem_map.1 hj
    exact mem_steps.2 ⟨a.label, (hname k a ha).2.2⟩
  intro k hk
  exact hx.acyclic inp out (name k) (hmap hk)

/-- An order of the lattice from its start. -/
structure LatticeOrder (d : Derivations) (order : List Nat) : Prop where
  sorted : TopoSort.Sorted (steps (latticeSteps d)) order
  start : 0 ∈ order
  within : ∀ k ∈ order, k < d.g.length

theorem IsLattice.order (h : IsLattice x inp out d) (hx : EpsAcyclic x) :
    ∃ order, latticeOrder d.g = some order ∧ LatticeOrder d order := by
  obtain ⟨name, hname⟩ := h.named
  have hclosed : ∀ k ∈ range d.g.length, ∀ j ∈ steps (latticeSteps d) k, j ∈ range d.g.length := by
    intro k _ j hj
    rw [steps_lattice] at hj
    obtain ⟨a, ha, rfl⟩ := mem_map.1 hj
    exact mem_range.2 (hname k a ha).2.1
  obtain ⟨σ, hσ, hsorted, hstart, hwithin⟩ := TopoSort.orderFrom_sorted (h.acyclic hx) hclosed
    (show (range d.g.length).length < d.g.length + 1 by simp) (mem_range.2 h.start_lt)
  refine ⟨σ.out, ?_, hsorted, hstart, fun k hk => mem_range.1 (hwithin k hk)⟩
  have hnext : steps (latticeSteps d) = fun k => (Numbering.arcsOf d.g k).map Link.dest := funext steps_lattice
  unfold latticeOrder
  rw [← hnext, hσ]
  rfl

theorem IsLattice.steps_nodup (h : IsLattice x inp out d) (k : Nat) : (latticeSteps d k).Nodup := by
  obtain ⟨name, hname⟩ := h.named
  refine (h.nodup k).map_on ?_
  intro a ha b hb heq
  obtain ⟨hlabel, hdest⟩ := Prod.mk.inj heq
  have hsrc := (hname k a ha).1.trans (hname k b hb).1.symm
  cases a
  simp only at hlabel hdest hsrc
  rw [hlabel, hdest, hsrc]

theorem LatticeOrder.dag {order : List Nat} (ho : LatticeOrder d order) (h : IsLattice x inp out d) :
    Dag (latticeSteps d) order.toFinset where
  closed := by
    intro k hk p hp
    rw [mem_toFinset] at hk ⊢
    exact ho.sorted.closed k hk p.2 (mem_steps.2 ⟨p.1, hp⟩)
  nodup := fun k _ => h.steps_nodup k
  sorted := ⟨order, ho.sorted, fun k hk => mem_toFinset.1 hk⟩

/-- A link as a step between the numbers. -/
def linkOf (e : Edge Nat Nat) : Link Nat := ⟨e.src, e.dest, e.label⟩

theorem IsLattice.steps (h : IsLattice x inp out d) : Numbering.Steps (latticeSteps d) id d.g := by
  obtain ⟨name, hname⟩ := h.named
  intro k a ha
  exact ⟨(hname k a ha).1, (hname k a ha).2.1, mem_map.2 ⟨a, ha, rfl⟩⟩

/-- The walks of a lattice are its trails. -/
theorem IsLattice.walks_trails (h : IsLattice x inp out d) :
    Set.BijOn (List.map linkOf) (walks (latticeSteps d) d.fin 0) {as | Trail (Numbering.arcsOf d.g) 0 as d.fin} := by
  have htrail : ∀ {k j : Nat} {es : List (Edge Nat Nat)}, Lib.Walk (latticeSteps d) k es j →
      Trail (Numbering.arcsOf d.g) k (es.map linkOf) j := by
    intro k j es hw
    induction hw with
    | nil k => exact .nil k
    | @cons k _ _ _ _ hmem _ ih =>
      obtain ⟨a, ha, heq⟩ := mem_map.1 hmem
      obtain ⟨rfl, rfl⟩ := Prod.mk.inj heq
      have hlink : linkOf ⟨k, a.label, a.dest⟩ = a := by
        rw [linkOf, ← (h.steps k a ha).1]
      rw [map_cons, hlink]
      exact .cons ha ih
  refine ⟨fun es hes => htrail hes, fun es _ es' _ heq => ?_, fun as has => ?_⟩
  · refine map_injective_iff.2 (fun e e' hee => ?_) heq
    obtain ⟨hsrc, hdest, hlabel⟩ := Link.mk.inj hee
    cases e
    simp only at hsrc hdest hlabel
    rw [hsrc, hdest, hlabel]
  · refine ⟨as.map (Numbering.edgeOf id), h.steps.walk_of_trail has, ?_⟩
    rw [map_map]
    exact map_id as

theorem IsLattice.ids_lt (h : IsLattice x inp out d) {k j : Nat} {es : List (Edge Nat Nat)}
    (hw : Lib.Walk (latticeSteps d) k es j) : ∀ e ∈ es, e.label < x.visitArcs.length := by
  obtain ⟨name, hname⟩ := h.named
  induction hw with
  | nil =>
    intro e he
    cases he
  | @cons k _ _ _ _ hmem _ ih =>
    intro e he
    obtain ⟨a, ha, heq⟩ := mem_map.1 hmem
    cases heq
    rcases mem_cons.1 he with rfl | he
    · exact (mem_successors.1 (hname k a ha).2.2).1
    · exact ih e he

/-! ## The lattice as a push -/

theorem propagate_eq [Semiring W] (arcs : Nat → List (Link Nat)) (wt : Nat → W) (order : List Nat) (w : Nat → W) :
    propagatePathsInOrder arcs wt order w =
      push wt w (order.flatMap fun v => ((arcs v).map fun a => (a.label, a.dest)).map fun p => ⟨v, p.1, p.2⟩) := by
  rw [push_flatMap]
  unfold propagatePathsInOrder
  congr 1
  funext w v
  rw [map_map]
  unfold push
  rw [foldl_map]
  rfl

/-- An arc from its destination to its source. -/
def flipLink (a : Link Nat) : Link Nat := ⟨a.dest, a.src, a.label⟩

theorem addReversedArcs_eq (g : List (List (Link Nat))) (u : Nat) :
    addReversedArcs g u = ((g.flatten.filter fun a => a.dest = u).map flipLink).reverse := by
  have hloop : ∀ (as : List (Link Nat)) (rev : Nat → List (Link Nat)),
      as.foldl (fun (rev : Nat → List (Link Nat)) l => update rev l.dest (flipLink l :: rev l.dest)) rev u =
        ((as.filter fun a => a.dest = u).map flipLink).reverse ++ rev u := by
    intro as
    induction as with
    | nil =>
      intro rev
      rfl
    | cons a as ih =>
      intro rev
      rw [foldl_cons, ih]
      by_cases hu : a.dest = u
      · rw [← hu]
        simp
      · rw [filter_cons_of_neg (by simpa using hu), update_of_ne (Ne.symm hu)]
  exact (hloop g.flatten fun _ => []).trans (append_nil _)

theorem mem_flatten_iff {g : List (List (Link Nat))} {a : Link Nat} : a ∈ g.flatten ↔ ∃ k, a ∈ Numbering.arcsOf g k := by
  unfold Numbering.arcsOf
  rw [mem_flatten]
  constructor
  · rintro ⟨as, has, ha⟩
    obtain ⟨k, hk⟩ := mem_iff_getElem?.1 has
    refine ⟨k, ?_⟩
    rw [getD_eq_getElem?_getD, hk]
    exact ha
  · rintro ⟨k, ha⟩
    rw [getD_eq_getElem?_getD] at ha
    cases hk : g[k]? with
    | none =>
      rw [hk] at ha
      cases ha
    | some as =>
      rw [hk] at ha
      exact ⟨as, mem_of_getElem? hk, ha⟩

/-- The steps back. -/
def backSteps (d : Derivations) (u : Nat) : List (Nat × Nat) := (addReversedArcs d.g u).map fun a => (a.label, a.dest)

theorem IsLattice.mem_backSteps (h : IsLattice x inp out d) {u l v : Nat} :
    (l, v) ∈ backSteps d u ↔ (l, u) ∈ latticeSteps d v := by
  obtain ⟨name, hname⟩ := h.named
  unfold backSteps latticeSteps
  rw [addReversedArcs_eq]
  simp only [mem_map, mem_reverse, mem_filter, decide_eq_true_eq, mem_flatten_iff, Prod.mk.injEq]
  constructor
  · rintro ⟨_, ⟨a, ⟨⟨k, ha⟩, rfl⟩, rfl⟩, rfl, rfl⟩
    refine ⟨a, ?_, rfl, rfl⟩
    rw [show (flipLink a).dest = k from (hname k a ha).1]
    exact ha
  · rintro ⟨a, ha, rfl, rfl⟩
    exact ⟨flipLink a, ⟨a, ⟨⟨v, ha⟩, rfl⟩, rfl⟩, rfl, (hname v a ha).1⟩

theorem IsLattice.backSteps_nodup (h : IsLattice x inp out d) (u : Nat) : (backSteps d u).Nodup := by
  obtain ⟨name, hname⟩ := h.named
  have hflat : d.g.flatten.Nodup := by
    have hget : ∀ k (hk : k < d.g.length), Numbering.arcsOf d.g k = d.g[k] := by
      intro k hk
      unfold Numbering.arcsOf
      rw [getD_eq_getElem?_getD, getElem?_eq_getElem hk]
      rfl
    refine nodup_flatten.2 ⟨?_, ?_⟩
    · intro as has
      obtain ⟨k, hk, rfl⟩ := mem_iff_getElem.1 has
      rw [← hget k hk]
      exact h.nodup k
    · refine pairwise_iff_getElem.2 ?_
      intro i j hi hj hlt a ha ha'
      rw [← hget i hi] at ha
      rw [← hget j hj] at ha'
      have hsrc := (hname i a ha).1.symm.trans (hname j a ha').1
      omega
  unfold backSteps
  rw [addReversedArcs_eq]
  refine (nodup_reverse.2 ((hflat.filter _).map_on ?_)).map_on ?_
  · intro a _ b _ heq
    cases a
    cases b
    simp only [flipLink, Link.mk.injEq] at heq
    simp only [Link.mk.injEq]
    tauto
  · intro a ha b hb heq
    obtain ⟨a', ha', rfl⟩ := mem_map.1 (mem_reverse.1 ha)
    obtain ⟨b', hb', rfl⟩ := mem_map.1 (mem_reverse.1 hb)
    have hdest : a'.dest = b'.dest := by
      rw [of_decide_eq_true (mem_filter.1 ha').2, of_decide_eq_true (mem_filter.1 hb').2]
    obtain ⟨hlabel, hsrc⟩ := Prod.mk.inj heq
    unfold flipLink at *
    simp only at hlabel hsrc
    rw [hdest, hlabel, hsrc]

section Solve

variable [Semifield W] {order : List Nat}

/-- The steps from different states are different. -/
theorem nodup_steps {succ : Nat → List (Nat × Nat)} (hsucc : ∀ k, (succ k).Nodup) {l : List Nat} (hl : l.Nodup) :
    (l.flatMap fun k => (succ k).map fun p => (⟨k, p.1, p.2⟩ : Edge Nat Nat)).Nodup := by
  refine nodup_flatMap.2 ⟨fun k _ => (hsucc k).map fun p q heq => ?_, hl.imp fun {k j} hne a ha ha' => ?_⟩
  · exact Prod.ext (congrArg Edge.label heq) (congrArg Edge.dest heq)
  · obtain ⟨p, -, rfl⟩ := mem_map.1 ha
    obtain ⟨q, -, heq⟩ := mem_map.1 ha'
    exact hne (congrArg Edge.src heq).symm

theorem latticeForward_solves (h : IsLattice x inp out d) (ho : LatticeOrder d order) :
    Forward (latticeSteps d) (arcWeight x) order.toFinset 0 (latticeForward x d order) := by
  unfold latticeForward
  rw [propagate_eq]
  refine Forward.of_push (ho.dag h) (inOrder_of_sorted ho.sorted) ?_ ?_ fun _ _ => rfl
  · exact nodup_steps h.steps_nodup ho.sorted.nodup
  · intro a
    rw [mem_flatMap, mem_toFinset]
    constructor
    · rintro ⟨k, hk, ha⟩
      obtain ⟨p, hp, rfl⟩ := mem_map.1 ha
      exact ⟨hk, hp⟩
    · rintro ⟨hk, hp⟩
      exact ⟨a.src, hk, mem_map.2 ⟨_, hp, rfl⟩⟩

theorem latticeBackward_solves (h : IsLattice x inp out d) (ho : LatticeOrder d order) :
    Backward (latticeSteps d) (arcWeight x) order.toFinset d.fin (latticeBackward x d order) := by
  unfold latticeBackward
  rw [propagate_eq]
  have hpred : ∀ u, ∀ p ∈ backSteps d u, (p.1, u) ∈ latticeSteps d p.2 := fun u p hp => h.mem_backSteps.1 hp
  refine Backward.of_push (ho.dag h) (inOrder_of_sorted_reverse ho.sorted hpred) ?_ id
    (Set.injOn_id _) ?_ fun _ _ => rfl
  · exact nodup_steps h.backSteps_nodup (nodup_reverse.2 ho.sorted.nodup)
  · intro v hv u l
    rw [mem_toFinset] at hv
    rw [mem_flatMap]
    constructor
    · rintro ⟨w, -, ha⟩
      obtain ⟨p, hp, heq⟩ := mem_map.1 ha
      cases heq
      exact ⟨_, h.mem_backSteps.1 hp, rfl⟩
    · rintro ⟨w, hw, hu⟩
      rw [show u = w from hu]
      refine ⟨w, mem_reverse.2 (ho.sorted.closed v hv w (mem_steps.2 ⟨l, hw⟩)), ?_⟩
      exact mem_map.2 ⟨(l, v), h.mem_backSteps.2 hw, rfl⟩

/-- Nothing is pushed to what is not in the order. -/
theorem latticeForward_zero (ho : LatticeOrder d order) {k : Nat} (hk : k ∉ order) : latticeForward x d order k = 0 := by
  unfold latticeForward
  rw [propagate_eq, push_of_ne]
  · refine if_neg fun hzero => hk ?_
    rw [hzero]
    exact ho.start
  · intro a ha hdest
    obtain ⟨v, hv, ha⟩ := mem_flatMap.1 ha
    obtain ⟨p, hp, rfl⟩ := mem_map.1 ha
    exact hk (hdest ▸ ho.sorted.closed v hv p.2 (mem_steps.2 ⟨p.1, hp⟩))

/-- The arcs of all states add to the counts what those in the order do. -/
theorem sum_lattice (ho : LatticeOrder d order) (b : Nat → W) (id : Nat) :
    ((range d.g.length).map fun k => (((latticeSteps d k).filter fun p => p.1 = id).map fun p =>
      latticeForward x d order k * (arcWeight x p.1 * b p.2)).sum).sum =
    ∑ k ∈ order.toFinset, (((latticeSteps d k).filter fun p => p.1 = id).map fun p =>
      latticeForward x d order k * (arcWeight x p.1 * b p.2)).sum := by
  rw [← sum_toFinset _ nodup_range]
  refine (Finset.sum_subset ?_ ?_).symm
  · intro k hk
    rw [mem_toFinset] at hk ⊢
    exact mem_range.2 (ho.within k hk)
  · intro k _ hk
    rw [mem_toFinset] at hk
    simp only [latticeForward_zero ho hk, zero_mul]
    exact sum_map_zero

/-- **What a lattice gives**: the weight of the laid paths, and the counts with
the uses of the arcs in proportion. -/
theorem lattice_sums [IsCancelAdd W] {n : IOSymSeq F} (h : IsLattice x n.i n.o d) (hx : EpsAcyclic x)
    (hsome : ∃ ls, Laying x n.i n.o ls) (ops : WeightOps W F) (counts : Nat → W) :
    ∃ counts', collectCounts ops x d n.weight counts = some (laidWeight x n, counts') ∧
      ∀ id < x.visitArcs.length,
        counts' id = counts id + ops.ofReal n.weight * (laidUse x n (x.ptrOf id) / laidWeight x n) := by
  obtain ⟨order, horder, ho⟩ := h.order hx
  obtain ⟨name, hname⟩ := h.named
  obtain ⟨f, hf, hbij⟩ := h.paths
  have hwalks : Set.BijOn (List.map (f ∘ linkOf)) (walks (latticeSteps d) d.fin 0) {ls | Laying x n.i n.o ls} := by
    rw [← map_comp_map]
    exact hbij.comp h.walks_trails
  obtain ⟨htotal, hused⟩ := sums_of_bijOn (x := x) (n := n) (fun e => hf (linkOf e)) hwalks fun es hes => h.ids_lt hes
  have hclosed : ∀ {k j : Nat} {es : List (Edge Nat Nat)}, Lib.Walk (latticeSteps d) k es j → k ∈ order → j ∈ order := by
    intro k j es hw hk
    induction hw with
    | nil => exact hk
    | cons hmem _ ih => exact ih (ho.sorted.closed _ hk _ (mem_steps.2 ⟨_, hmem⟩))
  have hfin : d.fin ∈ order := by
    obtain ⟨ls, hls⟩ := hsome
    obtain ⟨es, hes, -⟩ := hwalks.surjOn hls
    exact hclosed hes ho.start
  obtain ⟨hf, -, hcounts⟩ := forward_backward (ho.dag h) (mem_toFinset.2 ho.start) (mem_toFinset.2 hfin)
    (latticeForward_solves h ho) (latticeBackward_solves h ho)
  have hprob : latticeForward x d order d.fin = laidWeight x n := hf.trans htotal
  unfold collectCounts
  rw [horder]
  simp only [Option.bind_eq_bind, Option.bind_some, hprob]
  refine ⟨_, rfl, fun id hid => ?_⟩
  let amount : Nat → Nat × Nat → Nat × W := fun k p =>
    (p.1, latticeForward x d order k * (arcWeight x p.1 * latticeBackward x d order p.2) *
      (ops.ofReal n.weight / laidWeight x n))
  have hloops : (range d.g.length).foldl (fun counts s => (Numbering.arcsOf d.g s).foldl (fun counts a =>
      update counts a.label (counts a.label + arcWeight x a.label * latticeForward x d order a.src *
        latticeBackward x d order a.dest * ops.ofReal n.weight / laidWeight x n)) counts) counts =
      deposit counts ((range d.g.length).flatMap fun k => (latticeSteps d k).map (amount k)) := by
    rw [deposit_flatMap]
    refine foldl_ext _ _ _ fun counts k _ => ?_
    unfold deposit latticeSteps
    rw [map_map, foldl_map]
    refine foldl_ext _ _ _ fun counts a ha => ?_
    have hsrc := (hname k a ha).1
    simp only [amount, comp_apply, hsrc]
    congr 2
    ring
  rw [hloops, deposit_eq, filter_flatMap, map_flatMap, flatMap_def, sum_flatten, map_map]
  congr 1
  have hstep : ∀ k, (((latticeSteps d k).map (amount k)).filter fun a => a.1 = id).map Prod.snd =
      ((latticeSteps d k).filter fun p => p.1 = id).map fun p =>
        latticeForward x d order k * (arcWeight x p.1 * latticeBackward x d order p.2) *
          (ops.ofReal n.weight / laidWeight x n) := by
    intro k
    rw [filter_map, map_map]
    rfl
  have hsum := (sum_lattice ho (latticeBackward x d order) id).trans ((hcounts id).trans (hused id hid))
  rw [show ops.ofReal n.weight * (laidUse x n (x.ptrOf id) / laidWeight x n) =
    laidUse x n (x.ptrOf id) * (ops.ofReal n.weight / laidWeight x n) by ring, ← hsum, ← sum_map_mul_right]
  congr 1
  apply map_congr_left
  intro k _
  rw [comp_apply, hstep, sum_map_mul_right]

end Solve

end Lattice

end Sbmt.Carmel
