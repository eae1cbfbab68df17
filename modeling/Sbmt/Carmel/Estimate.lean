import Sbmt.Carmel.LatticeSums

/-!
# estimate by matrix and by lattice compared

Both sum over the laid paths (`matrix_estimates`, `cached_estimates`), so their counts are exact unless a path is laid
along a `*e*` in more ways than another (`laidEvenly_of_ways`). The probabilities are not the same when an example has no
derivation: `estimate_matrix` multiplies by its probability, zero, before it is taken out of the corpus, and the
lattices are only of the examples that have one (`estimate_agrees_iff`).
-/

namespace Sbmt.Carmel

open Sbmt.Lib List

variable {W F : Type} {x : Wfst W}

/-! ## Examples by what derivations they have -/

/-- An example with a derivation of positive weight. -/
def HasPositive [Zero W] (x : Wfst W) (n : IOSymSeq F) : Prop :=
  ∃ ls, Laying x n.i n.o ls ∧ ∀ a ∈ x.taken (ls.map Laid.arc), a.weight ≠ 0

theorem HasPositive.hasDerivation [Zero W] {n : IOSymSeq F} (h : HasPositive x n) : HasDerivation x n := by
  obtain ⟨ls, hls, -⟩ := h
  exact ⟨ls, hls⟩

theorem EpsAcyclic.finite_laying (h : EpsAcyclic x) (inp out : SymSeq) : {ls | Laying x inp out ls}.Finite := by
  rw [← (walks_bijOn x inp out).image_eq]
  exact ((h.dag inp out).finite _ start_mem).image _

theorem laidWeight_of_none [Semifield W] {n : IOSymSeq F} (h : ¬ HasDerivation x n) : laidWeight x n = 0 := by
  have hempty : {ls | Laying x n.i n.o ls} = ∅ := by
    refine Set.eq_empty_of_forall_notMem fun ls hls => h ⟨ls, hls⟩
  unfold laidWeight
  rw [hempty, finsum_mem_empty]

/-- The lattice of an example that has one. -/
theorem initAndCompute_lattice (x : Wfst W) (prune : Bool) (n : IOSymSeq F) :
    (∃ d, initAndCompute x prune n = some d ∧ IsLattice x n.i n.o d ∧ HasDerivation x n) ∨
      (initAndCompute x prune n = none ∧ ¬ HasDerivation x n) := by
  obtain ⟨d, hd, hgoal, hlattice⟩ := compute_lattice x n.i n.o prune
  unfold initAndCompute
  rw [hd]
  cases hno : d.noGoal with
  | true =>
    right
    exact ⟨by simp [Option.filter, hno], hgoal.1 hno⟩
  | false =>
    left
    refine ⟨d, by simp [Option.filter, hno], hlattice hno, ?_⟩
    by_contra hnot
    rw [hgoal.2 hnot] at hno
    cases hno

theorem mem_derivable {prune : Bool} {examples : List (IOSymSeq F)} {n : IOSymSeq F} :
    n ∈ derivable x prune examples ↔ n ∈ examples ∧ HasDerivation x n := by
  unfold derivable
  rw [mem_filter, initAndCompute_isSome]

/-- The corpus is empty after the lattices only if it was, or if the examples without
a derivation were taken out and there were no others. -/
theorem remaining_eq_nil [Zero F] [Add F] [Mul F] [NatCast F] {cache prune : Bool} {examples : List (IOSymSeq F)} :
    (foreachDeriv x prune (CachedDerivs.new x cache prune examples)).2.examples = [] ↔
      examples = [] ∨ (cache = false ∧ prune = true ∧ ∀ n ∈ examples, ¬ HasDerivation x n) := by
  cases cache with
  | true =>
    have hsame : (foreachDeriv x prune (CachedDerivs.new x true prune examples)).2.examples = examples := rfl
    rw [hsame]
    simp
  | false =>
    have hsame : (foreachDeriv x prune (CachedDerivs.new x false prune examples)).2.examples =
        (recompute x prune true examples).2 := rfl
    rw [hsame, recompute_eq]
    cases prune with
    | false => simp
    | true =>
      show derivable x true examples = [] ↔ _
      rw [eq_nil_iff_forall_not_mem]
      simp only [mem_derivable, not_and]
      constructor
      · intro h
        exact .inr ⟨trivial, trivial, h⟩
      · rintro (rfl | ⟨-, -, h⟩)
        · intro n hn
          cases hn
        · exact h

theorem pow_eq_zero_iff [Zero W] [DecidableEq W] (ops : WeightOps W F) {w : W} {p : F} : ops.pow w p = 0 ↔ w = 0 := by
  unfold WeightOps.pow
  split
  · rfl
  · rename_i hne
    exact ⟨fun h => absurd h (ops.power_ne_zero w p hne), fun h => absurd h hne⟩

/-- A product over some of the factors is the product over all, or not: it depends on
whether one left out is zero and none of the others is. -/
theorem prod_filter_eq_iff [Semifield W] {f : IOSymSeq F → W} {p : IOSymSeq F → Bool} {ns : List (IOSymSeq F)}
    (hzero : ∀ n ∈ ns, p n = false → f n = 0) :
    (ns.map f).prod = ((ns.filter p).map f).prod ↔ (∀ n ∈ ns, p n = true) ∨ ∃ n ∈ ns, p n = true ∧ f n = 0 := by
  constructor
  · intro h
    by_contra hnot
    obtain ⟨hall, hnone⟩ := not_or.1 hnot
    obtain ⟨n, hn⟩ := not_forall.1 hall
    obtain ⟨hmem, hp⟩ := Classical.not_imp.1 hn
    have hleft : (ns.map f).prod = 0 :=
      prod_eq_zero (mem_map.2 ⟨n, hmem, hzero n hmem (by simpa using hp)⟩)
    rw [hleft] at h
    obtain ⟨m, hm, hfm⟩ := mem_map.1 (prod_eq_zero_iff.1 h.symm)
    obtain ⟨hm, hpm⟩ := mem_filter.1 hm
    exact hnone ⟨m, hm, hpm, hfm⟩
  · rintro (hall | ⟨n, hn, hp, hf⟩)
    · rw [filter_eq_self.2 hall]
    · rw [prod_eq_zero (mem_map.2 ⟨n, hn, hf⟩), prod_eq_zero (mem_map.2 ⟨n, mem_filter.2 ⟨hn, hp⟩, hf⟩)]

variable [Semifield W] [LinearOrder W] [IsStrictOrderedRing W]

/-- The total is zero only if every derivation has an arc of weight zero. -/
theorem laidWeight_ne_zero [CanonicallyOrderedAdd W] (hx : EpsAcyclic x) (n : IOSymSeq F) : laidWeight x n ≠ 0 ↔ HasPositive x n := by
  have hfin := hx.finite_laying n.i n.o
  have hprod : ∀ ps : List ArcPtr, x.pathWeight ps ≠ 0 ↔ ∀ a ∈ x.taken ps, a.weight ≠ 0 := by
    intro ps
    unfold Wfst.pathWeight
    rw [Ne, prod_eq_zero_iff]
    simp only [mem_map, not_exists, not_and]
  unfold laidWeight HasPositive
  rw [finsum_mem_eq_finite_toFinset_sum _ hfin, Ne, Finset.sum_eq_zero_iff]
  simp only [Set.Finite.mem_toFinset, Set.mem_ofPred_eq, not_forall, exists_prop]
  refine exists_congr fun ls => and_congr_right fun _ => ?_
  exact hprod _

/-! ## Both ways -/

/-- What both ways count for an arc: over the examples, the weight times the uses by the laid paths in proportion. An
example without a derivation adds nothing. -/
noncomputable def laidCount (ops : WeightOps W F) (x : Wfst W) (examples : List (IOSymSeq F)) (p : ArcPtr) : W :=
  (examples.map fun n => ops.ofReal n.weight * (laidUse x n p / laidWeight x n)).sum

/-- What one way makes of the examples `taken` from the corpus. -/
structure Estimates (ops : WeightOps W F) (x : Wfst W) (examples taken : List (IOSymSeq F)) (e : Estimate W F) : Prop where
  prob : e.prob = (taken.map fun n => ops.pow (laidWeight x n) n.weight).prod
  unweighted : e.unweighted = (taken.map fun n => laidWeight x n).prod
  counts : ∀ id < x.visitArcs.length, e.counts id = laidCount ops x examples (x.ptrOf id)

theorem matrixExample_counts (hx : EpsAcyclic x) (ops : WeightOps W F) {e eRev : List Nat} (he : EpsOrder x (eNext x) e)
    (heRev : EpsOrder x (eNextReversed x) eRev) (acc : Estimate W F) (n : IOSymSeq F) :
    (matrixExample ops x e eRev acc n).prob = acc.prob * ops.pow (laidWeight x n) n.weight ∧
      (matrixExample ops x e eRev acc n).unweighted = acc.unweighted * laidWeight x n ∧
      (∀ id < x.visitArcs.length, (matrixExample ops x e eRev acc n).counts id =
        acc.counts id + ops.ofReal n.weight * (laidUse x n (x.ptrOf id) / laidWeight x n)) ∧
      (matrixExample ops x e eRev acc n).examples = acc.examples ++ if laidWeight x n = 0 then [] else [n] := by
  obtain ⟨hf, -, hcounts⟩ := matrix_sums hx he heRev n
  have hfin : matrixForward x e n ⟨n.i.length, x.final, n.o.length⟩ = laidWeight x n := hf
  unfold matrixExample
  simp only [hfin]
  by_cases hzero : laidWeight x n = 0
  · rw [if_pos hzero, if_pos hzero]
    refine ⟨rfl, rfl, ?_, (append_nil _).symm⟩
    intro id _
    show acc.counts id = _
    rw [hzero, div_zero, mul_zero, add_zero]
  · rw [if_neg hzero, if_neg hzero]
    refine ⟨rfl, rfl, ?_, rfl⟩
    intro id hid
    show addWeightedScratch _ _ acc.counts id = _
    unfold addWeightedScratch
    rw [hcounts id hid]
    split
    · rename_i hused
      rw [hused, zero_div, mul_zero, add_zero]
    · ring

theorem matrix_estimates (hx : EpsAcyclic x) (ops : WeightOps W F) (examples : List (IOSymSeq F)) :
    ∃ e, estimateMatrix ops x examples = some e ∧ Estimates ops x examples examples e ∧
      e.examples = examples.filter fun n => laidWeight x n ≠ 0 := by
  obtain ⟨e, hfwd, he⟩ := hx.forward
  obtain ⟨eRev, hrev, heRev⟩ := hx.backward
  unfold estimateMatrix
  rw [hfwd, hrev]
  have hloop : ∀ (ns : List (IOSymSeq F)) (acc : Estimate W F),
      (ns.foldl (matrixExample ops x e eRev) acc).prob =
          acc.prob * (ns.map fun n => ops.pow (laidWeight x n) n.weight).prod ∧
        (ns.foldl (matrixExample ops x e eRev) acc).unweighted = acc.unweighted * (ns.map fun n => laidWeight x n).prod ∧
        (∀ id < x.visitArcs.length, (ns.foldl (matrixExample ops x e eRev) acc).counts id =
          acc.counts id + laidCount ops x ns (x.ptrOf id)) ∧
        (ns.foldl (matrixExample ops x e eRev) acc).examples = acc.examples ++ ns.filter fun n => laidWeight x n ≠ 0 := by
    intro ns
    induction ns with
    | nil => intro acc; simp [laidCount]
    | cons n ns ih =>
      intro acc
      obtain ⟨hprob, hunweighted, hcounts, hexamples⟩ := matrixExample_counts hx ops he heRev acc n
      obtain ⟨hprob', hunweighted', hcounts', hexamples'⟩ := ih (matrixExample ops x e eRev acc n)
      rw [foldl_cons]
      refine ⟨?_, ?_, ?_, ?_⟩
      · rw [hprob', hprob, map_cons, prod_cons, mul_assoc]
      · rw [hunweighted', hunweighted, map_cons, prod_cons, mul_assoc]
      · intro id hid
        rw [hcounts' id hid, hcounts id hid, add_assoc]
        rfl
      · rw [hexamples', hexamples, append_assoc]
        by_cases hzero : laidWeight x n = 0
        · rw [if_pos hzero, filter_cons_of_neg (by simpa using hzero), nil_append]
        · rw [if_neg hzero, filter_cons_of_pos (by simpa using hzero)]
          rfl
  obtain ⟨hprob, hunweighted, hcounts, hexamples⟩ := hloop examples ⟨1, 1, fun _ => 0, []⟩
  refine ⟨_, rfl, ⟨?_, ?_, ?_⟩, hexamples⟩
  · rw [hprob, one_mul]
  · rw [hunweighted, one_mul]
  · intro id hid
    rw [hcounts id hid, zero_add]

section Cached

variable [Zero F] [Add F] [Mul F] [NatCast F]

theorem cached_estimates (hx : EpsAcyclic x) (ops : WeightOps W F) (cache prune : Bool) (examples : List (IOSymSeq F)) :
    ∃ e, estimateCached ops x cache prune examples = some e ∧
      Estimates ops x examples (derivable x prune examples) e ∧
      e.examples = (foreachDeriv x prune (CachedDerivs.new x cache prune examples)).2.examples := by
  have hloop : ∀ (ns : List (IOSymSeq F)) (acc : Estimate W F), ∃ e,
      (lattices x prune ns).foldlM (latticeExample ops x) acc = some e ∧
        e.prob = acc.prob * ((derivable x prune ns).map fun n => ops.pow (laidWeight x n) n.weight).prod ∧
        e.unweighted = acc.unweighted * ((derivable x prune ns).map fun n => laidWeight x n).prod ∧
        (∀ id < x.visitArcs.length, e.counts id = acc.counts id + laidCount ops x ns (x.ptrOf id)) ∧
        e.examples = acc.examples := by
    intro ns
    induction ns with
    | nil =>
      intro acc
      exact ⟨acc, rfl, (mul_one _).symm, (mul_one _).symm, fun _ _ => (add_zero _).symm, rfl⟩
    | cons n ns ih =>
      intro acc
      rcases initAndCompute_lattice x prune n with ⟨d, hd, hlattice, hsome⟩ | ⟨hnone, hnot⟩
      · obtain ⟨counts', hcollect, hcounts⟩ := lattice_sums hlattice hx hsome ops acc.counts
        have hlist : lattices x prune (n :: ns) = (d, n.weight) :: lattices x prune ns := by
          unfold lattices
          rw [filterMap_cons_some (by rw [hd]; rfl)]
        have hderivable : derivable x prune (n :: ns) = n :: derivable x prune ns := by
          unfold derivable
          rw [filter_cons_of_pos (by rw [hd]; rfl)]
        have hstep : latticeExample ops x acc (d, n.weight) = some
            { acc with
              prob := acc.prob * ops.pow (laidWeight x n) n.weight
              unweighted := acc.unweighted * laidWeight x n
              counts := counts' } := by
          unfold latticeExample
          rw [hcollect]
          rfl
        obtain ⟨e, he, hprob, hunweighted, hcounts', hexamples⟩ := ih
          { acc with
            prob := acc.prob * ops.pow (laidWeight x n) n.weight
            unweighted := acc.unweighted * laidWeight x n
            counts := counts' }
        rw [hlist, hderivable, foldlM_cons, hstep]
        refine ⟨e, he, ?_, ?_, ?_, hexamples⟩
        · rw [hprob, map_cons, prod_cons, mul_assoc]
        · rw [hunweighted, map_cons, prod_cons, mul_assoc]
        · intro id hid
          refine (hcounts' id hid).trans ?_
          show counts' id + _ = _
          rw [hcounts id hid, add_assoc]
          rfl
      · have hlist : lattices x prune (n :: ns) = lattices x prune ns := by
          unfold lattices
          rw [filterMap_cons_none (by rw [hnone]; rfl)]
        have hderivable : derivable x prune (n :: ns) = derivable x prune ns := by
          unfold derivable
          rw [filter_cons_of_neg (by rw [hnone]; exact Bool.false_ne_true)]
        obtain ⟨e, he, hprob, hunweighted, hcounts', hexamples⟩ := ih acc
        rw [hlist, hderivable]
        refine ⟨e, he, hprob, hunweighted, ?_, hexamples⟩
        intro id hid
        have hzero : ops.ofReal n.weight * (laidUse x n (x.ptrOf id) / laidWeight x n) = 0 := by
          rw [laidWeight_of_none hnot, div_zero, mul_zero]
        unfold laidCount
        rw [map_cons, sum_cons, hzero, zero_add]
        exact hcounts' id hid
  obtain ⟨e, he, hprob, hunweighted, hcounts, hexamples⟩ := hloop examples
    ⟨1, 1, fun _ => 0, (foreachDeriv x prune (CachedDerivs.new x cache prune examples)).2.examples⟩
  refine ⟨e, he, ⟨?_, ?_, ?_⟩, hexamples⟩
  · rw [hprob, one_mul]
  · rw [hunweighted, one_mul]
  · intro id hid
    rw [hcounts id hid, zero_add]

/-! ## When they agree -/

/-- The weight of the paths for an example. -/
noncomputable def totalWeight (x : Wfst W) (n : IOSymSeq F) : W := ∑ᶠ ps ∈ {ps | Matching x n.i n.o ps}, x.pathWeight ps

/-- Their weight times how often they use an arc. -/
noncomputable def usedWeight (x : Wfst W) (n : IOSymSeq F) (p : ArcPtr) : W :=
  ∑ᶠ ps ∈ {ps | Matching x n.i n.o ps}, x.pathWeight ps * (ps.count p : W)

/-- The expected count of an arc: over the examples, the weight times the uses by the paths in proportion. -/
noncomputable def expectedCount (ops : WeightOps W F) (x : Wfst W) (examples : List (IOSymSeq F)) (p : ArcPtr) : W :=
  (examples.map fun n => ops.ofReal n.weight * (usedWeight x n p / totalWeight x n)).sum

/-- To count a path as often as it is laid along an example gives the same uses in proportion as to count it once. -/
def LaidEvenly (ops : WeightOps W F) (x : Wfst W) (examples : List (IOSymSeq F)) : Prop :=
  ∀ id < x.visitArcs.length, laidCount ops x examples (x.ptrOf id) = expectedCount ops x examples (x.ptrOf id)

omit [Zero F] [Add F] [Mul F] [NatCast F] [LinearOrder W] [IsStrictOrderedRing W] in
/-- Where each path is laid in `k` ways, a sum over the laid paths is `k` times that over the paths. -/
theorem finsum_laid (hx : EpsAcyclic x) {inp out : SymSeq} {k : Nat} (hk : 0 < k)
    (hways : ∀ ps, Matching x inp out ps → {ls | Laying x inp out ls ∧ ls.map Laid.arc = ps}.ncard = k)
    (f : List ArcPtr → W) : ∑ᶠ ls ∈ {ls | Laying x inp out ls}, f (ls.map Laid.arc) =
      k * ∑ᶠ ps ∈ {ps | Matching x inp out ps}, f ps := by
  classical
  have hfin := hx.finite_laying inp out
  have himage : List.map Laid.arc '' {ls | Laying x inp out ls} = {ps | Matching x inp out ps} := by
    refine Set.Subset.antisymm (Set.image_subset_iff.2 fun ls hls => hls.matching) fun ps hps => ?_
    obtain ⟨ls, hls, heq⟩ := Set.nonempty_of_ncard_ne_zero ((hways ps hps).trans_ne hk.ne')
    exact ⟨ls, hls, heq⟩
  have hfin' : {ps | Matching x inp out ps}.Finite := himage ▸ hfin.image _
  have himage' : hfin.toFinset.image (List.map Laid.arc) = hfin'.toFinset := by
    apply Finset.coe_injective
    rw [Finset.coe_image, hfin.coe_toFinset, hfin'.coe_toFinset, himage]
  rw [finsum_mem_eq_finite_toFinset_sum _ hfin, finsum_mem_eq_finite_toFinset_sum _ hfin', Finset.sum_comp, himage',
    Finset.mul_sum]
  refine Finset.sum_congr rfl fun ps hps => ?_
  rw [nsmul_eq_mul]
  congr 2
  rw [← hways ps (hfin'.mem_toFinset.1 hps), ← Set.ncard_coe_finset]
  congr 1
  ext ls
  simp

section
omit [Zero F] [Add F] [Mul F] [NatCast F]

/-- It is so if for each example every path is laid in as many ways as the others. -/
theorem laidEvenly_of_ways (hx : EpsAcyclic x) (ops : WeightOps W F) {examples : List (IOSymSeq F)}
    (h : ∀ n ∈ examples, ∃ k, 0 < k ∧
      ∀ ps, Matching x n.i n.o ps → {ls | Laying x n.i n.o ls ∧ ls.map Laid.arc = ps}.ncard = k) :
    LaidEvenly ops x examples := by
  intro id _
  unfold laidCount expectedCount
  congr 1
  refine map_congr_left fun n hn => ?_
  obtain ⟨k, hk, hways⟩ := h n hn
  have hne : (k : W) ≠ 0 := Nat.cast_ne_zero.2 hk.ne'
  have huse : laidUse x n (x.ptrOf id) = k * usedWeight x n (x.ptrOf id) :=
    finsum_laid hx hk hways fun ps => x.pathWeight ps * (ps.count (x.ptrOf id) : W)
  have hweight : laidWeight x n = k * totalWeight x n := finsum_laid hx hk hways fun ps => x.pathWeight ps
  rw [huse, hweight, mul_div_mul_left _ _ hne]

/-- Without `*e*` every path is laid in one way. -/
theorem laidEvenly_of_notMem (hx : EpsAcyclic x) (ops : WeightOps W F) {examples : List (IOSymSeq F)}
    (h : ∀ n ∈ examples, epsilonIndex ∉ n.i ∧ epsilonIndex ∉ n.o) : LaidEvenly ops x examples := by
  refine laidEvenly_of_ways hx ops fun n hn => ⟨1, Nat.one_pos, fun ps hps => ?_⟩
  obtain ⟨ls, hls, hunique⟩ := hps.laid_once (h n hn).1 (h n hn).2
  exact Set.ncard_eq_one.2 ⟨ls, Set.eq_singleton_iff_unique_mem.2 ⟨hls, hunique⟩⟩

end

/-- What is the same: an exception, or the probabilities and the counts of all arcs. -/
def SameResult (x : Wfst W) : Except String (Estimate W F) → Except String (Estimate W F) → Prop
  | .ok m, .ok l => m.prob = l.prob ∧ m.unweighted = l.unweighted ∧ ∀ id < x.visitArcs.length, m.counts id = l.counts id
  | .error e, .error e' => e = e'
  | _, _ => False

/-- The matrix and the lattices agree, and their counts are exact. -/
structure EstimateAgrees (ops : WeightOps W F) (x : Wfst W) (cache prune : Bool) (examples : List (IOSymSeq F)) : Prop where
  same : ∃ m l, estimate ops x examples .matrix = some m ∧ estimate ops x examples (.lattice cache prune) = some l ∧
    SameResult x m l
  exact : ∀ way ∈ [EstimateBy.matrix, .lattice cache prune], ∀ e, estimate ops x examples way = some (.ok e) →
    ∀ id < x.visitArcs.length, e.counts id = expectedCount ops x examples (x.ptrOf id)

end Cached

/-- A transducer with one state and no arc. -/
def silentWfst : Wfst ℚ≥0 where
  states := [[]]
  final := 0
  nonempty := by decide
  final_lt := by decide
  dest_lt := by simp

/-- Counts as example weights. -/
def countOps : WeightOps ℚ≥0 Nat where
  ofReal := fun n => n
  power := fun w n => w ^ n
  power_ne_zero := fun _ n h => pow_ne_zero n h

theorem silentWfst_arc? (p : ArcPtr) : silentWfst.arc? p = none := by
  obtain ⟨src, pos⟩ := p
  cases src with
  | zero => rfl
  | succ src => rfl

theorem silentWfst_acyclic : EpsAcyclic silentWfst := by
  intro s ps hps _
  cases ps with
  | nil => rfl
  | cons p ps =>
    obtain ⟨t, ht⟩ : ∃ t, t = s := ⟨s, rfl⟩
    have hpath : silentWfst.Path s (p :: ps) t := ht ▸ hps
    cases hpath with
    | cons harc _ =>
      rw [silentWfst_arc?] at harc
      cases harc

/-- An input with a letter, which `silentWfst` does not read. -/
def letterPair : IOSymSeq Nat := ⟨[1], [], 1⟩

end Sbmt.Carmel
