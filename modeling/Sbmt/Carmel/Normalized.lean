import Sbmt.Carmel.Normalize

/-!
# What `WFST::normalize` is to do, and when it does (`carmel/src/fst.cc:89-236`)

Locked arcs keep their weights, and the normal arcs of a group share what these leave: in proportion to what they had,
with the number that is added, or equally where they had nothing and the group is to be uniform instead (`fst.h:1183`).
`Normalized` says this, and that the arcs of a tie group have one weight.

The number to add goes onto locked arcs too, and a group whose normal arcs sum to 0 is divided by that sum when it is
to be made uniform.  Otherwise the weights are what they are to be: `normalize_iff`.
-/

namespace Sbmt.Carmel

open Sbmt.Lib List

variable {K : Type*} [Semifield K] [LinearOrder K]

namespace Wfst

variable (x : Wfst K)

/-- The transducer with its weights as they are kept. -/
def exact : Wfst (LogWeight K) := x.reweight fun p => .num (x.weightAt p)

def Untied : Prop := ∀ p ∈ x.visitArcs, FSTArc.tied (x.groupAt p) = false

variable (group : NormGroupBy)

def lockedArcs (p : ArcPtr) : List ArcPtr :=
  (x.normGroup group p).filter fun q => FSTArc.locked (x.groupAt q)

def normalArcs (p : ArcPtr) : List ArcPtr :=
  (x.normGroup group p).filter fun q => FSTArc.normal (x.groupAt q)

/-- What the locked arcs of the group of an arc have. -/
def lockedSum (p : ArcPtr) : K := ((x.lockedArcs group p).map x.weightAt).sum

/-- What its normal arcs have, with the number to add. -/
def normalSum (c : K) (p : ArcPtr) : K :=
  ((x.normalArcs group p).map fun q => x.weightAt q + c).sum

end Wfst

/-- The arcs `ns` have together what is left, in proportion to what they had, or equally where they had nothing and are
to be uniform. -/
structure Shared (uniform : Bool) (left : K) (had : ArcPtr → K) (ns : List ArcPtr) (v : ArcPtr → K) : Prop where
  proportional : (ns.map had).sum ≠ 0 → (ns.map v).sum = left ∧ ∃ k, ∀ q ∈ ns, v q = k * had q
  zero : (ns.map had).sum = 0 → uniform = false → ∀ q ∈ ns, v q = 0
  equal : (ns.map had).sum = 0 → uniform = true → ns ≠ [] → (ns.map v).sum = left ∧ ∃ k, ∀ q ∈ ns, v q = k

structure Normalized [Sub K] (group : NormGroupBy) (c : K) (uniform : Bool) (x : Wfst K) (y : Wfst (LogWeight K)) :
    Prop where
  locked : x.Untied → ∀ p ∈ x.visitArcs, FSTArc.locked (x.groupAt p) = true → y.weightAt p = .num (x.weightAt p)
  normal : x.Untied → ∀ p ∈ x.visitArcs, x.lockedSum group p ≤ 1 → ∃ v,
    (∀ q ∈ x.normalArcs group p, y.weightAt q = .num (v q)) ∧
      Shared uniform (1 - x.lockedSum group p) (fun q => x.weightAt q + c) (x.normalArcs group p) v
  tied : ∀ p ∈ x.visitArcs, ∀ q ∈ x.visitArcs, FSTArc.tied (x.groupAt p) = true → x.groupAt q = x.groupAt p →
    ∃ k, y.weightAt p = .num k ∧ y.weightAt q = .num k

/-- No number is added where there are locked arcs, and none of the groups that are to be made uniform sums to 0. -/
structure NormalizeSafe (group : NormGroupBy) (c : K) (uniform : Bool) (x : Wfst K) : Prop where
  locked : c = 0 ∨ ∀ p ∈ x.visitArcs, FSTArc.locked (x.groupAt p) = false
  uniform : uniform = true → ∀ p ∈ x.visitArcs, x.normalArcs group p ≠ [] → x.lockedSum group p < 1 →
    x.normalSum group c p ≠ 0

section

variable [IsStrictOrderedRing K] [CanonicallyOrderedAdd K] [Sub K] [OrderedSub K] {uniform : Bool} {group : NormGroupBy}
  {o : KeyOrder} {c : K} {x : Wfst K} {p q : ArcPtr}

omit [LinearOrder K] [IsStrictOrderedRing K] [CanonicallyOrderedAdd K] [Sub K] [OrderedSub K] in
theorem weightAt_exact (p : ArcPtr) : x.exact.weightAt p = .num (x.weightAt p) := by
  rw [Wfst.exact, Wfst.weightAt, Wfst.arc?_reweight]
  cases h : x.arc? p with
  | none =>
    rw [Wfst.weightAt, h]
    rfl
  | some a => rfl

omit [IsStrictOrderedRing K] [CanonicallyOrderedAdd K] [OrderedSub K] in
theorem passTwo_exact (scale : LogWeight K → LogWeight K) (t : TieTotals K) :
    passTwo x.exact scale uniform t = passTwo x scale uniform t := by
  have hreserve : reserveArc x.exact scale t = reserveArc x scale t := by
    unfold reserveArc
    rw [Wfst.exact, Wfst.groupAt_reweight]
  unfold passTwo
  rw [hreserve, Wfst.exact, Wfst.groupAt_reweight]

omit [OrderedSub K] in
/-- What pass 2 finds in the groups of the arcs. -/
theorem normalize_block (o : KeyOrder) (c : K) (uniform : Bool) (x : Wfst K) (hgroup : group ≠ .none) :
    ∃ t : TieTotals K, t.Sound ∧ ∀ p ∈ x.visitArcs, ∃ (g : List ArcPtr) (w : ArcPtr → LogWeight K),
      p ∈ g ∧ g.Nodup ∧ g.Perm (x.normGroup group p) ∧ (∀ q ∈ g, w q = .num (x.weightAt q + c)) ∧
        ∀ q ∈ g, (normalize o ⟨group, id, .num c⟩ uniform x.exact).weightAt q = passTwo x id uniform t w g q := by
  have hnodup := Wfst.normGroups_nodup o x.exact hgroup
  have hgs := (nodup_flatten.1 hnodup).1
  generalize hr : (x.exact.normGroups o group).foldl (passOne x.exact (.num c)) (x.exact.weightAt, ⟨0, 0, 0⟩) = r
  refine ⟨r.2, ?_, ?_⟩
  · rw [← hr]
    exact passOne_sound hgs (fun q => ⟨_, weightAt_exact q⟩) fun j => ⟨0, 0, 0, rfl, rfl, rfl, le_rfl⟩
  intro p hp
  have hpe : p ∈ x.exact.visitArcs := by rwa [Wfst.exact, Wfst.visitArcs_reweight]
  obtain ⟨g, hg, hpg, hperm⟩ := Wfst.exists_normGroups o hgroup hpe
  rw [Wfst.exact, Wfst.normGroup_reweight] at hperm
  obtain ⟨w, hw, hrun⟩ := Blockwise.foldl_block (F := passTwo x.exact id uniform r.2)
    (fun w g q hq => passTwo_frame w hq) r.1 hnodup hg
  refine ⟨g, w, hpg, hgs g hg, hperm, ?_, ?_⟩
  · intro q hq
    have hadd : (x.exact.weightAt q).add (.num c) = .num (x.weightAt q + c) := by
      rw [weightAt_exact, LogWeight.add_num]
    rw [hw q hq, ← hr, passOne_weights, Blockwise.visit_of_mem hnodup (mem_flatten_of_mem hg hq) rfl]
    exact hadd
  · intro q hq
    have hmem : q ∈ x.exact.visitArcs := (Wfst.mem_normGroups_flatten o hgroup).1 (mem_flatten_of_mem hg hq)
    have hstep : normalize o ⟨group, id, .num c⟩ uniform x.exact =
        x.exact.reweight ((x.exact.normGroups o group).foldl (passTwo x.exact id uniform r.2) r.1) := by
      rw [← hr]
      exact if_neg hgroup
    rw [hstep, Wfst.weightAt_reweight _ _ hmem, hrun q hq, passTwo_exact]

omit [OrderedSub K] in
theorem normalize_locked (hgroup : group ≠ .none) (hp : p ∈ x.visitArcs)
    (hlocked : FSTArc.locked (x.groupAt p) = true) :
    (normalize o ⟨group, id, .num c⟩ uniform x.exact).weightAt p = .num (x.weightAt p + c) := by
  obtain ⟨t, -, hblock⟩ := normalize_block o c uniform x hgroup
  obtain ⟨g, w, hpg, -, -, hw, hrun⟩ := hblock p hp
  rw [hrun p hpg, passTwo_locked w hlocked, hw p hpg]

theorem normalize_tied (hgroup : group ≠ .none) (hp : p ∈ x.visitArcs) (hq : q ∈ x.visitArcs)
    (htied : FSTArc.tied (x.groupAt p) = true) (hsame : x.groupAt q = x.groupAt p) :
    ∃ k, (normalize o ⟨group, id, .num c⟩ uniform x.exact).weightAt p = .num k ∧
      (normalize o ⟨group, id, .num c⟩ uniform x.exact).weightAt q = .num k := by
  obtain ⟨t, ht, hblock⟩ := normalize_block o c uniform x hgroup
  obtain ⟨g, w, hpg, hg, -, -, hrun⟩ := hblock p hp
  obtain ⟨h, v, hqh, hh, -, -, hrun'⟩ := hblock q hq
  obtain ⟨k, hk⟩ := tiedWeight_num ht (x.groupAt p)
  refine ⟨k, ?_, ?_⟩
  · rw [hrun p hpg, passTwo_tied w hg hpg htied, hk]
  · rw [hrun' q hqh, passTwo_tied v hh hqh (hsame ▸ htied), hsame, hk]

/-- What a normal arc gets when no arc is tied. -/
theorem normalize_normal (hgroup : group ≠ .none) (hfree : x.Untied) (hp : p ∈ x.visitArcs)
    (hq : q ∈ x.normalArcs group p) {l : K}
    (hl : ((x.lockedArcs group p).map fun q => x.weightAt q + c).sum = l) :
    (normalize o ⟨group, id, .num c⟩ uniform x.exact).weightAt q =
      if 1 - l ≠ 0 ∧ (uniform = true ∨ x.normalSum group c p ≠ 0) then
        (LogWeight.num ((1 - l) * (x.weightAt q + c))).div (.num (x.normalSum group c p))
      else .num 0 := by
  obtain ⟨t, -, hblock⟩ := normalize_block o c uniform x hgroup
  obtain ⟨g, w, -, hnodup, hperm, hw, hrun⟩ := hblock p hp
  obtain ⟨hqg, hnormal⟩ := mem_filter.1 hq
  have hqg := hperm.mem_iff.2 hqg
  rw [hrun q hqg]
  refine passTwo_normal hnodup hw ?_ hqg hnormal ?_ ?_
  · intro r hr
    exact hfree r (Wfst.mem_normGroup.1 (hperm.mem_iff.1 hr)).1
  · exact ((hperm.filter _).map _).sum_eq.trans hl
  · exact ((hperm.filter _).map _).sum_eq

omit [Sub K] [OrderedSub K] in
/-- Arcs that sum to 0 have nothing, and no number was added. -/
theorem normalSum_eq_zero (hzero : x.normalSum group c p = 0) (hq : q ∈ x.normalArcs group p) :
    x.weightAt q + c = 0 := by
  rw [Wfst.normalSum, sum_eq_zero_iff] at hzero
  exact hzero _ (mem_map_of_mem hq)

/-- A group that is to be made uniform is divided by its sum. -/
theorem normalize_uniform_zero (hgroup : group ≠ .none) (hfree : x.Untied) (hp : p ∈ x.visitArcs)
    (hq : q ∈ x.normalArcs group p) (hlt : x.lockedSum group p < 1) (hzero : x.normalSum group c p = 0) :
    (normalize o ⟨group, id, .num c⟩ true x.exact).weightAt q = .nan := by
  have hnone := normalSum_eq_zero hzero hq
  obtain ⟨-, rfl⟩ := add_eq_zero.1 hnone
  have hl : ((x.lockedArcs group p).map fun q => x.weightAt q + 0).sum = x.lockedSum group p := by
    simp only [add_zero]
    rfl
  have hleft : 1 - x.lockedSum group p ≠ 0 := (tsub_pos_of_lt hlt).ne'
  rw [normalize_normal hgroup hfree hp hq hl, if_pos ⟨hleft, .inl rfl⟩, hnone, mul_zero, hzero]
  exact LogWeight.zero_div_zero

omit [IsStrictOrderedRing K] [CanonicallyOrderedAdd K] [Sub K] [OrderedSub K] in
/-- With nothing added to locked arcs, the mass that is reserved is theirs. -/
theorem NormalizeSafe.lockedSum_eq (h : NormalizeSafe group c uniform x) (p : ArcPtr) :
    ((x.lockedArcs group p).map fun q => x.weightAt q + c).sum = x.lockedSum group p := by
  rcases h.locked with rfl | hnone
  · simp only [add_zero]
    rfl
  · have hnil : x.lockedArcs group p = [] := by
      rw [Wfst.lockedArcs, filter_eq_nil_iff]
      intro q hq hlocked
      rw [hnone q (Wfst.mem_normGroup.1 hq).1] at hlocked
      cases hlocked
    rw [Wfst.lockedSum, hnil]
    rfl

theorem normalize_normal_safe (hgroup : group ≠ .none) (hfree : x.Untied) (hsafe : NormalizeSafe group c uniform x)
    (hp : p ∈ x.visitArcs) (hle : x.lockedSum group p ≤ 1) (hq : q ∈ x.normalArcs group p) :
    (normalize o ⟨group, id, .num c⟩ uniform x.exact).weightAt q =
      .num ((1 - x.lockedSum group p) / x.normalSum group c p * (x.weightAt q + c)) := by
  rw [normalize_normal hgroup hfree hp hq (hsafe.lockedSum_eq p)]
  by_cases hleft : 1 - x.lockedSum group p = 0
  · rw [if_neg fun h => h.1 hleft, hleft, zero_div, zero_mul]
  by_cases hzero : x.normalSum group c p = 0
  · have hlt : x.lockedSum group p < 1 := lt_of_le_of_ne hle fun h => hleft (by rw [h, tsub_self])
    rw [if_neg, normalSum_eq_zero hzero hq, mul_zero]
    rintro ⟨-, huniform | hne⟩
    · exact hsafe.uniform huniform p hp (ne_nil_of_mem hq) hlt hzero
    · exact hne hzero
  · rw [if_pos ⟨hleft, .inr hzero⟩, LogWeight.div_num hzero, mul_div_right_comm]

theorem shared_safe (hsafe : NormalizeSafe group c uniform x) (hp : p ∈ x.visitArcs)
    (hle : x.lockedSum group p ≤ 1) :
    Shared uniform (1 - x.lockedSum group p) (fun q => x.weightAt q + c) (x.normalArcs group p)
      fun q => (1 - x.lockedSum group p) / x.normalSum group c p * (x.weightAt q + c) where
  proportional := by
    intro hne
    refine ⟨?_, _, fun q _ => rfl⟩
    rw [sum_map_mul_left]
    exact div_mul_cancel₀ _ hne
  zero := by
    intro hzero _ q hq
    rw [normalSum_eq_zero hzero hq, mul_zero]
  equal := by
    intro hzero huniform hne
    have hfull : x.lockedSum group p = 1 := by
      by_contra h
      exact hsafe.uniform huniform p hp hne (lt_of_le_of_ne hle h) hzero
    rw [hfull, tsub_self, zero_div]
    refine ⟨?_, 0, fun q _ => zero_mul _⟩
    exact sum_eq_zero (by simp)

/-- **The weights are what they are to be exactly when, without tied arcs, nothing is added to locked arcs and no group
that is to be made uniform is divided by zero.** -/
theorem normalize_iff (hgroup : group ≠ .none) :
    Normalized group c uniform x (normalize o ⟨group, id, .num c⟩ uniform x.exact) ↔
      (x.Untied → NormalizeSafe group c uniform x) := by
  constructor
  · intro h hfree
    constructor
    · by_contra hunsafe
      rw [not_or, not_forall] at hunsafe
      obtain ⟨hc, p, hp⟩ := hunsafe
      rw [Classical.not_imp, Bool.not_eq_false] at hp
      have hsame := (h.locked hfree p hp.1 hp.2).symm.trans (normalize_locked hgroup hp.1 hp.2)
      exact hc (left_eq_add.1 (LogWeight.num.inj hsame))
    · rintro rfl p hp hne hlt hzero
      obtain ⟨q, hq⟩ := exists_mem_of_ne_nil _ hne
      obtain ⟨v, hv, -⟩ := h.normal hfree p hp hlt.le
      have hnan := normalize_uniform_zero (o := o) hgroup hfree hp hq hlt hzero
      rw [hv q hq] at hnan
      cases hnan
  · intro hsafe
    constructor
    · intro hfree p hp hlocked
      rw [normalize_locked hgroup hp hlocked]
      rcases (hsafe hfree).locked with rfl | hnone
      · rw [add_zero]
      · rw [hnone p hp] at hlocked
        cases hlocked
    · intro hfree p hp hle
      exact ⟨_, fun q hq => normalize_normal_safe hgroup hfree (hsafe hfree) hp hle hq, shared_safe (hsafe hfree) hp hle⟩
    · intro p hp q hq htied hsame
      exact normalize_tied hgroup hp hq htied hsame

end

/-! ## A group that is to be made uniform -/

def dedupOrder : KeyOrder := ⟨List.dedup, nodup_dedup, fun _ _ => mem_dedup⟩

/-- Two arcs with the same input that no count fell on. -/
def unseen : Wfst ℚ≥0 where
  states := [[⟨1, 1, 0, 0, noGroup⟩, ⟨1, 2, 0, 0, noGroup⟩]]
  final := 0
  nonempty := by decide
  final_lt := by decide
  dest_lt := by simp

theorem not_normalized_unseen :
    ¬ Normalized .conditional 0 true unseen (normalize dedupOrder ⟨.conditional, id, .num 0⟩ true unseen.exact) := by
  intro h
  have hfree : unseen.Untied := by
    intro p hp
    rcases mem_pair.1 hp with rfl | rfl
    · rfl
    · rfl
  have hlocked : unseen.lockedSum .conditional ⟨0, 0⟩ = 0 := by
    rfl
  have hnormal : unseen.normalArcs .conditional ⟨0, 0⟩ = [⟨0, 0⟩, ⟨0, 1⟩] := by decide
  have hzero : unseen.normalSum .conditional 0 ⟨0, 0⟩ = 0 := by
    have hfirst : unseen.weightAt ⟨0, 0⟩ = 0 := rfl
    have hsecond : unseen.weightAt ⟨0, 1⟩ = 0 := rfl
    simp [Wfst.normalSum, hnormal, hfirst, hsecond]
  have hp : (⟨0, 0⟩ : ArcPtr) ∈ unseen.visitArcs := by
    exact mem_cons_self
  have hq : (⟨0, 0⟩ : ArcPtr) ∈ unseen.normalArcs .conditional ⟨0, 0⟩ := by
    exact mem_cons_self
  obtain ⟨v, hv, -⟩ := h.normal hfree _ hp (hlocked ▸ zero_le_one)
  have hnan := normalize_uniform_zero (o := dedupOrder) (by decide) hfree hp hq (hlocked ▸ zero_lt_one) hzero
  rw [hv _ hq] at hnan
  cases hnan

theorem normalize_iff_unseen :
    Normalized .conditional 0 false unseen (normalize dedupOrder ⟨.conditional, id, .num 0⟩ false unseen.exact) :=
  (normalize_iff (by decide)).2 fun _ => ⟨.inl rfl, fun h => nomatch h⟩

end Sbmt.Carmel
