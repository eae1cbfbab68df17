import Sbmt.Carmel.LogWeight
import Sbmt.Carmel.NormGroups

/-!
# `WFST::normalize` (`carmel/src/fst.cc:89-236`)

| here | there |
| --- | --- |
| `NormalizeMethod` | the fields of `NormalizeMethod` that are read (`fst.h:633-646`); `scale` is the `mean_field_scale` |
| `TieTotals` | `groupArcTotal`, `groupStateTotal` and `groupMaxLockedSum`; a key that is not there has 0 |
| `countArc`, `tieArc`, `passOne` | global pass 1, for one group |
| `tiedWeight`, `reserveArc`, `passTwo` | global pass 2, for one group: 2a and 2b |

Each pass changes only the arcs of the group it is at (`passOne_weights`, `passTwo_frame`); `passTwo_tied`,
`passTwo_locked` and `passTwo_normal` say what it leaves of them.
-/

namespace Sbmt.Carmel

open Sbmt.Lib List Function Option

structure NormalizeMethod (K : Type*) where
  group : NormGroupBy
  scale : LogWeight K → LogWeight K
  addCount : LogWeight K

structure TieTotals (K : Type*) where
  arcTotal : Nat → LogWeight K
  stateTotal : Nat → LogWeight K
  maxLocked : Nat → LogWeight K

variable {K : Type*} [Semifield K] [LinearOrder K]

/-- The weight that is built by default. -/
instance : Zero (LogWeight K) := ⟨.num 0⟩

omit [LinearOrder K] in
theorem LogWeight.zero_def : (0 : LogWeight K) = .num 0 := rfl

section

variable {W : Type*} (x : Wfst W)

/-- The weights, the sum of the arcs that are not locked and of those that are. -/
structure Counted (K : Type*) where
  weights : ArcPtr → LogWeight K
  sum : LogWeight K
  lockedSum : LogWeight K

def countArc (addc : LogWeight K) (o : Counted K) (p : ArcPtr) : Counted K :=
  let w := (o.weights p).add addc
  let weights := update o.weights p w
  if FSTArc.locked (x.groupAt p) then ⟨weights, o.sum, o.lockedSum.add w⟩ else ⟨weights, o.sum.add w, o.lockedSum⟩

def tieArc (s : Counted K) (t : TieTotals K) (p : ArcPtr) : TieTotals K :=
  let pGroup := x.groupAt p
  if FSTArc.tied pGroup then
    { arcTotal := update t.arcTotal pGroup ((t.arcTotal pGroup).add (s.weights p))
      stateTotal := update t.stateTotal pGroup ((t.stateTotal pGroup).add s.sum)
      maxLocked :=
        if s.lockedSum.gt (t.maxLocked pGroup) then update t.maxLocked pGroup s.lockedSum else t.maxLocked }
  else t

def passOne (addc : LogWeight K) (o : (ArcPtr → LogWeight K) × TieTotals K) (g : List ArcPtr) :
    (ArcPtr → LogWeight K) × TieTotals K :=
  let s := g.foldl (countArc x addc) ⟨o.1, 0, 0⟩
  (s.weights, g.foldl (tieArc x s) o.2)

variable (scale : LogWeight K → LogWeight K)

/-- The weight of the arcs of a tie group, none where they are set to zero and nothing is reserved. -/
def tiedWeight [Sub K] (t : TieTotals K) (pGroup : Nat) : Option (LogWeight K) :=
  let groupNorm := t.stateTotal pGroup
  let gmax := t.maxLocked pGroup
  let one := .num 1
  if gmax.gt one then none
  else
    let groupNorm := if gmax.isZero then groupNorm else groupNorm.divAssign (one.sub gmax)
    let groupTotal := t.arcTotal pGroup
    if groupTotal.isZero then none else some ((scale groupTotal).div (scale groupNorm))

structure Reserved (K : Type*) where
  weights : ArcPtr → LogWeight K
  reserved : LogWeight K
  normalSum : LogWeight K

def reserveArc [Sub K] (t : TieTotals K) (o : Reserved K) (p : ArcPtr) :
    Reserved K :=
  let pGroup := x.groupAt p
  if FSTArc.tied pGroup then
    match tiedWeight scale t pGroup with
    | some w => ⟨update o.weights p w, o.reserved.add w, o.normalSum⟩
    | none => ⟨update o.weights p 0, o.reserved, o.normalSum⟩
  else if FSTArc.locked pGroup then ⟨o.weights, o.reserved.add (o.weights p), o.normalSum⟩
  else ⟨o.weights, o.reserved, o.normalSum.add (o.weights p)⟩

def passTwo [Sub K] (uniform : Bool) (t : TieTotals K)
    (weights : ArcPtr → LogWeight K) (g : List ArcPtr) : ArcPtr → LogWeight K :=
  let s := g.foldl (reserveArc x scale t) ⟨weights, 0, 0⟩
  let fractionRemain := (LogWeight.num 1).sub s.reserved
  let normal := fun p => FSTArc.normal (x.groupAt p)
  if !fractionRemain.isZero && (uniform || !s.normalSum.isZero) then
    let scaledSum := scale s.normalSum
    Blockwise.visit normal (fun _ w => (fractionRemain.mul (scale w)).div scaledSum) s.weights g
  else Blockwise.visit normal (fun _ _ => 0) s.weights g

end

def normalize [Sub K] (o : KeyOrder) (method : NormalizeMethod K) (uniform : Bool) (x : Wfst (LogWeight K)) :
    Wfst (LogWeight K) :=
  if method.group = .none then x
  else
    let groups := x.normGroups o method.group
    let r := groups.foldl (passOne x method.addCount) (x.weightAt, ⟨0, 0, 0⟩)
    x.reweight (groups.foldl (passTwo x method.scale uniform r.2) r.1)

/-! ## Global pass 1 -/

section

variable {W : Type*} {x : Wfst W} {addc : LogWeight K} {g : List ArcPtr} {q : ArcPtr}

theorem countArc_weights (o : Counted K) :
    (g.foldl (countArc x addc) o).weights = Blockwise.visit (fun _ => true) (fun _ w => w.add addc) o.weights g := by
  induction g generalizing o with
  | nil => rfl
  | cons p g ih =>
    rw [foldl_cons, ih]
    unfold countArc
    split
    · rfl
    · rfl

theorem passOne_weights (gs : List (List ArcPtr)) (o : (ArcPtr → LogWeight K) × TieTotals K) :
    (gs.foldl (passOne x addc) o).1 = Blockwise.visit (fun _ => true) (fun _ w => w.add addc) o.1 gs.flatten := by
  induction gs generalizing o with
  | nil => rfl
  | cons g gs ih =>
    rw [foldl_cons, ih, passOne, countArc_weights, flatten_cons, Blockwise.visit_append]

end

section

variable [IsStrictOrderedRing K] [CanonicallyOrderedAdd K] {W : Type*} {x : Wfst W} {g : List ArcPtr} {c : K}

/-- The totals are numbers, and what the arcs have together is not more than what their groups have. -/
def TieTotals.Sound (t : TieTotals K) : Prop :=
  ∀ j, ∃ a s m, t.arcTotal j = .num a ∧ t.stateTotal j = .num s ∧ t.maxLocked j = .num m ∧ a ≤ s

/-- What counting the arcs of a group leaves. -/
structure Counted.Sound (x : Wfst W) (g : List ArcPtr) (s : Counted K) : Prop where
  weights : ∀ p, ∃ k, s.weights p = .num k
  sums : ∃ a b, s.sum = .num a ∧ s.lockedSum = .num b ∧
    ∀ p ∈ g, FSTArc.locked (x.groupAt p) = false → ∃ k ≤ a, s.weights p = .num k

omit [IsStrictOrderedRing K] in
theorem countArc_sound (hnodup : g.Nodup) {w : ArcPtr → LogWeight K} (hw : ∀ p, ∃ k, w p = .num k) (a b : K) :
    Counted.Sound x g (g.foldl (countArc x (.num c)) ⟨w, .num a, .num b⟩) ∧
      ∃ a', (g.foldl (countArc x (.num c)) ⟨w, .num a, .num b⟩).sum = .num a' ∧ a ≤ a' := by
  induction g generalizing w a b with
  | nil => exact ⟨⟨hw, a, b, rfl, rfl, fun p hp => by cases hp⟩, a, rfl, le_rfl⟩
  | cons p g ih =>
    obtain ⟨hp, hnodup⟩ := nodup_cons.1 hnodup
    obtain ⟨k, hk⟩ := hw p
    have hadd : (w p).add (.num c) = .num (k + c) := by rw [hk, LogWeight.add_num]
    have hw' : ∀ q, ∃ k', update w p (.num (k + c)) q = .num k' := by
      intro q
      by_cases hq : q = p
      · exact ⟨k + c, by rw [hq, update_self]⟩
      · rw [update_of_ne hq]
        exact hw q
    -- what the loop over the others leaves of the weight of this arc
    have hsame (o : Counted K) : (g.foldl (countArc x (.num c)) o).weights p = o.weights p := by
      rw [countArc_weights]
      exact Blockwise.visit_of_not_mem hp
    rw [foldl_cons]
    cases hlocked : FSTArc.locked (x.groupAt p) with
    | true =>
      have hstep : countArc x (.num c) ⟨w, .num a, .num b⟩ p =
          ⟨update w p (.num (k + c)), .num a, .num (b + (k + c))⟩ := by
        simp only [countArc, hlocked, if_true, hadd, LogWeight.add_num]
      rw [hstep]
      obtain ⟨⟨hweights, a', b', ha', hb', hle⟩, hmore⟩ := ih hnodup hw' a (b + (k + c))
      refine ⟨⟨hweights, a', b', ha', hb', ?_⟩, hmore⟩
      intro q hq hfree
      rcases mem_cons.1 hq with rfl | hq
      · rw [hlocked] at hfree
        cases hfree
      · exact hle q hq hfree
    | false =>
      have hstep : countArc x (.num c) ⟨w, .num a, .num b⟩ p =
          ⟨update w p (.num (k + c)), .num (a + (k + c)), .num b⟩ := by
        simp only [countArc, hlocked, Bool.false_eq_true, if_false, hadd, LogWeight.add_num]
      rw [hstep]
      obtain ⟨⟨hweights, a', b', ha', hb', hle⟩, a'', ha'', hmore⟩ := ih hnodup hw' (a + (k + c)) b
      obtain rfl : a' = a'' := LogWeight.num.inj (ha'.symm.trans ha'')
      refine ⟨⟨hweights, a', b', ha', hb', ?_⟩, a', ha', le_self_add.trans hmore⟩
      intro q hq hfree
      rcases mem_cons.1 hq with rfl | hq
      · refine ⟨k + c, le_add_self.trans hmore, ?_⟩
        exact (hsame _).trans (update_self _ _ _)
      · exact hle q hq hfree

omit [CanonicallyOrderedAdd K] in
theorem tieArc_sound {s : Counted K} {h : List ArcPtr} (hs : Counted.Sound x h s) (hg : ∀ p ∈ g, p ∈ h)
    {t : TieTotals K} (ht : t.Sound) : (g.foldl (tieArc x s) t).Sound := by
  induction g generalizing t with
  | nil => exact ht
  | cons p g ih =>
    rw [foldl_cons]
    apply ih fun q hq => hg q (mem_cons_of_mem _ hq)
    cases htied : FSTArc.tied (x.groupAt p) with
    | false => simpa only [tieArc, htied, Bool.false_eq_true, if_false] using ht
    | true =>
      simp only [tieArc, htied, if_true]
      have hfree : FSTArc.locked (x.groupAt p) = false := by
        rw [FSTArc.tied, Bool.and_eq_true, Bool.not_eq_true'] at htied
        exact htied.1
      obtain ⟨sum, locked, hsum, hlocked, hle⟩ := hs.sums
      obtain ⟨k, hk, hweight⟩ := hle p (hg p mem_cons_self) hfree
      obtain ⟨a, b, m, ha, hb, hm, hab⟩ := ht (x.groupAt p)
      intro j
      dsimp only
      by_cases hj : j = x.groupAt p
      · obtain rfl := hj
        refine ⟨a + k, b + sum, if m < locked then locked else m, ?_, ?_, ?_, add_le_add hab hk⟩
        · rw [update_self, ha, hweight, LogWeight.add_num]
        · rw [update_self, hb, hsum, LogWeight.add_num]
        · rw [hlocked, hm, LogWeight.gt_num]
          by_cases hlt : m < locked
          · rw [if_pos hlt, if_pos (decide_eq_true hlt), update_self]
          · rw [if_neg hlt, if_neg (by simpa using hlt)]
            exact hm
      · obtain ⟨a, b, m, ha, hb, hm, hab⟩ := ht j
        refine ⟨a, b, m, ?_, ?_, ?_, hab⟩
        · rw [update_of_ne hj, ha]
        · rw [update_of_ne hj, hb]
        · split
          · rw [update_of_ne hj, hm]
          · exact hm

theorem passOne_sound {gs : List (List ArcPtr)} (hgs : ∀ g ∈ gs, g.Nodup)
    {o : (ArcPtr → LogWeight K) × TieTotals K} (ho : ∀ p, ∃ k, o.1 p = .num k) (ht : o.2.Sound) :
    (gs.foldl (passOne x (.num c)) o).2.Sound := by
  induction gs generalizing o with
  | nil => exact ht
  | cons g gs ih =>
    obtain ⟨hs, -⟩ := countArc_sound (x := x) (c := c) (hgs g mem_cons_self) ho 0 0
    exact ih (fun h hh => hgs h (mem_cons_of_mem _ hh)) hs.weights (tieArc_sound hs (fun _ hp => hp) ht)

end

/-! ## Global pass 2 -/

section

variable [Sub K] {W : Type*} {x : Wfst W} {scale : LogWeight K → LogWeight K} {uniform : Bool} {t : TieTotals K}
  {g : List ArcPtr} {q : ArcPtr}

theorem reserveArc_weights (o : Reserved K) :
    (g.foldl (reserveArc x scale t) o).weights = Blockwise.visit (fun p => FSTArc.tied (x.groupAt p))
      (fun p _ => (tiedWeight scale t (x.groupAt p)).getD 0) o.weights g := by
  induction g generalizing o with
  | nil => rfl
  | cons p g ih =>
    rw [foldl_cons, ih, Blockwise.visit_cons]
    cases htied : FSTArc.tied (x.groupAt p) with
    | true =>
      cases hw : tiedWeight scale t (x.groupAt p) with
      | some w => simp only [reserveArc, htied, if_true, hw, getD_some]
      | none => simp only [reserveArc, htied, if_true, hw, getD_none]
    | false =>
      simp only [reserveArc, htied, Bool.false_eq_true, if_false]
      split
      · rfl
      · rfl

section

variable (w : ArcPtr → LogWeight K)

theorem passTwo_frame (hq : q ∉ g) : passTwo x scale uniform t w g q = w q := by
  simp only [passTwo]
  split
  · rw [Blockwise.visit_of_not_mem hq, reserveArc_weights, Blockwise.visit_of_not_mem hq]
  · rw [Blockwise.visit_of_not_mem hq, reserveArc_weights, Blockwise.visit_of_not_mem hq]

/-- Only normal arcs get a share of what is left. -/
theorem passTwo_of_not_normal (hq : FSTArc.normal (x.groupAt q) = false) :
    passTwo x scale uniform t w g q = (g.foldl (reserveArc x scale t) ⟨w, 0, 0⟩).weights q := by
  have hout : ∀ p ∈ g, p = q → FSTArc.normal (x.groupAt p) = false := by
    rintro p - rfl
    exact hq
  simp only [passTwo]
  split
  · rw [Blockwise.visit_of_false hout]
  · rw [Blockwise.visit_of_false hout]

theorem passTwo_tied (hnodup : g.Nodup) (hq : q ∈ g) (htied : FSTArc.tied (x.groupAt q) = true) :
    passTwo x scale uniform t w g q = (tiedWeight scale t (x.groupAt q)).getD 0 := by
  have hnormal : FSTArc.normal (x.groupAt q) = false := by
    rw [FSTArc.tied, Bool.and_eq_true, Bool.not_eq_true', Bool.not_eq_true'] at htied
    exact htied.2
  rw [passTwo_of_not_normal w hnormal, reserveArc_weights]
  exact Blockwise.visit_of_mem hnodup hq htied

theorem passTwo_locked (hlocked : FSTArc.locked (x.groupAt q) = true) : passTwo x scale uniform t w g q = w q := by
  have hnormal : FSTArc.normal (x.groupAt q) = false := by
    by_contra h
    rw [FSTArc.not_locked_of_normal (Bool.eq_true_of_not_eq_false h)] at hlocked
    cases hlocked
  rw [passTwo_of_not_normal w hnormal, reserveArc_weights]
  apply Blockwise.visit_of_false
  rintro p - rfl
  rw [FSTArc.tied, hlocked]
  rfl

end

/-- What is reserved, and the sum of the normal arcs, when no arc is tied. -/
theorem reserveArc_sums {k : ArcPtr → K} {w : ArcPtr → LogWeight K} (hw : ∀ p ∈ g, w p = .num (k p))
    (hfree : ∀ p ∈ g, FSTArc.tied (x.groupAt p) = false) (a b : K) :
    g.foldl (reserveArc x scale t) ⟨w, .num a, .num b⟩ =
      ⟨w, .num (a + ((g.filter fun p => FSTArc.locked (x.groupAt p)).map k).sum),
        .num (b + ((g.filter fun p => FSTArc.normal (x.groupAt p)).map k).sum)⟩ := by
  induction g generalizing a b with
  | nil => simp
  | cons p g ih =>
    have hp := hfree p mem_cons_self
    have hstep := FSTArc.normal_or_locked hp
    have ih := ih (fun q hq => hw q (mem_cons_of_mem _ hq)) fun q hq => hfree q (mem_cons_of_mem _ hq)
    rw [foldl_cons]
    cases hlocked : FSTArc.locked (x.groupAt p) with
    | true =>
      rw [hlocked] at hstep
      have : reserveArc x scale t ⟨w, .num a, .num b⟩ p = ⟨w, .num (a + k p), .num b⟩ := by
        simp only [reserveArc, hp, hlocked, Bool.false_eq_true, if_false, if_true, hw p mem_cons_self,
          LogWeight.add_num]
      have hl : (p :: g).filter (fun q => FSTArc.locked (x.groupAt q)) = p :: _ := filter_cons_of_pos hlocked
      have hn : (p :: g).filter (fun q => FSTArc.normal (x.groupAt q)) = _ := filter_cons_of_neg (by simp [hstep])
      rw [this, ih, hl, hn, map_cons, sum_cons, add_assoc]
    | false =>
      rw [hlocked] at hstep
      have : reserveArc x scale t ⟨w, .num a, .num b⟩ p = ⟨w, .num a, .num (b + k p)⟩ := by
        simp only [reserveArc, hp, hlocked, Bool.false_eq_true, if_false, hw p mem_cons_self, LogWeight.add_num]
      have hl : (p :: g).filter (fun q => FSTArc.locked (x.groupAt q)) = _ := filter_cons_of_neg (by simp [hlocked])
      have hn : (p :: g).filter (fun q => FSTArc.normal (x.groupAt q)) = p :: _ := filter_cons_of_pos hstep
      rw [this, ih, hl, hn, map_cons, sum_cons, add_assoc]

end

section

variable [IsStrictOrderedRing K] [CanonicallyOrderedAdd K] [Sub K] [OrderedSub K] {uniform : Bool}

omit [IsStrictOrderedRing K]

/-- The weight of a tie group is a number: its totals are not both zero where one is divided by the other. -/
theorem tiedWeight_num {t : TieTotals K} (ht : t.Sound) (j : Nat) : ∃ k, (tiedWeight id t j).getD 0 = .num k := by
  obtain ⟨a, s, m, ha, hs, hm, hle⟩ := ht j
  simp only [tiedWeight, ha, hs, hm, LogWeight.gt_num, LogWeight.isZero_num, LogWeight.sub_num, id]
  by_cases hgt : 1 < m
  · exact ⟨0, by rw [if_pos (decide_eq_true hgt)]; rfl⟩
  rw [if_neg (by simpa using hgt)]
  by_cases hzero : a = 0
  · exact ⟨0, by rw [if_pos (decide_eq_true hzero)]; rfl⟩
  rw [if_neg (by simpa using hzero), getD_some]
  have hpos : s ≠ 0 := by
    rintro rfl
    exact hzero (le_zero_iff.1 hle)
  by_cases hnone : m = 0
  · rw [if_pos (decide_eq_true hnone), LogWeight.div_num hpos]
    exact ⟨_, rfl⟩
  rw [if_neg (by simpa using hnone), LogWeight.divAssign, LogWeight.isZero_num, if_neg (by simpa using hpos)]
  by_cases hfull : 1 - m = 0
  · refine ⟨0, ?_⟩
    -- locked arcs take all of some group: what is divided by is infinite
    have hinf : (LogWeight.num s).div (.num (1 - m)) = .infinity := by
      rw [hfull]
      exact (if_pos rfl).trans (if_neg hpos)
    rw [hinf]
    rfl
  · rw [LogWeight.div_num hfull, LogWeight.div_num (div_ne_zero hpos hfull)]
    exact ⟨_, rfl⟩

/-- The shares of the normal arcs of a group without tied arcs. -/
theorem passTwo_normal {W : Type*} {x : Wfst W} {t : TieTotals K} {g : List ArcPtr} {q : ArcPtr} {k : ArcPtr → K}
    {w : ArcPtr → LogWeight K} (hnodup : g.Nodup) (hw : ∀ p ∈ g, w p = .num (k p))
    (hfree : ∀ p ∈ g, FSTArc.tied (x.groupAt p) = false) (hq : q ∈ g) (hnormal : FSTArc.normal (x.groupAt q) = true)
    {l s : K} (hl : ((g.filter fun p => FSTArc.locked (x.groupAt p)).map k).sum = l)
    (hs : ((g.filter fun p => FSTArc.normal (x.groupAt p)).map k).sum = s) :
    passTwo x id uniform t w g q =
      if 1 - l ≠ 0 ∧ (uniform = true ∨ s ≠ 0) then (LogWeight.num ((1 - l) * k q)).div (.num s) else .num 0 := by
  have hsums : g.foldl (reserveArc x id t) ⟨w, 0, 0⟩ = ⟨w, .num l, .num s⟩ := by
    rw [LogWeight.zero_def, reserveArc_sums hw hfree, hl, hs, zero_add, zero_add]
  simp only [passTwo, hsums, LogWeight.sub_num, LogWeight.isZero_num]
  by_cases hc : 1 - l ≠ 0 ∧ (uniform = true ∨ s ≠ 0)
  · rw [if_pos hc, if_pos (by simpa using hc), Blockwise.visit_of_mem hnodup hq hnormal, hw q hq]
    rfl
  · rw [if_neg hc, if_neg (by simpa using hc), Blockwise.visit_of_mem hnodup hq hnormal]
    rfl

end

end Sbmt.Carmel
