import Sbmt.Forest.Kbest
/-!
# Lazy k-best is exact

What a node of the lazy forest answers is the list of its derivations, best first (`ranks_best`). A candidate in the
queue of a node is an edge with a rank for each child; `next_best` reaches every candidate from one other, which is at
least as good, so the queue is a frontier among the candidates (`Sbmt.Lib.Frontier`).
-/

namespace Sbmt.Forest

open Sbmt.Lib Sbmt.Gusc List

/-! ## Derivations -/

section

variable {S : Type} [LinearOrderedCommGroupWithZero S]

/-- The derivations of item `i`; an edge's own score factor is `factor`. -/
inductive Derives (F : ParseForest S) (factor : Edge S → S) : Nat → Derivation S → Prop
  | nullary {i k e} (he : (F.item i).sort.edges[k]? = some e) (hk : e.kids = .nullary) :
      Derives F factor i (.nullary k (factor e))
  | unary {i k e c d} (he : (F.item i).sort.edges[k]? = some e) (hk : e.kids = .unary c) (hd : Derives F factor c d) :
      Derives F factor i (.unary k (factor e * d.inside) d)
  | binary {i k e c₀ c₁ d₀ d₁} (he : (F.item i).sort.edges[k]? = some e) (hk : e.kids = .binary c₀ c₁)
      (hd₀ : Derives F factor c₀ d₀) (hd₁ : Derives F factor c₁ d₁) :
      Derives F factor i (.binary k (factor e * d₀.inside * d₁.inside) d₀ d₁)

section

variable {F : ParseForest S} {factor : Edge S → S}

/-- A derivation's score is determined by its tree. -/
theorem Derives.eq_of_tree {i : Nat} {d d' : Derivation S} (h : Derives F factor i d) (h' : Derives F factor i d')
    (ht : d.tree = d'.tree) : d = d' := by
  induction h generalizing d' with
  | nullary he hk =>
    cases h' with
    | nullary he' hk' =>
      cases ht
      rw [he] at he'
      cases he'
      rfl
    | unary => cases ht
    | binary => cases ht
  | unary he hk hd ih =>
    cases h' with
    | nullary => cases ht
    | unary he' hk' hd' =>
      obtain ⟨rfl, -, htd⟩ := Derivation.unary.inj ht
      rw [he] at he'
      cases he'
      rw [hk] at hk'
      cases hk'
      rw [ih hd' htd]
    | binary => cases ht
  | binary he hk hd0 hd1 ih0 ih1 =>
    cases h' with
    | nullary => cases ht
    | unary => cases ht
    | binary he' hk' hd0' hd1' =>
      obtain ⟨rfl, -, ht0, ht1⟩ := Derivation.binary.inj ht
      rw [he] at he'
      cases he'
      rw [hk] at hk'
      cases hk'
      rw [ih0 hd0' ht0, ih1 hd1' ht1]

/-- `l` lists the derivations of an item best first, and starts with the one the item stands for. -/
structure Ranks (F : ParseForest S) (factor : Edge S → S) (i : Nat) (l : List (Derivation S)) : Prop where
  nodup : l.Nodup
  mem : ∀ d, d ∈ l ↔ Derives F factor i d
  bestFirst : BestFirst Derivation.inside l
  first : l.head? = some (firstBest F i)

end

end

/-! ## The candidates of one node -/

/-- The candidate for the `k`-th edge with the `a`-th and `b`-th best derivation of its children. -/
abbrev Cand := Nat × Nat × Nat

def Hyperedge.cand {S : Type} (e : Hyperedge S) : Cand := (e.derivation.index, e.childbp0, e.childbp1)

/-- `next_best` reaches a candidate from one other. -/
def candPreds : Cand → Finset Cand
  | (_, 0, 0) => ∅
  | (k, 0, b + 1) => {(k, 0, b)}
  | (k, a + 1, b) => {(k, a, b)}

section

variable {S : Type} (es : List (Edge S)) (l : Nat → List (Derivation S))

/-- How many derivations the first child of an edge has. -/
def width0 (e : Edge S) : Nat :=
  match e.kids with
  | .nullary => 1
  | .unary c | .binary c _ => (l c).length

/-- How many derivations the second child of an edge has. -/
def width1 (e : Edge S) : Nat :=
  match e.kids with
  | .nullary | .unary _ => 1
  | .binary _ c => (l c).length

/-- All candidates. -/
def candBox : Finset Cand :=
  (Finset.range es.length).biUnion fun k =>
    (Finset.range (es[k]?.elim 0 (width0 l)) ×ˢ Finset.range (es[k]?.elim 0 (width1 l))).image (Prod.mk k)

end

section

variable {S : Type} {es : List (Edge S)} {l : Nat → List (Derivation S)} {k a b : Nat} {e : Edge S}

theorem mem_candBox : (k, a, b) ∈ candBox es l ↔ ∃ e, es[k]? = some e ∧ a < width0 l e ∧ b < width1 l e := by
  constructor
  · intro h
    obtain ⟨k', hk', hp⟩ := Finset.mem_biUnion.mp h
    obtain ⟨⟨a', b'⟩, hab, heq⟩ := Finset.mem_image.mp hp
    cases heq
    obtain ⟨ha, hb⟩ := Finset.mem_product.mp hab
    have he := getElem?_eq_getElem (Finset.mem_range.mp hk')
    rw [he] at ha hb
    exact ⟨_, he, Finset.mem_range.mp ha, Finset.mem_range.mp hb⟩
  · rintro ⟨e, he, ha, hb⟩
    refine Finset.mem_biUnion.mpr ⟨k, Finset.mem_range.mpr (List.getElem?_eq_some_iff.mp he).1, ?_⟩
    refine Finset.mem_image.mpr ⟨(a, b), Finset.mem_product.mpr ⟨?_, ?_⟩, rfl⟩
    · rw [he]
      exact Finset.mem_range.mpr ha
    · rw [he]
      exact Finset.mem_range.mpr hb

theorem candPreds_rank {p q : Cand} (h : q ∈ candPreds p) : q.2.1 + q.2.2 < p.2.1 + p.2.2 := by
  unfold candPreds at h
  split at h
  · cases h
  · rw [Finset.mem_singleton.mp h]
    simp
  · rw [Finset.mem_singleton.mp h]
    simp only
    omega

theorem candPreds_box {p : Cand} (hp : p ∈ candBox es l) : candPreds p ⊆ candBox es l := by
  intro q hq
  unfold candPreds at hq
  split at hq
  · cases hq
  · obtain ⟨e, he, ha, hb⟩ := mem_candBox.mp hp
    rw [Finset.mem_singleton.mp hq]
    exact mem_candBox.mpr ⟨e, he, ha, by omega⟩
  · obtain ⟨e, he, ha, hb⟩ := mem_candBox.mp hp
    rw [Finset.mem_singleton.mp hq]
    exact mem_candBox.mpr ⟨e, he, by omega, hb⟩

/-- The candidates that become ready after `(k, a, b)`. -/
def candNext (l : Nat → List (Derivation S)) (e : Edge S) (k a b : Nat) : List Cand :=
  (if a + 1 < width0 l e then [(k, a + 1, b)] else []) ++ if a = 0 ∧ b + 1 < width1 l e then [(k, 0, b + 1)] else []

theorem candNext_nodup : (candNext l e k a b).Nodup := by
  unfold candNext
  split <;> split <;> simp

theorem mem_candPreds {p : Cand} : (k, a, b) ∈ candPreds p ↔ p = (k, a + 1, b) ∨ a = 0 ∧ p = (k, 0, b + 1) := by
  obtain ⟨k', a', b'⟩ := p
  cases a' with
  | zero => cases b' with
    | zero => simp [candPreds]
    | succ b' =>
      simp only [candPreds, Finset.mem_singleton, Prod.mk.injEq]
      grind
  | succ a' =>
    simp only [candPreds, Finset.mem_singleton, Prod.mk.injEq]
    grind

theorem candPreds_subset {p q : Cand} (hq : q ∈ candPreds p) (D : Finset Cand) : candPreds p ⊆ insert q D := by
  have hsingle : candPreds p = {q} := by
    unfold candPreds at hq ⊢
    split at hq
    · cases hq
    · rw [Finset.mem_singleton.mp hq]
    · rw [Finset.mem_singleton.mp hq]
  rw [hsingle]
  exact Finset.singleton_subset_iff.mpr (Finset.mem_insert_self q D)

theorem mem_candNext (he : es[k]? = some e) (ha : a < width0 l e) (hb : b < width1 l e) {D : Finset Cand} (p : Cand) :
    p ∈ candNext l e k a b ↔ p ∈ candBox es l ∧ (k, a, b) ∈ candPreds p ∧ candPreds p ⊆ insert (k, a, b) D := by
  have hmem : p ∈ candNext l e k a b ↔ p = (k, a + 1, b) ∧ a + 1 < width0 l e ∨
      p = (k, 0, b + 1) ∧ a = 0 ∧ b + 1 < width1 l e := by
    unfold candNext
    rw [mem_append]
    refine or_congr ?_ ?_
    · split <;> simp_all
    · split <;> simp_all
  rw [hmem]
  constructor
  · rintro (⟨rfl, ha'⟩ | ⟨rfl, rfl, hb'⟩)
    · have hpred : (k, a, b) ∈ candPreds (k, a + 1, b) := mem_candPreds.mpr (.inl rfl)
      exact ⟨mem_candBox.mpr ⟨e, he, ha', hb⟩, hpred, candPreds_subset hpred D⟩
    · have hpred : (k, 0, b) ∈ candPreds (k, 0, b + 1) := mem_candPreds.mpr (.inr ⟨rfl, rfl⟩)
      exact ⟨mem_candBox.mpr ⟨e, he, ha, hb'⟩, hpred, candPreds_subset hpred D⟩
  · rintro ⟨hbox, hpred, -⟩
    rcases mem_candPreds.mp hpred with rfl | ⟨rfl, rfl⟩
    · obtain ⟨e', he', ha', -⟩ := mem_candBox.mp hbox
      rw [he] at he'
      cases he'
      exact .inl ⟨rfl, ha'⟩
    · obtain ⟨e', he', -, hb'⟩ := mem_candBox.mp hbox
      rw [he] at he'
      cases he'
      exact .inr ⟨rfl, rfl, hb'⟩

end

section

variable {S : Type} [LinearOrderedCommGroupWithZero S] (factor : Edge S → S) (es : List (Edge S))
  (l : Nat → List (Derivation S))

/-- The derivation of a candidate. -/
def candDerivation (p : Cand) : Derivation S :=
  match es[p.1]? with
  | none => .nullary 0 1
  | some e =>
    match e.kids with
    | .nullary => .nullary p.1 (factor e)
    | .unary c =>
      let d := (l c).getD p.2.1 (.nullary 0 1)
      .unary p.1 (factor e * d.inside) d
    | .binary c₀ c₁ =>
      let d₀ := (l c₀).getD p.2.1 (.nullary 0 1)
      let d₁ := (l c₁).getD p.2.2 (.nullary 0 1)
      .binary p.1 (factor e * d₀.inside * d₁.inside) d₀ d₁

def candHyperedge (p : Cand) : Hyperedge S :=
  ⟨candDerivation factor es l p, es[p.1]?.elim .nullary Edge.kids, p.2.1, p.2.2⟩

variable {factor es l}

/-- Replacing a factor by one that is no greater. -/
theorem mul_adjust {x y z : S} (h : z ≤ y) : x * y * (z / y) = x * z := by
  by_cases hy : y = 0
  · have hz : z = 0 := le_zero_iff.mp (hy ▸ h)
    rw [hy, hz, mul_zero, zero_mul]
  · rw [mul_assoc, mul_div_cancel₀ _ hy]

theorem inside_getD_succ {c a : Nat} (hsorted : BestFirst Derivation.inside (l c)) (ha : a + 1 < (l c).length) (d : Derivation S) :
    ((l c).getD (a + 1) d).inside ≤ ((l c).getD a d).inside := by
  have ha' : a < (l c).length := by omega
  rw [getD_eq_getElem?_getD, getD_eq_getElem?_getD, getElem?_eq_getElem ha, getElem?_eq_getElem ha']
  exact pairwise_iff_getElem.mp hsorted a (a + 1) ha' ha (by omega)

variable {k a b : Nat} {e : Edge S}

section

omit [LinearOrderedCommGroupWithZero S] in
theorem toList_getElem? {α : Type} {f : α → Hyperedge S} {xs : List α} {n : Nat} (d : α) :
    (xs[n]?).toList.map f = if n < xs.length then [f (xs.getD n d)] else [] := by
  split
  · rename_i h
    simp [getD_eq_getElem?_getD, h]
  · rename_i h
    simp [getElem?_eq_none (Nat.le_of_not_lt h)]

variable (he : es[k]? = some e)
include he

@[simp] theorem candHyperedge_cand : (candHyperedge factor es l (k, a, b)).cand = (k, a, b) := by
  have hindex : (candDerivation factor es l (k, a, b)).index = k := by
    unfold candDerivation
    simp only [he]
    cases e.kids <;> rfl
  simp [Hyperedge.cand, candHyperedge, hindex]

theorem worsen_unary {c : Nat} (hk : e.kids = .unary c) (hsorted : BestFirst Derivation.inside (l c))
    (ha : a + 1 < (l c).length) : (candHyperedge factor es l (k, a, b)).worsen 0 ((l c).getD (a + 1) (.nullary 0 1)) =
      candHyperedge factor es l (k, a + 1, b) := by
  simp only [candHyperedge, candDerivation, he, hk, Hyperedge.worsen, makeWorse, adjustChild, if_true]
  rw [mul_adjust (inside_getD_succ hsorted ha _)]

theorem worsen_left {c0 c1 : Nat} (hk : e.kids = .binary c0 c1)
    (hsorted : BestFirst Derivation.inside (l c0)) (ha : a + 1 < (l c0).length) :
    (candHyperedge factor es l (k, a, b)).worsen 0 ((l c0).getD (a + 1) (.nullary 0 1)) =
      candHyperedge factor es l (k, a + 1, b) := by
  simp only [candHyperedge, candDerivation, he, hk, Hyperedge.worsen, makeWorse, adjustChild, if_true]
  rw [mul_right_comm (factor e), mul_adjust (inside_getD_succ hsorted ha _), mul_right_comm (factor e)]

theorem worsen_right {c0 c1 : Nat} (hk : e.kids = .binary c0 c1)
    (hsorted : BestFirst Derivation.inside (l c1)) (hb : b + 1 < (l c1).length) :
    (candHyperedge factor es l (k, a, b)).worsen 1 ((l c1).getD (b + 1) (.nullary 0 1)) =
      candHyperedge factor es l (k, a, b + 1) := by
  simp only [candHyperedge, candDerivation, he, hk, Hyperedge.worsen, makeWorse, adjustChild, one_ne_zero, if_false]
  rw [mul_adjust (inside_getD_succ hsorted hb _)]

/-- The successors of a candidate are the candidates that become ready after it. -/
theorem successors_cand (hsorted : ∀ c ∈ e.kids.toList, BestFirst Derivation.inside (l c))
    {ans : Nat → Nat → Option (Derivation S)} (hans : ∀ c ∈ e.kids.toList, ∀ m, ans c m = (l c)[m]?) :
    successors ans (candHyperedge factor es l (k, a, b)) = (candNext l e k a b).map (candHyperedge factor es l) := by
  have hchild : (candHyperedge factor es l (k, a, b)).child = e.kids := by simp [candHyperedge, he]
  have hbp0 : (candHyperedge factor es l (k, a, b)).childbp 0 = a := rfl
  have hbp1 : (candHyperedge factor es l (k, a, b)).childbp 1 = b := rfl
  have hbp : (candHyperedge factor es l (k, a, b)).childbp0 = a := rfl
  unfold successors candNext
  rw [hchild]
  cases hk : e.kids with
  | nullary => simp [width0, width1, hk]
  | unary c =>
    have hc : c ∈ e.kids.toList := by simp [hk, Kids.toList]
    simp only [hbp0, hans c hc, width0, width1, hk, toList_getElem? (Derivation.nullary 0 (1 : S))]
    by_cases ha : a + 1 < (l c).length
    · simp only [ha, if_true, worsen_unary he hk (hsorted c hc) ha]
      simp
    · simp [ha]
  | binary c0 c1 =>
    have hc0 : c0 ∈ e.kids.toList := by simp [hk, Kids.toList]
    have hc1 : c1 ∈ e.kids.toList := by simp [hk, Kids.toList]
    simp only [hbp0, hbp1, hbp, hans c0 hc0, hans c1 hc1, width0, width1, hk, toList_getElem? (Derivation.nullary 0 (1 : S)),
      map_append]
    congr 1
    · by_cases ha : a + 1 < (l c0).length
      · simp only [ha, if_true, worsen_left he hk (hsorted c0 hc0) ha, map_cons, map_nil]
      · simp [ha]
    · by_cases ha : a = 0
      · subst ha
        by_cases hb : b + 1 < (l c1).length
        · simp only [hb, if_true, and_self, worsen_right he hk (hsorted c1 hc1) hb, map_cons, map_nil]
        · simp [hb]
      · simp [ha]

end

/-! ## The queue of one node -/

/-- The queue after the candidates in `D` have been popped. -/
structure CandQueue (H : HeapAlg) (factor : Edge S → S) (es : List (Edge S)) (l : Nat → List (Derivation S))
    (D : Finset Cand) (q : List (Hyperedge S)) : Prop where
  frontier : Frontier (candBox es l) candPreds D (q.map Hyperedge.cand)
  shape : ∀ h ∈ q, h = candHyperedge factor es l h.cand
  isHeap : H.IsHeap worse q

theorem worse_strictWeak : StrictWeak (worse (S := S)) := .ofKey _

theorem pushAll_isHeap {H : HeapAlg} : ∀ {new q : List (Hyperedge S)}, H.IsHeap worse q → H.IsHeap worse (pushAll H new q)
  | [], _, h => h
  | e :: _, q, h => pushAll_isHeap (q := H.push worse e q) (H.push_isHeap e worse_strictWeak h)

section

variable {H : HeapAlg} {ans : Nat → Nat → Option (Derivation S)} {D : Finset Cand} {q : List (Hyperedge S)}
  (hsorted : ∀ e ∈ es, ∀ c ∈ e.kids.toList, BestFirst Derivation.inside (l c))
  (hans : ∀ e ∈ es, ∀ c ∈ e.kids.toList, ∀ m, ans c m = (l c)[m]?)

include hsorted hans in
theorem CandQueue.advance (h : CandQueue H factor es l D q) {pos : Cand} {rest : List Cand}
    (hf : q.map Hyperedge.cand = pos :: rest) : CandQueue H factor es l (insert pos D) (advance H ans q) := by
  cases q with
  | nil => cases hf
  | cons top q =>
    obtain ⟨rfl, rfl⟩ : top.cand = pos ∧ q.map Hyperedge.cand = rest := List.cons.inj hf
    obtain ⟨⟨k, a, b⟩, hcand⟩ : ∃ p, top.cand = p := ⟨_, rfl⟩
    rw [hcand]
    obtain ⟨hbox, -, -⟩ := (h.frontier.mem (k, a, b)).mp (by rw [← hcand]; exact mem_cons_self)
    obtain ⟨e, he, ha, hb⟩ := mem_candBox.mp hbox
    have hmem : e ∈ es := mem_of_getElem? he
    have htop : top = candHyperedge factor es l (k, a, b) := hcand ▸ h.shape top mem_cons_self
    have hsucc : successors ans top = (candNext l e k a b).map (candHyperedge factor es l) := by
      rw [htop]
      exact successors_cand he (hsorted e hmem) (hans e hmem)
    have hperm : (Sbmt.Forest.advance H ans (top :: q)).Perm ((candNext l e k a b).map (candHyperedge factor es l) ++ q) := by
      rw [← hsucc]
      exact (pushAll_perm _ _).trans ((H.pop_perm worse top q).append_left _)
    have hcands : ((candNext l e k a b).map (candHyperedge factor es l)).map Hyperedge.cand = candNext l e k a b := by
      rw [map_map]
      refine (map_congr_left fun p hp => ?_).trans (map_id _)
      obtain ⟨hbox', -, -⟩ := (mem_candNext he ha hb (D := D) p).mp hp
      obtain ⟨e', he', -⟩ := mem_candBox.mp hbox'
      exact candHyperedge_cand he'
    refine ⟨?_, fun h' hh' => ?_, pushAll_isHeap (H.pop_isHeap worse_strictWeak h.isHeap)⟩
    · have hself : (k, a, b) ∉ candPreds (k, a, b) := fun hp => absurd (candPreds_rank hp) (lt_irrefl _)
      have hfront : Frontier (candBox es l) candPreds D ((k, a, b) :: q.map Hyperedge.cand) := hcand ▸ h.frontier
      have hvisit := hfront.visit hself candNext_nodup (mem_candNext he ha hb)
      have hmap := hperm.map Hyperedge.cand
      rw [map_append, hcands] at hmap
      exact hvisit.perm hmap
    · rcases mem_append.mp (hperm.mem_iff.mp hh') with hh' | hh'
      · obtain ⟨p, hp, rfl⟩ := mem_map.mp hh'
        obtain ⟨hbox', -, -⟩ := (mem_candNext he ha hb (D := D) p).mp hp
        obtain ⟨e', he', -⟩ := mem_candBox.mp hbox'
        rw [candHyperedge_cand he']
      · exact h.shape h' (mem_cons_of_mem top hh')

/-- The queue as a search among the candidates. -/
def candExplorer (H : HeapAlg) (factor : Edge S → S) (hsorted : ∀ e ∈ es, ∀ c ∈ e.kids.toList, BestFirst Derivation.inside (l c))
    (hans : ∀ e ∈ es, ∀ c ∈ e.kids.toList, ∀ m, ans c m = (l c)[m]?) :
    Explorer (candBox es l) candPreds (fun q : List (Hyperedge S) => q.map Hyperedge.cand) (advance H ans) where
  Inv := CandQueue H factor es l
  rank p := p.2.1 + p.2.2
  rank_lt _ _ := candPreds_rank
  preds_box _ := candPreds_box
  frontier _ _ h := h.frontier
  step _ _ _ _ h hf := h.advance hsorted hans hf

theorem CandQueue.best (h : CandQueue H factor es l D q) {pos : Cand} {rest : List Cand}
    (hf : q.map Hyperedge.cand = pos :: rest) :
    ∀ p ∈ rest, (candDerivation factor es l p).inside ≤ (candDerivation factor es l pos).inside := by
  cases q with
  | nil => cases hf
  | cons top q =>
    obtain ⟨rfl, rfl⟩ : top.cand = pos ∧ q.map Hyperedge.cand = rest := List.cons.inj hf
    intro p hp
    obtain ⟨h', hh', rfl⟩ := mem_map.mp hp
    have hfront := H.front_max worse_strictWeak h.isHeap hh'
    have hle := not_lt.mp (of_decide_eq_false hfront)
    rw [h.shape h' (mem_cons_of_mem top hh'), h.shape top mem_cons_self] at hle
    exact hle

end

section

variable {H : HeapAlg} {F : ParseForest S} {i : Nat}

omit [LinearOrderedCommGroupWithZero S] in
theorem edgeDerivation_inside (first : Nat → Derivation S) (k : Nat) (e : Edge S) : (edgeDerivation first k e).inside = e.inside := by
  unfold edgeDerivation
  cases e.kids <;> rfl

variable (F i) in
theorem firstBest_eq : firstBest F i = edgeDerivation (firstBest F) 0 (F.item i).rep := by
  rw [firstBest]
  have hlt := F.acyclic i (F.item i).rep (by simp [EdgeEquiv.edges])
  unfold edgeDerivation
  cases hk : (F.item i).rep.kids with
  | nullary => rfl
  | unary c =>
    rw [hk] at hlt
    simp only [if_pos (hlt c (by simp [Kids.toList]))]
  | binary c0 c1 =>
    rw [hk] at hlt
    simp only [if_pos (hlt c0 (by simp [Kids.toList])), if_pos (hlt c1 (by simp [Kids.toList]))]

variable (F i) in
theorem firstBest_inside : (firstBest F i).inside = F.inside i := by
  rw [firstBest_eq, edgeDerivation_inside]
  rfl

variable (H F i) in
theorem best_zero : best H F i 0 = some (firstBest F i) := by
  rw [best_eq, firstBest_eq]
  show (initialQueue F i).head?.map Hyperedge.derivation = _
  simp [initialQueue, EdgeEquiv.edges, EdgeEquiv.sort, mapIdx_cons]

/-- An edge as it was added is the candidate with its children's best. -/
theorem edgeDerivation_cand (he : es[k]? = some e) (hinside : (e.kids.toList.map F.inside).prod * factor e = e.inside)
    (hfirst : ∀ c ∈ e.kids.toList, (l c).head? = some (firstBest F c)) :
    edgeDerivation (firstBest F) k e = candDerivation factor es l (k, 0, 0) := by
  have hget {c : Nat} (hc : c ∈ e.kids.toList) : (l c).getD 0 (.nullary 0 1) = firstBest F c := by
    rw [getD_eq_getElem?_getD, ← head?_eq_getElem?, hfirst c hc]
    rfl
  unfold edgeDerivation candDerivation
  simp only [he]
  cases hk : e.kids with
  | nullary =>
    rw [hk] at hinside
    simp only [Kids.toList, map_nil, prod_nil, one_mul] at hinside
    rw [hinside]
  | unary c =>
    rw [hk] at hinside hget
    simp only [Kids.toList, map_cons, map_nil, prod_cons, prod_nil, mul_one] at hinside
    simp only [hget (by simp [Kids.toList] : c ∈ (Kids.unary c).toList), firstBest_inside]
    rw [← hinside, mul_comm]
  | binary c0 c1 =>
    rw [hk] at hinside hget
    simp only [Kids.toList, map_cons, map_nil, prod_cons, prod_nil, mul_one] at hinside
    simp only [hget (by simp [Kids.toList] : c0 ∈ (Kids.binary c0 c1).toList),
      hget (by simp [Kids.toList] : c1 ∈ (Kids.binary c0 c1).toList), firstBest_inside]
    rw [← hinside, mul_comm, mul_assoc]

section

variable (hfactor : ∀ e ∈ (F.item i).edges, (e.kids.toList.map F.inside).prod * factor e = e.inside)
  (hranks : ∀ c < i, Ranks F factor c (l c))

theorem kid_lt_sort (he : e ∈ (F.item i).sort.edges) {c : Nat} (hc : c ∈ e.kids.toList) : c < i :=
  F.acyclic i e ((EdgeEquiv.mem_edges_sort _ _).mp he) c hc

include hranks in
theorem width_pos (he : e ∈ (F.item i).sort.edges) : 0 < width0 l e ∧ 0 < width1 l e := by
  have hpos {c : Nat} (hc : c ∈ e.kids.toList) : 0 < (l c).length := by
    have := (hranks c (kid_lt_sort he hc)).first
    cases hl : l c with
    | nil => rw [hl] at this; cases this
    | cons d ds => exact Nat.succ_pos _
  unfold width0 width1
  cases hk : e.kids with
  | nullary => exact ⟨Nat.one_pos, Nat.one_pos⟩
  | unary c => exact ⟨hpos (by simp [hk, Kids.toList]), Nat.one_pos⟩
  | binary c0 c1 => exact ⟨hpos (by simp [hk, Kids.toList]), hpos (by simp [hk, Kids.toList])⟩

include hfactor hranks in
theorem initialQueue_eq : initialQueue F i =
    (range (F.item i).sort.edges.length).map fun k => candHyperedge factor (F.item i).sort.edges l (k, 0, 0) := by
  refine ext_getElem? fun k => ?_
  rw [initialQueue, getElem?_mapIdx, getElem?_map]
  cases he : (F.item i).sort.edges[k]? with
  | none =>
    rw [getElem?_eq_none (by simpa using he)]
    rfl
  | some e =>
    have hlt := (List.getElem?_eq_some_iff.mp he).1
    have hmem := mem_of_getElem? he
    have hderiv := edgeDerivation_cand he (hfactor e ((EdgeEquiv.mem_edges_sort _ _).mp hmem))
      fun c hc => (hranks c (kid_lt_sort hmem hc)).first
    rw [getElem?_range hlt, Option.map_some, Option.map_some, hderiv, candHyperedge]
    simp [he]

include hfactor hranks in
theorem initialQueue_inv (H : HeapAlg) : CandQueue H factor (F.item i).sort.edges l ∅ (initialQueue F i) := by
  have hcand : (initialQueue F i).map Hyperedge.cand = (range (F.item i).sort.edges.length).map fun k => (k, 0, 0) := by
    rw [initialQueue_eq hfactor hranks, map_map]
    refine map_congr_left fun k hk => ?_
    exact candHyperedge_cand (getElem?_eq_getElem (mem_range.mp hk))
  refine ⟨.start ?_ fun p => ?_, fun h hh => ?_, H.sorted_isHeap worse_strictWeak ?_⟩
  · rw [hcand]
    exact nodup_range.map fun k k' h => (Prod.ext_iff.mp h).1
  · rw [hcand, mem_map]
    constructor
    · rintro ⟨k, hk, rfl⟩
      have he := getElem?_eq_getElem (mem_range.mp hk)
      obtain ⟨h0, h1⟩ := width_pos hranks (mem_of_getElem? he)
      exact ⟨mem_candBox.mpr ⟨_, he, h0, h1⟩, rfl⟩
    · rintro ⟨hbox, hpreds⟩
      obtain ⟨k, a, b⟩ := p
      obtain ⟨e, he, -⟩ := mem_candBox.mp hbox
      refine ⟨k, mem_range.mpr (List.getElem?_eq_some_iff.mp he).1, ?_⟩
      cases a with
      | zero => cases b with
        | zero => rfl
        | succ b => simp [candPreds] at hpreds
      | succ a => simp [candPreds] at hpreds
  · rw [initialQueue_eq hfactor hranks] at hh
    obtain ⟨k, hk, rfl⟩ := mem_map.mp hh
    rw [candHyperedge_cand (getElem?_eq_getElem (mem_range.mp hk))]
  · have hsorted := (F.item i).edges_sorted
    rw [NonIncreasing, pairwise_iff_getElem]
    intro m n hm hn hmn
    rw [initialQueue, length_mapIdx] at hm hn
    have hle := pairwise_iff_getElem.mp hsorted m n hm hn hmn
    simp only [initialQueue, getElem_mapIdx, decide_eq_false_iff_not, not_lt, edgeDerivation_inside]
    exact hle

include hranks in
/-- A predecessor is at least as good. -/
theorem candDerivation_mono {p q : Cand} (hp : p ∈ candBox (F.item i).sort.edges l) (hq : q ∈ candPreds p) :
    (candDerivation factor (F.item i).sort.edges l p).inside ≤ (candDerivation factor (F.item i).sort.edges l q).inside := by
  obtain ⟨k, a, b⟩ := q
  have hbox := hp
  rcases mem_candPreds.mp hq with rfl | ⟨rfl, rfl⟩
  · obtain ⟨e, he, ha, -⟩ := mem_candBox.mp hbox
    have hlt {c} := kid_lt_sort (c := c) (mem_of_getElem? he)
    unfold candDerivation
    simp only [he]
    unfold width0 at ha
    cases hk : e.kids with
    | nullary => exact le_rfl
    | unary c =>
      rw [hk] at ha hlt
      have hle := inside_getD_succ (hranks c (hlt (by simp [Kids.toList]))).bestFirst ha (.nullary 0 1)
      exact mul_le_mul_right hle _
    | binary c0 c1 =>
      rw [hk] at ha hlt
      have hle := inside_getD_succ (hranks c0 (hlt (by simp [Kids.toList]))).bestFirst ha (.nullary 0 1)
      exact mul_le_mul_left (mul_le_mul_right hle _) _
  · obtain ⟨e, he, -, hb⟩ := mem_candBox.mp hbox
    have hlt {c} := kid_lt_sort (c := c) (mem_of_getElem? he)
    unfold candDerivation
    simp only [he]
    unfold width1 at hb
    cases hk : e.kids with
    | nullary => exact le_rfl
    | unary c => exact le_rfl
    | binary c0 c1 =>
      rw [hk] at hb hlt
      have hle := inside_getD_succ (hranks c1 (hlt (by simp [Kids.toList]))).bestFirst hb (.nullary 0 1)
      exact mul_le_mul_right hle _

section
omit [LinearOrderedCommGroupWithZero S]

theorem getD_mem {c a : Nat} (ha : a < (l c).length) (d : Derivation S) : (l c).getD a d ∈ l c := by
  rw [getD_eq_getElem?_getD, getElem?_eq_getElem ha]
  exact getElem_mem ha

theorem getD_inj {c a a' : Nat} (hn : (l c).Nodup) (ha : a < (l c).length) (ha' : a' < (l c).length) (d : Derivation S)
    (h : (l c).getD a d = (l c).getD a' d) : a = a' := by
  rw [getD_eq_getElem?_getD, getD_eq_getElem?_getD, getElem?_eq_getElem ha, getElem?_eq_getElem ha'] at h
  exact hn.getElem_inj_iff.mp h

end

include hranks in
theorem candDerivation_inj {p q : Cand} (hp : p ∈ candBox (F.item i).sort.edges l) (hq : q ∈ candBox (F.item i).sort.edges l)
    (h : candDerivation factor (F.item i).sort.edges l p = candDerivation factor (F.item i).sort.edges l q) : p = q := by
  obtain ⟨k, a, b⟩ := p
  obtain ⟨k', a', b'⟩ := q
  obtain ⟨e, he, ha, hb⟩ := mem_candBox.mp hp
  obtain ⟨e', he', ha', hb'⟩ := mem_candBox.mp hq
  have hlt {c} := kid_lt_sort (c := c) (mem_of_getElem? he)
  obtain rfl : k = k' := by
    have hcand := congrArg Derivation.index h
    have hindex {k a b : Nat} {e : Edge S} (he : (F.item i).sort.edges[k]? = some e) :
        (candDerivation factor (F.item i).sort.edges l (k, a, b)).index = k := congrArg Prod.fst (candHyperedge_cand he)
    rwa [hindex he, hindex he'] at hcand
  rw [he] at he'
  cases he'
  unfold candDerivation at h
  simp only [he] at h
  unfold width0 at ha ha'
  unfold width1 at hb hb'
  cases hk : e.kids with
  | nullary =>
    simp only [hk] at ha ha' hb hb'
    obtain ⟨rfl, rfl, rfl, rfl⟩ : a = 0 ∧ a' = 0 ∧ b = 0 ∧ b' = 0 := by omega
    rfl
  | unary c =>
    rw [hk] at h hlt
    simp only [hk] at ha ha' hb hb'
    obtain ⟨rfl, rfl⟩ : b = 0 ∧ b' = 0 := by omega
    have hd := (Derivation.unary.inj h).2.2
    rw [getD_inj (hranks c (hlt (by simp [Kids.toList]))).nodup ha ha' _ hd]
  | binary c0 c1 =>
    rw [hk] at ha ha' hb hb' h hlt
    obtain ⟨-, -, hd0, hd1⟩ := Derivation.binary.inj h
    rw [getD_inj (hranks c0 (hlt (by simp [Kids.toList]))).nodup ha ha' _ hd0,
      getD_inj (hranks c1 (hlt (by simp [Kids.toList]))).nodup hb hb' _ hd1]

include hranks in
/-- The candidates' derivations are the derivations of the item. -/
theorem exists_cand_iff {d : Derivation S} :
    (∃ p ∈ candBox (F.item i).sort.edges l, candDerivation factor (F.item i).sort.edges l p = d) ↔ Derives F factor i d := by
  constructor
  · rintro ⟨⟨k, a, b⟩, hp, rfl⟩
    obtain ⟨e, he, ha, hb⟩ := mem_candBox.mp hp
    have hlt {c} := kid_lt_sort (c := c) (mem_of_getElem? he)
    unfold candDerivation
    simp only [he]
    unfold width0 at ha
    unfold width1 at hb
    cases hk : e.kids with
    | nullary => exact .nullary he hk
    | unary c =>
      rw [hk] at ha hlt
      exact .unary he hk (((hranks c (hlt (by simp [Kids.toList]))).mem _).mp (getD_mem ha _))
    | binary c0 c1 =>
      rw [hk] at ha hb hlt
      exact .binary he hk (((hranks c0 (hlt (by simp [Kids.toList]))).mem _).mp (getD_mem ha _))
        (((hranks c1 (hlt (by simp [Kids.toList]))).mem _).mp (getD_mem hb _))
  · intro h
    have hindex {c : Nat} {d : Derivation S} (hc : c < i) (hd : Derives F factor c d) :
        ∃ a, a < (l c).length ∧ (l c).getD a (.nullary 0 1) = d := by
      obtain ⟨a, ha, rfl⟩ := mem_iff_getElem.mp (((hranks c hc).mem d).mpr hd)
      exact ⟨a, ha, by rw [getD_eq_getElem?_getD, getElem?_eq_getElem ha]; rfl⟩
    cases h with
    | @nullary _ k e he hk =>
      refine ⟨(k, 0, 0), mem_candBox.mpr ⟨e, he, ?_, ?_⟩, ?_⟩
      · simp [width0, hk]
      · simp [width1, hk]
      · simp [candDerivation, he, hk]
    | @unary _ k e c d he hk hd =>
      obtain ⟨a, ha, rfl⟩ := hindex (kid_lt_sort (mem_of_getElem? he) (by simp [hk, Kids.toList])) hd
      refine ⟨(k, a, 0), mem_candBox.mpr ⟨e, he, ?_, ?_⟩, ?_⟩
      · simpa [width0, hk] using ha
      · simp [width1, hk]
      · simp [candDerivation, he, hk]
    | @binary _ k e c0 c1 d0 d1 he hk hd0 hd1 =>
      obtain ⟨a, ha, rfl⟩ := hindex (kid_lt_sort (mem_of_getElem? he) (by simp [hk, Kids.toList])) hd0
      obtain ⟨b, hb, rfl⟩ := hindex (kid_lt_sort (mem_of_getElem? he) (by simp [hk, Kids.toList])) hd1
      refine ⟨(k, a, b), mem_candBox.mpr ⟨e, he, ?_, ?_⟩, ?_⟩
      · simpa [width0, hk] using ha
      · simpa [width1, hk] using hb
      · simp [candDerivation, he, hk]

end

end

/-! ## All nodes -/

/-- What node `i` answers is the list of its derivations, best first. -/
theorem ranks_best (H : HeapAlg) (F : ParseForest S) (hfactor : ∀ i, ∀ e ∈ (F.item i).edges,
    (e.kids.toList.map F.inside).prod * factor e = e.inside) (i : Nat) :
    ∃ l, Ranks F factor i l ∧ ∀ n, best H F i n = l[n]? := by
  induction i using Nat.strong_induction_on with
  | h i ih =>
  choose! l hranks hans using ih
  let es := (F.item i).sort.edges
  have hkid {e : Edge S} (he : e ∈ es) {c : Nat} (hc : c ∈ e.kids.toList) : c < i := kid_lt_sort he hc
  have hsorted : ∀ e ∈ es, ∀ c ∈ e.kids.toList, BestFirst Derivation.inside (l c) := fun e he c hc =>
    (hranks c (hkid he hc)).bestFirst
  have hans' : ∀ e ∈ es, ∀ c ∈ e.kids.toList, ∀ m, answers H F i c m = (l c)[m]? := fun e he c hc m => by
    rw [answers, if_pos (hkid he hc), hans c (hkid he hc)]
  have hinit : CandQueue H factor es l ∅ (initialQueue F i) := initialQueue_inv (hfactor i) hranks H
  let M := candExplorer H factor hsorted hans'
  let visits := explore (fun q : List (Hyperedge S) => q.map Hyperedge.cand) (advance H (answers H F i)) (candBox es l).card
    (initialQueue F i)
  -- the queue stays a frontier
  have hqueue : ∀ n, ∃ D, CandQueue H factor es l D (queue H F i n) := by
    intro n
    induction n with
    | zero => exact ⟨∅, hinit⟩
    | succ n ihn =>
      obtain ⟨D, hD⟩ := ihn
      rw [queue_succ]
      cases hq : queue H F i n with
      | nil =>
        rw [hq] at hD
        exact ⟨D, hD⟩
      | cons top q => exact ⟨insert top.cand D, (hq ▸ hD).advance hsorted hans' rfl⟩
  have hbest : ∀ n, best H F i n = (visits.map (candDerivation factor es l))[n]? := by
    intro n
    have hend : ∀ q : List (Hyperedge S), q.map Hyperedge.cand = [] → (advance H (answers H F i) q).map Hyperedge.cand = [] := by
      intro q hq
      rw [map_eq_nil_iff.mp hq]
      rfl
    rw [getElem?_map, M.search.visits_eq hend hinit, best_eq]
    show _ = (((queue H F i n).map Hyperedge.cand).head?).map _
    obtain ⟨D, hD⟩ := hqueue n
    cases hq : queue H F i n with
    | nil => rfl
    | cons top q =>
      have hshape := (hq ▸ hD).shape top mem_cons_self
      exact congrArg (fun h : Hyperedge S => some h.derivation) hshape
  obtain ⟨hnodup, hmem⟩ := M.search.complete (D := ∅) hinit (by rw [Finset.sdiff_empty])
  have hmem' : ∀ p, p ∈ visits ↔ p ∈ candBox es l := fun p => (hmem p).trans (by simp)
  have hinside : visits.Pairwise fun p q => (candDerivation factor es l q).inside ≤ (candDerivation factor es l p).inside :=
    (M.search.sorted (fun p hp q hq => candDerivation_mono hranks hp hq) (fun D s pos rest hs hf => hs.best hf) hinit).1
  refine ⟨visits.map (candDerivation factor es l), ⟨?_, ?_, pairwise_map.mpr hinside, ?_⟩, hbest⟩
  · exact Nodup.map_on (fun p hp q hq => candDerivation_inj hranks ((hmem' p).mp hp) ((hmem' q).mp hq)) hnodup
  · intro d
    rw [← exists_cand_iff hranks, mem_map]
    simp only [hmem']
    rfl
  · rw [head?_eq_getElem?, ← hbest 0, best_zero]

/-- The states that calls of `get_best`, on any nodes, lead to from the lazy forest as it was built. A caller asks for
an entry of the memo or for the next one. -/
inductive Reachable (H : HeapAlg) (F : ParseForest S) : LazyForest S → Prop
  | fresh : Reachable H F (fresh F)
  | getBest {st} (h : Reachable H F st) (i n : Nat) (hn : n ≤ (st i).memo.length) : Reachable H F (getBest H i n st).2

theorem Reachable.holds {H : HeapAlg} {F : ParseForest S} {st : LazyForest S} (h : Reachable H F st) (j : Nat) : Holds H F st j := by
  induction h generalizing j with
  | fresh =>
    refine ⟨0, ?_, rfl, fun e he r hr _ => ?_⟩
    · show [MemoEntry.best (firstBest F j)] = [MemoEntry.ofOption (best H F j 0)]
      rw [best_zero]
      rfl
    · obtain ⟨k, hk, rfl⟩ := mem_mapIdx.mp he
      have hzero : r.2 = 0 := by
        unfold Hyperedge.ranks at hr
        split at hr
        · cases hr
        · rw [mem_singleton.mp hr]
        · rcases mem_pair.mp hr with rfl | rfl <;> rfl
      rw [hzero]
      exact Nat.one_pos
  | getBest _ i n hn ih =>
    obtain ⟨st', hrun, hholds, habove, hgrows, -⟩ := getBest_spec i (fun j _ => ih j) hn
    rw [hrun]
    by_cases hj : j ≤ i
    · exact hholds j hj
    · exact (ih j).frame (habove j (by omega)) hgrows

theorem enumerateFrom_eq {H : HeapAlg} {F : ParseForest S} {visit : Derivation S → Nat → Bool} (hvisit : ∀ d n, visit d n = true)
    {top : Nat} {l : List (Derivation S)} (hl : ∀ n, best H F top n = l[n]?) :
    ∀ (k : Nat) {n : Nat} {st : LazyForest S}, (∀ j ≤ top, Holds H F st j) → n ≤ (st top).memo.length →
      (enumerateFrom H top visit k n st).1 = (l.drop n).take k
  | 0, _, _, _, _ => rfl
  | k + 1, n, st, hst, hn => by
    obtain ⟨st', hrun, hholds, -, -, hlen⟩ := getBest_spec top hst hn
    unfold enumerateFrom
    rw [run_bind hrun, hl]
    cases hget : l[n]? with
    | none =>
      rw [drop_eq_nil_of_le (List.getElem?_eq_none_iff.mp hget)]
      rfl
    | some d =>
      obtain ⟨hlt, rfl⟩ := List.getElem?_eq_some_iff.mp hget
      have ih := enumerateFrom_eq hvisit hl k hholds hlen
      rw [drop_eq_getElem_cons hlt, take_succ_cons, ← ih]
      simp only [hvisit, if_true]
      rfl

/-- **Lazy k-best is exact.** In a forest whose edges were built on their children's best, from any state of the lazy
forest and for any `k`, `enumerate_kbest` visits as many derivations as there are, up to `k`: distinct trees, best
first, and none that it leaves out is better than one that it visits. -/
theorem enumerateKbest_exact (H : HeapAlg) (F : ParseForest S) {factor : Edge S → S} (hfactor : ∀ i, ∀ e ∈ (F.item i).edges,
    (e.kids.toList.map F.inside).prod * factor e = e.inside) {st : LazyForest S} (hst : Reachable H F st) (top k : Nat)
    {visit : Derivation S → Nat → Bool} (hvisit : ∀ d n, visit d n = true) {visited : List (Derivation S)}
    (hvisited : visited = (enumerateKbest H top k visit st).1) :
    (∃ all : List (Derivation S), (all.map Derivation.tree).Nodup ∧ (∀ d, d ∈ all ↔ Derives F factor top d) ∧
      visited.length = min k all.length) ∧
    (visited.map Derivation.tree).Nodup ∧ (∀ d ∈ visited, Derives F factor top d) ∧
    visited.Pairwise (fun d d' => d'.inside ≤ d.inside) ∧
    ∀ d ∈ visited, ∀ d', Derives F factor top d' → d'.tree ∉ visited.map Derivation.tree → d'.inside ≤ d.inside := by
  obtain ⟨l, hl, hbest⟩ := ranks_best H F hfactor top
  have htake : visited = l.take k := by
    rw [hvisited, enumerateKbest, enumerateFrom_eq hvisit hbest k (fun j _ => hst.holds j) (Nat.zero_le _), drop_zero]
  have htree : (l.map Derivation.tree).Nodup :=
    Nodup.map_on (fun d hd d' hd' ht => ((hl.mem d).mp hd).eq_of_tree ((hl.mem d').mp hd') ht) hl.nodup
  refine ⟨⟨l, htree, hl.mem, ?_⟩, ?_, fun d hd => ?_, ?_, fun d hd d' hd' hnot => ?_⟩
  · rw [htake, length_take]
  · rw [htake, map_take]
    exact htree.sublist (take_sublist _ _)
  · rw [htake] at hd
    exact (hl.mem d).mp (mem_of_mem_take hd)
  · rw [htake]
    exact hl.bestFirst.sublist (take_sublist _ _)
  · have hsplit : l = visited ++ l.drop k := by rw [htake, take_append_drop]
    have hrest : d' ∈ l.drop k := by
      have hmem := (hl.mem d').mpr hd'
      rw [hsplit, mem_append] at hmem
      rcases hmem with hmem | hmem
      · exact absurd (mem_map_of_mem hmem) hnot
      · exact hmem
    have hsorted := hl.bestFirst
    rw [BestFirst, hsplit, pairwise_append] at hsorted
    exact hsorted.2.2 d hd d' hrest

end

/-- Item 1 has a binary edge over item 0, twice, and a nullary one; item 0 has two nullary edges. -/
def twoOverTwo : ParseForest NNRat where
  item
    | 1 => ⟨.top, ⟨some 7, .binary 0 0, 4⟩, [⟨some 8, .nullary, 3⟩], by decide⟩
    | _ => ⟨.tag, ⟨some 9, .nullary, 2⟩, [⟨some 10, .nullary, 1⟩], by decide⟩
  acyclic
    | 0 | 1 | _ + 2 => by simp [EdgeEquiv.edges, Kids.toList]

theorem enumerateKbest_exact_twoOverTwo :
    ∃ visited, visited = (enumerateKbest HeapAlg.sorted 1 3 (fun _ _ => true) (fresh twoOverTwo)).1 ∧
      (visited.map Derivation.tree).Nodup ∧ visited.Pairwise (fun d d' => d'.inside ≤ d.inside) := by
  have hnz : ∀ i, twoOverTwo.inside i ≠ 0
    | 0 | 1 | _ + 2 => by simp [twoOverTwo, ParseForest.inside, EdgeEquiv.inside]
  have hfactor : ∀ i, ∀ e ∈ (twoOverTwo.item i).edges,
      (e.kids.toList.map twoOverTwo.inside).prod * deltaInsideScore twoOverTwo e = e.inside := by
    intro i e _
    exact deltaInsideScore_mul fun c _ => hnz c
  have h := enumerateKbest_exact HeapAlg.sorted twoOverTwo hfactor .fresh 1 3 (fun _ _ => rfl : ∀ d n, (fun _ _ => true) d n = true) rfl
  exact ⟨_, rfl, h.2.1, h.2.2.2.1⟩

end Sbmt.Forest
