import Sbmt.Lib.Relax
import Sbmt.Forest.Basic

/-!
# Viterbi outside scores: `dfs_forest::compute` / `outside_score::compute_equiv`

One depth-first pass over the forest records a *plan*: an arc from parent to child for every child of every edge,
in the order in which the edges are visited (`sbmt/forest/dfs_forest.hpp:138`, `outside_score.hpp:84`). The plan is
then replayed backwards and raises the children's scores (`compute_outside_scores`, `outside_score.hpp:100`).

An arc into an item is recorded only after `compute` of that item has returned, so after all the arcs out of it.
Read backwards, the plan is therefore topological, which is what one sweep needs (`Lib.Relax`).
-/

namespace Sbmt.Forest

open Sbmt.Lib Function

variable {S : Type*} [LinearOrderedCommGroupWithZero S]

/-! ## The code -/

/-- The state of a visit: the keys of `results`, the plan (`outside_edge`: score, parent, child), and the score
fields of the representatives. -/
structure Visit (S : Type*) where
  results : List Nat
  plan : List (Arc Nat S)
  score : Nat → S

variable (F : ParseForest S)

/-- `add_to_plan` (`outside_score.hpp:61`). -/
def addToPlan (edgeInside : S) (c parent : Nat) (v : Visit S) : Visit S :=
  { v with plan := v.plan ++ [⟨edgeInside / F.inside c, parent, c⟩] }

/-- `start_equiv`: the item's score is cleared. -/
def startEquiv (i : Nat) (v : Visit S) : Visit S :=
  { v with results := i :: v.results, score := update v.score i 0 }

/-- `visit_edge_ptr` (`outside_score.hpp:84`). -/
def visitEdge (parent : Nat) (e : Edge S) (v : Visit S) : Visit S :=
  match e.kids with
  | .nullary => v
  | .unary c => addToPlan F e.inside c parent v
  | .binary c₀ c₁ => addToPlan F e.inside c₁ parent (addToPlan F e.inside c₀ parent v)

/-- `dfs_forest::compute` (`dfs_forest.hpp:138`). The first argument bounds the depth of the recursion; the
items below `i` number at most `i`. -/
def compute (F : ParseForest S) : Nat → Nat → Visit S → Visit S
  | 0, _, v => v
  | n + 1, i, v =>
    if i ∈ v.results then v
    else (F.item i).sort.edges.foldl
      (fun v e => visitEdge F i e (e.kids.toList.foldl (fun v c => compute F n c v) v)) (startEquiv i v)

/-- `graehl::maybe_increase_max`. -/
def maybeIncreaseMax (dst src : S) : S := if dst < src then src else dst

/-- `compute_outside_scores` (`outside_score.hpp:100`): the goal gets one, then the plan is replayed backwards. -/
def computeOutsideScores (goal : Nat) (v : Visit S) : Nat → S :=
  v.plan.reverse.foldl
    (fun score a => update score a.dst (maybeIncreaseMax (score a.dst) (score a.src * a.weight)))
    (update v.score goal 1)

/-- `compute_equiv` (`outside_score.hpp:125`) of a fresh `outside_score`, on items whose score fields hold `score`.
`none` stands for a failed `assert(topo.plan_goal_is(top))`. -/
def computeEquiv (score : Nat → S) (top : Nat) : Option (Nat → S) :=
  let v := compute F (top + 1) top ⟨[], [], score⟩
  match v.plan.getLast? with
  | none => none
  | some a => if a.src = top then some (computeOutsideScores a.src v) else none

/-! ## What a visit does -/

variable {t i : Nat} {F : ParseForest S}

theorem Reach.le (h : Reach F t i) : i ≤ t := by
  induction h with
  | refl => exact le_rfl
  | step _ e he hc ih => exact (F.acyclic _ e he _ hc).le.trans ih

/-- What `compute` of items below `cur` does to the state, `cur` being under way itself and all of them being
reachable from `t`. -/
structure Extends (F : ParseForest S) (t cur : Nat) (v v' : Visit S) : Prop where
  mono : ∀ j ∈ v.results, j ∈ v'.results
  plan : ∃ new, v'.plan = v.plan ++ new ∧
    (∀ a ∈ new, (a.src ∉ v.results ∨ a.src = cur) ∧ a.dst < a.src ∧ a.src ≤ cur ∧ a.dst ∈ v'.results ∧
      Reach F t a.src ∧ ∃ e ∈ (F.item a.src).edges, a.dst ∈ e.kids.toList ∧ a.weight = e.inside / F.inside a.dst) ∧
    new.Pairwise fun a b => a.dst ≠ b.src
  full : ∀ j ∈ v'.results, j ∉ v.results → ∀ e ∈ (F.item j).edges, ∀ c ∈ e.kids.toList,
    (⟨e.inside / F.inside c, j, c⟩ : Arc Nat S) ∈ v'.plan
  fresh : ∀ j ∈ v'.results, j ∉ v.results → v'.score j = 0
  keep : ∀ j ∈ v.results, v'.score j = v.score j

theorem Extends.refl (F : ParseForest S) (t cur : Nat) (v : Visit S) : Extends F t cur v v where
  mono _ h := h
  plan := ⟨[], by simp, by simp, .nil⟩
  full j h h' := absurd h h'
  fresh j h h' := absurd h h'
  keep _ _ := rfl

variable {v : Visit S}

theorem Extends.plan_mono {cur : Nat} {v' : Visit S} (h : Extends F t cur v v') : ∀ a ∈ v.plan, a ∈ v'.plan := by
  obtain ⟨new, hp, -⟩ := h.plan
  intro a ha
  simp [hp, ha]

theorem Extends.trans {cur : Nat} {v0 v1 v2 : Visit S} (h : Extends F t cur v0 v1)
    (h' : Extends F t cur v1 v2) : Extends F t cur v0 v2 := by
  refine ⟨fun j hj => h'.mono j (h.mono j hj), ?_, ?_, ?_, ?_⟩
  · obtain ⟨n1, hp1, ha1, ho1⟩ := h.plan
    obtain ⟨n2, hp2, ha2, ho2⟩ := h'.plan
    refine ⟨n1 ++ n2, by simp [hp1, hp2], ?_, ?_⟩
    · intro a ha
      rcases List.mem_append.1 ha with ha | ha
      · obtain ⟨hs, hlt, hle, hd, he⟩ := ha1 a ha
        exact ⟨hs, hlt, hle, h'.mono _ hd, he⟩
      · obtain ⟨hs, hlt, hle, hd, he⟩ := ha2 a ha
        exact ⟨hs.imp_left fun hn hm => hn (h.mono _ hm), hlt, hle, hd, he⟩
    · -- a child recorded first is already visited, and no item under way
      refine List.pairwise_append.2 ⟨ho1, ho2, fun a ha b hb hab => ?_⟩
      obtain ⟨-, hlt, hle, hd, -⟩ := ha1 a ha
      rcases (ha2 b hb).1 with hn | hc
      · exact hn (hab ▸ hd)
      · omega
  · intro j hj hn
    by_cases hj1 : j ∈ v1.results
    · exact fun e he c hc => h'.plan_mono _ (h.full j hj1 hn e he c hc)
    · exact h'.full j hj hj1
  · intro j hj hn
    by_cases hj1 : j ∈ v1.results
    · rw [h'.keep j hj1]
      exact h.fresh j hj1 hn
    · exact h'.fresh j hj hj1
  · intro j hj
    rw [h'.keep j (h.mono j hj), h.keep j hj]

/-- Recording one child of an edge of the item under way. -/
theorem Extends.addToPlan {c : Nat} {e : Edge S} (hi : Reach F t i)
    (he : e ∈ (F.item i).edges) (hc : c ∈ e.kids.toList) (hv : c ∈ v.results) : Extends F t i v (addToPlan F e.inside c i v) where
  mono _ h := h
  plan := by
    refine ⟨[⟨e.inside / F.inside c, i, c⟩], rfl, fun a ha => ?_, by simp⟩
    obtain rfl : a = ⟨e.inside / F.inside c, i, c⟩ := by simpa using ha
    exact ⟨.inr rfl, F.acyclic i e he c hc, le_rfl, hv, hi, e, he, hc, rfl⟩
  full j h h' := absurd h h'
  fresh j h h' := absurd h h'
  keep _ _ := rfl

/-- The children of an edge are recorded, once they have been visited. -/
theorem visitEdge_spec {e : Edge S} (hi : Reach F t i)
    (he : e ∈ (F.item i).edges) (hv : ∀ c ∈ e.kids.toList, c ∈ v.results) :
    Extends F t i v (visitEdge F i e v) ∧
      ∀ c ∈ e.kids.toList, (⟨e.inside / F.inside c, i, c⟩ : Arc Nat S) ∈ (visitEdge F i e v).plan := by
  unfold visitEdge
  cases hk : e.kids with
  | nullary => exact ⟨.refl F t i v, by simp [Kids.toList]⟩
  | unary c =>
    have hc : c ∈ e.kids.toList := by simp [hk, Kids.toList]
    exact ⟨.addToPlan hi he hc (hv c hc), by simp [Kids.toList, addToPlan]⟩
  | binary c0 c1 =>
    have hc0 : c0 ∈ e.kids.toList := by simp [hk, Kids.toList]
    have hc1 : c1 ∈ e.kids.toList := by simp [hk, Kids.toList]
    exact ⟨(Extends.addToPlan hi he hc0 (hv _ hc0)).trans (.addToPlan hi he hc1 (hv _ hc1)), by simp [Kids.toList, addToPlan]⟩

section
variable {F : ParseForest S} {n t : Nat}

/-- Visiting the children of one edge. -/
theorem foldl_compute_spec {cur : Nat}
    (ih : ∀ c v, Reach F t c → c < cur → Extends F t cur v (compute F n c v) ∧ c ∈ (compute F n c v).results) :
    ∀ (cs : List Nat) (v : Visit S), (∀ c ∈ cs, Reach F t c ∧ c < cur) →
      Extends F t cur v (cs.foldl (fun v c => compute F n c v) v) ∧
        ∀ c ∈ cs, c ∈ (cs.foldl (fun v c => compute F n c v) v).results
  | [], v, _ => ⟨.refl F t cur v, by simp⟩
  | c :: cs, v, hlt => by
    obtain ⟨h1, hm1⟩ := ih c v (hlt c (by simp)).1 (hlt c (by simp)).2
    obtain ⟨h2, hm2⟩ := foldl_compute_spec ih cs (compute F n c v) fun c hc => hlt c (by simp [hc])
    refine ⟨h1.trans h2, fun d hd => ?_⟩
    rcases List.mem_cons.1 hd with rfl | hd
    · exact h2.mono _ hm1
    · exact hm2 d hd

/-- Visiting the edges of the item under way. -/
theorem foldl_visitEdge_spec {i : Nat} (hi : Reach F t i)
    (ih : ∀ c v, Reach F t c → c < i → Extends F t i v (compute F n c v) ∧ c ∈ (compute F n c v).results) :
    ∀ (es : List (Edge S)) (v : Visit S), (∀ e ∈ es, e ∈ (F.item i).edges) →
      Extends F t i v
        (es.foldl (fun v e => visitEdge F i e (e.kids.toList.foldl (fun v c => compute F n c v) v)) v) ∧
      ∀ e ∈ es, ∀ c ∈ e.kids.toList, (⟨e.inside / F.inside c, i, c⟩ : Arc Nat S) ∈
        (es.foldl (fun v e => visitEdge F i e (e.kids.toList.foldl (fun v c => compute F n c v) v)) v).plan
  | [], v, _ => ⟨.refl F t i v, by simp⟩
  | e :: es, v, hes => by
    have he := hes e (by simp)
    obtain ⟨h1, hm1⟩ := foldl_compute_spec ih e.kids.toList v fun c hc =>
      ⟨hi.step e he hc, F.acyclic i e he c hc⟩
    obtain ⟨h2, hm2⟩ := visitEdge_spec hi he hm1
    obtain ⟨h3, hm3⟩ := foldl_visitEdge_spec hi ih es _ fun e he => hes e (by simp [he])
    refine ⟨(h1.trans h2).trans h3, fun d hd => ?_⟩
    rcases List.mem_cons.1 hd with rfl | hd
    · exact fun c hc => h3.plan_mono _ (hm2 c hc)
    · exact hm3 d hd

/-- **`compute` visits the item and everything below it, and records arcs in finishing order.** -/
theorem compute_spec (F : ParseForest S) (t : Nat) : ∀ (n i cur : Nat) (v : Visit S), Reach F t i → i < n → i < cur →
    Extends F t cur v (compute F n i v) ∧ i ∈ (compute F n i v).results
  | n + 1, i, cur, v, hr, hin, hic => by
    unfold compute
    split
    · rename_i hvis
      exact ⟨.refl F t cur v, hvis⟩
    · rename_i hnew
      obtain ⟨h, hfull⟩ := foldl_visitEdge_spec (F := F) (n := n) (i := i) hr
        (fun c v hrc hc => compute_spec F t n c i v hrc (by omega) hc) (F.item i).sort.edges (startEquiv i v) (by simp)
      obtain ⟨new, hp, ha, ho⟩ := h.plan
      refine ⟨⟨fun j hj => h.mono j (by simp [startEquiv, hj]), ⟨new, by simpa [startEquiv] using hp, ?_, ho⟩, ?_, ?_, ?_⟩,
        h.mono i (by simp [startEquiv])⟩
      · intro a hmem
        obtain ⟨hs, hlt, hle, hd, he⟩ := ha a hmem
        refine ⟨.inl ?_, hlt, by omega, hd, he⟩
        rcases hs with hs | hs
        · exact fun hm => hs (by simp [startEquiv, hm])
        · rwa [hs]
      · intro j hj hn e he c hc
        by_cases hji : j = i
        · subst hji
          exact hfull e (by simpa using he) c hc
        · exact h.full j hj (by simp [startEquiv, hji, hn]) e he c hc
      · intro j hj hn
        by_cases hji : j = i
        · subst hji
          rw [h.keep j (by simp [startEquiv])]
          simp [startEquiv]
        · exact h.fresh j hj (by simp [startEquiv, hji, hn])
      · intro j hj
        have hji : j ≠ i := fun hji => hnew (hji ▸ hj)
        rw [h.keep j (by simp [startEquiv, hj])]
        simp [startEquiv, update_of_ne hji]

end

/-! ## The plan ends at the top -/

theorem visitEdge_last (F : ParseForest S) (i : Nat) (e : Edge S) (v : Visit S) (hk : e.kids ≠ .nullary) :
    (visitEdge F i e v).plan.getLast?.map Arc.src = some i := by
  unfold visitEdge
  cases h : e.kids with
  | nullary => exact absurd h hk
  | unary c => simp [addToPlan]
  | binary c0 c1 => simp [addToPlan]

/-- A non-nullary edge leaves an arc out of the item under way at the end of the plan. -/
theorem foldl_visitEdge_last {n : Nat} : ∀ (es : List (Edge S)) (v : Visit S),
    (∃ e ∈ es, e.kids ≠ .nullary) ∨ v.plan.getLast?.map Arc.src = some i →
    (es.foldl (fun v e => visitEdge F i e (e.kids.toList.foldl (fun v c => compute F n c v) v)) v).plan.getLast?.map
      Arc.src = some i
  | [], v, h => by simpa using h
  | e :: es, v, h => by
    refine foldl_visitEdge_last es _ ?_
    by_cases hk : e.kids = .nullary
    · rcases h with ⟨d, hd, hdk⟩ | hl
      · rcases List.mem_cons.1 hd with rfl | hd
        · exact absurd hk hdk
        · exact .inl ⟨d, hd, hdk⟩
      · exact .inr (by simpa [visitEdge, hk, Kids.toList] using hl)
    · exact .inr (visitEdge_last F i e _ hk)

theorem compute_last {n : Nat} (hi : i ∉ v.results)
    (h : ∃ e ∈ (F.item i).edges, e.kids ≠ .nullary) : (compute F (n + 1) i v).plan.getLast?.map Arc.src = some i := by
  obtain ⟨e, he, hk⟩ := h
  simp only [compute, hi, if_false]
  exact foldl_visitEdge_last _ _ (.inl ⟨e, by simpa using he, hk⟩)

/-! ## The backward replay -/

theorem maybeIncreaseMax_eq_max (a b : S) : maybeIncreaseMax a b = max a b := by
  unfold maybeIncreaseMax
  split
  · rename_i h
    exact (max_eq_right h.le).symm
  · rename_i h
    exact (max_eq_left (not_lt.1 h)).symm

theorem computeOutsideScores_eq_sweep (goal : Nat) (v : Visit S) :
    computeOutsideScores goal v = sweep (update v.score goal 1) v.plan.reverse := by
  simp only [computeOutsideScores, maybeIncreaseMax_eq_max]
  rfl

/-- The fixed point that the replay reaches: the top has score one, every arc of the forest is relaxed, and every
other score is passed on by an arc or is zero. -/
structure OutsideFix (F : ParseForest S) (top : Nat) (out : Nat → S) : Prop where
  goal : out top = 1
  relaxed : ∀ i, Reach F top i → ∀ e ∈ (F.item i).edges, ∀ c ∈ e.kids.toList,
    out i * (e.inside / F.inside c) ≤ out c
  attained : ∀ c, Reach F top c → c ≠ top → out c = 0 ∨ ∃ i, Reach F top i ∧ c < i ∧ i ≤ top ∧
    ∃ e ∈ (F.item i).edges, c ∈ e.kids.toList ∧ out c = out i * (e.inside / F.inside c)

/-- The state that the visit of `top` ends in. -/
abbrev visited (F : ParseForest S) (score : Nat → S) (top : Nat) : Visit S :=
  compute F (top + 1) top ⟨[], [], score⟩

section
variable (F : ParseForest S) (score : Nat → S) (top : Nat)

theorem extends_visited : Extends F top (top + 1) ⟨[], [], score⟩ (visited F score top) ∧ top ∈ (visited F score top).results :=
  compute_spec F top (top + 1) top (top + 1) ⟨[], [], score⟩ .refl (by omega) (by omega)

theorem topological_plan : Topological (visited F score top).plan.reverse := by
  obtain ⟨new, hp, ha, ho⟩ := (extends_visited F score top).1.plan
  rw [hp]
  refine ⟨fun a hmem => ?_, List.pairwise_reverse.2 ho⟩
  have := (ha a (by simpa using hmem)).2.1
  omega

theorem arc_mem_plan {a : Arc Nat S} (h : a ∈ (visited F score top).plan) :
    a.dst < a.src ∧ a.src ≤ top ∧ Reach F top a.src ∧ ∃ e ∈ (F.item a.src).edges, a.dst ∈ e.kids.toList ∧ a.weight = e.inside / F.inside a.dst := by
  obtain ⟨new, hp, ha, -⟩ := (extends_visited F score top).1.plan
  obtain ⟨-, hlt, -, -, hr, he⟩ := ha a (by simpa [hp] using h)
  exact ⟨hlt, hr.le, hr, he⟩

theorem reach_visited {i : Nat} (h : Reach F top i) : i ∈ (visited F score top).results := by
  obtain ⟨hext, htop⟩ := extends_visited F score top
  induction h with
  | refl => exact htop
  | step _ e he hc ih =>
    have harc := hext.full _ ih (by simp) e he _ hc
    obtain ⟨new, hp, ha, -⟩ := hext.plan
    exact (ha _ (by simpa [hp] using harc)).2.2.2.1

/-- The replay reaches the fixed point. -/
theorem outsideFix_computeOutsideScores : OutsideFix F top (computeOutsideScores top (visited F score top)) := by
  rw [computeOutsideScores_eq_sweep]
  have htopo := topological_plan F score top
  obtain ⟨hext, -⟩ := extends_visited F score top
  refine ⟨?_, fun i hi e he c hc => ?_, fun c hc hne => ?_⟩
  · rw [sweep_of_forall_ne, update_self]
    intro a ha
    have := arc_mem_plan F score top (by simpa using ha)
    omega
  · have harc := hext.full i (reach_visited F score top hi) (by simp) e he c hc
    exact sweep_relaxed htopo _ _ (List.mem_reverse.2 harc)
  · rcases sweep_attained htopo (update (visited F score top).score top 1) c with h | ⟨a, ha, rfl, h⟩
    · refine .inl (h.trans ?_)
      rw [update_of_ne hne]
      exact hext.fresh c (reach_visited F score top hc) (by simp)
    · obtain ⟨hlt, hle, hr, e, he, hc', hw⟩ := arc_mem_plan F score top (List.mem_reverse.1 ha)
      exact .inr ⟨a.src, hr, hlt, hle, e, he, hc', hw ▸ h⟩

end

/-! ## The fixed point is the Viterbi outside score -/

section
variable {F : ParseForest S} {top : Nat} {out : Nat → S}

variable {i : Nat}

/-- Any derivation of a child extends to one of the parent over a given edge, best everywhere else; it scores what
the arc to that child carries. -/
theorem exists_parent (top : Nat) (hnz : ∀ i, F.inside i ≠ 0) {c : Nat} {e : Edge S} (he : e ∈ (F.item i).edges)
    (hc : c ∈ e.kids.toList) (δ : Deriv F c) :
    ∃ δ' : Deriv F i, (∀ d : Deriv F top, d.Sub δ' → d.Sub δ) ∧ δ'.score = e.inside / F.inside c * δ.score := by
  cases hk : e.kids with
  | nullary => simp [hk, Kids.toList] at hc
  | unary c' =>
    obtain rfl : c = c' := by simpa [hk, Kids.toList] using hc
    exact ⟨.unary e he hk δ, fun d h => h.unary, by simp [Deriv.score, deltaInsideScore, hk]⟩
  | binary c0 c1 =>
    rcases (by simpa [hk, Kids.toList] using hc : c = c0 ∨ c = c1) with rfl | rfl
    · obtain ⟨δ1, h1⟩ := exists_best hnz c1
      refine ⟨.binary e he hk δ δ1, fun d h => h.left, ?_⟩
      simp only [Deriv.score, deltaInsideScore, hk, h1]
      rw [mul_right_comm, div_mul_cancel₀ _ (hnz c1)]
    · obtain ⟨δ0, h0⟩ := exists_best hnz c0
      refine ⟨.binary e he hk δ0 δ, fun d h => h.right, ?_⟩
      simp only [Deriv.score, deltaInsideScore, hk, h0]
      rw [div_right_comm, div_mul_cancel₀ _ (hnz c0)]

/-- The score of a derivation is bounded by the arcs from the top down to any of its parts. -/
theorem score_le_out (hnz : ∀ i, F.inside i ≠ 0) (h : OutsideFix F top out) {d : Deriv F top}
    {δ : Deriv F i} (hs : d.Sub δ) : Reach F top i ∧ d.score ≤ out i * δ.score := by
  induction hs with
  | refl => exact ⟨.refl, by rw [h.goal, one_mul]⟩
  | @unary i c e he hk δ _ ih =>
    have hc : c ∈ e.kids.toList := by simp [hk, Kids.toList]
    refine ⟨ih.1.step e he hc, ih.2.trans ?_⟩
    simp only [Deriv.score, deltaInsideScore, hk]
    rw [← mul_assoc]
    exact mul_le_mul_left (h.relaxed i ih.1 e he c hc) _
  | @left i c0 c1 e he hk δ0 δ1 _ ih =>
    have hc : c0 ∈ e.kids.toList := by simp [hk, Kids.toList]
    refine ⟨ih.1.step e he hc, ih.2.trans ?_⟩
    have hle : deltaInsideScore F e * δ1.score ≤ e.inside / F.inside c0 := by
      calc deltaInsideScore F e * δ1.score ≤ deltaInsideScore F e * F.inside c1 := by
            gcongr
            exact δ1.score_le_inside hnz
        _ = e.inside / F.inside c0 := by simp only [deltaInsideScore, hk]; exact div_mul_cancel₀ _ (hnz c1)
    calc out i * (deltaInsideScore F e * δ0.score * δ1.score)
        = out i * (deltaInsideScore F e * δ1.score) * δ0.score := by rw [mul_right_comm _ δ0.score, ← mul_assoc]
      _ ≤ out i * (e.inside / F.inside c0) * δ0.score := by gcongr
      _ ≤ out c0 * δ0.score := by gcongr; exact h.relaxed i ih.1 e he c0 hc
  | @right i c0 c1 e he hk δ0 δ1 _ ih =>
    have hc : c1 ∈ e.kids.toList := by simp [hk, Kids.toList]
    refine ⟨ih.1.step e he hc, ih.2.trans ?_⟩
    have hle : deltaInsideScore F e * δ0.score ≤ e.inside / F.inside c1 := by
      calc deltaInsideScore F e * δ0.score ≤ deltaInsideScore F e * F.inside c0 := by
            gcongr
            exact δ0.score_le_inside hnz
        _ = e.inside / F.inside c1 := by
          simp only [deltaInsideScore, hk]
          rw [div_right_comm, div_mul_cancel₀ _ (hnz c0)]
    calc out i * (deltaInsideScore F e * δ0.score * δ1.score)
        = out i * (deltaInsideScore F e * δ0.score) * δ1.score := by rw [← mul_assoc]
      _ ≤ out i * (e.inside / F.inside c1) * δ1.score := by gcongr
      _ ≤ out c1 * δ1.score := by gcongr; exact h.relaxed i ih.1 e he c1 hc

/-- A reachable item other than the top passes its score on along some arc into it. -/
theorem OutsideFix.exists_arc (h : OutsideFix F top out) {c : Nat} (hc : Reach F top c) (hne : c ≠ top) :
    ∃ i, Reach F top i ∧ c < i ∧ ∃ e ∈ (F.item i).edges, c ∈ e.kids.toList ∧
      out c = out i * (e.inside / F.inside c) := by
  rcases h.attained c hc hne with h0 | ⟨i, hi, hlt, -, e, he, hce, heq⟩
  · -- a zero score is passed on by any arc into the item
    cases hc with
    | refl => exact absurd rfl hne
    | @step i _ hi e he hce =>
      refine ⟨i, hi, F.acyclic i e he c hce, e, he, hce, ?_⟩
      have hle := h.relaxed i hi e he c hce
      rw [h0] at hle ⊢
      exact (le_zero_iff.1 hle).symm
  · exact ⟨i, hi, hlt, e, he, hce, heq⟩

/-- Every derivation of a reachable item is part of a derivation of the top that scores as the fixed point says.
The induction climbs from the item to the top. -/
theorem exists_sub_score (hnz : ∀ i, F.inside i ≠ 0) (h : OutsideFix F top out) :
    ∀ (k i : Nat), top - i = k → Reach F top i → ∀ δ : Deriv F i,
      ∃ d : Deriv F top, d.Sub δ ∧ d.score = out i * δ.score := by
  intro k
  induction k using Nat.strong_induction_on with
  | h k ih =>
    intro i hk hi δ
    by_cases hit : i = top
    · subst hit
      exact ⟨δ, .refl, by rw [h.goal, one_mul]⟩
    · obtain ⟨p, hp, hlt, e, he, hce, heq⟩ := h.exists_arc hi hit
      obtain ⟨δ', hsub, hscore⟩ := exists_parent top hnz he hce δ
      have := hp.le
      obtain ⟨d, hd, hds⟩ := ih (top - p) (by omega) p rfl hp δ'
      exact ⟨d, hsub d hd, by rw [hds, hscore, heq, mul_assoc]⟩

/-- The fixed point gives every reachable item its Viterbi outside score. -/
theorem OutsideFix.isGreatest (hnz : ∀ i, F.inside i ≠ 0) (h : OutsideFix F top out) (hi : Reach F top i) :
    IsGreatest {s | ∃ d : Deriv F top, d.Uses i ∧ s = d.score / F.inside i} (out i) := by
  constructor
  · obtain ⟨δ, hδ⟩ := exists_best hnz i
    obtain ⟨d, hd, hds⟩ := exists_sub_score hnz h _ i rfl hi δ
    exact ⟨d, ⟨δ, hd⟩, by rw [hds, hδ, mul_div_cancel_right₀ _ (hnz i)]⟩
  · rintro s ⟨d, ⟨δ, hd⟩, rfl⟩
    have hpos : 0 < F.inside i := zero_lt_iff.2 (hnz i)
    rw [div_le_iff₀ hpos]
    refine (score_le_out hnz h hd).2.trans ?_
    gcongr
    exact δ.score_le_inside hnz

end

/-- **`compute_equiv` leaves the Viterbi outside score in every reachable item.** On a forest with nonzero inside
scores whose top has a non-nullary edge, the visit's plan ends at the top, the top gets one, and every item reached
from it the greatest score of a derivation of the top that uses the item, divided by the item's inside score. -/
theorem computeEquiv_viterbi_outside (F : ParseForest S) (hnz : ∀ i, F.inside i ≠ 0) (score : Nat → S) (top : Nat)
    (hne : ∃ e ∈ (F.item top).edges, e.kids ≠ .nullary) :
    ∃ out, computeEquiv F score top = some out ∧ out top = 1 ∧
      ∀ i, Reach F top i → IsGreatest {s | ∃ d : Deriv F top, d.Uses i ∧ s = d.score / F.inside i} (out i) := by
  have hfix := outsideFix_computeOutsideScores F score top
  refine ⟨_, ?_, hfix.goal, fun i hi => hfix.isGreatest hnz hi⟩
  have hlast := compute_last (n := top) (v := ⟨[], [], score⟩) (by simp) hne
  obtain ⟨a, ha, hsrc⟩ := Option.map_eq_some_iff.1 hlast
  simp [computeEquiv, ha, hsrc]

/-- Two items: the top has a unary edge down to a leaf and a worse nullary one. -/
def leafAndTop : ParseForest NNRat where
  item i := if i = 1 then ⟨.top, ⟨some 7, .unary 0, 1⟩, [⟨some 8, .nullary, 1⟩], by decide⟩
    else ⟨.tag, ⟨some 9, .nullary, 1 + 1⟩, [], by simp⟩
  acyclic i e he c hc := by
    by_cases hi : i = 1
    · subst hi
      rcases (by simpa [EdgeEquiv.edges] using he : e = ⟨some 7, .unary 0, 1⟩ ∨ e = ⟨some 8, .nullary, 1⟩) with rfl | rfl
      · simp [Kids.toList] at hc
        omega
      · simp [Kids.toList] at hc
    · have : e = ⟨some 9, .nullary, 1 + 1⟩ := by simpa [EdgeEquiv.edges, hi] using he
      simp [this, Kids.toList] at hc

theorem computeEquiv_viterbi_outside_leafAndTop :
    ∃ out, computeEquiv leafAndTop (fun _ => 0) 1 = some out ∧ out 1 = 1 ∧
      IsGreatest {s | ∃ d : Deriv leafAndTop 1, d.Uses 0 ∧ s = d.score / leafAndTop.inside 0} (out 0) := by
  have hnz : ∀ i, leafAndTop.inside i ≠ 0 := by
    intro i
    by_cases hi : i = 1 <;> simp [leafAndTop, EdgeEquiv.inside, hi]
  have hmem : (⟨some 7, .unary 0, 1⟩ : Edge NNRat) ∈ (leafAndTop.item 1).edges := by simp [leafAndTop, EdgeEquiv.edges]
  obtain ⟨out, h, h1, hall⟩ := computeEquiv_viterbi_outside leafAndTop hnz (fun _ => 0) 1 ⟨_, hmem, by simp⟩
  exact ⟨out, h, h1, hall 0 (.step .refl _ hmem (by simp [Kids.toList]))⟩

end Sbmt.Forest
