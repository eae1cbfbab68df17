import Sbmt.Carmel.Reduce
import Sbmt.Carmel.ShortestDistances

/-!
# What the paths of a transducer cost

A path costs the sum of what its arcs cost, `getCost` of their weights.  On the graph of a transducer, and on that graph
turned round, `shortestDistancesFrom` computes the least costs of paths from a state and of paths to a state; from the
two together one tells the least cost of an accepting path through a state or through an arc.
-/

namespace Sbmt.Carmel

open Sbmt.Lib List

variable {W : Type*} {K : Type}

section

variable {C : Type*} {getCost : W → C} {x : Wfst W} {s t : Nat}

variable (getCost) in
theorem makeGraph_wellFormed : (makeGraph getCost x.states).WellFormed where
  src_eq s e he := by
    obtain ⟨a, -, rfl⟩ := (mem_makeGraph getCost).1 he
    rfl
  dest_lt s e he := by
    obtain ⟨a, ha, rfl⟩ := (mem_makeGraph getCost).1 he
    obtain ⟨i, hi⟩ := mem_iff_getElem?.1 ha
    rw [makeGraph_length]
    exact (Wfst.arc?_lt (p := ⟨s, i⟩) hi).2

variable (getCost) in
theorem reverseGraph_wellFormed : (reverseGraph (makeGraph getCost x.states)).WellFormed where
  src_eq s e he := by
    obtain ⟨-, l, -, rfl, rfl⟩ := mem_reverseGraph.1 he
    rfl
  dest_lt s e he := by
    obtain ⟨-, l, hl, -, rfl⟩ := mem_reverseGraph.1 he
    obtain ⟨u, a, ha, rfl⟩ := mem_flatten_makeGraph.1 hl
    rw [reverseGraph_length]
    exact mem_arcs_lt ((mem_makeGraph getCost).2 ⟨a, ha, rfl⟩)

theorem mem_reverse_makeGraph {e : GraphArc C} :
    e ∈ (reverseGraph (makeGraph getCost x.states)).arcs s ↔
      ∃ u, ∃ a ∈ x.arcs u, a.dest = s ∧ e = ⟨s, u, getCost a.weight⟩ := by
  rw [mem_reverseGraph]
  constructor
  · rintro ⟨-, l, hl, rfl, rfl⟩
    obtain ⟨u, a, ha, rfl⟩ := mem_flatten_makeGraph.1 hl
    exact ⟨u, a, ha, rfl, rfl⟩
  · rintro ⟨u, a, ha, rfl, rfl⟩
    obtain ⟨i, hi⟩ := mem_iff_getElem?.1 ha
    refine ⟨?_, _, mem_flatten_makeGraph.2 ⟨u, a, ha, rfl⟩, rfl, rfl⟩
    rw [makeGraph_length]
    exact (Wfst.arc?_lt (p := ⟨u, i⟩) hi).2

end

variable [AddCommMonoid K]

def pathCost (getCost : W → WithTop K) (x : Wfst W) (ps : List ArcPtr) : WithTop K :=
  ((x.taken ps).map fun a => getCost a.weight).sum

variable {getCost : W → WithTop K} {x : Wfst W} {s t : Nat} {p : ArcPtr} {a : FSTArc W} {ps as bs : List ArcPtr}

theorem pathCost_nil : pathCost getCost x [] = 0 := rfl

theorem pathCost_cons (h : x.arc? p = some a) :
    pathCost getCost x (p :: ps) = getCost a.weight + pathCost getCost x ps := by
  unfold pathCost
  rw [Wfst.taken_cons h, map_cons, sum_cons]

theorem pathCost_append : pathCost getCost x (as ++ bs) = pathCost getCost x as + pathCost getCost x bs := by
  unfold pathCost Wfst.taken
  rw [filterMap_append, map_append, sum_append]

theorem pathCost_singleton (h : x.arc? p = some a) : pathCost getCost x [p] = getCost a.weight := by
  rw [pathCost_cons h, pathCost_nil, add_zero]

/-- A path at one of its arcs. -/
theorem Wfst.Path.split (h : x.Path s ps t) (hp : p ∈ ps) :
    ∃ as a bs, ps = as ++ p :: bs ∧ x.Path s as p.src ∧ x.arc? p = some a ∧ x.Path a.dest bs t := by
  induction h with
  | nil s => cases hp
  | @cons q qs b t hb hrest ih =>
    by_cases hpq : p = q
    · subst hpq
      exact ⟨[], b, qs, rfl, .nil _, hb, hrest⟩
    · obtain ⟨as, a, bs, rfl, has, ha, hbs⟩ := ih ((mem_cons.1 hp).resolve_left hpq)
      exact ⟨q :: as, a, bs, rfl, .cons hb has, ha, hbs⟩

/-! ## On the graph and the graph turned round -/

variable (getCost) in
theorem Wfst.Path.forward (h : x.Path s ps t) :
    ∃ q, (makeGraph getCost x.states).network.IsPath s q t ∧
      (makeGraph getCost x.states).network.cost q = pathCost getCost x ps := by
  induction h with
  | nil s => exact ⟨[], rfl, rfl⟩
  | @cons p ps a t ha _ ih =>
    obtain ⟨q, hq, hcost⟩ := ih
    refine ⟨⟨p.src, a.dest, getCost a.weight⟩ :: q, ⟨?_, rfl, hq⟩, ?_⟩
    · exact (mem_makeGraph getCost).2 ⟨a, mem_of_getElem? ha, rfl⟩
    · rw [Network.cost_cons, hcost, pathCost_cons ha]
      rfl

theorem path_of_forward {q : List (GraphArc (WithTop K))} : ∀ {s : Nat},
    (makeGraph getCost x.states).network.IsPath s q t →
      ∃ ps, x.Path s ps t ∧ pathCost getCost x ps = (makeGraph getCost x.states).network.cost q := by
  induction q with
  | nil =>
    rintro s rfl
    exact ⟨[], .nil s, rfl⟩
  | cons e q ih =>
    rintro s ⟨he, rfl, hq⟩
    obtain ⟨a, ha, heq⟩ := (mem_makeGraph getCost).1 he
    obtain ⟨i, hi⟩ := mem_iff_getElem?.1 ha
    change (makeGraph getCost x.states).network.IsPath e.dest q t at hq
    rw [show e.dest = a.dest by rw [heq]] at hq
    obtain ⟨ps, hps, hcost⟩ := ih hq
    refine ⟨⟨e.src, i⟩ :: ps, .cons (p := ⟨e.src, i⟩) hi hps, ?_⟩
    rw [pathCost_cons (p := ⟨e.src, i⟩) hi, hcost, Network.cost_cons]
    show _ = e.weight + _
    rw [heq]

variable (getCost) in
theorem Wfst.Path.backward (h : x.Path s ps t) :
    ∃ q, (reverseGraph (makeGraph getCost x.states)).network.IsPath t q s ∧
      (reverseGraph (makeGraph getCost x.states)).network.cost q = pathCost getCost x ps := by
  induction h with
  | nil s => exact ⟨[], rfl, rfl⟩
  | @cons p ps a t ha _ ih =>
    obtain ⟨q, hq, hcost⟩ := ih
    have harc : (⟨a.dest, p.src, getCost a.weight⟩ : GraphArc (WithTop K)) ∈
        (reverseGraph (makeGraph getCost x.states)).arcs a.dest :=
      mem_reverse_makeGraph.2 ⟨p.src, a, mem_of_getElem? ha, rfl, rfl⟩
    refine ⟨q ++ [⟨a.dest, p.src, getCost a.weight⟩], ?_, ?_⟩
    · rw [Network.isPath_concat]
      exact ⟨hq, harc, rfl⟩
    · rw [Network.cost_concat, hcost, pathCost_cons ha, add_comm]
      rfl

theorem path_of_backward {q : List (GraphArc (WithTop K))} : ∀ {t : Nat},
    (reverseGraph (makeGraph getCost x.states)).network.IsPath t q s →
      ∃ ps, x.Path s ps t ∧ pathCost getCost x ps = (reverseGraph (makeGraph getCost x.states)).network.cost q := by
  induction q with
  | nil =>
    rintro t rfl
    exact ⟨[], .nil t, rfl⟩
  | cons e q ih =>
    rintro t ⟨he, rfl, hq⟩
    obtain ⟨u, a, ha, hdest, heq⟩ := mem_reverse_makeGraph.1 he
    obtain ⟨i, hi⟩ := mem_iff_getElem?.1 ha
    change (reverseGraph (makeGraph getCost x.states)).network.IsPath e.dest q s at hq
    rw [show e.dest = u by rw [heq]] at hq
    obtain ⟨ps, hps, hcost⟩ := ih hq
    refine ⟨ps ++ [⟨u, i⟩], ?_, ?_⟩
    · have hsnoc := Wfst.Path.snoc (p := ⟨u, i⟩) hi hps
      rwa [hdest] at hsnoc
    · rw [pathCost_append, hcost, pathCost_singleton (p := ⟨u, i⟩) hi, Network.cost_cons, add_comm]
      show _ = e.weight + _
      rw [heq]

/-! ## The least costs -/

variable [LinearOrder K]

/-- `d` is the least cost of a path from `s`. -/
structure DistancesFrom (getCost : W → WithTop K) (x : Wfst W) (s : Nat) (d : Nat → WithTop K) : Prop where
  le : ∀ {v ps}, x.Path s ps v → d v ≤ pathCost getCost x ps
  attained : ∀ {v}, d v ≠ ⊤ → ∃ ps, x.Path s ps v ∧ pathCost getCost x ps = d v

/-- `d` is the least cost of a path to `t`. -/
structure DistancesTo (getCost : W → WithTop K) (x : Wfst W) (t : Nat) (d : Nat → WithTop K) : Prop where
  le : ∀ {v ps}, x.Path v ps t → d v ≤ pathCost getCost x ps
  attained : ∀ {v}, d v ≠ ⊤ → ∃ ps, x.Path v ps t ∧ pathCost getCost x ps = d v

variable [IsOrderedAddMonoid K]

theorem shortestDistancesFrom_forward (hw : ∀ s, ∀ a ∈ x.arcs s, 0 ≤ getCost a.weight) (hs : s < x.numStates) :
    ∃ st, shortestDistancesFrom (makeGraph getCost x.states) s = some st ∧ DistancesFrom getCost x s st.dist := by
  have hnonneg : ∀ u, ∀ e ∈ (makeGraph getCost x.states).arcs u, 0 ≤ e.weight := by
    intro u e he
    obtain ⟨a, ha, rfl⟩ := (mem_makeGraph getCost).1 he
    exact hw u a ha
  have hlt : s < (makeGraph getCost x.states).length := by
    rw [makeGraph_length]
    exact hs
  obtain ⟨st, S, hrun, h, hrest⟩ := shortestDistancesFrom_spec (makeGraph_wellFormed getCost) hnonneg hlt
  refine ⟨st, hrun, ?_, ?_⟩
  · intro v ps hps
    obtain ⟨q, hq, hcost⟩ := hps.forward getCost
    rw [← hcost]
    exact h.le_cost hrest hq
  · intro v hv
    obtain ⟨q, hq, hall⟩ := h.exists_path hrest hv
    obtain ⟨ps, hps, hcost⟩ := path_of_forward hq
    exact ⟨ps, hps, hcost.trans (h.cost_eq hq hall)⟩

theorem shortestDistancesFrom_backward (hw : ∀ s, ∀ a ∈ x.arcs s, 0 ≤ getCost a.weight) (ht : t < x.numStates) :
    ∃ st, shortestDistancesFrom (reverseGraph (makeGraph getCost x.states)) t = some st ∧
      DistancesTo getCost x t st.dist := by
  have hnonneg : ∀ u, ∀ e ∈ (reverseGraph (makeGraph getCost x.states)).arcs u, 0 ≤ e.weight := by
    intro u e he
    obtain ⟨v, a, ha, -, rfl⟩ := mem_reverse_makeGraph.1 he
    exact hw v a ha
  have hlt : t < (reverseGraph (makeGraph getCost x.states)).length := by
    rw [reverseGraph_length, makeGraph_length]
    exact ht
  obtain ⟨st, S, hrun, h, hrest⟩ := shortestDistancesFrom_spec (reverseGraph_wellFormed getCost) hnonneg hlt
  refine ⟨st, hrun, ?_, ?_⟩
  · intro v ps hps
    obtain ⟨q, hq, hcost⟩ := hps.backward getCost
    rw [← hcost]
    exact h.le_cost hrest hq
  · intro v hv
    obtain ⟨q, hq, hall⟩ := h.exists_path hrest hv
    obtain ⟨ps, hps, hcost⟩ := path_of_backward hq
    exact ⟨ps, hps, hcost.trans (h.cost_eq hq hall)⟩

/-! ## Through a state, through an arc -/

/-- Where an accepting path costs something finite, one with `P` costs no more than that and `slack`. -/
def Near (getCost : W → WithTop K) (x : Wfst W) (slack : WithTop K) (P : List ArcPtr → Prop) : Prop :=
  ∀ qs, x.Accepting qs → pathCost getCost x qs + slack ≠ ⊤ →
    ∃ ps, x.Accepting ps ∧ P ps ∧ pathCost getCost x ps ≤ pathCost getCost x qs + slack

def PassesBy (x : Wfst W) (s : Nat) (ps : List ArcPtr) : Prop :=
  ∃ as bs, ps = as ++ bs ∧ x.Path 0 as s ∧ x.Path s bs x.final

section

variable {f r : Nat → WithTop K} (hf : DistancesFrom getCost x 0 f) (hr : DistancesTo getCost x x.final r)
  {slack : WithTop K}

omit [IsOrderedAddMonoid K] in
include hf in
theorem best_le (h : x.Accepting ps) : f x.final ≤ pathCost getCost x ps := hf.le h

include hf hr

theorem through_le (h : PassesBy x s ps) : f s + r s ≤ pathCost getCost x ps := by
  obtain ⟨as, bs, rfl, has, hbs⟩ := h
  rw [pathCost_append]
  exact add_le_add (hf.le has) (hr.le hbs)

section
omit [IsOrderedAddMonoid K]

theorem through_attained (h : f s + r s ≠ ⊤) :
    ∃ ps, x.Accepting ps ∧ PassesBy x s ps ∧ pathCost getCost x ps = f s + r s := by
  obtain ⟨hfs, hrs⟩ := WithTop.add_ne_top.1 h
  obtain ⟨as, has, hcas⟩ := hf.attained hfs
  obtain ⟨bs, hbs, hcbs⟩ := hr.attained hrs
  exact ⟨as ++ bs, has.append hbs, ⟨as, bs, rfl, has, hbs⟩, by rw [pathCost_append, hcas, hcbs]⟩

theorem best_le_through (s : Nat) : f x.final ≤ f s + r s := by
  by_cases htop : f s + r s = ⊤
  · rw [htop]
    exact le_top
  · obtain ⟨ps, hps, -, hcost⟩ := through_attained hf hr htop
    rw [← hcost]
    exact best_le hf hps

end

omit [IsOrderedAddMonoid K] hr in
theorem best_attained (h : f x.final ≠ ⊤) : ∃ ps, x.Accepting ps ∧ pathCost getCost x ps = f x.final := hf.attained h

theorem arc_le (h : x.Accepting ps) (hp : p ∈ ps) (ha : x.arc? p = some a) :
    getCost a.weight + f p.src + r a.dest ≤ pathCost getCost x ps := by
  obtain ⟨as, b, bs, rfl, has, hb, hbs⟩ := h.split hp
  obtain rfl := Option.mem_unique ha hb
  rw [pathCost_append, pathCost_cons ha, add_comm (getCost a.weight) (f p.src), add_assoc]
  exact add_le_add (hf.le has) (add_le_add le_rfl (hr.le hbs))

omit [IsOrderedAddMonoid K] in
theorem arc_attained (ha : x.arc? p = some a) (h : getCost a.weight + f p.src + r a.dest ≠ ⊤) :
    ∃ ps, x.Accepting ps ∧ p ∈ ps ∧ pathCost getCost x ps = getCost a.weight + f p.src + r a.dest := by
  obtain ⟨hfst, hrs⟩ := WithTop.add_ne_top.1 h
  obtain ⟨as, has, hcas⟩ := hf.attained (WithTop.add_ne_top.1 hfst).2
  obtain ⟨bs, hbs, hcbs⟩ := hr.attained hrs
  refine ⟨as ++ p :: bs, has.append (.cons ha hbs), mem_append_right _ mem_cons_self, ?_⟩
  rw [pathCost_append, pathCost_cons ha, hcas, hcbs, add_comm (getCost a.weight) (f p.src), add_assoc]

omit hr in
/-- What is near the best path costs no more than that and the slack. -/
theorem near_iff {P : List ArcPtr → Prop} {c : WithTop K} (hle : ∀ ps, x.Accepting ps → P ps → c ≤ pathCost getCost x ps)
    (hatt : c ≠ ⊤ → ∃ ps, x.Accepting ps ∧ P ps ∧ pathCost getCost x ps = c) :
    Near getCost x slack P ↔ c ≤ f x.final + slack := by
  constructor
  · intro h
    by_cases htop : f x.final + slack = ⊤
    · rw [htop]
      exact le_top
    · obtain ⟨qs, hqs, hcost⟩ := best_attained hf (WithTop.add_ne_top.1 htop).1
      obtain ⟨ps, hps, hP, hcps⟩ := h qs hqs (by rwa [hcost])
      rw [hcost] at hcps
      exact (hle ps hps hP).trans hcps
  · intro h qs hqs htop
    have hbound : c ≤ pathCost getCost x qs + slack := h.trans (add_le_add (best_le hf hqs) le_rfl)
    obtain ⟨ps, hps, hP, hcost⟩ := hatt (ne_top_of_le_ne_top htop hbound)
    exact ⟨ps, hps, hP, hcost.trans_le hbound⟩

theorem near_state_iff : Near getCost x slack (PassesBy x s) ↔ f s + r s ≤ f x.final + slack :=
  near_iff hf (fun _ _ h => through_le hf hr h) (through_attained hf hr)

theorem near_arc_iff (ha : x.arc? p = some a) :
    Near getCost x slack (p ∈ ·) ↔ getCost a.weight + f p.src + r a.dest ≤ f x.final + slack :=
  near_iff hf (fun _ h hp => arc_le hf hr h hp ha) (arc_attained hf hr ha)

/-- A state that every accepting path passes by. -/
theorem through_eq_best (h : ∀ ps, x.Accepting ps → PassesBy x s ps) : f s + r s = f x.final := by
  refine le_antisymm ?_ (best_le_through hf hr s)
  by_cases htop : f x.final = ⊤
  · rw [htop]
    exact le_top
  · obtain ⟨ps, hps, hcost⟩ := best_attained hf htop
    rw [← hcost]
    exact through_le hf hr (h ps hps)

end

theorem passesBy_start (h : x.Accepting ps) : PassesBy x 0 ps := ⟨[], ps, rfl, .nil 0, h⟩

end Sbmt.Carmel
