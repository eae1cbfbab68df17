import Sbmt.Lib.Numbering
import Sbmt.Lib.TopoSort

/-!
# Sums over the walks of a graph without cycles

Weights pushed along the edges in a topological order, `to += from * w`, solve the
equations of the forward sums (`push_eq`); pushed back along them, those of the
backward sums. Any two solutions give the sums over the walks (`forward_backward`):
the weight of all walks, and for every label the weight of the walks times how often
they use it. The forward solution is never told apart into walks: it is dual to the
backward one.
-/

namespace Sbmt.Lib

open List Function

variable {V L W : Type*}

/-! ## Pushing weights along edges -/

section Push

variable [DecidableEq V] [NonUnitalNonAssocSemiring W] (wt : L → W)

def pushEdge (w : V → W) (e : Edge V L) : V → W := update w e.dest (w e.dest + w e.src * wt e.label)

/-- Along one edge after the other. -/
def push (w : V → W) (es : List (Edge V L)) : V → W := es.foldl (pushEdge wt) w

/-- No edge leads to where it or an earlier edge comes from. -/
structure InOrder (es : List (Edge V L)) : Prop where
  later : es.Pairwise fun e e' => e'.dest ≠ e.src
  own : ∀ e ∈ es, e.dest ≠ e.src

/-- What comes in at a node. -/
def incoming (w : V → W) (es : List (Edge V L)) (v : V) : W :=
  ((es.filter fun e => e.dest = v).map fun e => w e.src * wt e.label).sum

variable {wt}

variable {es : List (Edge V L)} {w : V → W}

theorem push_of_ne {v : V} (h : ∀ e ∈ es, e.dest ≠ v) : push wt w es v = w v := by
  induction es generalizing w with
  | nil => rfl
  | cons e es ih =>
    show push wt (pushEdge wt w e) es v = w v
    rw [ih fun e' he' => h e' (mem_cons_of_mem _ he')]
    exact update_of_ne (h e (mem_cons_self ..)).symm _ _

theorem push_nil (w : V → W) : push wt w [] = w := rfl

theorem push_append (w : V → W) (es es' : List (Edge V L)) : push wt w (es ++ es') = push wt (push wt w es) es' :=
  foldl_append ..

theorem push_flatMap {α : Type*} (w : V → W) (f : α → List (Edge V L)) (xs : List α) :
    push wt w (xs.flatMap f) = xs.foldl (fun w x => push wt w (f x)) w := by
  induction xs generalizing w with
  | nil => rfl
  | cons x xs ih => rw [flatMap_cons, push_append, ih, foldl_cons]

/-- From zeros nothing is pushed. -/
theorem push_zero (h : ∀ e ∈ es, w e.src = 0) : push wt w es = w := by
  induction es with
  | nil => rfl
  | cons e es ih =>
    have hedge : pushEdge wt w e = w := by
      unfold pushEdge
      rw [h e (mem_cons_self ..), zero_mul, add_zero, update_eq_self]
    show push wt (pushEdge wt w e) es = w
    rw [hedge, ih fun e' he' => h e' (mem_cons_of_mem _ he')]

/-- **After the push a node has what it had and what comes in**, the sources as they
are in the end. -/
theorem push_eq (h : InOrder es) (v : V) : push wt w es v = w v + incoming wt (push wt w es) es v := by
  induction es generalizing w with
  | nil => exact (add_zero _).symm
  | cons e es ih =>
    obtain ⟨hlater, hrest⟩ := pairwise_cons.1 h.later
    have hown := h.own e (mem_cons_self ..)
    have ih' := ih (w := pushEdge wt w e) ⟨hrest, fun e' he' => h.own e' (mem_cons_of_mem _ he')⟩
    -- nothing reaches the source of `e` any more
    have hsrc : push wt w (e :: es) e.src = w e.src := by
      apply push_of_ne
      intro e' he'
      rcases mem_cons.1 he' with rfl | he'
      · exact hown
      · exact hlater e' he'
    have hpush : push wt w (e :: es) = push wt (pushEdge wt w e) es := rfl
    unfold incoming
    by_cases hv : e.dest = v
    · rw [filter_cons_of_pos (by simpa using hv), map_cons, hsrc, hpush, ih']
      subst hv
      unfold pushEdge
      rw [update_self, add_assoc]
      rfl
    · rw [filter_cons_of_neg (by simpa using hv), hpush, ih']
      unfold pushEdge
      rw [update_of_ne (Ne.symm hv)]
      rfl

end Push

/-! ## Adding up by label -/

section Deposit

variable [DecidableEq L] [AddCommMonoid W] (c : L → W)

/-- Each amount is added to what its label has. -/
def deposit (amounts : List (L × W)) : L → W :=
  amounts.foldl (fun c a => update c a.1 (c a.1 + a.2)) c

theorem deposit_eq (amounts : List (L × W)) (l : L) :
    deposit c amounts l = c l + ((amounts.filter fun a => a.1 = l).map Prod.snd).sum := by
  induction amounts generalizing c with
  | nil => exact (add_zero _).symm
  | cons a amounts ih =>
    show deposit (update c a.1 (c a.1 + a.2)) amounts l = _
    rw [ih]
    by_cases hl : a.1 = l
    · rw [filter_cons_of_pos (by simpa using hl), map_cons, sum_cons, ← hl, update_self, add_assoc]
    · rw [filter_cons_of_neg (by simpa using hl), update_of_ne (Ne.symm hl)]

theorem deposit_append (as bs : List (L × W)) : deposit c (as ++ bs) = deposit (deposit c as) bs :=
  foldl_append ..

theorem deposit_flatMap {α : Type*} (f : α → List (L × W)) (xs : List α) :
    deposit c (xs.flatMap f) = xs.foldl (fun c x => deposit c (f x)) c := by
  induction xs generalizing c with
  | nil => rfl
  | cons x xs ih => rw [flatMap_cons, deposit_append, ih, foldl_cons]

end Deposit

/-! ## Walks of an acyclic graph -/

section Walks

variable {succ : V → List (L × V)} {goal : V}

/-- The walks to the goal. -/
def walks (succ : V → List (L × V)) (goal v : V) : Set (List (Edge V L)) := {es | Walk succ v es goal}

/-- The walks that begin with one of these steps. -/
def walksBy (succ : V → List (L × V)) (goal v : V) (ps : List (L × V)) : Set (List (Edge V L)) :=
  {es | ∃ p ∈ ps, ∃ fs ∈ walks succ goal p.2, es = ⟨v, p.1, p.2⟩ :: fs}

theorem walksBy_cons (v : V) (p : L × V) (ps : List (L × V)) :
    walksBy succ goal v (p :: ps) = List.cons ⟨v, p.1, p.2⟩ '' walks succ goal p.2 ∪ walksBy succ goal v ps := by
  ext es
  constructor
  · rintro ⟨q, hq, fs, hfs, rfl⟩
    rcases mem_cons.1 hq with rfl | hq
    · exact .inl ⟨fs, hfs, rfl⟩
    · exact .inr ⟨q, hq, fs, hfs, rfl⟩
  · rintro (⟨fs, hfs, rfl⟩ | ⟨q, hq, fs, hfs, rfl⟩)
    · exact ⟨p, mem_cons_self .., fs, hfs, rfl⟩
    · exact ⟨q, mem_cons_of_mem _ hq, fs, hfs, rfl⟩

theorem walks_eq [DecidableEq V] (v : V) :
    walks succ goal v = (if v = goal then {[]} else ∅) ∪ walksBy succ goal v (succ v) := by
  ext es
  constructor
  · intro hes
    obtain ⟨u, hu⟩ : ∃ u, u = goal := ⟨goal, rfl⟩
    have hwalk : Walk succ v es goal := hes
    rw [← hu] at hwalk
    cases hwalk with
    | nil =>
      rw [if_pos hu]
      exact .inl rfl
    | cons hmem hrest =>
      subst hu
      exact .inr ⟨_, hmem, _, hrest, rfl⟩
  · rintro (hes | ⟨p, hp, fs, hfs, rfl⟩)
    · split at hes
      · rename_i hv
        obtain rfl : es = [] := hes
        subst hv
        exact .nil v
      · exact absurd hes (Set.notMem_empty _)
    · exact .cons hp hfs

/-- Where the steps lead. -/
def steps (succ : V → List (L × V)) (v : V) : List V := (succ v).map Prod.snd

theorem mem_steps {v u : V} : u ∈ steps succ v ↔ ∃ l, (l, u) ∈ succ v := by
  unfold steps
  simp

variable {ord : List V}

section

theorem finite_walksBy {v : V} {ps : List (L × V)} (h : ∀ p ∈ ps, (walks succ goal p.2).Finite) :
    (walksBy succ goal v ps).Finite := by
  induction ps with
  | nil =>
    refine Set.Finite.subset Set.finite_empty ?_
    rintro es ⟨p, hp, -⟩
    cases hp
  | cons p ps ih =>
    rw [walksBy_cons]
    exact ((h p (mem_cons_self ..)).image _).union (ih fun q hq => h q (mem_cons_of_mem _ hq))

variable (hord : TopoSort.Sorted (steps succ) ord)
include hord

/-- The edges of the nodes of a sorted list. -/
theorem inOrder_of_sorted : InOrder (ord.flatMap fun v => (succ v).map fun p => (⟨v, p.1, p.2⟩ : Edge V L)) := by
  have hedge : ∀ {v : V} {e : Edge V L}, e ∈ (succ v).map (fun p => (⟨v, p.1, p.2⟩ : Edge V L)) →
      e.src = v ∧ e.dest ∈ steps succ v := by
    intro v e he
    obtain ⟨p, hp, rfl⟩ := mem_map.1 he
    exact ⟨rfl, mem_steps.2 ⟨p.1, hp⟩⟩
  constructor
  · refine pairwise_flatMap.2 ⟨?_, ?_⟩
    · intro v hv
      refine pairwise_of_forall_mem_list fun e he e' he' heq => hord.irrefl v hv ?_
      have hstep := (hedge he').2
      rwa [heq, (hedge he).1] at hstep
    · refine hord.pairwise.imp ?_
      intro v v' hne e he e' he' heq
      have hstep := (hedge he').2
      rw [heq, (hedge he).1] at hstep
      exact hne hstep
  · intro e he heq
    obtain ⟨v, hv, he⟩ := mem_flatMap.1 he
    have hstep := (hedge he).2
    rw [heq, (hedge he).1] at hstep
    exact hord.irrefl v hv hstep

/-- The edges back from the nodes of a sorted list, the last node first. -/
theorem inOrder_of_sorted_reverse {pred : V → List (L × V)} (hpred : ∀ u, ∀ p ∈ pred u, (p.1, u) ∈ succ p.2) :
    InOrder (ord.reverse.flatMap fun u => (pred u).map fun p => (⟨u, p.1, p.2⟩ : Edge V L)) := by
  have hedge : ∀ {u : V} {e : Edge V L}, e ∈ (pred u).map (fun p => (⟨u, p.1, p.2⟩ : Edge V L)) →
      e.src = u ∧ u ∈ steps succ e.dest := by
    intro u e he
    obtain ⟨p, hp, rfl⟩ := mem_map.1 he
    exact ⟨rfl, mem_steps.2 ⟨p.1, hpred u p hp⟩⟩
  constructor
  · refine pairwise_flatMap.2 ⟨?_, ?_⟩
    · intro u hu
      refine pairwise_of_forall_mem_list fun e he e' he' heq => hord.irrefl u (mem_reverse.1 hu) ?_
      have hstep := (hedge he').2
      rwa [heq, (hedge he).1] at hstep
    · refine (pairwise_reverse.2 hord.pairwise).imp ?_
      intro u u' hne e he e' he' heq
      have hstep := (hedge he').2
      rw [heq, (hedge he).1] at hstep
      exact hne hstep
  · intro e he heq
    obtain ⟨u, hu, he⟩ := mem_flatMap.1 he
    have hstep := (hedge he).2
    rw [heq, (hedge he).1] at hstep
    exact hord.irrefl u (mem_reverse.1 hu) hstep

theorem finite_walks [DecidableEq V] : ∀ v ∈ ord, (walks succ goal v).Finite := by
  refine hord.induction ?_
  intro v _ hsteps
  rw [walks_eq]
  refine Set.Finite.union ?_ (finite_walksBy fun p hp => hsteps p.2 (mem_steps.2 ⟨p.1, hp⟩))
  split
  · exact Set.finite_singleton _
  · exact Set.finite_empty

end

/-! ## Sums over walks -/

variable [AddCommMonoid W]

theorem finsum_walksBy (v : V) {ps : List (L × V)} (hps : ps.Nodup) (hfin : ∀ p ∈ ps, (walks succ goal p.2).Finite)
    (h : List (Edge V L) → W) : ∑ᶠ es ∈ walksBy succ goal v ps, h es =
      (ps.map fun p => ∑ᶠ es ∈ walks succ goal p.2, h (⟨v, p.1, p.2⟩ :: es)).sum := by
  induction ps with
  | nil =>
    have hempty : walksBy succ goal v [] = ∅ := by
      ext es
      constructor
      · rintro ⟨p, hp, -⟩
        cases hp
      · intro hes
        exact absurd hes (Set.notMem_empty _)
    rw [hempty, finsum_mem_empty]
    rfl
  | cons p ps ih =>
    obtain ⟨hfresh, hps⟩ := nodup_cons.1 hps
    have hrest : ∀ q ∈ ps, (walks succ goal q.2).Finite := fun q hq => hfin q (mem_cons_of_mem _ hq)
    have hdisjoint : Disjoint (List.cons ⟨v, p.1, p.2⟩ '' walks succ goal p.2) (walksBy succ goal v ps) := by
      rw [Set.disjoint_left]
      rintro es ⟨fs, -, rfl⟩ ⟨q, hq, fs', -, heq⟩
      obtain ⟨-, hlabel, hdest⟩ := Edge.mk.inj (List.cons.inj heq).1
      exact hfresh (Prod.ext hlabel hdest ▸ hq)
    rw [walksBy_cons, finsum_mem_union hdisjoint ((hfin p (mem_cons_self ..)).image _) (finite_walksBy hrest),
      finsum_mem_image cons_injective.injOn, ih hps hrest, map_cons, sum_cons]

theorem finsum_walks [DecidableEq V] {v : V} (hsucc : (succ v).Nodup) (hfin : ∀ p ∈ succ v, (walks succ goal p.2).Finite)
    (h : List (Edge V L) → W) : ∑ᶠ es ∈ walks succ goal v, h es =
      (if v = goal then h [] else 0) +
        ((succ v).map fun p => ∑ᶠ es ∈ walks succ goal p.2, h (⟨v, p.1, p.2⟩ :: es)).sum := by
  have hdisjoint : Disjoint (if v = goal then {[]} else ∅ : Set (List (Edge V L))) (walksBy succ goal v (succ v)) := by
    rw [Set.disjoint_left]
    rintro es hes ⟨p, -, fs, -, rfl⟩
    split at hes
    · cases hes
    · exact absurd hes (Set.notMem_empty _)
  have hfirst : (if v = goal then {[]} else ∅ : Set (List (Edge V L))).Finite := by
    split
    · exact Set.finite_singleton _
    · exact Set.finite_empty
  rw [walks_eq, finsum_mem_union hdisjoint hfirst (finite_walksBy hfin), finsum_walksBy v hsucc hfin]
  congr 1
  split
  · exact finsum_mem_singleton
  · exact finsum_mem_empty

end Walks

/-! ## The equations of the two directions -/

section Equations

variable [DecidableEq V] [CommSemiring W] {succ : V → List (L × V)} {wt : L → W} {nodes : Finset V} {start goal : V}

/-- What comes in at `v` from all nodes. -/
def inflow (succ : V → List (L × V)) (wt : L → W) (nodes : Finset V) (F : V → W) (v : V) : W :=
  ∑ u ∈ nodes, (((succ u).filter fun p => p.2 = v).map fun p => F u * wt p.1).sum

/-- What comes back to `v` from where it leads. -/
def outflow (succ : V → List (L × V)) (wt : L → W) (B : V → W) (v : V) : W :=
  ((succ v).map fun p => B p.2 * wt p.1).sum

def Forward (succ : V → List (L × V)) (wt : L → W) (nodes : Finset V) (start : V) (F : V → W) : Prop :=
  ∀ v ∈ nodes, F v = (if v = start then 1 else 0) + inflow succ wt nodes F v

def Backward (succ : V → List (L × V)) (wt : L → W) (nodes : Finset V) (goal : V) (B : V → W) : Prop :=
  ∀ v ∈ nodes, B v = (if v = goal then 1 else 0) + outflow succ wt B v

/-- A finite graph without cycles, the steps of a node all different. -/
structure Dag (succ : V → List (L × V)) (nodes : Finset V) : Prop where
  closed : ∀ v ∈ nodes, ∀ p ∈ succ v, p.2 ∈ nodes
  nodup : ∀ v ∈ nodes, (succ v).Nodup
  sorted : ∃ ord, TopoSort.Sorted (steps succ) ord ∧ ∀ v ∈ nodes, v ∈ ord

theorem Dag.finite (h : Dag succ nodes) : ∀ v ∈ nodes, (walks succ goal v).Finite := by
  obtain ⟨ord, hord, hcover⟩ := h.sorted
  intro v hv
  exact finite_walks hord v (hcover v hv)

omit [DecidableEq V] in
theorem Dag.induction (h : Dag succ nodes) {P : V → Prop}
    (step : ∀ v ∈ nodes, (∀ p ∈ succ v, P p.2) → P v) : ∀ v ∈ nodes, P v := by
  obtain ⟨ord, hord, hcover⟩ := h.sorted
  have hall : ∀ v ∈ ord, v ∈ nodes → P v := by
    refine hord.induction ?_
    intro v _ hsteps hv
    refine step v hv fun p hp => ?_
    exact hsteps p.2 (mem_steps.2 ⟨p.1, hp⟩) (h.closed v hv p hp)
  intro v hv
  exact hall v (hcover v hv) hv

/-- The weight of a walk. -/
def walkWeight (wt : L → W) (es : List (Edge V L)) : W := (es.map fun e => wt e.label).prod

omit [DecidableEq V] in
theorem walkWeight_cons (e : Edge V L) (es : List (Edge V L)) :
    walkWeight wt (e :: es) = wt e.label * walkWeight wt es := by
  unfold walkWeight
  rw [map_cons, prod_cons]

/-- How often a walk uses a label. -/
def uses [DecidableEq L] (l : L) (es : List (Edge V L)) : Nat := (es.map Edge.label).count l

/-- A push over the edges of all nodes solves the forward equations. -/
theorem Forward.of_push (h : Dag succ nodes) {w : V → W} {es : List (Edge V L)} (hin : InOrder es) (hnodup : es.Nodup)
    (hedges : ∀ e, e ∈ es ↔ e.src ∈ nodes ∧ (e.label, e.dest) ∈ succ e.src)
    (hw : ∀ v ∈ nodes, w v = if v = start then 1 else 0) : Forward succ wt nodes start (push wt w es) := by
  intro v hv
  rw [push_eq hin v, hw v hv]
  have hperm : (es.filter fun e => e.dest = v).Perm
      (nodes.toList.flatMap fun u => ((succ u).filter fun p => p.2 = v).map fun p => ⟨u, p.1, v⟩) := by
    refine (perm_ext_iff_of_nodup (hnodup.filter _) ?_).2 ?_
    · refine nodup_flatMap.2 ⟨?_, (Finset.nodup_toList nodes).imp ?_⟩
      · intro u hu
        refine ((h.nodup u (Finset.mem_toList.1 hu)).filter _).map_on ?_
        intro p hp q hq heq
        have hp2 : p.2 = v := by simpa using (mem_filter.1 hp).2
        have hq2 : q.2 = v := by simpa using (mem_filter.1 hq).2
        exact Prod.ext (congrArg Edge.label heq) (hp2.trans hq2.symm)
      · intro u u' hne e he he'
        obtain ⟨p, -, rfl⟩ := mem_map.1 he
        obtain ⟨q, -, heq⟩ := mem_map.1 he'
        exact hne (congrArg Edge.src heq).symm
    · intro e
      rw [mem_filter, hedges, mem_flatMap]
      simp only [mem_map, mem_filter, decide_eq_true_eq, Finset.mem_toList]
      constructor
      · rintro ⟨⟨hsrc, hmem⟩, rfl⟩
        exact ⟨e.src, hsrc, (e.label, e.dest), ⟨hmem, rfl⟩, rfl⟩
      · rintro ⟨u, hu, p, ⟨hp, rfl⟩, rfl⟩
        exact ⟨⟨hu, hp⟩, rfl⟩
  unfold incoming
  rw [(hperm.map _).sum_eq, map_flatMap, flatMap_def, sum_flatten]
  unfold inflow
  rw [← Finset.sum_map_toList]
  simp only [map_map, comp_def]

/-- A push against the edges, in a copy `ρ` of the nodes, solves the backward equations. -/
theorem Backward.of_push (h : Dag succ nodes) {w : V → W} {es : List (Edge V L)} (hin : InOrder es) (hnodup : es.Nodup)
    (ρ : V → V) (hρ : Set.InjOn ρ nodes) (hedges : ∀ v ∈ nodes, ∀ u l, ⟨u, l, ρ v⟩ ∈ es ↔ ∃ t, (l, t) ∈ succ v ∧ u = ρ t)
    (hw : ∀ v ∈ nodes, w (ρ v) = if v = goal then 1 else 0) :
    Backward succ wt nodes goal fun v => push wt w es (ρ v) := by
  intro v hv
  show push wt w es (ρ v) = _
  rw [push_eq hin (ρ v), hw v hv]
  have hperm : (es.filter fun e => e.dest = ρ v).Perm ((succ v).map fun p => ⟨ρ p.2, p.1, ρ v⟩) := by
    refine (perm_ext_iff_of_nodup (hnodup.filter _) ?_).2 ?_
    · refine (h.nodup v hv).map_on ?_
      intro p hp q hq heq
      exact Prod.ext (congrArg Edge.label heq)
        (hρ (h.closed v hv p hp) (h.closed v hv q hq) (congrArg Edge.src heq))
    · intro e
      rw [mem_filter, mem_map, decide_eq_true_eq]
      constructor
      · rintro ⟨hmem, hdest⟩
        obtain ⟨src, label, dest⟩ := e
        subst hdest
        obtain ⟨t, ht, rfl⟩ := (hedges v hv src label).1 hmem
        exact ⟨(label, t), ht, rfl⟩
      · rintro ⟨p, hp, rfl⟩
        exact ⟨(hedges v hv _ _).2 ⟨p.2, hp, rfl⟩, rfl⟩
  unfold incoming
  rw [(hperm.map _).sum_eq, map_map]
  rfl

variable {B : V → W}

theorem Dag.finite_step (h : Dag succ nodes) (hv : v ∈ nodes) : ∀ p ∈ succ v, (walks succ goal p.2).Finite :=
  fun p hp => h.finite p.2 (h.closed v hv p hp)

/-- The backward sums are the weights of the walks to the goal. -/
theorem Backward.eq_finsum (h : Dag succ nodes) (hB : Backward succ wt nodes goal B) :
    ∀ v ∈ nodes, B v = ∑ᶠ es ∈ walks succ goal v, walkWeight wt es := by
  refine h.induction ?_
  intro v hv hsteps
  rw [hB v hv, finsum_walks (h.nodup v hv) (h.finite_step hv)]
  congr 1
  unfold outflow
  congr 1
  apply map_congr_left
  intro p hp
  rw [hsteps p hp, mul_comm, mul_finsum_mem' _ _ (h.finite_step hv p hp)]
  exact finsum_mem_congr rfl fun es _ => (walkWeight_cons ⟨v, p.1, p.2⟩ es).symm

/-- Summing by destination is summing. -/
theorem sum_filter_dest {ps : List (L × V)} (hps : ∀ p ∈ ps, p.2 ∈ nodes) (h : L × V → V → W) :
    ∑ v ∈ nodes, ((ps.filter fun p => p.2 = v).map fun p => h p v).sum = (ps.map fun p => h p p.2).sum := by
  induction ps with
  | nil => simp
  | cons p ps ih =>
    have hsplit : ∀ v, (((p :: ps).filter fun p => p.2 = v).map fun p => h p v).sum =
        (if p.2 = v then h p v else 0) + ((ps.filter fun p => p.2 = v).map fun p => h p v).sum := by
      intro v
      by_cases hv : p.2 = v
      · rw [filter_cons_of_pos (by simpa using hv), map_cons, sum_cons, if_pos hv]
      · rw [filter_cons_of_neg (by simpa using hv), if_neg hv, zero_add]
    rw [Finset.sum_congr rfl fun v _ => hsplit v, Finset.sum_add_distrib,
      ih fun q hq => hps q (mem_cons_of_mem _ hq), Finset.sum_ite_eq, if_pos (hps p (mem_cons_self ..)),
      map_cons, sum_cons]

variable {F : V → W}

/-- **The forward sums are dual to the backward ones**: a solution of the backward
equations with any source term has at the start what the forward sums make of the
source. -/
theorem Forward.dual [IsCancelAdd W] (h : Dag succ nodes) (hF : Forward succ wt nodes start F)
    (hstart : start ∈ nodes) {X g : V → W} (hX : ∀ v ∈ nodes, X v = g v + outflow succ wt X v) :
    X start = ∑ v ∈ nodes, F v * g v := by
  have hback : ∑ v ∈ nodes, F v * X v = ∑ v ∈ nodes, F v * g v + ∑ v ∈ nodes, F v * outflow succ wt X v := by
    rw [← Finset.sum_add_distrib]
    refine Finset.sum_congr rfl fun v hv => ?_
    rw [hX v hv, mul_add]
  have hflow : ∑ v ∈ nodes, inflow succ wt nodes F v * X v = ∑ u ∈ nodes, F u * outflow succ wt X u := by
    unfold inflow outflow
    simp only [Finset.sum_mul]
    rw [Finset.sum_comm]
    refine Finset.sum_congr rfl fun u hu => ?_
    simp only [← sum_map_mul_right, ← sum_map_mul_left]
    rw [sum_filter_dest (h.closed u hu) fun p v => F u * wt p.1 * X v]
    congr 1
    apply map_congr_left
    intro p _
    rw [mul_assoc, mul_comm (wt p.1)]
  have hforth : ∑ v ∈ nodes, F v * X v = X start + ∑ v ∈ nodes, inflow succ wt nodes F v * X v := by
    have hsplit : ∀ v ∈ nodes, F v * X v = (if v = start then X v else 0) + inflow succ wt nodes F v * X v := by
      intro v hv
      rw [hF v hv, add_mul, ite_mul, one_mul, zero_mul]
    rw [Finset.sum_congr rfl hsplit, Finset.sum_add_distrib, Finset.sum_ite_eq', if_pos hstart]
  rw [hflow, hback, add_comm (X start)] at hforth
  exact (add_left_cancel (a := ∑ v ∈ nodes, F v * outflow succ wt X v) ((add_comm _ _).trans hforth)).symm

/-- The forward sum at the goal is the weight of all walks. -/
theorem Forward.at_goal [IsCancelAdd W] (h : Dag succ nodes) (hF : Forward succ wt nodes start F)
    (hstart : start ∈ nodes) (hgoal : goal ∈ nodes) : F goal = ∑ᶠ es ∈ walks succ goal start, walkWeight wt es := by
  have hX : ∀ v ∈ nodes, ∑ᶠ es ∈ walks succ goal v, walkWeight wt es =
      (if v = goal then 1 else 0) + outflow succ wt (fun u => ∑ᶠ es ∈ walks succ goal u, walkWeight wt es) v := by
    intro v hv
    rw [finsum_walks (h.nodup v hv) (h.finite_step hv)]
    congr 1
    congr 1
    apply map_congr_left
    intro p hp
    rw [mul_comm, mul_finsum_mem' _ _ (h.finite_step hv p hp)]
    exact finsum_mem_congr rfl fun es _ => walkWeight_cons ⟨v, p.1, p.2⟩ es
  rw [hF.dual h hstart (X := fun v => ∑ᶠ es ∈ walks succ goal v, walkWeight wt es) hX]
  simp only [mul_ite, mul_one, mul_zero, Finset.sum_ite_eq', if_pos hgoal]

/-! ## How often a label is used -/

variable [DecidableEq L]

/-- The weight of the walks from `v` times how often they use `l`. -/
noncomputable def usage (succ : V → List (L × V)) (wt : L → W) (goal : V) (l : L) (v : V) : W :=
  ∑ᶠ es ∈ walks succ goal v, walkWeight wt es * (uses l es : W)

/-- The uses in the first step. -/
def stepUsage (succ : V → List (L × V)) (wt : L → W) (B : V → W) (l : L) (v : V) : W :=
  (((succ v).filter fun p => p.1 = l).map fun p => wt p.1 * B p.2).sum

theorem usage_eq (h : Dag succ nodes) (hB : Backward succ wt nodes goal B) (l : L) :
    ∀ v ∈ nodes, usage succ wt goal l v = stepUsage succ wt B l v + outflow succ wt (usage succ wt goal l) v := by
  intro v hv
  have hstep : ∀ p ∈ succ v, ∑ᶠ es ∈ walks succ goal p.2,
      walkWeight wt (⟨v, p.1, p.2⟩ :: es) * (uses l (⟨v, p.1, p.2⟩ :: es) : W) =
      (if p.1 = l then wt p.1 * B p.2 else 0) + usage succ wt goal l p.2 * wt p.1 := by
    intro p hp
    have hcount : ∀ es ∈ walks succ goal p.2, walkWeight wt (⟨v, p.1, p.2⟩ :: es) * (uses l (⟨v, p.1, p.2⟩ :: es) : W) =
        (if p.1 = l then wt p.1 * walkWeight wt es else 0) + wt p.1 * (walkWeight wt es * (uses l es : W)) := by
      intro es _
      rw [uses, map_cons, count_cons]
      show wt p.1 * walkWeight wt es * ((uses l es + if p.1 == l then 1 else 0 : Nat) : W) = _
      by_cases hl : p.1 = l
      · simp only [beq_iff_eq, hl, if_true, Nat.cast_add, Nat.cast_one]
        ring
      · simp only [beq_iff_eq, hl, if_false, Nat.add_zero]
        ring
    rw [finsum_mem_congr rfl hcount, finsum_mem_add_distrib (h.finite_step hv p hp), ← mul_finsum_mem' _ _ (h.finite_step hv p hp),
      mul_comm (wt p.1)]
    congr 1
    split
    · rw [hB.eq_finsum h p.2 (h.closed v hv p hp), mul_finsum_mem' _ _ (h.finite_step hv p hp)]
    · exact finsum_mem_zero _
  have hsum : ∀ ps : List (L × V), (ps.map fun p => (if p.1 = l then wt p.1 * B p.2 else 0) +
      usage succ wt goal l p.2 * wt p.1).sum = ((ps.filter fun p => p.1 = l).map fun p => wt p.1 * B p.2).sum +
        (ps.map fun p => usage succ wt goal l p.2 * wt p.1).sum := by
    intro ps
    rw [sum_map_add]
    congr 1
    induction ps with
    | nil => rfl
    | cons p ps ih =>
      rw [map_cons, sum_cons, ih]
      by_cases hl : p.1 = l
      · rw [filter_cons_of_pos (by simpa using hl), map_cons, sum_cons, if_pos hl]
      · rw [filter_cons_of_neg (by simpa using hl), if_neg hl, zero_add]
  unfold usage
  rw [finsum_walks (h.nodup v hv) (h.finite_step hv), uses, map_nil, count_nil, Nat.cast_zero, mul_zero, ite_self, zero_add,
    map_congr_left hstep, hsum]
  rfl

/-- **The sums of the two directions are the sums over the walks**, whatever solved
the equations: the weight of all walks at both ends, and for every label the weight
of the walks times their uses of it. -/
theorem forward_backward [IsCancelAdd W] (h : Dag succ nodes) (hstart : start ∈ nodes) (hgoal : goal ∈ nodes)
    (hF : Forward succ wt nodes start F) (hB : Backward succ wt nodes goal B) :
    F goal = ∑ᶠ es ∈ walks succ goal start, walkWeight wt es ∧
      B start = ∑ᶠ es ∈ walks succ goal start, walkWeight wt es ∧
      ∀ l, ∑ v ∈ nodes, (((succ v).filter fun p => p.1 = l).map fun p => F v * (wt p.1 * B p.2)).sum =
        ∑ᶠ es ∈ walks succ goal start, walkWeight wt es * (uses l es : W) := by
  refine ⟨hF.at_goal h hstart hgoal, hB.eq_finsum h start hstart, ?_⟩
  intro l
  show _ = usage succ wt goal l start
  rw [hF.dual h hstart (usage_eq h hB l)]
  refine Finset.sum_congr rfl fun v _ => ?_
  unfold stepUsage
  rw [sum_map_mul_left]

end Equations

end Sbmt.Lib
