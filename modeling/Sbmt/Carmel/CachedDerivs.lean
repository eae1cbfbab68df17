import Sbmt.Carmel.Derivations

/-!
# cached_derivs: derivations kept from one pass to the next, or recomputed

| here | there |
| --- | --- |
| `IOSymSeq`, `Stats`, `count` | `IOSymSeq`, the counts of a `training_corpus` and `training_corpus::count` (`carmel/src/train.h:119-231`) |
| `initAndCompute` | `derivations::init_and_compute` (`carmel/src/derivations.h:535-540`): a graph if there is a derivation |
| `foreachDeriv` | `cached_derivs::foreach_deriv` (`carmel/src/cached_derivs.h:60-101`), with the graphs it visits |
| `passes` | several passes, the weights of the transducer changed in between |

The floating point counts are over any type with addition and multiplication,
summed in the order of the examples. What is written to a file of derivations
and the line numbers are left out.
-/

namespace Sbmt.Carmel

open List

variable {W F : Type*}

structure IOSymSeq (F : Type*) where
  i : SymSeq
  o : SymSeq
  weight : F

structure Stats (F : Type*) where
  maxIn : Nat
  maxOut : Nat
  nPairs : Nat
  totalEmpiricalWeight : F
  nInput : F
  nOutput : F
  wInput : F
  wOutput : F
deriving DecidableEq

variable [Zero F] [Add F] [Mul F] [NatCast F]

/-- `clear_counts`. -/
def Stats.clear : Stats F := ⟨0, 0, 0, 0, 0, 0, 0, 0⟩

def Stats.count (c : Stats F) (n : IOSymSeq F) : Stats F where
  nInput := c.nInput + n.i.length
  nOutput := c.nOutput + n.o.length
  wInput := c.wInput + n.weight * n.i.length
  wOutput := c.wOutput + n.weight * n.o.length
  maxIn := if c.maxIn < n.i.length then n.i.length else c.maxIn
  maxOut := if c.maxOut < n.o.length then n.o.length else c.maxOut
  totalEmpiricalWeight := c.totalEmpiricalWeight + n.weight
  nPairs := c.nPairs + 1

/-- `training_corpus::count()`. -/
def countAll (examples : List (IOSymSeq F)) : Stats F := examples.foldl Stats.count .clear

variable (x : Wfst W) (prune : Bool)

/-- The derivations of an example, if there are any. -/
def initAndCompute (n : IOSymSeq F) : Option Derivations :=
  (compute x n.i n.o prune).filter fun d => !d.noGoal

structure CachedDerivs (F : Type*) where
  cached : Bool
  first : Bool
  derivs : List Derivations
  examples : List (IOSymSeq F)
  stats : Stats F

/-- One example of `cache_derivations`. -/
def cacheExample (acc : List Derivations × Stats F) (n : IOSymSeq F) :
    List Derivations × Stats F :=
  let stats : Stats F := .clear
  match initAndCompute x prune n with
  | none => (acc.1, stats)
  | some d => (acc.1 ++ [d], stats.count n)

def cacheDerivations (examples : List (IOSymSeq F)) (stats : Stats F) :
    List Derivations × Stats F :=
  examples.foldl (cacheExample x prune) ([], stats)

/-- The constructor, over a corpus that was read in. -/
def CachedDerivs.new (cache prune : Bool) (examples : List (IOSymSeq F)) : CachedDerivs F :=
  if cache then
    let r := cacheDerivations x prune examples (countAll examples)
    ⟨true, true, r.1, examples, r.2⟩
  else ⟨false, true, [], examples, countAll examples⟩

/-- The loop that recomputes: the graphs it visits and the examples it leaves. -/
def recompute (x : Wfst W) (prune first : Bool) : List (IOSymSeq F) → List Derivations × List (IOSymSeq F)
  | [] => ([], [])
  | n :: rest =>
    let r := recompute x prune first rest
    match initAndCompute x prune n with
    | some d => (d :: r.1, n :: r.2)
    | none => if first && prune then r else (r.1, n :: r.2)

def foreachDeriv (c : CachedDerivs F) : List Derivations × CachedDerivs F :=
  if c.cached then (c.derivs, { c with first := false })
  else
    let r := recompute x prune c.first c.examples
    (r.1, { c with examples := r.2, stats := if c.first then countAll r.2 else c.stats, first := false })

/-- The graphs of one pass after another. -/
def passes (prune : Bool) : List (Wfst W) → CachedDerivs F → List (List Derivations)
  | [], _ => []
  | x :: xs, c =>
    let r := foreachDeriv x prune c
    r.1 :: passes prune xs r.2

/-! ## Weights do not matter -/

/-- An arc without its weight. -/
def FSTArc.shape (a : FSTArc W) : Nat × Nat × Nat := (a.inp, a.out, a.dest)

/-- The same transducer with other weights. -/
structure Reweighted (x y : Wfst W) : Prop where
  final : y.final = x.final
  arcs : y.states.map (List.map FSTArc.shape) = x.states.map (List.map FSTArc.shape)

section Reweighted

variable {x y : Wfst W} (h : Reweighted x y)

include h

theorem Reweighted.arcs_eq (s : Nat) : (y.arcs s).map FSTArc.shape = (x.arcs s).map FSTArc.shape := by
  have hget : ∀ z : Wfst W, (z.arcs s).map FSTArc.shape = (z.states.map (List.map FSTArc.shape)).getD s [] := by
    intro z
    unfold Wfst.arcs
    rw [getD_eq_getElem?_getD, getD_eq_getElem?_getD, getElem?_map]
    cases z.states[s]? with
    | none => rfl
    | some _ => rfl
  rw [hget, hget, h.arcs]

theorem Reweighted.numStates_eq : y.numStates = x.numStates := by
  have hlen := congrArg List.length h.arcs
  rwa [length_map, length_map] at hlen

theorem Reweighted.visitArcs_eq : y.visitArcs = x.visitArcs := by
  unfold Wfst.visitArcs
  rw [h.numStates_eq]
  congr 1
  funext s
  have hlen := congrArg List.length (h.arcs_eq s)
  rw [length_map, length_map] at hlen
  rw [hlen]

theorem Reweighted.arc?_eq (p : ArcPtr) : (y.arc? p).map FSTArc.shape = (x.arc? p).map FSTArc.shape := by
  unfold Wfst.arc?
  rw [← getElem?_map, ← getElem?_map, h.arcs_eq]

theorem Reweighted.ptrOf_eq (id : Nat) : y.ptrOf id = x.ptrOf id := by
  unfold Wfst.ptrOf
  rw [h.visitArcs_eq]

/-- What is asked of an arc apart from its weight. -/
theorem Reweighted.query_eq {β : Type*} (f : Nat × Nat × Nat → β) (p : ArcPtr) :
    (y.arc? p).map (fun a => f a.shape) = (x.arc? p).map fun a => f a.shape := by
  have hmap := congrArg (Option.map f) (h.arc?_eq p)
  rwa [Option.map_map, Option.map_map] at hmap

theorem Reweighted.matching_eq (s sIn sOut iIn iOut : Nat) :
    matching y s sIn sOut iIn iOut = matching x s sIn sOut iIn iOut := by
  have hany : ∀ p : ArcPtr, ((y.arc? p).any fun a => a.inp == sIn && a.out == sOut) =
      (x.arc? p).any fun a => a.inp == sIn && a.out == sOut := by
    intro p
    have hquery := h.query_eq (fun t => t.1 == sIn && t.2.1 == sOut) p
    cases hy : y.arc? p with
    | none =>
      rw [hy] at hquery
      rw [Option.map_eq_none_iff.1 hquery.symm]
    | some b =>
      rw [hy] at hquery
      obtain ⟨a, ha, hab⟩ := Option.map_eq_some_iff.1 hquery.symm
      rw [ha]
      exact hab.symm
  have hdest : ∀ id, y.destOf id = x.destOf id := by
    intro id
    unfold Wfst.destOf
    rw [h.ptrOf_eq]
    exact congrArg (fun o => Option.getD o 0) (h.query_eq (fun t => t.2.2) (x.ptrOf id))
  unfold matching Wfst.forIo
  simp only [hany, h.ptrOf_eq, h.visitArcs_eq, hdest]

theorem Reweighted.compute_eq (inp out : SymSeq) (prune : Bool) : compute y inp out prune = compute x inp out prune := by
  have hsucc : successors y inp out = successors x inp out := by
    unfold successors
    simp only [h.matching_eq]
  have hgoal : goal y inp out = goal x inp out := by
    unfold goal
    rw [h.final]
  have hfuel : deriveFuel y inp out = deriveFuel x inp out := by
    unfold deriveFuel
    rw [h.numStates_eq]
  have hderive : derive y inp out = derive x inp out := by
    funext fuel d σ
    rw [derive_eq_visit, derive_eq_visit, hsucc, hgoal]
  unfold compute
  rw [hderive, hgoal, hfuel]

omit [Zero F] [Add F] [Mul F] [NatCast F] in
theorem Reweighted.initAndCompute_eq (n : IOSymSeq F) :
    initAndCompute y prune n = initAndCompute x prune n := by
  unfold initAndCompute
  rw [h.compute_eq]

end Reweighted

/-! ## What each way keeps -/

variable (x : Wfst W)

/-- An example with a derivation: a path laid along its two sequences. -/
def HasDerivation (n : IOSymSeq F) : Prop := ∃ ls, Laying x n.i n.o ls

variable (prune : Bool)

omit [Zero F] [Add F] [Mul F] [NatCast F] in
theorem initAndCompute_isSome (n : IOSymSeq F) :
    (initAndCompute x prune n).isSome = true ↔ HasDerivation x n := by
  obtain ⟨d, hd, hgoal, -⟩ := compute_lattice x n.i n.o prune
  unfold initAndCompute HasDerivation
  rw [hd]
  cases hno : d.noGoal with
  | true => simp [Option.filter, hno, hgoal.1 hno]
  | false =>
    have hsome : ∃ ls, Laying x n.i n.o ls := by
      by_contra hnot
      rw [hgoal.2 hnot] at hno
      cases hno
    simp [Option.filter, hno, hsome]

variable (examples : List (IOSymSeq F))

/-- The examples that have a derivation, in order. -/
def derivable : List (IOSymSeq F) :=
  examples.filter fun n => (initAndCompute x prune n).isSome

/-- The graphs of the examples that have a derivation. -/
def graphsOf : List Derivations :=
  examples.filterMap (initAndCompute x prune)

/-- What is cached. -/
theorem cacheDerivations_graphs (stats : Stats F) :
    (cacheDerivations x prune examples stats).1 = graphsOf x prune examples := by
  have hloop : ∀ (ns : List (IOSymSeq F)) (acc : List Derivations × Stats F),
      (ns.foldl (cacheExample x prune) acc).1 = acc.1 ++ graphsOf x prune ns := by
    intro ns
    induction ns with
    | nil => simp [graphsOf]
    | cons n ns ih =>
      intro acc
      rw [foldl_cons, ih]
      unfold cacheExample graphsOf
      cases hn : initAndCompute x prune n with
      | none => rw [filterMap_cons_none hn]
      | some d =>
        rw [filterMap_cons_some hn]
        simp
  exact hloop examples ([], stats)

/-- **The counts are cleared for every example**, so only the last is counted. -/
theorem cacheDerivations_stats (n : IOSymSeq F)
    (stats : Stats F) : (cacheDerivations x prune (examples ++ [n]) stats).2 = countAll (derivable x prune [n]) := by
  unfold cacheDerivations
  unfold cacheExample derivable countAll
  cases hn : initAndCompute x prune n with
  | none => simp [hn]
  | some d => simp [hn]

section
omit [Zero F] [Add F] [Mul F] [NatCast F]

theorem recompute_eq (prune first : Bool) (examples : List (IOSymSeq F)) :
    recompute x prune first examples =
      (graphsOf x prune examples, if first && prune then derivable x prune examples else examples) := by
  induction examples with
  | nil => simp [recompute, graphsOf, derivable]
  | cons n ns ih =>
    unfold recompute
    rw [ih]
    cases hn : initAndCompute x prune n with
    | some d => cases hf : first && prune <;> simp [graphsOf, derivable, hn]
    | none => cases hf : first && prune <;> simp [graphsOf, derivable, hn]

/-- Erasing the examples without a derivation loses no graph. -/
theorem graphsOf_derivable :
    graphsOf x prune (derivable x prune examples) = graphsOf x prune examples := by
  induction examples with
  | nil => rfl
  | cons n ns ih =>
    unfold derivable graphsOf at *
    cases hn : initAndCompute x prune n with
    | none => simp [hn, ih]
    | some d => simp [hn, ih]

theorem Reweighted.graphsOf_eq {x y : Wfst W} (h : Reweighted x y) (prune : Bool) (examples : List (IOSymSeq F)) :
    graphsOf y prune examples = graphsOf x prune examples := by
  unfold graphsOf
  congr 1
  funext n
  exact h.initAndCompute_eq prune n

end

variable {xs : List (Wfst W)}

theorem passes_cached {prune : Bool} {c : CachedDerivs F} (hc : c.cached = true) :
    passes prune xs c = xs.map fun _ => c.derivs := by
  induction xs generalizing c with
  | nil => rfl
  | cons x xs ih =>
    have hstep : foreachDeriv x prune c = (c.derivs, { c with first := false }) := by
      unfold foreachDeriv
      rw [if_pos hc]
    have hpasses : passes prune (x :: xs) c = c.derivs :: passes prune xs { c with first := false } := by
      rw [passes, hstep]
    rw [hpasses, ih (c := { c with first := false }) hc]
    rfl

theorem passes_recomputed {x : Wfst W} (hxs : ∀ y ∈ xs, Reweighted x y) {c : CachedDerivs F}
    (hc : c.cached = false) : passes true xs c = xs.map fun _ => graphsOf x true c.examples := by
  induction xs generalizing c with
  | nil => rfl
  | cons y xs ih =>
    have hy := hxs y (mem_cons_self ..)
    have hstep : foreachDeriv y true c = (graphsOf x true c.examples,
        { c with
          examples := (recompute y true c.first c.examples).2
          stats := if c.first then countAll (recompute y true c.first c.examples).2 else c.stats
          first := false }) := by
      unfold foreachDeriv
      rw [if_neg (by rw [hc]; exact Bool.false_ne_true), recompute_eq, hy.graphsOf_eq]
    have hleft : graphsOf x true (recompute y true c.first c.examples).2 = graphsOf x true c.examples := by
      rw [recompute_eq]
      cases c.first with
      | false => rfl
      | true =>
        show graphsOf x true (derivable y true c.examples) = _
        rw [← hy.graphsOf_eq, graphsOf_derivable, hy.graphsOf_eq]
    rw [passes, hstep, map_cons]
    have hrest := ih (fun z hz => hxs z (mem_cons_of_mem _ hz)) (c := (foreachDeriv y true c).2) (by
      rw [hstep]
      exact hc)
    rw [hstep] at hrest
    rw [hrest, hleft]

/-! ## The two ways compared -/

/-- The statistics after the first pass. -/
def statsAfterFirst (cache prune : Bool) (examples : List (IOSymSeq F)) : Stats F :=
  (foreachDeriv x prune (CachedDerivs.new x cache prune examples)).2.stats

/-- Caching changes nothing: either way the statistics are the totals over the
examples with a derivation, and every pass visits the same graphs. -/
structure Transparent (x : Wfst W) (examples : List (IOSymSeq F)) : Prop where
  cached : statsAfterFirst x true true examples = countAll (derivable x true examples)
  recomputed : statsAfterFirst x false true examples = countAll (derivable x true examples)
  graphs : ∀ xs : List (Wfst W), (∀ y ∈ xs, Reweighted x y) →
    passes true xs (CachedDerivs.new x true true examples) = passes true xs (CachedDerivs.new x false true examples)

theorem recomputed_stats :
    statsAfterFirst x false true examples = countAll (derivable x true examples) := by
  unfold statsAfterFirst
  unfold foreachDeriv
  rw [recompute_eq]
  rfl

theorem passes_same (hxs : ∀ y ∈ xs, Reweighted x y) :
    passes true xs (CachedDerivs.new x true true examples) = passes true xs (CachedDerivs.new x false true examples) := by
  rw [passes_cached rfl, passes_recomputed hxs rfl]
  congr 1
  funext _
  exact cacheDerivations_graphs x true examples (countAll examples)

theorem countAll_nPairs : (countAll examples).nPairs = examples.length := by
  have hloop : ∀ (ns : List (IOSymSeq F)) (c : Stats F), (ns.foldl Stats.count c).nPairs = c.nPairs + ns.length := by
    intro ns
    induction ns with
    | nil => simp
    | cons n ns ih =>
      intro c
      rw [foldl_cons, ih, length_cons]
      show c.nPairs + 1 + ns.length = _
      omega
  unfold countAll
  rw [hloop]
  exact Nat.zero_add _

/-- **Caching is transparent only where no example but the last has a derivation**:
`cache_derivations` clears the counts inside its loop. The graphs and the counts
of the other way are always right. -/
theorem transparent_iff (x : Wfst W) (examples : List (IOSymSeq F)) :
    Transparent x examples ↔ ∀ n ∈ examples.dropLast, ¬ HasDerivation x n := by
  have hnone : ∀ n : IOSymSeq F, ¬ HasDerivation x n ↔ (initAndCompute x true n).isSome = false := by
    intro n
    rw [← initAndCompute_isSome x true n]
    simp
  have hcached : statsAfterFirst x true true examples = (cacheDerivations x true examples (countAll examples)).2 := rfl
  rcases eq_nil_or_concat examples with hnil | ⟨front, last, hconcat⟩
  · subst hnil
    constructor
    · intro _ n hn
      cases hn
    · intro _
      exact ⟨rfl, recomputed_stats x [], fun xs hxs => passes_same x [] hxs⟩
  · rw [concat_eq_append] at hconcat
    subst hconcat
    rw [dropLast_concat]
    have hsplit : derivable x true (front ++ [last]) = derivable x true front ++ derivable x true [last] := by
      unfold derivable
      rw [filter_append]
    constructor
    · intro h n hn
      have hstats := h.cached
      rw [hcached, cacheDerivations_stats, hsplit] at hstats
      have hpairs := congrArg Stats.nPairs hstats
      rw [countAll_nPairs, countAll_nPairs, length_append] at hpairs
      have hempty : derivable x true front = [] := eq_nil_of_length_eq_zero (by omega)
      rw [hnone]
      have := filter_eq_nil_iff.1 hempty n hn
      simpa using this
    · intro h
      have hempty : derivable x true front = [] := by
        apply filter_eq_nil_iff.2
        intro n hn
        rw [(hnone n).1 (h n hn)]
        exact Bool.false_ne_true
      refine ⟨?_, recomputed_stats x _, fun xs hxs => passes_same x _ hxs⟩
      rw [hcached, cacheDerivations_stats, hsplit, hempty, nil_append]

/-- A transducer with one state and no arc. -/
def emptyWfst : Wfst Nat where
  states := [[]]
  final := 0
  nonempty := by decide
  final_lt := by decide
  dest_lt := by simp

/-- The empty input with the empty output. -/
def emptyPair : IOSymSeq Nat := ⟨[], [], 1⟩

/-- Two examples with a derivation: the cached statistics count one of them. -/
theorem not_transparent_twice : ¬ Transparent emptyWfst [emptyPair, emptyPair] := by
  intro h
  have hone : (statsAfterFirst emptyWfst true true [emptyPair, emptyPair]).nPairs = 1 := by decide
  rw [h.cached] at hone
  cases hone

end Sbmt.Carmel
