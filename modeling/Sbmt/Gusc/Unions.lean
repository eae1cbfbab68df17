import Sbmt.Gusc.Order
/-!
# Unions of sorted generators (`gusc/gusc/generator`)

What the two unions of `Sbmt.Gusc.Generator` yield, and in which order, when they are over generators that share nothing.
`union_heap_generator` skips a generator that is used up before it is drawn, wherever it stands, and so yields what it
yields without it: `UnionHeap.drain_clean`.  `finite_union_generator` needs no order among its generators.
-/

namespace Sbmt.Gusc

open Sbmt.Lib List

variable {α K : Type} {H : HeapAlg} {fuel : Nat}

/-- Whatever compares as a strict weak order compares by some key. -/
theorem exists_key {lt : α → α → Bool} (h : StrictWeak lt) :
    ∃ (K : Type) (_ : LinearOrder K) (key : α → K), lt = lesserBy key := by
  classical
  let := h.preorder
  have htotal : Std.Total (fun a b : α => a ≤ b) := ⟨fun a b => by
    show lt b a = false ∨ lt a b = false
    cases hba : lt b a with
    | false => exact .inl rfl
    | true => exact .inr (h.asymm hba)⟩
  refine ⟨Antisymmetrization α (· ≤ ·), inferInstance, toAntisymmetrization (· ≤ ·), ?_⟩
  funext a b
  rw [eq_comm]
  cases hab : lt a b with
  | true =>
    rw [decide_eq_true_eq]
    exact ⟨h.asymm hab, fun hle => Bool.false_ne_true (Eq.trans (Eq.symm hle) hab)⟩
  | false =>
    rw [decide_eq_false_iff_not]
    exact fun hlt => hlt.2 hab

theorem nonIncreasing_lesserBy [LinearOrder K] {key : α → K} {l : List α} :
    NonIncreasing (lesserBy key) l ↔ BestFirst key l :=
  List.Pairwise.iff fun a b => by rw [decide_eq_false_iff_not, not_lt]

/-! ## Generators that are used up -/

/-- The generators that still have a value. -/
def live (gens : List (List α)) : List (List α) := gens.filter fun g => !g.isEmpty

theorem mem_live {g : List α} {gens : List (List α)} : g ∈ live gens ↔ g ∈ gens ∧ g ≠ [] := by
  simp [live]

theorem live_dropWhile : ∀ gens : List (List α), live (gens.dropWhile List.isEmpty) = live gens
  | [] => rfl
  | [] :: gens => live_dropWhile gens
  | (_ :: _) :: _ => rfl

theorem head_dropWhile : ∀ gens : List (List α), ∀ g ∈ (gens.dropWhile List.isEmpty).head?, g ≠ []
  | [], _, hg => absurd hg (Option.not_mem_none _)
  | [] :: gens, g, hg => head_dropWhile gens g hg
  | (a :: l) :: _, g, hg => by
    cases hg
    exact cons_ne_nil a l

theorem length_dropWhile (gens : List (List α)) : (gens.dropWhile List.isEmpty).length ≤ gens.length :=
  (dropWhile_sublist _).length_le

namespace UnionHeap

variable {σ : Type} {lt : α → α → Bool} {u : Plain H fuel lt}

theorem skipEmpties_eq : ∀ {n : Nat} {gens : List (List α)}, gens.length ≤ n →
    (skipEmpties n gens : StateM σ (List (List α))) = pure (gens.dropWhile List.isEmpty)
  | 0, gens, hn => by
    obtain rfl : gens = [] := length_eq_zero_iff.mp (Nat.le_zero.mp hn)
    rfl
  | _ + 1, [], _ => rfl
  | n + 1, [] :: gens, hn => skipEmpties_eq (n := n) (Nat.le_of_succ_le_succ hn)
  | _ + 1, (_ :: _) :: _, _ => rfl

/-- The union without the generators outside that are used up. -/
def clean (u : Plain H fuel lt) : Plain H fuel lt := { u with gen := live u.gen }

/-- The first generator outside has a value, and there is fuel to skip them all. -/
structure Skipped (u : Plain H fuel lt) : Prop where
  first : ∀ g ∈ u.gen.head?, g ≠ []
  enough : u.gen.length ≤ fuel

theorem pushToWindow_clean (h : Skipped u) : ∃ u' : Plain H fuel lt, (pushToWindow u : StateM σ _) = pure u' ∧
    (pushToWindow (clean u) : StateM σ _) = pure (clean u') ∧ Skipped u' := by
  obtain ⟨gen, heap, window⟩ := u
  obtain ⟨hfirst, henough⟩ := h
  cases gen with
  | nil =>
    have hrun : (pushToWindow (⟨[], heap, window⟩ : Plain H fuel lt) : StateM σ _) = pure ⟨[], heap, window⟩ := by
      show (skipEmpties fuel [] >>= fun gen => pure ⟨gen, heap, window⟩ : StateM σ (Plain H fuel lt)) = _
      rw [skipEmpties_eq (Nat.zero_le fuel)]
      rfl
    exact ⟨⟨[], heap, window⟩, hrun, hrun, hfirst, henough⟩
  | cons g gen =>
    have hlen : gen.length ≤ fuel := by
      rw [length_cons] at henough
      omega
    have hrun (gen : List (List α)) (hgen : gen.length ≤ fuel) :
        (pushToWindow (⟨g :: gen, heap, window⟩ : Plain H fuel lt) : StateM σ _) =
          pure ⟨gen.dropWhile List.isEmpty, heap, H.push (compareCurrent lt) g window⟩ := by
      show (skipEmpties fuel gen >>= fun gen => pure ⟨gen, heap, H.push (compareCurrent lt) g window⟩ :
        StateM σ (Plain H fuel lt)) = _
      rw [skipEmpties_eq hgen]
      rfl
    have hlive : live (g :: gen) = g :: live gen := by
      have hg : g ≠ [] := hfirst g rfl
      simp [live, hg]
    refine ⟨_, hrun gen hlen, ?_, head_dropWhile gen, (length_dropWhile gen).trans hlen⟩
    rw [clean, hlive, hrun (live gen) ((length_filter_le _ _).trans hlen), clean, live_dropWhile]
    -- among what still has a value nothing is skipped
    have hskip : (live gen).dropWhile List.isEmpty = live gen := by
      rw [dropWhile_eq_self_iff]
      intro hpos hempty
      exact (mem_live.mp (getElem_mem hpos)).2 (List.isEmpty_iff.mp hempty)
    rw [hskip]

theorem refill_clean : ∀ {n : Nat} {u : Plain H fuel lt}, Skipped u → ∃ u' : Plain H fuel lt,
    (refill n u : StateM σ _) = pure u' ∧ (refill n (clean u) : StateM σ _) = pure (clean u') ∧ Skipped u'
  | 0, u, h => ⟨u, rfl, rfl, h⟩
  | n + 1, u, h => by
    obtain ⟨u1, hu1, hclean1, h1⟩ := pushToWindow_clean (σ := σ) h
    obtain ⟨u2, hu2, hclean2, h2⟩ := refill_clean (n := n) h1
    refine ⟨u2, ?_, ?_, h2⟩
    · rw [refill, hu1, pure_bind, hu2]
    · rw [refill, hclean1, pure_bind, hclean2]

theorem moveWindow_clean : ∀ (n : Nat) (u : Plain H fuel lt),
    moveWindow n (clean u) = clean (moveWindow n u) ∧ (moveWindow n u).gen = u.gen
  | 0, _ => ⟨rfl, rfl⟩
  | _ + 1, ⟨_, _, []⟩ => ⟨rfl, rfl⟩
  | n + 1, ⟨gen, heap, g :: window⟩ =>
    moveWindow_clean n (⟨gen, H.push (compareCurrent lt) g heap, H.pop (compareCurrent lt) (g :: window)⟩ : Plain H fuel lt)

theorem pushToHeap_clean (h : Skipped u) : ∃ u' : Plain H fuel lt, (pushToHeap u : StateM σ _) = pure u' ∧
    (pushToHeap (clean u) : StateM σ _) = pure (clean u') ∧ Skipped u' := by
  obtain ⟨hmove, hgen⟩ := moveWindow_clean u.window.length u
  have hskipped : Skipped (moveWindow u.window.length u) := ⟨hgen ▸ h.first, hgen ▸ h.enough⟩
  obtain ⟨u', hu', hclean', h'⟩ := refill_clean (σ := σ) (n := u.window.length) hskipped
  refine ⟨u', hu', ?_, h'⟩
  show (refill u.window.length (moveWindow u.window.length (clean u)) : StateM σ _) = _
  rw [hmove, hclean']

variable (H lt) in
theorem init_clean {gens : List (List α)} (hfuel : gens.length ≤ fuel) (lookahead : Nat) :
    ∃ u : Plain H fuel lt, (init H fuel lt gens lookahead : StateM σ _) = pure u ∧
      (init H fuel lt (live gens) lookahead : StateM σ _) = pure (clean u) ∧ Skipped u := by
  have hskipped : Skipped (⟨gens.dropWhile List.isEmpty, [], []⟩ : Plain H fuel lt) :=
    ⟨head_dropWhile gens, (length_dropWhile gens).trans hfuel⟩
  obtain ⟨u1, hu1, hclean1, h1⟩ := refill_clean (σ := σ) (n := lookahead) hskipped
  obtain ⟨u2, hu2, hclean2, h2⟩ := pushToHeap_clean (σ := σ) h1
  rw [clean, live_dropWhile] at hclean1
  refine ⟨u2, ?_, ?_, h2⟩
  · rw [init, skipEmpties_eq hfuel, pure_bind, hu1, pure_bind, hu2]
  · rw [init, skipEmpties_live fuel fun g hg => (mem_live.mp hg).2, pure_bind, hclean1, pure_bind, hclean2]

theorem increment_clean (h : Skipped u) : ∃ u' : Plain H fuel lt, (increment u : StateM σ _) = pure u' ∧
    (increment (clean u) : StateM σ _) = pure (clean u') ∧ Skipped u' := by
  obtain ⟨gen, heap, window⟩ := u
  cases heap with
  | nil => exact ⟨⟨gen, [], window⟩, rfl, rfl, h⟩
  | cons g q =>
    obtain ⟨heap', hheap'⟩ : ∃ l, l = (if more g.tail then H.push (compareCurrent lt) g.tail
      (H.pop (compareCurrent lt) (g :: q)) else H.pop (compareCurrent lt) (g :: q)) := ⟨_, rfl⟩
    have hstep (gen : List (List α)) : (increment (⟨gen, g :: q, window⟩ : Plain H fuel lt) : StateM σ _) =
        if windowDue (⟨gen, heap', window⟩ : Plain H fuel lt) then pushToHeap ⟨gen, heap', window⟩
        else pure ⟨gen, heap', window⟩ := by
      rw [hheap']
      rfl
    have hskipped : Skipped (⟨gen, heap', window⟩ : Plain H fuel lt) := ⟨h.first, h.enough⟩
    rw [clean, hstep, hstep]
    by_cases hdue : windowDue (⟨gen, heap', window⟩ : Plain H fuel lt) = true
    · have hdue' : windowDue (⟨live gen, heap', window⟩ : Plain H fuel lt) = true := hdue
      rw [if_pos hdue, if_pos hdue']
      exact pushToHeap_clean hskipped
    · have hdue' : ¬ windowDue (⟨live gen, heap', window⟩ : Plain H fuel lt) = true := hdue
      rw [if_neg hdue, if_neg hdue']
      exact ⟨_, rfl, rfl, hskipped⟩

/-- **Used-up generators make no difference to what is yielded.** -/
theorem drain_clean : ∀ {n : Nat} {u : Plain H fuel lt}, Skipped u →
    (drain n u : StateM σ (List α)) = drain n (clean u)
  | 0, _, _ => rfl
  | n + 1, u, h => by
    have hpeek : peek? (clean u) = peek? u := rfl
    obtain ⟨u', hu', hclean', h'⟩ := increment_clean (σ := σ) h
    unfold drain
    rw [hpeek]
    cases peek? u with
    | none => rfl
    | some a =>
      show (increment u >>= fun u => drain n u >>= fun l => pure (a :: l) : StateM σ (List α)) =
        (increment (clean u) >>= fun u => drain n u >>= fun l => pure (a :: l))
      rw [hu', hclean', pure_bind, pure_bind, drain_clean h']

end UnionHeap

section

variable [LinearOrder K] {key : α → K} {gens : List (List α)}

/-- **`union_heap_generator` yields best first**, with used-up generators anywhere. -/
theorem unionHeap_bestFirst (H : HeapAlg) (hbest : ∀ g ∈ gens, BestFirst key g)
    (hgens : (live gens).Pairwise fun g g' => headKey key g' ≤ headKey key g) {lookahead : Nat} (hl : 1 ≤ lookahead) :
    BestFirst key (unionHeap H (lesserBy key) gens lookahead) := by
  have hfuel : gens.length ≤ lengthBound gens := by
    rw [← length_map (f := fun l : List α => l.length + 1)]
    refine length_le_sum_of_one_le _ fun n hn => ?_
    obtain ⟨l, -, rfl⟩ := mem_map.mp hn
    exact Nat.succ_le_succ (Nat.zero_le _)
  obtain ⟨u, hu, hclean, hskipped⟩ := UnionHeap.init_clean (σ := Finset Empty) H (lesserBy key) hfuel lookahead
  obtain ⟨u', hu', hlead, -⟩ := UnionHeap.init_leading H (lengthBound gens) (Finset Empty)
    (fun g hg => (mem_live.mp hg).2) (fun g hg => hbest g (mem_live.mp hg).1) hgens hl
  rw [hclean] at hu'
  have heq : UnionHeap.clean u = u' := congrArg (fun m => (m (∅ : Finset Empty)).1) hu'
  obtain ⟨l, hdrain, hsorted, -⟩ := UnionHeap.drain_bestFirst (σ := Finset Empty) (n := lengthBound gens) hlead
  have hrun : unionHeap H (lesserBy key) gens lookahead = l := by
    rw [unionHeap, hu, pure_bind, UnionHeap.drain_clean hskipped, heq, hdrain]
    rfl
  exact hrun ▸ hsorted

/-! ## `finite_union_generator` -/

/-- The queue of a finite union. -/
structure FiniteUnion.Merging (f : FiniteUnion H (lesserBy key) (List α)) : Prop where
  heap : H.IsHeap (compareCurrent (lesserBy key)) f.heap
  live : ∀ g ∈ f.heap, g ≠ []
  bestFirst : ∀ g ∈ f.heap, BestFirst key g

theorem FiniteUnion.make_merging (H : HeapAlg) (hbest : ∀ g ∈ gens, BestFirst key g) :
    (FiniteUnion.make H (lesserBy key) gens).Merging := by
  have hlt := compareCurrent_strictWeak key
  have hloop : ∀ (gens heap : List (List α)), (∀ g ∈ gens, BestFirst key g) →
      (⟨heap⟩ : FiniteUnion H (lesserBy key) (List α)).Merging →
      (⟨gens.foldl (fun heap g => if more g then H.push (compareCurrent (lesserBy key)) g heap else heap) heap⟩ :
        FiniteUnion H (lesserBy key) (List α)).Merging := by
    intro gens
    induction gens with
    | nil => exact fun _ _ h => h
    | cons g gens ih =>
      intro heap hbest h
      refine ih _ (fun g' hg' => hbest g' (mem_cons_of_mem g hg')) ?_
      cases g with
      | nil => exact h
      | cons a g =>
        refine ⟨H.push_isHeap _ hlt h.heap, fun x hx => ?_, fun x hx => ?_⟩
        · rcases H.mem_push.mp hx with rfl | hx
          · exact cons_ne_nil a g
          · exact h.live x hx
        · rcases H.mem_push.mp hx with rfl | hx
          · exact hbest _ mem_cons_self
          · exact h.bestFirst x hx
  exact hloop gens [] hbest
    ⟨H.sorted_isHeap hlt .nil, fun g hg => absurd hg not_mem_nil, fun g hg => absurd hg not_mem_nil⟩

/-- What is left of the generator that was the best is no better. -/
theorem FiniteUnion.drain_bestFirst {σ : Type} : ∀ {n : Nat} {f : FiniteUnion H (lesserBy key) (List α)}, f.Merging →
    ∃ l : List α, (drain n f : StateM σ (List α)) = pure l ∧ BestFirst key l ∧ ∀ a ∈ l, ∃ g ∈ f.heap, a ∈ g
  | 0, _, _ => ⟨[], rfl, .nil, fun a ha => absurd ha not_mem_nil⟩
  | n + 1, ⟨[]⟩, _ => ⟨[], rfl, .nil, fun a ha => absurd ha not_mem_nil⟩
  | n + 1, ⟨[] :: q⟩, h => absurd rfl (h.live [] mem_cons_self)
  | n + 1, ⟨(a :: g) :: q⟩, h => by
    have hlt := compareCurrent_strictWeak key
    obtain ⟨heap', hheap'⟩ : ∃ l, l = (if more (a :: g).tail then H.push (compareCurrent (lesserBy key)) (a :: g).tail
      (H.pop (compareCurrent (lesserBy key)) ((a :: g) :: q)) else H.pop (compareCurrent (lesserBy key)) ((a :: g) :: q)) := ⟨_, rfl⟩
    have hmem {x} (hx : x ∈ heap') : x = g ∧ x ≠ [] ∨ x ∈ q := UnionHeap.mem_requeue.mp (hheap' ▸ hx)
    have h' : (⟨heap'⟩ : FiniteUnion H (lesserBy key) (List α)).Merging := by
      refine ⟨?_, fun x hx => ?_, fun x hx => ?_⟩
      · rw [hheap']
        split
        · exact H.push_isHeap _ hlt (H.pop_isHeap hlt h.heap)
        · exact H.pop_isHeap hlt h.heap
      · rcases hmem hx with hx | hx
        · exact hx.2
        · exact h.live x (mem_cons_of_mem _ hx)
      · rcases hmem hx with hx | hx
        · exact hx.1 ▸ (h.bestFirst (a :: g) mem_cons_self).tail
        · exact h.bestFirst x (mem_cons_of_mem _ hx)
    obtain ⟨l, hl, hbest, hsrc⟩ := drain_bestFirst (σ := σ) (n := n) h'
    have hstep : (drain (n + 1) (⟨(a :: g) :: q⟩ : FiniteUnion H (lesserBy key) (List α)) : StateM σ (List α)) = pure (a :: l) := by
      have hpop : (FiniteUnion.pop (⟨(a :: g) :: q⟩ : FiniteUnion H (lesserBy key) (List α)) : StateM σ _) = pure ⟨heap'⟩ := by
        rw [hheap']
        rfl
      show (FiniteUnion.pop (⟨(a :: g) :: q⟩ : FiniteUnion H (lesserBy key) (List α)) >>= fun f => drain n f >>=
        fun l => pure (a :: l)) = _
      rw [hpop, pure_bind, hl, pure_bind]
    refine ⟨a :: l, hstep, UnionHeap.bestFirst_cons mem_cons_self h.bestFirst
      (fun x hx => UnionHeap.heap_front h.heap hx) hbest fun b hb => ?_⟩
    obtain ⟨x, hx, hbx⟩ := hsrc b hb
    exact ⟨x, (hmem hx).imp And.left (mem_cons_of_mem _), hbx⟩

/-- **`finite_union_generator` yields best first**, in whatever order its generators come. -/
theorem finiteUnion_bestFirst (H : HeapAlg) (hbest : ∀ g ∈ gens, BestFirst key g) :
    BestFirst key (finiteUnion H (lesserBy key) gens) := by
  obtain ⟨l, hdrain, hsorted, -⟩ := FiniteUnion.drain_bestFirst (σ := Finset Empty) (n := lengthBound gens)
    (FiniteUnion.make_merging H hbest)
  have hrun : finiteUnion H (lesserBy key) gens = l := by
    rw [finiteUnion, hdrain]
    rfl
  exact hrun ▸ hsorted

end

/-- **The unions yield what their generators yield, once each**, and sorted if these are: `finite_union_generator` for any
range, `union_heap_generator` if the generators that have a value come sorted by it. -/
theorem unions_sorted (H : HeapAlg) (lt : α → α → Bool) (gens : List (List α)) {lookahead : Nat} (hl : 1 ≤ lookahead) :
    (unionHeap H lt gens lookahead).Perm gens.flatten ∧ (finiteUnion H lt gens).Perm gens.flatten ∧
    (StrictWeak lt → (∀ g ∈ gens, NonIncreasing lt g) →
      NonIncreasing lt (finiteUnion H lt gens) ∧
      ((gens.Pairwise fun g g' => ∀ a ∈ g.head?, ∀ b ∈ g'.head?, lt a b = false) →
        NonIncreasing lt (unionHeap H lt gens lookahead))) := by
  refine ⟨unionHeap_perm H lt gens hl, finiteUnion_perm H lt gens, fun hlt hsorted => ?_⟩
  obtain ⟨K, _, key, rfl⟩ := exists_key hlt
  have hbest : ∀ g ∈ gens, BestFirst key g := fun g hg => nonIncreasing_lesserBy.mp (hsorted g hg)
  refine ⟨nonIncreasing_lesserBy.mpr (finiteUnion_bestFirst H hbest), fun hgens => ?_⟩
  refine nonIncreasing_lesserBy.mpr (unionHeap_bestFirst H hbest ?_ hl)
  refine (hgens.filter _).imp_of_mem fun {g g'} hg hg' hle => ?_
  cases g with
  | nil => exact absurd rfl (mem_live.mp hg).2
  | cons a g => cases g' with
    | nil => exact bot_le
    | cons b g' =>
      rw [headKey_cons, headKey_cons, WithBot.coe_le_coe]
      exact not_lt.mp (of_decide_eq_false (hle a rfl b rfl))

theorem unions_sorted_threes :
    (unionHeap HeapAlg.sorted (fun a b : Nat => decide (a < b)) [[], [15, 12], [], [14, 3], [13]] 2).Perm [15, 12, 14, 3, 13] ∧
    NonIncreasing (fun a b : Nat => decide (a < b))
      (unionHeap HeapAlg.sorted (fun a b : Nat => decide (a < b)) [[], [15, 12], [], [14, 3], [13]] 2) := by
  obtain ⟨hperm, -, hsorted⟩ := unions_sorted HeapAlg.sorted (fun a b : Nat => decide (a < b))
    [[], [15, 12], [], [14, 3], [13]] (by decide : 1 ≤ 2)
  refine ⟨hperm, (hsorted (.ofKey id) ?_).2 ?_⟩
  · unfold NonIncreasing
    decide
  · decide

end Sbmt.Gusc
