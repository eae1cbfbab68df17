import Sbmt.Lib.Frontier
import Sbmt.Lib.Heap
/-!
# Products of sequences, best first (`gusc/gusc/generator`)

Both product generators walk the positions of a box of sequences and yield the product at each.  They
share nothing with anybody, so each is given by the list of all it yields.

| here | there |
| --- | --- |
| `Pos`, `inside` | `position_type`, `all_not_at_end` (`product_heap_generator.hpp:432-457`, `:506-514`) |
| `ProductHeap` | `product_heap_generator::impl_` (`product_heap_generator.hpp:471-536`): a position is reached by raising its first nonzero coordinate |
| `Buchse` | `buchse_product_generator::impl_` (`buchse_product_generator.hpp:124-208`): a position is reached when all positions below it have been popped, counted in `buchse_counts` |
| `productHeap`, `buchseProduct` | `generate_product_heap`, `generate_buchse_product`, run to the end |

`apply_at` is the argument `product`.  Both are explorations behind a frontier, the one with a single
predecessor of every position and the other with all of them; that every position comes exactly once,
and best first, is then a matter of the frontier alone.
-/

namespace Sbmt.Gusc

open Sbmt.Lib List Function

variable {G K : Type} {n : Nat}

/-- `position_type`. -/
abbrev Pos (n : Nat) := Fin n → Nat

namespace Pos

variable (pos : Pos n)

/-- `++(pos[x])`. -/
def next (x : Fin n) : Pos n := update pos x (pos x + 1)

/-- `--(pos[x])`. -/
def prev (x : Fin n) : Pos n := update pos x (pos x - 1)

@[simp] theorem next_self (x : Fin n) : pos.next x x = pos x + 1 := update_self x _ _

@[simp] theorem prev_next (x : Fin n) : (pos.next x).prev x = pos := by
  simp [next, prev]

theorem next_prev {pos : Pos n} {x : Fin n} (h : pos x ≠ 0) : (pos.prev x).next x = pos := by
  simp only [next, prev, update_self, update_idem]
  rw [Nat.sub_add_cancel (Nat.pos_of_ne_zero h), update_eq_self]

theorem next_injective : Function.Injective pos.next := by
  intro x y h
  by_contra hne
  have := congrFun h x
  simp [next, update_of_ne hne] at this

theorem sum_prev {pos : Pos n} {x : Fin n} (h : pos x ≠ 0) : ∑ k, pos.prev x k < ∑ k, pos k := by
  refine Finset.sum_lt_sum (fun k _ => ?_) ⟨x, Finset.mem_univ x, ?_⟩
  · by_cases hk : k = x
    · subst hk; simp [prev]
    · simp [prev, update_of_ne hk]
  · simp only [prev, update_self]
    omega

end Pos

/-- `all_not_at_end`. -/
def inside (len pos : Pos n) : Bool := decide (∀ k, pos k < len k)

/-- The positions within the sequences. -/
def box (len : Pos n) : Finset (Pos n) := Fintype.piFinset fun k => Finset.range (len k)

variable {len : Pos n}

theorem mem_box {pos : Pos n} : pos ∈ box len ↔ inside len pos = true := by
  simp [box, inside]

/-- The positions one below in a coordinate that `sel` selects. -/
def predsBy (sel : Pos n → Fin n → Prop) [∀ p x, Decidable (sel p x)] (pos : Pos n) : Finset (Pos n) :=
  (Finset.univ.filter fun x => pos x ≠ 0 ∧ sel pos x).image pos.prev

section

variable {sel : Pos n → Fin n → Prop} [∀ p x, Decidable (sel p x)] {len p q : Pos n}

theorem mem_predsBy : q ∈ predsBy sel p ↔ ∃ x, p = q.next x ∧ sel p x := by
  simp only [predsBy, Finset.mem_image, Finset.mem_filter, Finset.mem_univ, true_and]
  constructor
  · rintro ⟨x, ⟨hx, hsel⟩, rfl⟩
    exact ⟨x, (Pos.next_prev hx).symm, hsel⟩
  · rintro ⟨x, rfl, hsel⟩
    exact ⟨x, ⟨by simp [Pos.next], hsel⟩, Pos.prev_next q x⟩

theorem predsBy_zero : predsBy sel (0 : Pos n) = ∅ := by
  refine Finset.eq_empty_of_forall_notMem fun q hq => ?_
  obtain ⟨x, hx, -⟩ := mem_predsBy.mp hq
  have := congrFun hx x
  simp [Pos.next] at this

theorem predsBy_rank : ∀ q ∈ predsBy sel p, ∑ k, q k < ∑ k, p k := by
  intro q hq
  simp only [predsBy, Finset.mem_image, Finset.mem_filter] at hq
  obtain ⟨x, ⟨-, hx, -⟩, rfl⟩ := hq
  exact Pos.sum_prev hx

theorem predsBy_box (hp : p ∈ box len) : predsBy sel p ⊆ box len := by
  intro q hq
  obtain ⟨x, rfl, -⟩ := mem_predsBy.mp hq
  simp only [mem_box, inside, decide_eq_true_eq] at hp ⊢
  intro k
  have := hp k
  by_cases hk : k = x
  · subst hk; simp [Pos.next] at this; omega
  · simpa [Pos.next, update_of_ne hk] using this

end

/-- `sorter`: queue entries compare by their value. -/
def sorter (lt : G → G → Bool) (e₁ e₂ : G × Pos n) : Bool := lt e₁.1 e₂.1

variable {H : HeapAlg} {lt : G → G → Bool} {product : Pos n → G} {len pos : Pos n} {D : Finset (Pos n)}
  {heap : List (G × Pos n)}

theorem sorter_strictWeak (h : StrictWeak lt) : StrictWeak (sorter (n := n) lt) :=
  ⟨h.asymm, h.negTrans⟩

/-- The front of a queue is its best. -/
theorem front_best (hlt : StrictWeak lt)
    (hheap : H.IsHeap (sorter lt) heap) (hvalue : ∀ e ∈ heap, e.1 = product e.2) {rest : List (Pos n)}
    (hf : heap.map Prod.snd = pos :: rest) : ∀ q ∈ rest, lt (product pos) (product q) = false := by
  cases heap with
  | nil => cases hf
  | cons e heap =>
    obtain ⟨rfl, rfl⟩ := hf
    intro q hq
    obtain ⟨e', he', rfl⟩ := mem_map.mp hq
    have hfront := H.front_max (sorter_strictWeak hlt) hheap he'
    rwa [sorter, hvalue e mem_cons_self, hvalue e' (mem_cons_of_mem e he')] at hfront

/-- What the queue of a product generator is, once the positions in `D` have been popped. -/
structure Queue (H : HeapAlg) (lt : G → G → Bool) (product : Pos n → G) (len : Pos n)
    (preds : Pos n → Finset (Pos n)) (D : Finset (Pos n)) (heap : List (G × Pos n)) : Prop where
  frontier : Frontier (box len) preds D (heap.map Prod.snd)
  value : ∀ e ∈ heap, e.1 = product e.2
  isHeap : StrictWeak lt → H.IsHeap (sorter lt) heap

namespace Queue

variable {preds : Pos n → Finset (Pos n)}

/-- The queue both generators start with. -/
theorem init (hpreds : ∀ p, preds p = ∅ ↔ p = 0) : Queue H lt product len preds ∅
    (if inside len 0 then H.push (sorter lt) (product 0, 0) [] else []) := by
  have hperm := H.push_perm (sorter lt) (product 0, (0 : Pos n)) []
  have hsorted : StrictWeak lt → H.IsHeap (sorter lt) ([] : List (G × Pos n)) :=
    fun hlt => H.sorted_isHeap (sorter_strictWeak hlt) List.Pairwise.nil
  split
  · rename_i h
    refine ⟨.start ?_ fun p => ?_, ?_, fun hlt => H.push_isHeap _ (sorter_strictWeak hlt) (hsorted hlt)⟩
    · exact (hperm.map Prod.snd).nodup_iff.mpr (nodup_singleton _)
    · rw [(hperm.map Prod.snd).mem_iff, hpreds, map_cons, map_nil, mem_singleton]
      exact ⟨fun hp => ⟨mem_box.mpr (hp ▸ h), hp⟩, And.right⟩
    · intro e he
      rw [H.mem_push] at he
      rcases he with rfl | he
      · rfl
      · cases he
  · rename_i h
    refine ⟨.start nodup_nil fun p => ?_, by simp, hsorted⟩
    rw [hpreds]
    refine ⟨fun hp => absurd hp not_mem_nil, fun ⟨hp, h0⟩ => ?_⟩
    exact absurd (mem_box.mp (h0 ▸ hp)) h

/-- One pop and the pushes it brings. -/
theorem step {rest : List (G × Pos n)} {v : G} (h : Queue H lt product len preds D ((v, pos) :: rest))
    (hself : pos ∉ preds pos) {new : List (Pos n)} (hn : new.Nodup)
    (hnew : ∀ p, p ∈ new ↔ p ∈ box len ∧ pos ∈ preds p ∧ preds p ⊆ insert pos D) {heap' : List (G × Pos n)}
    (hperm : heap'.Perm (new.map (fun p => (product p, p)) ++ rest)) (hheap : StrictWeak lt → H.IsHeap (sorter lt) heap') :
    Queue H lt product len preds (insert pos D) heap' := by
  refine ⟨?_, fun e he => ?_, hheap⟩
  · have hfront : Frontier (box len) preds (insert pos D) (new ++ rest.map Prod.snd) := h.frontier.visit hself hn hnew
    refine hfront.perm ?_
    have := hperm.map Prod.snd
    rwa [map_append, map_map, show (Prod.snd ∘ fun p => (product p, p)) = id from rfl, map_id] at this
  · rcases mem_append.mp (hperm.mem_iff.mp he) with he | he
    · obtain ⟨p, -, rfl⟩ := mem_map.mp he
      rfl
    · exact h.value e (mem_cons_of_mem _ he)

end Queue

theorem card_box (len : Pos n) : (box len).card = ∏ k, len k := by simp [box, Fintype.card_piFinset]

/-- No position of the box gives more than one below it. -/
def Graded (lt : G → G → Bool) (product : Pos n → G) (len : Pos n) : Prop :=
  ∀ p ∈ box len, ∀ x, p x ≠ 0 → lt (product (p.prev x)) (product p) = false

/-- `order` lists the positions of the box, and best first if the box is graded. -/
structure Walk (lt : G → G → Bool) (product : Pos n → G) (len : Pos n) (order : List (Pos n)) : Prop where
  nodup : order.Nodup
  mem : ∀ p, p ∈ order ↔ p ∈ box len
  sorted : StrictWeak lt → Graded lt product len → NonIncreasing lt (order.map product)

variable {fuel : Nat}

/-- **What a generator yields** that searches the box from its queue. -/
theorem walk_run {St : Type} {preds : Pos n → Finset (Pos n)} {heap : St → List (G × Pos n)} {step : St → St}
    (M : Search (box len) preds (fun s => (heap s).map Prod.snd) step) (hpreds : ∀ p, ∀ q ∈ preds p, ∃ x, p = q.next x)
    (hvalue : ∀ {D s}, M.Inv D s → ∀ e ∈ heap s, e.1 = product e.2)
    (hheap : ∀ {D s}, M.Inv D s → StrictWeak lt → H.IsHeap (sorter lt) (heap s)) {run : Nat → St → List G}
    (hstop : ∀ s, run 0 s = []) (hrun : ∀ fuel s, run (fuel + 1) s = match heap s with
      | [] => []
      | (value, _) :: _ => value :: run fuel (step s))
    {s : St} (hs : M.Inv ∅ s) (hfuel : ∏ k, len k ≤ fuel) :
    ∃ order, Walk lt product len order ∧ run fuel s = order.map product := by
  obtain ⟨hn, hmem⟩ := M.complete hs (by rwa [Finset.sdiff_empty, card_box] : _ ≤ fuel)
  have hyields : ∀ (fuel : Nat) {D : Finset (Pos n)} {s : St}, M.Inv D s →
      run fuel s = (explore (fun s => (heap s).map Prod.snd) step fuel s).map product := by
    intro fuel
    induction fuel with
    | zero => exact fun _ => hstop _
    | succ fuel ih =>
      intro D s h
      rw [hrun, explore]
      cases hb : heap s with
      | nil => rfl
      | cons e rest =>
        have hnext := M.step D s e.2 (rest.map Prod.snd) h (by rw [hb, map_cons])
        simp only [map_cons, ← hvalue h e (hb ▸ mem_cons_self), ih hnext]
  refine ⟨_, ⟨hn, by simpa using hmem, fun hlt hgraded => ?_⟩, hyields fuel hs⟩
  let := hlt.preorder
  have hmono : ∀ p ∈ box len, ∀ q ∈ preds p, product p ≤ product q := by
    intro p hp q hq
    obtain ⟨x, rfl⟩ := hpreds p q hq
    have := hgraded _ hp x (by simp [Pos.next])
    rwa [Pos.prev_next] at this
  exact pairwise_map.mpr (M.sorted hmono (fun D s _ _ h hf => front_best hlt (hheap h hlt) (hvalue h) hf) hs).1

/-! ## `product_heap_generator` -/

structure ProductHeap (H : HeapAlg) (lt : G → G → Bool) (n : Nat) where
  product : Pos n → G
  len : Pos n
  heap : List (G × Pos n)

namespace ProductHeap

variable (H lt product len) in
def init : ProductHeap H lt n :=
  ⟨product, len, if inside len 0 then H.push (sorter lt) (product 0, 0) [] else []⟩

/-- The loop of `increment`: raise a coordinate, and go on to the next only if it was zero. -/
def pushSuccessors (b : ProductHeap H lt n) (pos : Pos n) : List (Fin n) → List (G × Pos n) → List (G × Pos n)
  | [], heap => heap
  | x :: xs, heap =>
    let heap := if inside b.len (pos.next x) then H.push (sorter lt) (b.product (pos.next x), pos.next x) heap else heap
    if pos x ≠ 0 then heap else pushSuccessors b pos xs heap

def increment (b : ProductHeap H lt n) : ProductHeap H lt n :=
  match b.heap with
  | [] => b
  | (_, pos) :: _ => { b with heap := b.pushSuccessors pos (finRange n) (H.pop (sorter lt) b.heap) }

def run : Nat → ProductHeap H lt n → List G
  | 0, _ => []
  | fuel + 1, b =>
    match b.heap with
    | [] => []
    | (value, _) :: _ => value :: run fuel b.increment

end ProductHeap

variable (H lt product len) in
/-- `generate_product_heap`, run to the end. -/
def productHeap : List G :=
  (ProductHeap.init H lt product len).run (∏ k, len k)

namespace ProductHeap

/-- The positions `pushSuccessors` pushes. -/
def succs (len pos : Pos n) : List (Fin n) → List (Pos n)
  | [] => []
  | x :: xs =>
    (if inside len (pos.next x) then [pos.next x] else []) ++ (if pos x ≠ 0 then [] else succs len pos xs)

theorem pushSuccessors_perm (b : ProductHeap H lt n) (pos : Pos n) : ∀ (xs : List (Fin n)) (heap : List (G × Pos n)),
    (b.pushSuccessors pos xs heap).Perm ((succs b.len pos xs).map (fun p => (b.product p, p)) ++ heap) ∧
    (StrictWeak lt → H.IsHeap (sorter lt) heap → H.IsHeap (sorter lt) (b.pushSuccessors pos xs heap))
  | [], heap => ⟨.refl _, fun _ h => h⟩
  | x :: xs, heap => by
    -- the push at `x`, whatever comes after it
    obtain ⟨heap', hheap'⟩ : ∃ heap', heap' = if inside b.len (pos.next x) then
      H.push (sorter lt) (b.product (pos.next x), pos.next x) heap else heap := ⟨_, rfl⟩
    have hperm : heap'.Perm ((if inside b.len (pos.next x) then [pos.next x] else []).map
        (fun p => (b.product p, p)) ++ heap) := by
      subst hheap'
      split
      · exact H.push_perm _ _ _
      · exact .refl _
    have hheap : StrictWeak lt → H.IsHeap (sorter lt) heap → H.IsHeap (sorter lt) heap' := by
      subst hheap'
      intro hlt h
      split
      · exact H.push_isHeap _ (sorter_strictWeak hlt) h
      · exact h
    obtain ⟨ih, ih'⟩ := pushSuccessors_perm b pos xs heap'
    simp only [pushSuccessors, succs, ← hheap']
    by_cases hx : pos x ≠ 0
    · simp only [hx, if_true, not_false_eq_true, ne_eq, append_nil]
      exact ⟨hperm, hheap⟩
    · simp only [hx, if_false, map_append]
      refine ⟨ih.trans ?_, fun hlt h => ih' hlt (hheap hlt h)⟩
      rw [append_assoc]
      exact (hperm.append_left _).trans (perm_append_comm_assoc _ _ _)

theorem mem_succs {p : Pos n} : ∀ {xs : List (Fin n)}, xs.Pairwise (· < ·) →
    (p ∈ succs len pos xs ↔ ∃ x ∈ xs, p = pos.next x ∧ inside len p = true ∧ ∀ y ∈ xs, y < x → pos y = 0)
  | [], _ => by simp [succs]
  | x :: xs, h => by
    obtain ⟨hx, hxs⟩ := pairwise_cons.mp h
    have ih := mem_succs (p := p) hxs
    simp only [succs, mem_append]
    constructor
    · rintro (hp | hp)
      · split at hp
        · rename_i hin
          rw [mem_singleton] at hp
          subst hp
          refine ⟨x, mem_cons_self, rfl, hin, fun y hy hlt => ?_⟩
          rcases mem_cons.mp hy with rfl | hy
          · exact absurd hlt (lt_irrefl _)
          · exact absurd hlt (lt_asymm (hx y hy))
        · cases hp
      · split at hp
        · cases hp
        · rename_i h0
          obtain ⟨z, hz, rfl, hin, hzero⟩ := ih.mp hp
          refine ⟨z, mem_cons_of_mem x hz, rfl, hin, fun y hy hlt => ?_⟩
          rcases mem_cons.mp hy with rfl | hy
          · exact not_not.mp h0
          · exact hzero y hy hlt
    · rintro ⟨z, hz, rfl, hin, hzero⟩
      rcases mem_cons.mp hz with rfl | hz
      · exact .inl (by simp [hin])
      · have h0 : pos x = 0 := hzero x mem_cons_self (hx z hz)
        refine .inr ?_
        simp only [h0, ne_eq, not_true_eq_false, if_false]
        exact ih.mpr ⟨z, hz, rfl, hin, fun y hy => hzero y (mem_cons_of_mem x hy)⟩

theorem succs_nodup : ∀ {xs : List (Fin n)}, xs.Pairwise (· < ·) → (succs len pos xs).Nodup
  | [], _ => nodup_nil
  | x :: xs, h => by
    obtain ⟨hx, hxs⟩ := pairwise_cons.mp h
    refine Nodup.append ?_ ?_ fun p hp hp' => ?_
    · split
      · exact nodup_singleton _
      · exact nodup_nil
    · split
      · exact nodup_nil
      · exact succs_nodup hxs
    · split at hp
      · split at hp'
        · cases hp'
        · rw [mem_singleton] at hp
          obtain ⟨z, hz, hpz, -⟩ := (mem_succs hxs).mp hp'
          have := pos.next_injective (hp.symm.trans hpz)
          exact absurd (hx z hz) (this ▸ lt_irrefl x)
      · cases hp

/-- A position comes after the one below it in its first nonzero coordinate. -/
def preds (pos : Pos n) : Finset (Pos n) := predsBy (fun p x => ∀ y < x, p y = 0) pos

theorem preds_eq_empty {p : Pos n} : preds p = ∅ ↔ p = 0 := by
  constructor
  · intro h
    by_contra hne
    obtain ⟨x, hx⟩ := ne_iff.mp hne
    have hS : (Finset.univ.filter fun k => p k ≠ 0).Nonempty := ⟨x, by simpa using hx⟩
    obtain ⟨hmem, hmin⟩ := And.intro (Finset.min'_mem _ hS) (Finset.min'_le (Finset.univ.filter fun k => p k ≠ 0))
    obtain ⟨z, hz⟩ : ∃ z, z = Finset.min' _ hS := ⟨_, rfl⟩
    rw [← hz] at hmem
    have hz0 : p z ≠ 0 := (Finset.mem_filter.mp hmem).2
    have hprev : p.prev z ∈ preds p := by
      refine mem_predsBy.mpr ⟨z, (Pos.next_prev hz0).symm, fun y hy => ?_⟩
      by_contra hy0
      exact absurd hy (not_lt.mpr (hz ▸ hmin y (by simpa using hy0)))
    rw [h] at hprev
    exact absurd hprev (Finset.notMem_empty _)
  · rintro rfl
    exact predsBy_zero

theorem mem_succs_iff (p : Pos n) : p ∈ succs len pos (finRange n) ↔
    p ∈ box len ∧ pos ∈ preds p ∧ preds p ⊆ insert pos D := by
  rw [mem_succs (pairwise_lt_finRange n), mem_box]
  simp only [mem_finRange, true_and, true_implies]
  constructor
  · rintro ⟨x, rfl, hin, hzero⟩
    have hbelow : ∀ y < x, pos.next x y = 0 := fun y hy => by
      rw [Pos.next, update_of_ne hy.ne, hzero y hy]
    refine ⟨hin, mem_predsBy.mpr ⟨x, rfl, hbelow⟩, fun q hq => ?_⟩
    obtain ⟨z, hz, hz0⟩ := mem_predsBy.mp hq
    -- both `x` and `z` are the first nonzero coordinate
    have hxz : x = z := by
      rcases lt_trichotomy x z with h | h | h
      · have := hz0 x h; simp [Pos.next] at this
      · exact h
      · have := hbelow z h; rw [hz] at this; simp [Pos.next] at this
    subst hxz
    have hqp : pos = q := by rw [← pos.prev_next x, hz, q.prev_next x]
    exact hqp ▸ Finset.mem_insert_self _ _
  · rintro ⟨hin, hpos, -⟩
    obtain ⟨x, rfl, hzero⟩ := mem_predsBy.mp hpos
    refine ⟨x, rfl, hin, fun y hy => ?_⟩
    have := hzero y hy
    rwa [Pos.next, update_of_ne hy.ne] at this

variable (product len D) in
/-- The machine with `D` popped. -/
structure Inv (b : ProductHeap H lt n) : Prop where
  product_eq : b.product = product
  len_eq : b.len = len
  queue : Queue H lt product len preds D b.heap

theorem init_inv : Inv product len ∅ (init H lt product len) := ⟨rfl, rfl, .init fun _ => preds_eq_empty⟩

theorem increment_inv {b : ProductHeap H lt n} (h : Inv product len D b) {rest : List (Pos n)}
    (hf : b.heap.map Prod.snd = pos :: rest) : Inv product len (insert pos D) b.increment := by
  obtain ⟨_, _, heap⟩ := b
  obtain ⟨rfl, rfl, hq⟩ := h
  cases heap with
  | nil => cases hf
  | cons e heap =>
    obtain ⟨v, pos'⟩ := e
    obtain ⟨rfl, -⟩ := hf
    have hself : pos' ∉ preds pos' := fun hp => absurd (predsBy_rank _ hp) (lt_irrefl _)
    have hsorted := pairwise_lt_finRange n
    refine ⟨rfl, rfl, hq.step hself (succs_nodup hsorted) mem_succs_iff ?_ fun hlt => ?_⟩
    · refine (pushSuccessors_perm _ pos' _ _).1.trans ?_
      exact (H.pop_perm (sorter lt) (v, pos') heap).append_left _
    · exact (pushSuccessors_perm _ pos' _ _).2 hlt (H.pop_isHeap (sorter_strictWeak hlt) (hq.isHeap hlt))

variable (H lt product len) in
def explorer :
    Explorer (box len) preds (fun b : ProductHeap H lt n => b.heap.map Prod.snd) increment where
  Inv := Inv product len
  rank p := ∑ k, p k
  rank_lt _ := predsBy_rank
  preds_box _ := predsBy_box
  frontier _ _ h := h.queue.frontier
  step _ _ _ _ h hf := increment_inv h hf

end ProductHeap

variable (H lt product len) in
theorem ProductHeap.run_walk (hfuel : ∏ k, len k ≤ fuel) :
    ∃ order, Walk lt product len order ∧ (ProductHeap.init H lt product len).run fuel = order.map product := by
  refine walk_run (ProductHeap.explorer H lt product len).search (fun p q hq => ?_) (fun h => h.queue.value)
    (fun h => h.queue.isHeap) (fun _ => rfl) (fun _ _ => rfl) ProductHeap.init_inv hfuel
  obtain ⟨x, hx, -⟩ := mem_predsBy.mp hq
  exact ⟨x, hx⟩

variable (H lt product len) in
/-- **`product_heap_generator` yields the product at every position exactly once.** -/
theorem productHeap_complete :
    ∃ order : List (Pos n), order.Nodup ∧ (∀ p, p ∈ order ↔ p ∈ box len) ∧
      productHeap H lt product len = order.map product := by
  obtain ⟨order, hwalk, hrun⟩ := ProductHeap.run_walk H lt product len le_rfl
  exact ⟨order, hwalk.nodup, hwalk.mem, hrun⟩

/-- **Best first**, if no coordinate improves by being raised. -/
theorem productHeap_sorted [LinearOrder K] (H : HeapAlg) {key : G → K}
    (hmono : ∀ p ∈ box len, ∀ x, p x ≠ 0 → key (product p) ≤ key (product (p.prev x))) :
    (productHeap H (fun a b => decide (key a < key b)) product len).Pairwise fun a b => key b ≤ key a := by
  obtain ⟨order, hwalk, hrun⟩ := ProductHeap.run_walk H (fun a b => decide (key a < key b)) product len le_rfl
  have hsorted := hwalk.sorted (.ofKey key) fun p hp x hx => by simpa using hmono p hp x hx
  rw [productHeap, hrun]
  exact hsorted.imp fun h => by simpa using h

/-! ## `buchse_product_generator` -/

structure Buchse (H : HeapAlg) (lt : G → G → Bool) (n : Nat) where
  product : Pos n → G
  len : Pos n
  heap : List (G × Pos n)
  /-- `buchse_counts`, with zero for what is not there. -/
  counts : Pos n → Nat

/-- `num_succ`: the coordinates a position can have been reached from. -/
def numSucc (pos : Pos n) : Nat := (Finset.univ.filter fun x => pos x ≠ 0).card

namespace Buchse

variable (H lt product len) in
def init : Buchse H lt n :=
  ⟨product, len, if inside len 0 then H.push (sorter lt) (product 0, 0) [] else [], fun _ => 0⟩

/-- The body of the loop of `increment`. -/
def raise (pos : Pos n) (b : Buchse H lt n) (x : Fin n) : Buchse H lt n :=
  if inside b.len (pos.next x) then
    let counts := update b.counts (pos.next x) (b.counts (pos.next x) + 1)
    { b with
      counts
      heap := if counts (pos.next x) = numSucc (pos.next x) then
        H.push (sorter lt) (b.product (pos.next x), pos.next x) b.heap else b.heap }
  else b

def increment (b : Buchse H lt n) : Buchse H lt n :=
  match b.heap with
  | [] => b
  | (_, pos) :: _ => (finRange n).foldl (raise pos) { b with heap := H.pop (sorter lt) b.heap }

def run : Nat → Buchse H lt n → List G
  | 0, _ => []
  | fuel + 1, b =>
    match b.heap with
    | [] => []
    | (value, _) :: _ => value :: run fuel b.increment

end Buchse

variable (H lt product len) in
/-- `generate_buchse_product`, run to the end. -/
def buchseProduct : List G :=
  (Buchse.init H lt product len).run (∏ k, len k)

namespace Buchse

/-- The positions that `raise` completes. -/
def completed (b : Buchse H lt n) (pos : Pos n) (xs : List (Fin n)) : List (Pos n) :=
  (xs.map pos.next).filter fun p => inside b.len p && decide (b.counts p + 1 = numSucc p)

theorem raise_counts (b : Buchse H lt n) (x : Fin n) (p : Pos n) :
    (raise pos b x).counts p = b.counts p + if p = pos.next x ∧ inside b.len p = true then 1 else 0 := by
  by_cases hin : inside b.len (pos.next x) = true
  · simp only [raise, hin, if_true]
    by_cases hp : p = pos.next x
    · subst hp; simp [hin]
    · simp [hp]
  · by_cases hp : p = pos.next x
    · subst hp; simp [raise, hin]
    · simp [raise, hin, hp]

theorem foldl_raise (pos : Pos n) : ∀ {xs : List (Fin n)} (b : Buchse H lt n), xs.Nodup →
    (xs.foldl (raise pos) b).product = b.product ∧ (xs.foldl (raise pos) b).len = b.len ∧
    (∀ p, (xs.foldl (raise pos) b).counts p =
      b.counts p + if (∃ x ∈ xs, p = pos.next x) ∧ inside b.len p = true then 1 else 0) ∧
    (xs.foldl (raise pos) b).heap.Perm ((b.completed pos xs).map (fun p => (b.product p, p)) ++ b.heap) ∧
    (StrictWeak lt → H.IsHeap (sorter lt) b.heap → H.IsHeap (sorter lt) (xs.foldl (raise pos) b).heap)
  | [], b, _ => ⟨rfl, rfl, by simp, by simp [completed], fun _ h => h⟩
  | x :: xs, b, hn => by
    obtain ⟨hx, hxs⟩ := nodup_cons.mp hn
    have hprod : (raise pos b x).product = b.product := by unfold raise; split <;> rfl
    have hlen : (raise pos b x).len = b.len := by unfold raise; split <;> rfl
    have hne : ∀ y ∈ xs, pos.next y ≠ pos.next x := fun y hy h => hx (pos.next_injective h ▸ hy)
    -- what `x` completes, and that it completes nothing else
    have hheap : (raise pos b x).heap.Perm ((b.completed pos [x]).map (fun p => (b.product p, p)) ++ b.heap) := by
      by_cases hin : inside b.len (pos.next x) = true
      · by_cases hc : b.counts (pos.next x) + 1 = numSucc (pos.next x)
        · simpa [raise, completed, hin, hc] using H.push_perm _ _ _
        · simp [raise, completed, hin, hc]
      · simp [raise, completed, hin]
    have hisHeap : StrictWeak lt → H.IsHeap (sorter lt) b.heap → H.IsHeap (sorter lt) (raise pos b x).heap := by
      intro hlt h
      unfold raise
      split
      · dsimp only
        split
        · exact H.push_isHeap _ (sorter_strictWeak hlt) h
        · exact h
      · exact h
    have hcompleted : (raise pos b x).completed pos xs = b.completed pos xs := by
      refine filter_congr fun p hp => ?_
      obtain ⟨y, hy, rfl⟩ := mem_map.mp hp
      rw [raise_counts, hlen, if_neg (fun h => hne y hy h.1)]
    obtain ⟨h1, h2, h3, h4, h5⟩ := foldl_raise pos (raise pos b x) hxs
    refine ⟨h1.trans hprod, h2.trans hlen, fun p => ?_, ?_, fun hlt h => h5 hlt (hisHeap hlt h)⟩
    · rw [foldl_cons, h3, raise_counts, hlen]
      by_cases hp : p = pos.next x
      · subst hp
        have : ¬ ∃ y ∈ xs, pos.next x = pos.next y := fun ⟨y, hy, h⟩ => hne y hy h.symm
        simp [this]
      · simp [hp]
    · refine h4.trans ?_
      rw [hcompleted, hprod]
      have hsplit : b.completed pos (x :: xs) = b.completed pos [x] ++ b.completed pos xs := by
        rw [completed, completed, completed, ← filter_append, ← map_append, singleton_append]
      rw [hsplit, map_append, append_assoc]
      exact (hheap.append_left _).trans (perm_append_comm_assoc _ _ _)

/-- A position comes after all positions one below it. -/
def preds (pos : Pos n) : Finset (Pos n) := predsBy (fun _ _ => True) pos

variable {p : Pos n}

theorem mem_preds {q : Pos n} : q ∈ preds p ↔ ∃ x, p = q.next x := by simp [preds, mem_predsBy]

theorem preds_eq_empty : preds p = ∅ ↔ p = 0 := by
  constructor
  · intro h
    funext x
    by_contra hx
    have hprev : p.prev x ∈ preds p := mem_preds.mpr ⟨x, (Pos.next_prev hx).symm⟩
    rw [h] at hprev
    exact absurd hprev (Finset.notMem_empty _)
  · rintro rfl
    exact predsBy_zero

/-- From how many sides a position has been reached. -/
def reached (D : Finset (Pos n)) (p : Pos n) : Nat := (Finset.univ.filter fun x => p x ≠ 0 ∧ p.prev x ∈ D).card

theorem reached_insert (hpos : pos ∉ D) (p : Pos n) :
    reached (insert pos D) p = reached D p + if ∃ x, p = pos.next x then 1 else 0 := by
  by_cases h : ∃ x, p = pos.next x
  · obtain ⟨x, rfl⟩ := h
    have hside : (Finset.univ.filter fun y => pos.next x y ≠ 0 ∧ (pos.next x).prev y ∈ insert pos D) =
        insert x (Finset.univ.filter fun y => pos.next x y ≠ 0 ∧ (pos.next x).prev y ∈ D) := by
      ext y
      simp only [Finset.mem_filter, Finset.mem_univ, true_and, Finset.mem_insert]
      by_cases hy : y = x
      · subst hy
        simp
      · simp only [hy, false_or, and_congr_right_iff]
        intro hy0
        refine or_iff_right fun heq => hy ?_
        exact pos.next_injective (by rw [← heq, Pos.next_prev hy0, heq])
    have hx : x ∉ Finset.univ.filter fun y => pos.next x y ≠ 0 ∧ (pos.next x).prev y ∈ D := by
      simp [Pos.prev_next, hpos]
    rw [reached, hside, Finset.card_insert_of_notMem hx, if_pos ⟨x, rfl⟩, reached]
  · rw [if_neg h, Nat.add_zero, reached]
    congr 1
    refine Finset.filter_congr fun x _ => and_congr_right fun hx => ?_
    rw [Finset.mem_insert]
    exact or_iff_right fun heq => h ⟨x, by rw [← heq, Pos.next_prev hx]⟩

theorem reached_eq_numSucc : reached D p = numSucc p ↔ preds p ⊆ D := by
  have hsub : (Finset.univ.filter fun x => p x ≠ 0 ∧ p.prev x ∈ D) ⊆ Finset.univ.filter fun x => p x ≠ 0 :=
    Finset.monotone_filter_right _ fun x _ h => h.1
  constructor
  · intro h q hq
    obtain ⟨x, rfl⟩ := mem_preds.mp hq
    have hall := Finset.eq_of_subset_of_card_le hsub h.ge
    have hx : x ∈ Finset.univ.filter fun y => q.next x y ≠ 0 := Finset.mem_filter.mpr ⟨Finset.mem_univ x, by simp⟩
    rw [← hall, Finset.mem_filter, Pos.prev_next] at hx
    exact hx.2.2
  · intro h
    refine congrArg Finset.card (subset_antisymm hsub fun x hx => ?_)
    have hx0 : p x ≠ 0 := (Finset.mem_filter.mp hx).2
    exact Finset.mem_filter.mpr ⟨Finset.mem_univ x, hx0, h (mem_preds.mpr ⟨x, (Pos.next_prev hx0).symm⟩)⟩

variable (product len D) in
/-- The machine with `D` popped. -/
structure Inv (b : Buchse H lt n) : Prop where
  product_eq : b.product = product
  len_eq : b.len = len
  queue : Queue H lt product len preds D b.heap
  counts : ∀ p ∈ box len, b.counts p = reached D p

theorem init_inv : Inv product len ∅ (init H lt product len) :=
  ⟨rfl, rfl, .init fun _ => preds_eq_empty, fun p _ => by simp [init, reached]⟩

theorem increment_inv {b : Buchse H lt n} (h : Inv product len D b) {rest : List (Pos n)}
    (hf : b.heap.map Prod.snd = pos :: rest) : Inv product len (insert pos D) b.increment := by
  obtain ⟨f, l, heap, counts⟩ := b
  obtain ⟨hf', hl, hq, hcounts⟩ := h
  subst hf' hl
  simp only at hq hcounts hf
  cases heap with
  | nil => cases hf
  | cons e heap =>
    obtain ⟨v, pos'⟩ := e
    obtain ⟨rfl, -⟩ := hf
    have hD : pos' ∉ D := ((hq.frontier.mem pos').mp (by simp)).2.1
    have hself : pos' ∉ preds pos' := fun hp => absurd (predsBy_rank _ hp) (lt_irrefl _)
    have hn := nodup_finRange n
    obtain ⟨h1, h2, h3, h4, h5⟩ := foldl_raise pos'
      (⟨f, l, H.pop (sorter lt) ((v, pos') :: heap), counts⟩ : Buchse H lt n) hn
    have hperm := h4.trans ((H.pop_perm (sorter lt) (v, pos') heap).append_left _)
    refine ⟨h1, h2, hq.step hself ?_ (fun p => ?_) hperm fun hlt => ?_, fun p hp => ?_⟩
    · exact ((nodup_map_iff pos'.next_injective).mpr hn).filter _
    · simp only [completed, mem_filter, mem_map, mem_finRange, true_and, Bool.and_eq_true,
        decide_eq_true_eq, ← mem_box, mem_preds]
      constructor
      · rintro ⟨⟨x, rfl⟩, hbox, hcount⟩
        refine ⟨hbox, ⟨x, rfl⟩, reached_eq_numSucc.mp ?_⟩
        rw [reached_insert hD, if_pos ⟨x, rfl⟩, ← hcounts _ hbox, hcount]
      · rintro ⟨hbox, ⟨x, rfl⟩, hpreds⟩
        refine ⟨⟨x, rfl⟩, hbox, ?_⟩
        rw [← reached_eq_numSucc.mpr hpreds, reached_insert hD, if_pos ⟨x, rfl⟩, hcounts _ hbox]
    · exact h5 hlt (H.pop_isHeap (sorter_strictWeak hlt) (hq.isHeap hlt))
    · have hin : inside l p = true := mem_box.mp hp
      rw [increment, h3, reached_insert hD, ← hcounts p hp]
      simp [hin]

theorem preds_rank : ∀ p : Pos n, ∀ q ∈ preds p, ∑ k, q k < ∑ k, p k := fun _ => predsBy_rank

variable (H lt product len) in
def explorer :
    Explorer (box len) preds (fun b : Buchse H lt n => b.heap.map Prod.snd) increment where
  Inv := Inv product len
  rank p := ∑ k, p k
  rank_lt := preds_rank
  preds_box _ := predsBy_box
  frontier _ _ h := h.queue.frontier
  step _ _ _ _ h hf := increment_inv h hf

end Buchse

variable (H lt product len) in
theorem Buchse.run_walk (hfuel : ∏ k, len k ≤ fuel) :
    ∃ order, Walk lt product len order ∧ (Buchse.init H lt product len).run fuel = order.map product := by
  exact walk_run (Buchse.explorer H lt product len).search (fun _ _ hq => Buchse.mem_preds.mp hq) (fun h => h.queue.value)
    (fun h => h.queue.isHeap) (fun _ => rfl) (fun _ _ => rfl) Buchse.init_inv hfuel

variable (H lt product len) in
/-- **`buchse_product_generator` yields the product at every position exactly once.** -/
theorem buchseProduct_complete :
    ∃ order : List (Pos n), order.Nodup ∧ (∀ p, p ∈ order ↔ p ∈ box len) ∧
      buchseProduct H lt product len = order.map product := by
  obtain ⟨order, hwalk, hrun⟩ := Buchse.run_walk H lt product len le_rfl
  exact ⟨order, hwalk.nodup, hwalk.mem, hrun⟩

end Sbmt.Gusc
