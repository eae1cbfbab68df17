import Sbmt.Gusc.Product
/-!
# The three products agree (`gusc/gusc/generator`)

`hiero_product_generator` is the third walk of the box: a position joins the queue when the first position
below it is popped, and `positions` remembers which have joined.

| here | there |
| --- | --- |
| `Hiero` | `hiero_product_generator::impl_` (`hiero_product_generator.hpp:117-208`); `positions` is an `unordered_set`, of which only membership is ever asked |
| `hieroProduct` | `generate_hiero_product`, run to the end |
| `applyAt` | `apply_at`: the product of what stands at a position (`product_heap_generator.hpp:38-330`) |

The three walk one box by different rules, and best first all of them if the product is monotone in
sequences that are sorted.
-/

namespace Sbmt.Gusc

open Sbmt.Lib List Function

variable {G K : Type} {n : Nat} {H : HeapAlg} {lt : G → G → Bool} {product : Pos n → G} {len pos : Pos n}

structure Hiero (H : HeapAlg) (lt : G → G → Bool) (n : Nat) where
  product : Pos n → G
  len : Pos n
  heap : List (G × Pos n)
  positions : List (Pos n)

namespace Hiero

variable (H lt product len) in
def init : Hiero H lt n :=
  ⟨product, len, if inside len 0 then H.push (sorter lt) (product 0, 0) [] else [], []⟩

/-- The body of the loop of `increment`. -/
def raise (pos : Pos n) (b : Hiero H lt n) (x : Fin n) : Hiero H lt n :=
  if inside b.len (pos.next x) then
    if pos.next x ∈ b.positions then b
    else { b with
      heap := H.push (sorter lt) (b.product (pos.next x), pos.next x) b.heap
      positions := pos.next x :: b.positions }
  else b

def increment (b : Hiero H lt n) : Hiero H lt n :=
  match b.heap with
  | [] => b
  | (_, pos) :: _ => (finRange n).foldl (raise pos) { b with heap := H.pop (sorter lt) b.heap }

def run : Nat → Hiero H lt n → List G
  | 0, _ => []
  | fuel + 1, b =>
    match b.heap with
    | [] => []
    | (value, _) :: _ => value :: run fuel b.increment

end Hiero

variable (H lt product len) in
/-- `generate_hiero_product`, run to the end. -/
def hieroProduct : List G :=
  (Hiero.init H lt product len).run (∏ k, len k)

namespace Hiero

/-- The positions that `increment` comes across for the first time. -/
def fresh (b : Hiero H lt n) (pos : Pos n) (xs : List (Fin n)) : List (Pos n) :=
  (xs.map pos.next).filter fun p => inside b.len p && decide (p ∉ b.positions)

/-- What the loop leaves alone, pushes and remembers. -/
structure Raised (pos : Pos n) (xs : List (Fin n)) (b b' : Hiero H lt n) : Prop where
  product_eq : b'.product = b.product
  len_eq : b'.len = b.len
  perm : b'.heap.Perm ((b.fresh pos xs).map (fun p => (b.product p, p)) ++ b.heap)
  isHeap : StrictWeak lt → H.IsHeap (sorter lt) b.heap → H.IsHeap (sorter lt) b'.heap
  positions : ∀ p, p ∈ b'.positions ↔ p ∈ b.fresh pos xs ∨ p ∈ b.positions

theorem raise_raised (pos : Pos n) (b : Hiero H lt n) (x : Fin n) : Raised pos [x] b (raise pos b x) := by
  by_cases hin : inside b.len (pos.next x) = true
  · by_cases hseen : pos.next x ∈ b.positions
    · have hfresh : b.fresh pos [x] = [] := by simp [fresh, hseen]
      have hraise : raise pos b x = b := by simp [raise, hin, hseen]
      exact ⟨by rw [hraise], by rw [hraise], by simp [hraise, hfresh], by simp [hraise], by simp [hraise, hfresh]⟩
    · have hfresh : b.fresh pos [x] = [pos.next x] := by simp [fresh, hin, hseen]
      have hraise : raise pos b x = { b with
          heap := H.push (sorter lt) (b.product (pos.next x), pos.next x) b.heap
          positions := pos.next x :: b.positions } := by simp [raise, hin, hseen]
      rw [hraise]
      refine ⟨rfl, rfl, ?_, fun hlt h => H.push_isHeap _ (sorter_strictWeak hlt) h, fun p => ?_⟩
      · rw [hfresh]
        exact H.push_perm _ _ _
      · rw [hfresh, mem_cons, mem_singleton]
  · have hfresh : b.fresh pos [x] = [] := by simp [fresh, hin]
    have hraise : raise pos b x = b := by simp [raise, hin]
    exact ⟨by rw [hraise], by rw [hraise], by simp [hraise, hfresh], by simp [hraise], by simp [hraise, hfresh]⟩

theorem foldl_raise (pos : Pos n) : ∀ {xs : List (Fin n)} (b : Hiero H lt n), xs.Nodup →
    Raised pos xs b (xs.foldl (raise pos) b)
  | [], b, _ => ⟨rfl, rfl, by simp [fresh], fun _ h => h, by simp [fresh]⟩
  | x :: xs, b, hn => by
    obtain ⟨hx, hxs⟩ := nodup_cons.mp hn
    have h1 := raise_raised pos b x
    have h2 := foldl_raise pos (raise pos b x) hxs
    -- what `x` adds to `positions` is none of the positions raised after it
    have hlater : (raise pos b x).fresh pos xs = b.fresh pos xs := by
      refine filter_congr fun p hp => ?_
      obtain ⟨y, hy, rfl⟩ := mem_map.mp hp
      have hne : pos.next y ∉ b.fresh pos [x] := by
        intro hmem
        have heq := mem_singleton.mp (mem_filter.mp hmem).1
        exact hx (pos.next_injective heq ▸ hy)
      rw [h1.len_eq]
      simp only [h1.positions, hne, false_or]
    have hsplit : b.fresh pos (x :: xs) = b.fresh pos [x] ++ b.fresh pos xs := by
      rw [fresh, fresh, fresh, ← filter_append, ← map_append, singleton_append]
    rw [foldl_cons]
    refine ⟨h2.product_eq.trans h1.product_eq, h2.len_eq.trans h1.len_eq, ?_, fun hlt h => h2.isHeap hlt (h1.isHeap hlt h),
      fun p => ?_⟩
    · have hperm := h2.perm
      rw [hlater, h1.product_eq] at hperm
      rw [hsplit, map_append, append_assoc]
      exact hperm.trans ((h1.perm.append_left _).trans (perm_append_comm_assoc _ _ _))
    · rw [h2.positions, hlater, h1.positions, hsplit, mem_append]
      tauto

/-- The machine with `D` popped: `positions` is all that was ever queued but the first position. -/
structure Inv (product : Pos n → G) (len : Pos n) (D : Finset (Pos n)) (b : Hiero H lt n) : Prop where
  product_eq : b.product = product
  len_eq : b.len = len
  spread : Spread (box len) Buchse.preds D (b.heap.map Prod.snd)
  value : ∀ e ∈ b.heap, e.1 = product e.2
  isHeap : StrictWeak lt → H.IsHeap (sorter lt) b.heap
  positions : ∀ p, p ≠ 0 → (p ∈ b.positions ↔ p ∈ D ∨ p ∈ b.heap.map Prod.snd)

theorem init_inv : Inv product len ∅ (init H lt product len) := by
  have hperm := H.push_perm (sorter lt) (product 0, (0 : Pos n)) []
  have hnil : StrictWeak lt → H.IsHeap (sorter lt) ([] : List (G × Pos n)) :=
    fun hlt => H.sorted_isHeap (sorter_strictWeak hlt) List.Pairwise.nil
  unfold init
  split
  · rename_i h
    have hfront : ∀ p, p ∈ (H.push (sorter lt) (product 0, (0 : Pos n)) []).map Prod.snd ↔ p = 0 := by
      intro p
      rw [(hperm.map Prod.snd).mem_iff, map_cons, map_nil, mem_singleton]
    refine ⟨rfl, rfl, ⟨?_, fun p hp => ?_, fun p _ hp => ?_, fun _ _ _ _ hq => ?_⟩, fun e he => ?_, fun hlt => ?_, fun p hp => ?_⟩
    · exact (hperm.map Prod.snd).nodup_iff.mpr (nodup_singleton _)
    · rw [hfront] at hp
      exact ⟨mem_box.mpr (hp ▸ h), Finset.notMem_empty p⟩
    · exact .inr ((hfront p).mpr (Buchse.preds_eq_empty.mp hp))
    · exact absurd hq (Finset.notMem_empty _)
    · rw [hperm.mem_iff, mem_singleton] at he
      rw [he]
    · exact H.push_isHeap _ (sorter_strictWeak hlt) (hnil hlt)
    · simp [hfront, hp]
  · rename_i h
    refine ⟨rfl, rfl, ⟨nodup_nil, by simp, fun p hb hp => ?_, fun _ _ _ _ hq => ?_⟩, by simp, hnil, by simp⟩
    · rw [Buchse.preds_eq_empty.mp hp] at hb
      exact absurd (mem_box.mp hb) h
    · exact absurd hq (Finset.notMem_empty _)

theorem next_ne_zero (pos : Pos n) (x : Fin n) : pos.next x ≠ 0 := by
  intro h
  have := congrFun h x
  simp at this

theorem increment_inv {D : Finset (Pos n)} {b : Hiero H lt n} (h : Inv product len D b) {rest : List (Pos n)}
    (hf : b.heap.map Prod.snd = pos :: rest) : Inv product len (insert pos D) b.increment := by
  obtain ⟨f, l, heap, positions⟩ := b
  obtain ⟨rfl, rfl, hspread, hvalue, hheap, hpos⟩ := h
  cases heap with
  | nil => cases hf
  | cons e heap =>
    obtain ⟨v, pos'⟩ := e
    obtain ⟨rfl, -⟩ := hf
    have hn := nodup_finRange n
    obtain ⟨b0, hb0⟩ : ∃ b0 : Hiero H lt n, b0 = ⟨f, l, H.pop (sorter lt) ((v, pos') :: heap), positions⟩ := ⟨_, rfl⟩
    have hr := foldl_raise pos' b0 hn
    have hinc : increment ⟨f, l, (v, pos') :: heap, positions⟩ = (finRange n).foldl (raise pos') b0 := by
      rw [hb0]; rfl
    have hproduct : b0.product = f := by rw [hb0]
    have hpop : b0.heap.Perm heap := by
      rw [hb0]
      exact H.pop_perm (sorter lt) (v, pos') heap
    have hperm := hr.perm.trans (hpop.append_left _)
    -- the new positions are those above `pos'` that never were in the queue
    have hnew : ∀ p, p ∈ b0.fresh pos' (finRange n) ↔
        p ∈ box l ∧ pos' ∈ Buchse.preds p ∧ p ∉ D ∧ p ∉ pos' :: heap.map Prod.snd := by
      intro p
      simp only [hb0, fresh, mem_filter, mem_map, mem_finRange, true_and, Bool.and_eq_true, decide_eq_true_eq,
        ← mem_box, Buchse.mem_preds]
      constructor
      · rintro ⟨⟨x, rfl⟩, hbox, hseen⟩
        rw [hpos _ (next_ne_zero pos' x), not_or] at hseen
        exact ⟨hbox, ⟨x, rfl⟩, hseen⟩
      · rintro ⟨hbox, ⟨x, rfl⟩, hseen⟩
        refine ⟨⟨x, rfl⟩, hbox, ?_⟩
        rwa [hpos _ (next_ne_zero pos' x), not_or]
    have hfreshn : (b0.fresh pos' (finRange n)).Nodup :=
      ((nodup_map_iff pos'.next_injective).mpr hn).filter _
    have hfront := hperm.map Prod.snd
    rw [map_append, map_map, show (Prod.snd ∘ fun p => (b0.product p, p)) = id from rfl, map_id] at hfront
    rw [hinc]
    refine ⟨hr.product_eq.trans hproduct, hr.len_eq.trans (by rw [hb0]), (hspread.visit hfreshn hnew).perm hfront,
      fun e he => ?_, fun hlt => hr.isHeap hlt ?_, fun p hp => ?_⟩
    · rcases mem_append.mp (hperm.mem_iff.mp he) with he | he
      · obtain ⟨p, -, rfl⟩ := mem_map.mp he
        rw [hproduct]
      · exact hvalue e (mem_cons_of_mem _ he)
    · rw [hb0]
      exact H.pop_isHeap (sorter_strictWeak hlt) (hheap hlt)
    · rw [hr.positions, hfront.mem_iff, mem_append, show b0.positions = positions by rw [hb0], hpos p hp,
        map_cons, mem_cons, Finset.mem_insert]
      tauto

variable (H lt product len) in
def search :
    Search (box len) Buchse.preds (fun b : Hiero H lt n => b.heap.map Prod.snd) increment where
  Inv := Inv product len
  rank p := ∑ k, p k
  rank_lt := Buchse.preds_rank
  covers _ _ h := h.spread.covers fun _ => predsBy_box
  step _ _ _ _ h hf := increment_inv h hf

variable (H lt product len) in
theorem run_walk {fuel : Nat} (hfuel : ∏ k, len k ≤ fuel) :
    ∃ order, Walk lt product len order ∧ (init H lt product len).run fuel = order.map product := by
  exact walk_run (search H lt product len) (fun _ _ hq => Buchse.mem_preds.mp hq) (fun h => h.value) (fun h => h.isHeap)
    (fun _ => rfl) (fun _ _ => rfl) init_inv hfuel

end Hiero

/-! ## The three over sequences -/

section

variable {A : Fin n → Type} [Inhabited G]

/-- `apply_at`; past the end of a sequence, where nothing is ever asked for, it is the default. -/
def applyAt (product : (∀ k, A k) → G) (sequences : ∀ k, List (A k)) (pos : Pos n) : G :=
  if h : ∀ k, pos k < (sequences k).length then product fun k => (sequences k).get ⟨pos k, h k⟩ else default

/-- The ends of the sequences. -/
def ends (sequences : ∀ k, List (A k)) : Pos n := fun k => (sequences k).length

theorem mem_box_ends {sequences : ∀ k, List (A k)} :
    pos ∈ box (ends sequences) ↔ ∀ k, pos k < (sequences k).length := mem_box.trans decide_eq_true_iff

/-- The sequences are sorted, and the product is monotone in each argument: what comes `before` in a sequence makes
no less of it. -/
structure MonotoneProduct (lt : G → G → Bool) (product : (∀ k, A k) → G) (sequences : ∀ k, List (A k))
    (before : ∀ k, A k → A k → Prop) : Prop where
  sorted : ∀ k, (sequences k).Pairwise (before k)
  mono : ∀ (args : ∀ k, A k) k a b, before k a b →
    lt (product (update args k a)) (product (update args k b)) = false

theorem MonotoneProduct.graded {product : (∀ k, A k) → G} {sequences : ∀ k, List (A k)}
    {before : ∀ k, A k → A k → Prop} (h : MonotoneProduct lt product sequences before) :
    Graded lt (applyAt product sequences) (ends sequences) := by
  intro p hp x hx
  have hin := mem_box_ends.mp hp
  have hprev := mem_box_ends.mp (predsBy_box hp (Buchse.mem_preds.mpr ⟨x, (Pos.next_prev hx).symm⟩))
  obtain ⟨args, hargs⟩ : ∃ args : ∀ k, A k, args = fun k => (sequences k).get ⟨p k, hin k⟩ := ⟨_, rfl⟩
  -- the two positions differ in the `x`th argument alone
  have hat : applyAt product sequences p = product (update args x ((sequences x).get ⟨p x, hin x⟩)) := by
    rw [applyAt, dif_pos hin]
    rw [hargs, update_eq_self x fun k => (sequences k).get ⟨p k, hin k⟩]
  have hbelow : applyAt product sequences (p.prev x) =
      product (update args x ((sequences x).get ⟨p x - 1, by have := hprev x; simpa [Pos.prev] using this⟩)) := by
    rw [applyAt, dif_pos hprev]
    congr 1
    funext k
    by_cases hk : k = x
    · subst hk
      simp [Pos.prev]
    · simp [update_of_ne hk, Pos.prev, hargs]
  rw [hat, hbelow]
  refine h.mono args x _ _ ?_
  exact pairwise_iff_get.mp (h.sorted x) _ _ (Nat.sub_lt (Nat.pos_of_ne_zero hx) Nat.one_pos)

/-- **The three product generators yield the product of every tuple of the sequences exactly once, and best first if the
product is monotone.** -/
theorem products_agree (H : HeapAlg) (lt : G → G → Bool) (product : (∀ k, A k) → G) (sequences : ∀ k, List (A k))
    (fuel : Nat) (hfuel : ∏ k, (sequences k).length ≤ fuel) :
    ∃ heap hiero buchse : List (Pos n),
      (∀ order ∈ [heap, hiero, buchse], order.Nodup ∧ ∀ p, p ∈ order ↔ ∀ k, p k < (sequences k).length) ∧
      (ProductHeap.init H lt (applyAt product sequences) (ends sequences)).run fuel = heap.map (applyAt product sequences) ∧
      (Hiero.init H lt (applyAt product sequences) (ends sequences)).run fuel = hiero.map (applyAt product sequences) ∧
      (Buchse.init H lt (applyAt product sequences) (ends sequences)).run fuel = buchse.map (applyAt product sequences) ∧
      (heap.map (applyAt product sequences)).Perm (hiero.map (applyAt product sequences)) ∧
      (hiero.map (applyAt product sequences)).Perm (buchse.map (applyAt product sequences)) ∧
      (StrictWeak lt → ∀ before, MonotoneProduct lt product sequences before →
        ∀ order ∈ [heap, hiero, buchse], NonIncreasing lt (order.map (applyAt product sequences))) := by
  obtain ⟨heap, hheap, hrunHeap⟩ := ProductHeap.run_walk H lt (applyAt product sequences) (ends sequences) hfuel
  obtain ⟨hiero, hhiero, hrunHiero⟩ := Hiero.run_walk H lt (applyAt product sequences) (ends sequences) hfuel
  obtain ⟨buchse, hbuchse, hrunBuchse⟩ := Buchse.run_walk H lt (applyAt product sequences) (ends sequences) hfuel
  have hwalk : ∀ order ∈ [heap, hiero, buchse], Walk lt (applyAt product sequences) (ends sequences) order := by
    simp only [forall_mem_cons, not_mem_nil, false_implies, implies_true, and_true]
    exact ⟨hheap, hhiero, hbuchse⟩
  have hperm : ∀ {o o' : List (Pos n)}, Walk lt (applyAt product sequences) (ends sequences) o →
      Walk lt (applyAt product sequences) (ends sequences) o' → o.Perm o' := by
    intro o o' ho ho'
    exact (perm_ext_iff_of_nodup ho.nodup ho'.nodup).mpr fun p => (ho.mem p).trans (ho'.mem p).symm
  refine ⟨heap, hiero, buchse, fun order horder => ⟨(hwalk order horder).nodup, fun p => ?_⟩, hrunHeap, hrunHiero,
    hrunBuchse, (hperm hheap hhiero).map _, (hperm hhiero hbuchse).map _, fun hlt before hmono order horder => ?_⟩
  · rw [(hwalk order horder).mem, mem_box_ends]
  · exact (hwalk order horder).sorted hlt hmono.graded

end

section

/-- Two sequences from the best down, the second with a tie. -/
def twoSequences : Fin 2 → List Nat := ![[3, 1], [2, 2, 0]]

/-- The product of the two is their sum. -/
def total (args : Fin 2 → Nat) : Nat := args ⟨0, Nat.two_pos⟩ + args ⟨1, Nat.one_lt_two⟩

theorem total_monotone : MonotoneProduct (fun a b => decide (a < b)) total twoSequences fun _ a b => b ≤ a where
  sorted := by decide
  mono args k a b hab := by
    fin_cases k
    · simpa [total] using hab
    · simpa [total] using hab

theorem products_agree_twoSequences : ∏ k, (twoSequences k).length ≤ 6 ∧
    StrictWeak (fun a b : Nat => decide (a < b)) ∧
    MonotoneProduct (fun a b => decide (a < b)) total twoSequences (fun _ a b => b ≤ a) ∧
    NonIncreasing (fun a b => decide (a < b)) ((Hiero.init HeapAlg.sorted (fun a b => decide (a < b))
      (applyAt total twoSequences) (ends twoSequences)).run 6) := by
  refine ⟨by decide, .ofKey id, total_monotone, ?_⟩
  obtain ⟨_, hiero, _, -, -, hrun, -, -, -, hsorted⟩ := products_agree HeapAlg.sorted (fun a b => decide (a < b)) total
    twoSequences 6 (by decide)
  rw [hrun]
  exact hsorted (.ofKey id) _ total_monotone hiero (by simp)

example : hieroProduct HeapAlg.sorted (fun a b => decide (a < b)) (applyAt total twoSequences) (ends twoSequences) =
    [5, 5, 3, 3, 3, 1] := by decide

end

end Sbmt.Gusc
