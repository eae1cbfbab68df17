import Sbmt.Lib.Enumerate
import Sbmt.Gusc.Account
import Sbmt.Gusc.Product
/-!
# The order in which the heap generators yield

`union_heap_generator` looks at the current value of its generators only, and opens a new one when the
best value in the heap falls below the best value in the window.  So it yields best first if each
generator does and the generators come best first too: `unionHeap_sorted`.  What it yields depends on
the values only through the comparison: `unionHeap_map`, and `productHeap_map` for the product.
-/

namespace Sbmt.Gusc

open Sbmt.Lib List

variable {α β K : Type} {H : HeapAlg} {fuel : Nat}

/-! ## Comparing generators by their current values -/

/-- The key of the current value; an empty generator is below all others. -/
def headKey (key : α → K) (g : List α) : WithBot K := g.head?.map key

@[simp] theorem headKey_cons (key : α → K) (a : α) (g : List α) : headKey key (a :: g) = (key a : WithBot K) := rfl

variable [LinearOrder K] {key : α → K}

/-- `lesser_…_score`. -/
abbrev lesserBy (key : α → K) (a b : α) : Bool := decide (key a < key b)

theorem compareCurrent_eq (key : α → K) : (compareCurrent (lesserBy key) : List α → List α → Bool) = lesserBy (headKey key) := by
  funext g1 g2
  cases g1 with
  | nil => cases g2 with
    | nil => rfl
    | cons b g2 => exact (decide_eq_true (WithBot.bot_lt_coe (key b))).symm
  | cons a g1 => cases g2 with
    | nil => exact (decide_eq_false (not_lt_bot (α := WithBot K))).symm
    | cons b g2 =>
      show decide (key a < key b) = decide ((key a : WithBot K) < key b)
      simp only [WithBot.coe_lt_coe]

theorem compareCurrent_strictWeak (key : α → K) : StrictWeak (compareCurrent (lesserBy key) : List α → List α → Bool) := by
  rw [compareCurrent_eq]
  exact .ofKey _

/-- Values come best first. -/
def BestFirst (key : α → K) (l : List α) : Prop := l.Pairwise fun a b => key b ≤ key a

theorem BestFirst.le_headKey {g : List α} (h : BestFirst key g) {a : α} (ha : a ∈ g) : (key a : WithBot K) ≤ headKey key g := by
  cases g with
  | nil => cases ha
  | cons b g =>
    rw [headKey_cons, WithBot.coe_le_coe]
    rcases mem_cons.mp ha with rfl | ha
    · exact le_rfl
    · exact (pairwise_cons.mp h).1 a ha

theorem BestFirst.tail {g : List α} (h : BestFirst key g) : BestFirst key g.tail := List.Pairwise.tail h

/-- Values come best first, and the first has key `m`. -/
def Tops (key : α → K) (m : K) (l : List α) : Prop := BestFirst key l ∧ headKey key l = m

variable {l : List α} {m : K}

theorem Tops.ne_nil (h : Tops key m l) : l ≠ [] := by
  rintro rfl
  exact WithBot.bot_ne_coe h.2

theorem Tops.le (h : Tops key m l) {a : α} (ha : a ∈ l) : key a ≤ m := by
  have := h.1.le_headKey ha
  rwa [h.2, WithBot.coe_le_coe] at this

theorem Tops.exists_mem (h : Tops key m l) : ∃ a ∈ l, key a = m := by
  cases l with
  | nil => exact absurd rfl h.ne_nil
  | cons a l => exact ⟨a, mem_cons_self, WithBot.coe_inj.mp h.2⟩

theorem tops_of_max (h : BestFirst key l) (hmax : ∀ a ∈ l, key a ≤ m) (hmem : ∃ a ∈ l, key a = m) : Tops key m l := by
  refine ⟨h, ?_⟩
  obtain ⟨a, ha, rfl⟩ := hmem
  cases l with
  | nil => cases ha
  | cons b l => exact le_antisymm (WithBot.coe_le_coe.mpr (hmax b mem_cons_self)) (h.le_headKey ha)

theorem tops_singleton (a : α) : Tops key (key a) [a] := ⟨pairwise_singleton _ _, rfl⟩

theorem Tops.map {key' : β → K} (h : Tops key m l) {f : α → β} {r : K → K} (hr : Monotone r)
    (hf : ∀ a, key' (f a) = r (key a)) : Tops key' (r m) (l.map f) := by
  refine tops_of_max (pairwise_map.mpr (h.1.imp fun hab => ?_)) ?_ ?_
  · rw [hf, hf]
    exact hr hab
  · intro b hb
    obtain ⟨a, ha, rfl⟩ := mem_map.mp hb
    rw [hf]
    exact hr (h.le ha)
  · obtain ⟨a, ha, rfl⟩ := h.exists_mem
    exact ⟨f a, mem_map_of_mem ha, hf a⟩

/-! ## Unions come best first -/

namespace UnionHeap

/-- A union of generators that share nothing. -/
abbrev Plain (H : HeapAlg) (fuel : Nat) (lt : α → α → Bool) := UnionHeap H fuel lt (List (List α)) (List α)

/-- All generators not yet used up. -/
def sources {lt : α → α → Bool} (u : Plain H fuel lt) : List (List α) := u.heap ++ u.window ++ u.gen

/-- The state between the steps: what waits outside is no better than what waits in the window. -/
structure Ordered (u : Plain H fuel (lesserBy key)) : Prop where
  live : ∀ g ∈ u.sources, g ≠ []
  bestFirst : ∀ g ∈ u.sources, BestFirst key g
  heap : H.IsHeap (compareCurrent (lesserBy key)) u.heap
  window : H.IsHeap (compareCurrent (lesserBy key)) u.window
  gen : u.gen.Pairwise fun g g' => headKey key g' ≤ headKey key g
  outside : ∀ w ∈ u.window, ∀ g ∈ u.gen, headKey key g ≤ headKey key w

/-- And what waits in the window or outside is no better than the best in the heap. -/
structure Leading (u : Plain H fuel (lesserBy key)) : Prop extends Ordered u where
  top : ∀ g ∈ u.heap.head?, ∀ g' ∈ u.sources, headKey key g' ≤ headKey key g
  window_done : u.window = [] → u.gen = []

variable {u : Plain H fuel (lesserBy key)}

variable {q : List (List α)} {g : List α}

theorem heap_front {g' : List α} (h : H.IsHeap (compareCurrent (lesserBy key)) (g :: q))
    (hg' : g' ∈ g :: q) : headKey key g' ≤ headKey key g := by
  rcases mem_cons.mp hg' with rfl | hg'
  · exact le_rfl
  · have := H.front_max (compareCurrent_strictWeak key) h hg'
    rw [compareCurrent_eq] at this
    exact not_lt.mp (of_decide_eq_false this)

theorem skipEmpties_live {σ : Type} (n : Nat) {gens : List (List α)} (h : ∀ g ∈ gens, g ≠ []) :
    (skipEmpties n gens : StateM σ (List (List α))) = pure gens := by
  cases n with
  | zero => rfl
  | succ n => cases gens with
    | nil => rfl
    | cons g gens => cases g with
      | nil => exact absurd rfl (h [] mem_cons_self)
      | cons a g => rfl

theorem pushToWindow_ordered {σ : Type} (h : u.Ordered) : ∃ u' : Plain H fuel (lesserBy key),
    (pushToWindow u : StateM σ _) = pure u' ∧ u'.Ordered ∧ u'.heap = u.heap ∧ u'.sources.Perm u.sources ∧
      (u'.window = [] → u'.gen = []) := by
  obtain ⟨gen, heap, window⟩ := u
  cases gen with
  | nil =>
    refine ⟨⟨[], heap, window⟩, ?_, h, rfl, .refl _, fun _ => rfl⟩
    show (skipEmpties fuel [] >>= fun gen => pure ⟨gen, heap, window⟩ : StateM σ (Plain H fuel (lesserBy key))) = _
    rw [skipEmpties_live fuel (fun g hg => absurd hg not_mem_nil)]
    rfl
  | cons g gen =>
    have hperm : (heap ++ H.push (compareCurrent (lesserBy key)) g window ++ gen).Perm (heap ++ window ++ g :: gen) := by
      rw [append_assoc, append_assoc]
      refine ((H.push_perm _ g window).append_right gen |>.append_left heap).trans ?_
      exact perm_middle.symm.append_left heap
    have hlive : ∀ g' ∈ gen, g' ≠ [] := fun g' hg' => h.live g' (by simp [sources, hg'])
    obtain ⟨hg, hgen⟩ := pairwise_cons.mp h.gen
    refine ⟨⟨gen, heap, H.push _ g window⟩, ?_, ?_, rfl, hperm, fun hnil => absurd hnil H.push_ne_nil⟩
    · show (skipEmpties fuel gen >>= fun gen' => pure ⟨gen', heap, H.push _ g window⟩ : StateM σ (Plain H fuel (lesserBy key))) = _
      rw [skipEmpties_live fuel hlive]
      rfl
    refine ⟨fun g' hg' => h.live g' (hperm.mem_iff.mp hg'), fun g' hg' => h.bestFirst g' (hperm.mem_iff.mp hg'), h.heap,
      H.push_isHeap g (compareCurrent_strictWeak key) h.window, hgen, ?_⟩
    intro w hw g' hg'
    rcases H.mem_push.mp hw with rfl | hw
    · exact hg g' hg'
    · exact h.outside w hw g' (mem_cons_of_mem g hg')

theorem refill_ordered {σ : Type} : ∀ {n : Nat} {u : Plain H fuel (lesserBy key)}, u.Ordered →
    (n = 0 → u.window = [] → u.gen = []) → ∃ u' : Plain H fuel (lesserBy key),
      (refill n u : StateM σ _) = pure u' ∧ u'.Ordered ∧ u'.heap = u.heap ∧ u'.sources.Perm u.sources ∧
        (u'.window = [] → u'.gen = [])
  | 0, u, h, hdone => ⟨u, rfl, h, rfl, .refl _, hdone rfl⟩
  | n + 1, u, h, _ => by
    obtain ⟨u1, hu1, h1, hheap1, hperm1, hdone1⟩ := pushToWindow_ordered (σ := σ) h
    obtain ⟨u2, hu2, h2, hheap2, hperm2, hdone2⟩ := refill_ordered (σ := σ) (n := n) h1 fun _ => hdone1
    refine ⟨u2, ?_, h2, hheap2.trans hheap1, hperm2.trans hperm1, hdone2⟩
    rw [refill, hu1, pure_bind, hu2]

theorem moveWindow_ordered : ∀ {n : Nat} {u : Plain H fuel (lesserBy key)}, u.Ordered → u.window.length = n →
    (moveWindow n u).Ordered ∧ (moveWindow n u).window = [] ∧ (moveWindow n u).gen = u.gen ∧
      (moveWindow n u).heap.Perm (u.heap ++ u.window)
  | 0, ⟨gen, heap, window⟩, h, hn => by
    obtain rfl : window = [] := length_eq_zero_iff.mp hn
    exact ⟨h, rfl, rfl, by simp [moveWindow]⟩
  | n + 1, ⟨gen, heap, []⟩, _, hn => by cases hn
  | n + 1, ⟨gen, heap, g :: w⟩, h, hn => by
    have hlt := compareCurrent_strictWeak key
    obtain ⟨heap', hheap'⟩ : ∃ l, l = H.push (compareCurrent (lesserBy key)) g heap := ⟨_, rfl⟩
    obtain ⟨w', hw'⟩ : ∃ l, l = H.pop (compareCurrent (lesserBy key)) (g :: w) := ⟨_, rfl⟩
    have hpop : w'.Perm w := hw' ▸ H.pop_perm _ g w
    have hperm : (heap' ++ w').Perm (heap ++ g :: w) :=
      ((hheap' ▸ H.push_perm _ g heap).append hpop).trans perm_middle.symm
    have h1 : Ordered (⟨gen, heap', w'⟩ : Plain H fuel (lesserBy key)) := by
      have hmem {x} : x ∈ heap' ++ w' ++ gen → x ∈ heap ++ g :: w ++ gen := (hperm.append_right gen).mem_iff.mp
      refine ⟨fun x hx => h.live x (hmem hx), fun x hx => h.bestFirst x (hmem hx), hheap' ▸ H.push_isHeap g hlt h.heap,
        hw' ▸ H.pop_isHeap hlt h.window, h.gen, fun x hx => ?_⟩
      exact h.outside x (mem_cons_of_mem g (hpop.mem_iff.mp hx))
    have hlen : w'.length = n := hpop.length_eq.trans (Nat.succ_injective hn)
    obtain ⟨h2, hw2, hgen2, hheap2⟩ := moveWindow_ordered h1 hlen
    have hstep : moveWindow (n + 1) (⟨gen, heap, g :: w⟩ : Plain H fuel (lesserBy key)) = moveWindow n ⟨gen, heap', w'⟩ := by
      rw [hheap', hw']
      rfl
    rw [hstep]
    exact ⟨h2, hw2, hgen2, hheap2.trans hperm⟩

/-- Opening the window: its generators, no worse than the ones outside, go to the heap. -/
theorem pushToHeap_leading {σ : Type} (h : u.Ordered) (hdone : u.window = [] → u.gen = []) :
    ∃ u' : Plain H fuel (lesserBy key), (pushToHeap u : StateM σ _) = pure u' ∧ u'.Leading ∧ u'.sources.Perm u.sources := by
  obtain ⟨h1, hw1, hgen1, hheap1⟩ := moveWindow_ordered h rfl
  have hdone1 : u.window.length = 0 → (moveWindow u.window.length u).window = [] →
      (moveWindow u.window.length u).gen = [] := fun hlen _ => hgen1.trans (hdone (length_eq_zero_iff.mp hlen))
  obtain ⟨u2, hu2, h2, hheap2, hperm2, hdone2⟩ := refill_ordered (σ := σ) h1 hdone1
  have hperm1 : (moveWindow u.window.length u).sources.Perm u.sources := by
    rw [sources, hw1, hgen1, append_nil]
    exact hheap1.append_right _
  have hperm : u2.sources.Perm u.sources := hperm2.trans hperm1
  refine ⟨u2, hu2, ⟨h2, ?_, hdone2⟩, hperm⟩
  · intro g hg g' hg'
    -- the best of the heap is no worse than what came from the window, and that no worse than the rest
    have hfront {x} (hx : x ∈ u2.heap) : headKey key x ≤ headKey key g := by
      obtain ⟨q, hq⟩ := head?_eq_some_iff.mp hg
      have hheap := h2.heap
      rw [hq] at hx hheap
      exact heap_front hheap hx
    have hmem {x} : x ∈ u2.heap ↔ x ∈ u.heap ∨ x ∈ u.window := by rw [hheap2, hheap1.mem_iff, mem_append]
    have hg'' := hperm.mem_iff.mp hg'
    simp only [sources, mem_append] at hg''
    rcases hg'' with hg'' | hg''
    · exact hfront (hmem.mpr hg'')
    · cases hwin : u.window with
      | nil => simp [hdone hwin] at hg''
      | cons w ws =>
        have hw : w ∈ u.window := by simp [hwin]
        exact (h.outside w hw g' hg'').trans (hfront (hmem.mpr (.inr hw)))

theorem init_leading (H : HeapAlg) (fuel : Nat) (σ : Type) {gens : List (List α)} (hlive : ∀ g ∈ gens, g ≠ [])
    (hbest : ∀ g ∈ gens, BestFirst key g) (hgens : gens.Pairwise fun g g' => headKey key g' ≤ headKey key g)
    {lookahead : Nat} (hl : 1 ≤ lookahead) : ∃ u : Plain H fuel (lesserBy key),
      (init H fuel (lesserBy key) gens lookahead : StateM σ _) = pure u ∧ u.Leading ∧ u.sources.Perm gens := by
  have h0 : Ordered (⟨gens, [], []⟩ : Plain H fuel (lesserBy key)) := by
    have hempty : H.IsHeap (compareCurrent (lesserBy key)) ([] : List (List α)) :=
      H.sorted_isHeap (compareCurrent_strictWeak key) .nil
    exact ⟨hlive, hbest, hempty, hempty, hgens, fun w hw => absurd hw not_mem_nil⟩
  obtain ⟨u1, hu1, h1, -, hperm1, hdone1⟩ := refill_ordered (σ := σ) (n := lookahead) h0 fun h => absurd h (by omega)
  obtain ⟨u2, hu2, h2, hperm2⟩ := pushToHeap_leading (σ := σ) h1 hdone1
  refine ⟨u2, ?_, h2, hperm2.trans hperm1⟩
  rw [init, skipEmpties_live fuel hlive, pure_bind, hu1, pure_bind, hu2]

/-- The heap after its best generator `g` has moved on. -/
theorem mem_requeue {x : List α} :
    x ∈ (if more g.tail then H.push (compareCurrent (lesserBy key)) g.tail (H.pop (compareCurrent (lesserBy key)) (g :: q))
      else H.pop (compareCurrent (lesserBy key)) (g :: q)) ↔ x = g.tail ∧ x ≠ [] ∨ x ∈ q := by
  have hmore : more g.tail = true ↔ g.tail ≠ [] := by
    cases g.tail <;> simp [more, peek?]
  split
  · rename_i h
    have hne := hmore.mp h
    rw [H.mem_push, H.mem_pop]
    constructor
    · rintro (rfl | hx)
      · exact .inl ⟨rfl, hne⟩
      · exact .inr hx
    · rintro (⟨rfl, -⟩ | hx)
      · exact .inl rfl
      · exact .inr hx
  · rename_i h
    rw [H.mem_pop]
    constructor
    · exact .inr
    · rintro (⟨rfl, hx⟩ | hx)
      · exact absurd (hmore.mpr hx) h
      · exact hx

theorem increment_leading {σ : Type} (h : u.Leading) (hu : u.heap = g :: q) :
    ∃ u' : Plain H fuel (lesserBy key), (increment u : StateM σ _) = pure u' ∧ u'.Leading ∧
      ∀ x ∈ u'.sources, x = g.tail ∨ x ∈ u.sources := by
  obtain ⟨gen, heap, window⟩ := u
  obtain rfl : heap = g :: q := hu
  have hlt := compareCurrent_strictWeak key
  obtain ⟨heap', hheap'⟩ : ∃ l, l = (if more g.tail then
      H.push (compareCurrent (lesserBy key)) g.tail (H.pop (compareCurrent (lesserBy key)) (g :: q))
      else H.pop (compareCurrent (lesserBy key)) (g :: q)) := ⟨_, rfl⟩
  have hheap : H.IsHeap (compareCurrent (lesserBy key)) heap' := by
    rw [hheap']
    split
    · exact H.push_isHeap _ hlt (H.pop_isHeap hlt h.heap)
    · exact H.pop_isHeap hlt h.heap
  have hmem {x} (hx : x ∈ heap' ++ window ++ gen) : x = g.tail ∧ x ≠ [] ∨ x ∈ g :: q ++ window ++ gen := by
    rw [hheap'] at hx
    simp only [mem_append, mem_requeue, mem_cons] at hx ⊢
    tauto
  have hord : Ordered (⟨gen, heap', window⟩ : Plain H fuel (lesserBy key)) := by
    refine ⟨fun x hx => ?_, fun x hx => ?_, hheap, h.window, h.gen, h.outside⟩
    · rcases hmem hx with hx | hx
      · exact hx.2
      · exact h.live x hx
    · rcases hmem hx with hx | hx
      · exact hx.1 ▸ (h.bestFirst g (by simp [sources])).tail
      · exact h.bestFirst x hx
  have hdone : window = [] → gen = [] := h.window_done
  have hstep : (increment ⟨gen, g :: q, window⟩ : StateM σ (Plain H fuel (lesserBy key))) =
      if windowDue (⟨gen, heap', window⟩ : Plain H fuel (lesserBy key)) then pushToHeap ⟨gen, heap', window⟩
      else pure ⟨gen, heap', window⟩ := by
    rw [hheap']
    rfl
  rw [hstep]
  split
  · obtain ⟨u', hu', hlead, hperm⟩ := pushToHeap_leading (σ := σ) hord hdone
    exact ⟨u', hu', hlead, fun x hx => (hmem (hperm.mem_iff.mp hx)).imp And.left id⟩
  · rename_i hdue
    refine ⟨_, rfl, ⟨hord, ?_, hdone⟩, fun x hx => (hmem hx).imp And.left id⟩
    · intro top htop x hx
      obtain ⟨q', hq'⟩ := head?_eq_some_iff.mp htop
      obtain rfl : heap' = top :: q' := hq'
      simp only [sources, mem_append] at hx
      have hwindow {w} (hw : w ∈ window) : headKey key w ≤ headKey key top := by
        cases window with
        | nil => cases hw
        | cons w0 ws =>
          have hw0 : headKey key w0 ≤ headKey key top := by
            rw [windowDue, compareCurrent_eq] at hdue
            exact not_lt.mp fun hlt => hdue (decide_eq_true hlt)
          exact (heap_front h.window hw).trans hw0
      rcases hx with (hx | hx) | hx
      · exact heap_front hheap hx
      · exact hwindow hx
      · cases window with
        | nil => rw [hdone rfl] at hx; cases hx
        | cons w0 ws => exact (h.outside w0 mem_cons_self x hx).trans (hwindow mem_cons_self)

/-- After the best, what is left of its generator and the other ones. -/
theorem bestFirst_cons {gens : List (List α)} {a : α} {g l : List α} (hg : a :: g ∈ gens)
    (hbest : ∀ x ∈ gens, BestFirst key x) (htop : ∀ x ∈ gens, headKey key x ≤ headKey key (a :: g))
    (hl : BestFirst key l) (hfrom : ∀ b ∈ l, ∃ x, (x = g ∨ x ∈ gens) ∧ b ∈ x) :
    BestFirst key (a :: l) ∧ ∀ b ∈ a :: l, ∃ x ∈ gens, b ∈ x := by
  have hsrc : ∀ b ∈ l, ∃ x ∈ gens, b ∈ x := by
    intro b hb
    obtain ⟨x, rfl | hx, hbx⟩ := hfrom b hb
    · exact ⟨a :: x, hg, mem_cons_of_mem a hbx⟩
    · exact ⟨x, hx, hbx⟩
  refine ⟨pairwise_cons.mpr ⟨fun b hb => ?_, hl⟩, fun b hb => ?_⟩
  · obtain ⟨x, hx, hbx⟩ := hsrc b hb
    exact WithBot.coe_le_coe.mp (((hbest x hx).le_headKey hbx).trans (htop x hx))
  · rcases mem_cons.mp hb with rfl | hb
    · exact ⟨b :: g, hg, mem_cons_self⟩
    · exact hsrc b hb

theorem drain_bestFirst {σ : Type} : ∀ {n : Nat} {u : Plain H fuel (lesserBy key)}, u.Leading → ∃ l : List α,
    (drain n u : StateM σ (List α)) = pure l ∧ BestFirst key l ∧ ∀ a ∈ l, ∃ g ∈ u.sources, a ∈ g
  | 0, _, _ => ⟨[], rfl, .nil, fun a ha => absurd ha not_mem_nil⟩
  | n + 1, ⟨gen, [], window⟩, _ => ⟨[], rfl, .nil, fun a ha => absurd ha not_mem_nil⟩
  | n + 1, ⟨gen, [] :: q, window⟩, h => absurd rfl (h.live [] (by simp [sources]))
  | n + 1, ⟨gen, (a :: g) :: q, window⟩, h => by
    obtain ⟨u', hu', hlead, hmem⟩ := increment_leading (σ := σ) h rfl
    obtain ⟨l, hl, hbest, hsrc⟩ := drain_bestFirst (σ := σ) (n := n) hlead
    have hstep : (drain (n + 1) (⟨gen, (a :: g) :: q, window⟩ : Plain H fuel (lesserBy key)) : StateM σ (List α)) = pure (a :: l) := by
      show (increment (⟨gen, (a :: g) :: q, window⟩ : Plain H fuel (lesserBy key)) >>= fun u => drain n u >>= fun l => pure (a :: l)) = _
      rw [hu', pure_bind, hl, pure_bind]
    refine ⟨a :: l, hstep, bestFirst_cons (by simp [sources]) h.bestFirst (h.top _ rfl) hbest fun b hb => ?_⟩
    obtain ⟨x, hx, hbx⟩ := hsrc b hb
    exact ⟨x, hmem x hx, hbx⟩

end UnionHeap

/-- **`union_heap_generator` yields best first** what generators that yield best first yield, if they come
best first themselves. -/
theorem unionHeap_sorted (H : HeapAlg) (key : α → K) {gens : List (List α)} (hlive : ∀ g ∈ gens, g ≠ [])
    (hbest : ∀ g ∈ gens, BestFirst key g) (hgens : gens.Pairwise fun g g' => headKey key g' ≤ headKey key g)
    {lookahead : Nat} (hl : 1 ≤ lookahead) : BestFirst key (unionHeap H (lesserBy key) gens lookahead) := by
  obtain ⟨u, hu, hlead, -⟩ := UnionHeap.init_leading H (lengthBound gens) (Finset Empty) hlive hbest hgens hl
  obtain ⟨l, hdrain, hsorted, -⟩ := UnionHeap.drain_bestFirst (σ := Finset Empty) (n := lengthBound gens) hlead
  have hrun : unionHeap H (lesserBy key) gens lookahead = l := by
    rw [unionHeap, hu, pure_bind, hdrain]
    rfl
  exact hrun ▸ hsorted

/-- The best of the union is the best of the first generator. -/
theorem tops_unionHeap {ε : Type} (H : HeapAlg) {m : ε → K} {f : ε → List α} {e : ε} {es : List ε}
    (hes : (e :: es).Pairwise fun e e' => m e' ≤ m e) (hf : ∀ e' ∈ e :: es, Tops key (m e') (f e')) :
    Tops key (m e) (unionHeap H (lesserBy key) ((e :: es).map f) 1) := by
  have hmem {a} : a ∈ unionHeap H (lesserBy key) ((e :: es).map f) 1 ↔ ∃ e' ∈ e :: es, a ∈ f e' := by
    rw [(unionHeap_perm H _ _ le_rfl).mem_iff]
    simp
  apply tops_of_max
  · apply unionHeap_sorted H key _ _ _ le_rfl
    · intro g hg
      obtain ⟨e', he', rfl⟩ := mem_map.mp hg
      exact (hf e' he').ne_nil
    · intro g hg
      obtain ⟨e', he', rfl⟩ := mem_map.mp hg
      exact (hf e' he').1
    · rw [pairwise_map]
      refine hes.imp_of_mem fun {e1 e2} h1 h2 hle => ?_
      rw [(hf e1 h1).2, (hf e2 h2).2]
      exact WithBot.coe_le_coe.mpr hle
  · intro a ha
    obtain ⟨e', he', ha⟩ := hmem.mp ha
    refine ((hf e' he').le ha).trans ?_
    rcases mem_cons.mp he' with rfl | he'
    · exact le_rfl
    · exact (pairwise_cons.mp hes).1 e' he'
  · obtain ⟨a, ha, hm⟩ := (hf e mem_cons_self).exists_mem
    exact ⟨a, hmem.mpr ⟨e, mem_cons_self, ha⟩, hm⟩

/-! ## Products of two sequences -/

/-- `generate_product_heap` over two sequences; it is asked only for positions within them. -/
def productHeap₂ (H : HeapAlg) (lt : α → α → Bool) (product : α → α → α) (dflt : α) (v1 v2 : List α) : List α :=
  productHeap H lt (fun pos => product (v1.getD (pos 0) dflt) (v2.getD (pos 1) dflt)) ![v1.length, v2.length]

theorem mem_box_two {n1 n2 : Nat} {p : Pos 2} : p ∈ box ![n1, n2] ↔ p 0 < n1 ∧ p 1 < n2 := by
  rw [mem_box, inside, decide_eq_true_eq, Fin.forall_fin_two]
  rfl

variable {v1 v2 : List α}

omit [LinearOrder K] in
/-- Every pair has its product listed once. -/
theorem productHeap₂_enumerates {ω : Type} (H : HeapAlg) (lt : α → α → Bool) (product : α → α → α) (dflt : α)
    {R : ω → α → Prop} {R' : ω × ω → α → Prop} {P1 P2 : ω → Prop} (h₁ : Enumerates R P1 v1)
    (h2 : Enumerates R P2 v2) (hR : ∀ w1 w2 x1 x2, R w1 x1 → R w2 x2 → R' (w1, w2) (product x1 x2)) :
    Enumerates R' (fun w => P1 w.1 ∧ P2 w.2) (productHeap₂ H lt product dflt v1 v2) := by
  obtain ⟨o1, hn1, hmem1, hR1⟩ := h₁
  obtain ⟨o2, hn2, hmem2, hR2⟩ := h2
  obtain ⟨ps, hn, hmem, hps⟩ := productHeap_complete H lt
    (fun pos => product (v1.getD (pos 0) dflt) (v2.getD (pos 1) dflt)) ![v1.length, v2.length]
  have hbound : ∀ p ∈ ps, p 0 < o1.length ∧ p 1 < o2.length := by
    intro p hp
    rw [hR1.length_eq, hR2.length_eq]
    exact mem_box_two.mp ((hmem p).mp hp)
  let pair (p : Pos 2) (hp : p 0 < o1.length ∧ p 1 < o2.length) : ω × ω := (o1.get ⟨p 0, hp.1⟩, o2.get ⟨p 1, hp.2⟩)
  refine ⟨ps.pmap pair hbound, ?_, ?_, ?_⟩
  · refine hn.pmap fun p hp q hq heq => ?_
    have h0 := hn1.injective_get (Prod.ext_iff.mp heq).1
    have h1 := hn2.injective_get (Prod.ext_iff.mp heq).2
    funext x
    fin_cases x
    · exact congrArg Fin.val h0
    · exact congrArg Fin.val h1
  · intro w
    show w ∈ ps.pmap pair hbound ↔ P1 w.1 ∧ P2 w.2
    rw [mem_pmap, ← hmem1, ← hmem2, mem_iff_get, mem_iff_get]
    constructor
    · rintro ⟨p, hp, rfl⟩
      exact ⟨⟨_, rfl⟩, ⟨_, rfl⟩⟩
    · rintro ⟨⟨i, hi⟩, ⟨j, hj⟩⟩
      have hbox : ![i.1, j.1] ∈ ps := (hmem _).mpr (mem_box_two.mpr (by simp [← hR1.length_eq, ← hR2.length_eq]))
      exact ⟨![i.1, j.1], hbox, Prod.ext hi hj⟩
  · rw [productHeap₂, hps]
    refine forall₂_pmap_map (fun p hp => ?_) ps hbound
    have hp1 : p 0 < v1.length := hR1.length_eq ▸ hp.1
    have hp2 : p 1 < v2.length := hR2.length_eq ▸ hp.2
    simp only [getD_eq_getElem?_getD, getElem?_eq_getElem hp1, getElem?_eq_getElem hp2, Option.getD_some]
    exact hR _ _ _ _ (hR1.get hp.1 hp1) (hR2.get hp.2 hp2)

variable {product : α → α → α}

/-- The product of two sequences that come best first comes best first, if the product is monotone. -/
theorem productHeap₂_sorted (H : HeapAlg) (dflt : α)
    (hleft : ∀ a a' b, key a ≤ key a' → key (product a b) ≤ key (product a' b))
    (hright : ∀ a b b', key b ≤ key b' → key (product a b) ≤ key (product a b')) (h1 : BestFirst key v1)
    (h2 : BestFirst key v2) : BestFirst key (productHeap₂ H (lesserBy key) product dflt v1 v2) := by
  have hprev {l : List α} (hl : BestFirst key l) {i : Nat} (hi : i < l.length) (h0 : i ≠ 0) :
      key (l.getD i dflt) ≤ key (l.getD (i - 1) dflt) := by
    have hi' : i - 1 < l.length := by omega
    rw [getD_eq_getElem?_getD, getD_eq_getElem?_getD, getElem?_eq_getElem hi, getElem?_eq_getElem hi']
    exact pairwise_iff_getElem.mp hl (i - 1) i hi' hi (by omega)
  refine productHeap_sorted H fun p hp x hx => ?_
  have hbox := mem_box_two.mp hp
  fin_cases x
  · exact hleft _ _ _ (hprev h1 hbox.1 hx)
  · exact hright _ _ _ (hprev h2 hbox.2 hx)

omit [LinearOrder K] in
theorem mem_productHeap₂ {lt : α → α → Bool} {dflt x : α} :
    x ∈ productHeap₂ H lt product dflt v1 v2 ↔ ∃ a ∈ v1, ∃ b ∈ v2, product a b = x := by
  obtain ⟨ps, -, hmem, hps⟩ := productHeap_complete H lt
    (fun pos => product (v1.getD (pos 0) dflt) (v2.getD (pos 1) dflt)) ![v1.length, v2.length]
  rw [productHeap₂, hps, mem_map]
  constructor
  · rintro ⟨p, hp, rfl⟩
    obtain ⟨h1, h2⟩ := mem_box_two.mp ((hmem p).mp hp)
    refine ⟨_, ?_, _, ?_, rfl⟩
    · simp [getD_eq_getElem?_getD, h1]
    · simp [getD_eq_getElem?_getD, h2]
  · rintro ⟨a, ha, b, hb, rfl⟩
    obtain ⟨i, hi, rfl⟩ := mem_iff_getElem.mp ha
    obtain ⟨j, hj, rfl⟩ := mem_iff_getElem.mp hb
    refine ⟨![i, j], (hmem _).mpr (mem_box_two.mpr ⟨hi, hj⟩), ?_⟩
    simp [getD_eq_getElem?_getD, hi, hj]

/-- The best of the product is the product of the bests. -/
theorem tops_productHeap₂ [Mul K] [MulLeftMono K] [MulRightMono K] (H : HeapAlg) (dflt : α)
    {m1 m2 : K} (hproduct : ∀ a b, key (product a b) = key a * key b) (h1 : Tops key m1 v1)
    (h2 : Tops key m2 v2) : Tops key (m1 * m2) (productHeap₂ H (lesserBy key) product dflt v1 v2) := by
  apply tops_of_max
  · apply productHeap₂_sorted H dflt _ _ h1.1 h2.1
    · intro a a' b h
      rw [hproduct, hproduct]
      exact mul_le_mul_left h _
    · intro a b b' h
      rw [hproduct, hproduct]
      exact mul_le_mul_right h _
  · intro x hx
    obtain ⟨a, ha, b, hb, rfl⟩ := mem_productHeap₂.mp hx
    rw [hproduct]
    exact mul_le_mul' (h1.le ha) (h2.le hb)
  · obtain ⟨a, ha, rfl⟩ := h1.exists_mem
    obtain ⟨b, hb, rfl⟩ := h2.exists_mem
    exact ⟨product a b, mem_productHeap₂.mpr ⟨a, ha, b, hb, rfl⟩, hproduct a b⟩

/-! ## The values matter only through the comparison -/

omit [LinearOrder K]

section

variable {σ : Type} {lt : α → α → Bool} {lt' : β → β → Bool} {f : α → β}

theorem compareCurrent_map (hf : ∀ a b, lt' (f a) (f b) = lt a b) (g1 g2 : List α) :
    compareCurrent lt' (g1.map f) (g2.map f) = compareCurrent lt g1 g2 := by
  cases g1 <;> cases g2 <;> simp [compareCurrent, peekCompare, peek?, hf]

theorem more_map (g : List α) : more (g.map f) = more g := by
  cases g <;> rfl

theorem skipEmpties_map : ∀ (n : Nat) (gens : List (List α)),
    (skipEmpties n (gens.map (List.map f)) : StateM σ _) = List.map (List.map f) <$> skipEmpties n gens
  | 0, _ => rfl
  | _ + 1, [] => rfl
  | n + 1, [] :: gens => skipEmpties_map n gens
  | _ + 1, (_ :: _) :: _ => rfl

namespace UnionHeap

/-- The same state over the mapped values. -/
def map (f : α → β) (lt' : β → β → Bool) (u : Plain H fuel lt) :
    Plain H fuel lt' :=
  ⟨u.gen.map (List.map f), u.heap.map (List.map f), u.window.map (List.map f)⟩

variable (hH : H.Uniform) (hf : ∀ a b, lt' (f a) (f b) = lt a b)

include hH hf

section

variable (u : Plain H fuel lt)

theorem pushToWindow_map : (pushToWindow (u.map f lt') : StateM σ _) = map f lt' <$> pushToWindow u := by
  have hskip (gen heap window : List (List α)) (window' : List (List β)) (hw : window.map (List.map f) = window') :
      (skipEmpties fuel (gen.map (List.map f)) >>= fun gen => pure ⟨gen, heap.map (List.map f), window'⟩ :
        StateM σ (Plain H fuel lt')) =
      map f lt' <$> (skipEmpties fuel gen >>= fun gen => pure (⟨gen, heap, window⟩ : Plain H fuel lt)) := by
    rw [skipEmpties_map, ← hw]
    rfl
  obtain ⟨gen, heap, window⟩ := u
  cases gen with
  | nil => exact hskip [] heap window _ rfl
  | cons g gen => exact hskip gen heap _ _ (hH.map_push (compareCurrent_map hf) g window)

theorem refill_map : ∀ (n : Nat) (u : Plain H fuel lt),
    (refill n (u.map f lt') : StateM σ _) = map f lt' <$> refill n u
  | 0, _ => rfl
  | n + 1, u => by
    rw [refill, pushToWindow_map hH hf]
    exact bind_congr fun u => refill_map n u

theorem moveWindow_map : ∀ (n : Nat) (u : Plain H fuel lt),
    moveWindow n (u.map f lt') = (moveWindow n u).map f lt'
  | 0, _ => rfl
  | _ + 1, ⟨_, _, []⟩ => rfl
  | n + 1, ⟨gen, heap, g :: w⟩ => by
    have hpush := hH.map_push (compareCurrent_map hf) g heap
    have hpop := hH.map_pop (compareCurrent_map hf) (g :: w)
    have ih := moveWindow_map n (⟨gen, H.push (compareCurrent lt) g heap, H.pop (compareCurrent lt) (g :: w)⟩ :
      Plain H fuel lt)
    rw [map, hpush, hpop] at ih
    exact ih

theorem pushToHeap_map : (pushToHeap (u.map f lt') : StateM σ _) = map f lt' <$> pushToHeap u := by
  have hlen : (u.map f lt').window.length = u.window.length := length_map _
  rw [pushToHeap, hlen, moveWindow_map hH hf, refill_map hH hf]
  rfl

theorem init_map (gens : List (List α)) (lookahead : Nat) :
    (init H fuel lt' (gens.map (List.map f)) lookahead : StateM σ _) = map f lt' <$> init H fuel lt gens lookahead := by
  have hrefill (gen : List (List α)) : (refill lookahead ⟨gen.map (List.map f), [], []⟩ : StateM σ _) =
      map f lt' <$> refill lookahead (⟨gen, [], []⟩ : Plain H fuel lt) :=
    refill_map hH hf lookahead ⟨gen, [], []⟩
  simp only [init, skipEmpties_map, bind_map_left, map_bind, hrefill, pushToHeap_map hH hf]

omit hH in
theorem windowDue_map : windowDue (u.map f lt') = windowDue u := by
  obtain ⟨gen, heap, window⟩ := u
  cases window with
  | nil => rfl
  | cons w ws => cases heap with
    | nil => rfl
    | cons g q => exact compareCurrent_map hf g w

theorem increment_map : (increment (u.map f lt') : StateM σ _) = map f lt' <$> increment u := by
  obtain ⟨gen, heap, window⟩ := u
  cases heap with
  | nil => rfl
  | cons g q =>
    obtain ⟨heap', hheap'⟩ : ∃ l, l = (if more g.tail then
        H.push (compareCurrent lt) g.tail (H.pop (compareCurrent lt) (g :: q)) else H.pop (compareCurrent lt) (g :: q)) :=
      ⟨_, rfl⟩
    have hmap : heap'.map (List.map f) = (if more (g.map f).tail then
        H.push (compareCurrent lt') (g.map f).tail (H.pop (compareCurrent lt') ((g :: q).map (List.map f)))
        else H.pop (compareCurrent lt') ((g :: q).map (List.map f))) := by
      rw [hheap', ← map_tail, more_map]
      split
      · rw [hH.map_push (compareCurrent_map hf), hH.map_pop (compareCurrent_map hf)]
      · rw [hH.map_pop (compareCurrent_map hf)]
    have hleft : (increment (map f lt' (⟨gen, g :: q, window⟩ : Plain H fuel lt)) : StateM σ _) =
        if windowDue (map f lt' (⟨gen, heap', window⟩ : Plain H fuel lt)) then
          pushToHeap (map f lt' (⟨gen, heap', window⟩ : Plain H fuel lt))
        else pure (map f lt' (⟨gen, heap', window⟩ : Plain H fuel lt)) := by
      rw [map, map, hmap]
      rfl
    have hright : (increment ⟨gen, g :: q, window⟩ : StateM σ (Plain H fuel lt)) =
        if windowDue (⟨gen, heap', window⟩ : Plain H fuel lt) then pushToHeap ⟨gen, heap', window⟩
        else pure ⟨gen, heap', window⟩ := by
      rw [hheap']
      rfl
    rw [hleft, hright, windowDue_map hf]
    split
    · exact pushToHeap_map hH hf _
    · rfl

end

theorem drain_map : ∀ (n : Nat) (u : Plain H fuel lt),
    (drain n (u.map f lt') : StateM σ _) = List.map f <$> drain n u
  | 0, _ => rfl
  | _ + 1, ⟨_, [], _⟩ => rfl
  | _ + 1, ⟨_, [] :: _, _⟩ => rfl
  | n + 1, ⟨gen, (a :: g) :: q, window⟩ => by
    show (increment (map f lt' (⟨gen, (a :: g) :: q, window⟩ : Plain H fuel lt)) >>= fun u => drain n u >>=
        fun l => pure (f a :: l) : StateM σ _) =
      List.map f <$> (increment (⟨gen, (a :: g) :: q, window⟩ : Plain H fuel lt) >>= fun u => drain n u >>=
        fun l => pure (a :: l))
    rw [increment_map hH hf, bind_map_left, map_bind]
    refine bind_congr fun u => ?_
    rw [drain_map n u]
    rfl

end UnionHeap

theorem unionHeap_map (hH : H.Uniform) (hf : ∀ a b, lt' (f a) (f b) = lt a b) (gens : List (List α)) (lookahead : Nat) :
    unionHeap H lt' (gens.map (List.map f)) lookahead = (unionHeap H lt gens lookahead).map f := by
  have hbound : lengthBound (gens.map (List.map f)) = lengthBound gens := by
    simp only [lengthBound, map_map]
    exact congrArg List.sum (map_congr_left fun l _ => by simp)
  rw [unionHeap, hbound, UnionHeap.init_map hH hf, bind_map_left]
  simp only [UnionHeap.drain_map hH hf, ← map_bind]
  rfl

namespace ProductHeap

variable {n : Nat}

/-- The same state over the mapped products. -/
def map (f : α → β) (lt' : β → β → Bool) (b : ProductHeap H lt n) : ProductHeap H lt' n :=
  ⟨f ∘ b.product, b.len, b.heap.map (Prod.map f id)⟩

theorem sorter_map (hf : ∀ a b, lt' (f a) (f b) = lt a b) (e1 e2 : α × Pos n) :
    sorter lt' (Prod.map f id e1) (Prod.map f id e2) = sorter lt e1 e2 := hf _ _

variable (hH : H.Uniform) (hf : ∀ a b, lt' (f a) (f b) = lt a b)

include hH hf

theorem pushSuccessors_map (b : ProductHeap H lt n) (pos : Pos n) : ∀ (xs : List (Fin n)) (heap : List (α × Pos n)),
    (b.map f lt').pushSuccessors pos xs (heap.map (Prod.map f id)) = (b.pushSuccessors pos xs heap).map (Prod.map f id)
  | [], _ => rfl
  | x :: xs, heap => by
    have hpush : (if inside (b.map f lt').len (pos.next x) then
        H.push (sorter lt') ((b.map f lt').product (pos.next x), pos.next x) (heap.map (Prod.map f id))
        else heap.map (Prod.map f id)) =
        (if inside b.len (pos.next x) then H.push (sorter lt) (b.product (pos.next x), pos.next x) heap else heap).map
          (Prod.map f id) := by
      show (if inside b.len (pos.next x) then _ else _) = _
      split
      · exact (hH.map_push (sorter_map hf) (b.product (pos.next x), pos.next x) heap).symm
      · rfl
    simp only [pushSuccessors, hpush]
    split
    · rfl
    · exact pushSuccessors_map b pos xs _

theorem increment_map (b : ProductHeap H lt n) : (b.map f lt').increment = b.increment.map f lt' := by
  obtain ⟨product, len, heap⟩ := b
  cases heap with
  | nil => rfl
  | cons e q =>
    have hpop : (H.pop (sorter lt) (e :: q)).map (Prod.map f id) = H.pop (sorter lt') ((e :: q).map (Prod.map f id)) :=
      hH.map_pop (sorter_map hf) (e :: q)
    have hloop := pushSuccessors_map hH hf (⟨product, len, e :: q⟩ : ProductHeap H lt n) e.2 (finRange n)
      (H.pop (sorter lt) (e :: q))
    rw [hpop] at hloop
    exact congrArg (ProductHeap.mk (f ∘ product) len) hloop

theorem run_map : ∀ (fuel : Nat) (b : ProductHeap H lt n), (b.map f lt').run fuel = (b.run fuel).map f
  | 0, _ => rfl
  | _ + 1, ⟨_, _, []⟩ => rfl
  | fuel + 1, ⟨product, len, e :: q⟩ => by
    have ih := run_map fuel (increment (⟨product, len, e :: q⟩ : ProductHeap H lt n))
    rw [← increment_map hH hf] at ih
    exact congrArg (f e.1 :: ·) ih

end ProductHeap

theorem productHeap_map {n : Nat} (hH : H.Uniform) (hf : ∀ a b, lt' (f a) (f b) = lt a b) (product : Pos n → α) (len : Pos n) :
    productHeap H lt' (f ∘ product) len = (productHeap H lt product len).map f := by
  have hinit : ProductHeap.init H lt' (f ∘ product) len = (ProductHeap.init H lt product len).map f lt' := by
    have hpush : (H.push (sorter lt) (product 0, (0 : Pos n)) []).map (Prod.map f id) = H.push (sorter lt') (f (product 0), 0) [] :=
      hH.map_push (ProductHeap.sorter_map hf) (product 0, (0 : Pos n)) []
    unfold ProductHeap.init ProductHeap.map
    split
    · exact congrArg (ProductHeap.mk (f ∘ product) len) hpush.symm
    · rfl
  rw [productHeap, hinit, ProductHeap.run_map hH hf]
  rfl

theorem productHeap₂_map (hH : H.Uniform) (hf : ∀ a b, lt' (f a) (f b) = lt a b)
    {p : β → β → β} (hproduct : ∀ a b, f (product a b) = p (f a) (f b)) (dflt : α) (v1 v2 : List α) :
    productHeap₂ H lt' p (f dflt) (v1.map f) (v2.map f) = (productHeap₂ H lt product dflt v1 v2).map f := by
  rw [productHeap₂, productHeap₂, ← productHeap_map hH hf, length_map, length_map]
  refine congrArg (fun product => productHeap H lt' product _) (funext fun p => ?_)
  simp only [Function.comp_apply, hproduct, getD_eq_getElem?_getD, getElem?_map, Option.getD_map]

end

end Sbmt.Gusc
