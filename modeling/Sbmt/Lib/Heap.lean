import Mathlib
/-!
# Heaps kept in a vector

The heap algorithms of a standard library work in place on a vector: `push_heap` and `pop_heap`
permute it, the front is a greatest element, and which of several equal elements ends up there is not
specified.  `HeapAlg` is that contract.  Nothing here chooses an implementation: every result that
needs a priority queue takes an arbitrary `HeapAlg`, and `HeapAlg.sorted` shows the contract can be
met.

The permutation laws ask nothing of the comparison; the order laws ask that it is a strict weak order.
-/

namespace Sbmt.Lib

open List

variable {α K : Type}

/-- What a comparison owes to a heap. -/
structure StrictWeak (lt : α → α → Bool) : Prop where
  asymm : ∀ {a b}, lt a b = true → lt b a = false
  negTrans : ∀ {a b c}, lt a b = false → lt b c = false → lt a c = false

/-- Comparing by a key in a linear order. -/
theorem StrictWeak.ofKey [LinearOrder K] (key : α → K) : StrictWeak fun a b => decide (key a < key b) where
  asymm h := by
    simp only [decide_eq_true_eq, decide_eq_false_iff_not] at h ⊢
    exact not_lt_of_gt h
  negTrans hab hbc := by
    simp only [decide_eq_false_iff_not, not_lt] at hab hbc ⊢
    exact le_trans hbc hab

/-- The order a comparison makes: `a` is below `b` if `b` is not less. -/
@[reducible] def StrictWeak.preorder {lt : α → α → Bool} (h : StrictWeak lt) : Preorder α where
  le a b := lt b a = false
  le_refl a := by
    by_contra ha
    have ha := Bool.eq_true_of_not_eq_false ha
    exact absurd (h.asymm ha) (by simp [ha])
  le_trans a b c hab hbc := h.negTrans hbc hab

/-- No element is less than a later one. -/
def NonIncreasing (lt : α → α → Bool) (l : List α) : Prop := l.Pairwise fun a b => lt a b = false

/-- The heap algorithms over a vector, with their contract. -/
structure HeapAlg where
  IsHeap : {α : Type} → (α → α → Bool) → List α → Prop
  /-- `push_back` and `push_heap` -/
  push : {α : Type} → (α → α → Bool) → α → List α → List α
  /-- `pop_heap` and `pop_back` -/
  pop : {α : Type} → (α → α → Bool) → List α → List α
  push_perm : ∀ {α : Type} (lt : α → α → Bool) (a : α) (l : List α), (push lt a l).Perm (a :: l)
  pop_perm : ∀ {α : Type} (lt : α → α → Bool) (a : α) (l : List α), (pop lt (a :: l)).Perm l
  front_max : ∀ {α : Type} {lt : α → α → Bool} {a b : α} {l : List α}, StrictWeak lt →
    IsHeap lt (a :: l) → b ∈ l → lt a b = false
  push_isHeap : ∀ {α : Type} {lt : α → α → Bool} (a : α) {l : List α}, StrictWeak lt → IsHeap lt l →
    IsHeap lt (push lt a l)
  pop_isHeap : ∀ {α : Type} {lt : α → α → Bool} {a : α} {l : List α}, StrictWeak lt →
    IsHeap lt (a :: l) → IsHeap lt (pop lt (a :: l))
  sorted_isHeap : ∀ {α : Type} {lt : α → α → Bool} {l : List α}, StrictWeak lt → NonIncreasing lt l →
    IsHeap lt l

/-- The algorithms are templates: elements are moved and compared, and not looked into. -/
structure HeapAlg.Uniform (H : HeapAlg) : Prop where
  map_push : ∀ {α β : Type} {lt : α → α → Bool} {lt' : β → β → Bool} {f : α → β},
    (∀ a b, lt' (f a) (f b) = lt a b) → ∀ a l, (H.push lt a l).map f = H.push lt' (f a) (l.map f)
  map_pop : ∀ {α β : Type} {lt : α → α → Bool} {lt' : β → β → Bool} {f : α → β},
    (∀ a b, lt' (f a) (f b) = lt a b) → ∀ l, (H.pop lt l).map f = H.pop lt' (l.map f)

/-! ## A reference implementation: the vector is kept sorted -/

/-- Insertion behind every element that is not less. -/
def insertSorted (lt : α → α → Bool) (a : α) : List α → List α
  | [] => [a]
  | b :: l => if lt b a then a :: b :: l else b :: insertSorted lt a l

theorem insertSorted_perm (lt : α → α → Bool) (a : α) : ∀ l, (insertSorted lt a l).Perm (a :: l)
  | [] => .refl _
  | b :: l => by
    unfold insertSorted
    split
    · exact .refl _
    · exact ((insertSorted_perm lt a l).cons b).trans (.swap a b l)

theorem insertSorted_nonIncreasing {lt : α → α → Bool} (hlt : StrictWeak lt) (a : α) :
    ∀ {l}, NonIncreasing lt l → NonIncreasing lt (insertSorted lt a l)
  | [], _ => pairwise_singleton _ _
  | b :: l, h => by
    obtain ⟨hb, hl⟩ := pairwise_cons.mp h
    unfold insertSorted
    split
    · rename_i hba
      have hab := hlt.asymm hba
      refine pairwise_cons.mpr ⟨fun c hc => ?_, h⟩
      rcases mem_cons.mp hc with rfl | hc
      · exact hab
      · exact hlt.negTrans hab (hb c hc)
    · rename_i hba
      refine pairwise_cons.mpr ⟨fun c hc => ?_, insertSorted_nonIncreasing hlt a hl⟩
      rcases mem_cons.mp ((insertSorted_perm lt a l).mem_iff.mp hc) with rfl | hc
      · exact Bool.eq_false_iff.mpr hba
      · exact hb c hc

/-- A sorted vector is a heap. -/
def HeapAlg.sorted : HeapAlg where
  IsHeap := NonIncreasing
  push := insertSorted
  pop _ := List.tail
  push_perm := insertSorted_perm
  pop_perm _ _ _ := .refl _
  front_max _ h hb := (pairwise_cons.mp h).1 _ hb
  push_isHeap a _ hlt h := insertSorted_nonIncreasing hlt a h
  pop_isHeap _ h := (pairwise_cons.mp h).2
  sorted_isHeap _ h := h

theorem map_insertSorted {β : Type} {lt : α → α → Bool} {lt' : β → β → Bool} {f : α → β}
    (hf : ∀ a b, lt' (f a) (f b) = lt a b) (a : α) :
    ∀ l, (insertSorted lt a l).map f = insertSorted lt' (f a) (l.map f)
  | [] => rfl
  | b :: l => by
    simp only [insertSorted, map_cons, hf]
    split
    · rfl
    · rw [map_cons, map_insertSorted hf a l]

theorem HeapAlg.sorted_uniform : HeapAlg.sorted.Uniform where
  map_push hf a l := map_insertSorted hf a l
  map_pop _ _ := map_tail

namespace HeapAlg

variable (H : HeapAlg) {lt : α → α → Bool} {a b : α} {l : List α}

theorem mem_push : b ∈ H.push lt a l ↔ b = a ∨ b ∈ l := by
  rw [(H.push_perm lt a l).mem_iff, mem_cons]

theorem mem_pop : b ∈ H.pop lt (a :: l) ↔ b ∈ l := (H.pop_perm lt a l).mem_iff

theorem push_ne_nil : H.push lt a l ≠ [] := fun h => by
  have := (H.push_perm lt a l).length_eq
  simp [h] at this

theorem push_sum {M : Type} [AddCommMonoid M] (f : α → M) : ((H.push lt a l).map f).sum = f a + (l.map f).sum := by
  rw [((H.push_perm lt a l).map f).sum_eq, map_cons, sum_cons]

theorem pop_sum {M : Type} [AddCommMonoid M] (f : α → M) : ((H.pop lt (a :: l)).map f).sum = (l.map f).sum :=
  ((H.pop_perm lt a l).map f).sum_eq

end HeapAlg

end Sbmt.Lib
