import Mathlib

/-!
# Where the elements that are left of a list were

`List.filterMap` leaves some elements of a list, changed or not, in their order.  `position g l i` is the place in `l`
of the one that is at `i` afterwards: places are told apart and kept in order (`position_lt`), and every element that
is left has one (`exists_position`).
-/

namespace Sbmt.Lib.Survivors

variable {α β : Type*} {g : α → Option β}

def position (g : α → Option β) : List α → Nat → Nat
  | [], _ => 0
  | a :: l, i =>
    match g a, i with
    | none, i => position g l i + 1
    | some _, 0 => 0
    | some _, i + 1 => position g l i + 1

theorem position_cons_none {a : α} (h : g a = none) (l : List α) (i : Nat) :
    position g (a :: l) i = position g l i + 1 := by
  simp only [position, h]

theorem position_cons_some_zero {a : α} {b : β} (h : g a = some b) (l : List α) : position g (a :: l) 0 = 0 := by
  simp only [position, h]

theorem position_cons_some_succ {a : α} {b : β} (h : g a = some b) (l : List α) (i : Nat) :
    position g (a :: l) (i + 1) = position g l i + 1 := by
  simp only [position, h]

theorem getElem?_position {b : β} : ∀ {l : List α} {i : Nat}, (l.filterMap g)[i]? = some b →
    ∃ a, l[position g l i]? = some a ∧ g a = some b
  | [], i, h => by cases h
  | a :: l, i, h => by
    cases ha : g a with
    | none =>
      rw [List.filterMap_cons_none ha] at h
      rw [position_cons_none ha]
      exact getElem?_position h
    | some b' =>
      rw [List.filterMap_cons_some ha] at h
      cases i with
      | zero =>
        rw [position_cons_some_zero ha]
        exact ⟨a, rfl, ha.trans h⟩
      | succ i =>
        rw [position_cons_some_succ ha]
        exact getElem?_position h

theorem exists_position {a : α} {b : β} (hb : g a = some b) : ∀ {l : List α} {j : Nat}, l[j]? = some a →
    ∃ i, position g l i = j ∧ (l.filterMap g)[i]? = some b
  | [], j, h => by cases h
  | c :: l, j, h => by
    cases j with
    | zero =>
      obtain rfl : c = a := Option.some.inj h
      exact ⟨0, position_cons_some_zero hb l, by rw [List.filterMap_cons_some hb]; rfl⟩
    | succ j =>
      obtain ⟨i, hi, hget⟩ := exists_position hb (l := l) (j := j) h
      cases hc : g c with
      | none => exact ⟨i, by rw [position_cons_none hc, hi], by rw [List.filterMap_cons_none hc]; exact hget⟩
      | some b' =>
        exact ⟨i + 1, by rw [position_cons_some_succ hc, hi], by rw [List.filterMap_cons_some hc]; exact hget⟩

theorem position_lt : ∀ {l : List α} {i i' : Nat}, i < i' → i' < (l.filterMap g).length →
    position g l i < position g l i'
  | [], i, i', _, hlen => by cases hlen
  | a :: l, i, i', hlt, hlen => by
    cases ha : g a with
    | none =>
      rw [List.filterMap_cons_none ha] at hlen
      rw [position_cons_none ha, position_cons_none ha]
      exact Nat.succ_lt_succ (position_lt hlt hlen)
    | some b =>
      rw [List.filterMap_cons_some ha] at hlen
      obtain ⟨i', rfl⟩ := Nat.exists_eq_succ_of_ne_zero (Nat.ne_zero_of_lt hlt)
      rw [position_cons_some_succ ha]
      cases i with
      | zero => rw [position_cons_some_zero ha]; exact Nat.succ_pos _
      | succ i =>
        rw [position_cons_some_succ ha]
        exact Nat.succ_lt_succ (position_lt (Nat.lt_of_succ_lt_succ hlt) (Nat.lt_of_succ_lt_succ hlen))

end Sbmt.Lib.Survivors
