import Mathlib
/-!
# Blocks laid end to end

A list of lengths, and blocks of these lengths laid one after another.  Block `t` begins at `start lens t`, and
place `b` of it is at `start lens t + b`; every position below the sum is of that form in one way
(`exists_place`, `place_inj`).  When the blocks are themselves cut into pieces, places of the pieces are
places of the blocks (`start_flatten`).
-/

namespace Sbmt.Lib

open List

/-- Where block `t` begins. -/
def start (lens : List Nat) (t : Nat) : Nat := (lens.take t).sum

variable {lens : List Nat} {t b n : Nat}

@[simp] theorem start_zero (lens : List Nat) : start lens 0 = 0 := rfl

theorem start_cons_succ (n : Nat) (lens : List Nat) (t : Nat) : start (n :: lens) (t + 1) = n + start lens t := by
  simp [start]

theorem start_succ (ht : lens[t]? = some n) : start lens (t + 1) = start lens t + n := by
  rw [start, start, take_add_one, ht]
  simp

theorem start_mono {t' : Nat} (h : t ≤ t') : start lens t ≤ start lens t' := by
  obtain ⟨d, rfl⟩ := Nat.exists_eq_add_of_le h
  rw [start, start, take_add, sum_append]
  exact Nat.le_add_right _ _

theorem start_le_sum (lens : List Nat) (t : Nat) : start lens t ≤ lens.sum := by
  have h : lens.sum = start lens t + (lens.drop t).sum := by
    rw [start, ← sum_append, take_append_drop]
  omega

theorem place_lt (ht : lens[t]? = some n) (hb : b < n) : start lens t + b < lens.sum := by
  have := start_succ ht
  have := start_le_sum lens (t + 1)
  omega

theorem place_inj {t' b' n' : Nat} (ht : lens[t]? = some n) (hb : b < n) (ht' : lens[t']? = some n') (hb' : b' < n')
    (h : start lens t + b = start lens t' + b') : t = t' ∧ b = b' := by
  have hs := start_succ ht
  have hs' := start_succ ht'
  rcases lt_trichotomy t t' with hlt | rfl | hgt
  · have : start lens (t + 1) ≤ start lens t' := start_mono hlt
    omega
  · exact ⟨rfl, by omega⟩
  · have : start lens (t' + 1) ≤ start lens t := start_mono hgt
    omega

theorem exists_place {p : Nat} (hp : p < lens.sum) :
    ∃ (t n b : Nat), lens[t]? = some n ∧ b < n ∧ p = start lens t + b := by
  induction lens generalizing p with
  | nil => simp at hp
  | cons n lens ih =>
    by_cases hpn : p < n
    · exact ⟨0, n, p, rfl, hpn, by simp⟩
    · obtain ⟨t, n', b, ht, hb, hpb⟩ := ih (p := p - n) (by
        rw [sum_cons] at hp
        omega)
      refine ⟨t + 1, n', b, by simpa using ht, hb, ?_⟩
      rw [start_cons_succ]
      omega

/-! ## Blocks of pieces -/

theorem getElem?_flatten {α : Type} {L : List (List α)} {l : List α} (ht : L[t]? = some l) (hb : b < l.length) :
    L.flatten[start (L.map List.length) t + b]? = l[b]? := by
  induction L generalizing t with
  | nil => simp at ht
  | cons l' L ih =>
    rw [flatten_cons]
    cases t with
    | zero =>
      cases ht
      rw [start_zero, Nat.zero_add, getElem?_append_left hb]
    | succ t =>
      rw [map_cons, start_cons_succ, Nat.add_assoc, getElem?_append_right (Nat.le_add_right _ _),
        Nat.add_sub_cancel_left]
      exact ih (by simpa using ht)

/-- Lengths that agree place by place with those of pieces are those of the pieces. -/
theorem eq_flatten {α : Type} {M : List α} {L : List (List α)} (hlen : M.length = (L.map List.length).sum)
    (h : ∀ (t : Nat) (l : List α) (b : Nat), L[t]? = some l → b < l.length →
      M[start (L.map List.length) t + b]? = l[b]?) : M = L.flatten := by
  apply ext_getElem?
  intro p
  by_cases hp : p < (L.map List.length).sum
  · obtain ⟨t, n, b, ht, hb, rfl⟩ := exists_place hp
    rw [getElem?_map] at ht
    obtain ⟨l, hl, rfl⟩ := Option.map_eq_some_iff.mp ht
    rw [h t l b hl hb, getElem?_flatten hl hb]
  · rw [getElem?_eq_none (by omega), getElem?_eq_none (by rw [length_flatten]; omega)]

theorem start_flatten {L : List (List Nat)} {l : List Nat} (ht : L[t]? = some l) (hb : b ≤ l.length) :
    start L.flatten (start (L.map List.length) t + b) = start (L.map List.sum) t + start l b := by
  induction L generalizing t with
  | nil => simp at ht
  | cons l' L ih =>
    cases t with
    | zero =>
      cases ht
      rw [start_zero, start_zero, Nat.zero_add, Nat.zero_add, start, start, flatten_cons, take_append_of_le_length hb]
    | succ t =>
      have hrest := ih (t := t) (by simpa using ht)
      rw [map_cons, map_cons, start_cons_succ, start_cons_succ, Nat.add_assoc, Nat.add_assoc, ← hrest,
        start, flatten_cons, take_length_add_append, sum_append]
      rfl

end Sbmt.Lib
