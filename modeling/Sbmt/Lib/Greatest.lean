import Mathlib
/-!
# The greatest of a multiset

`greatest k s` are the `k` greatest elements of `s`, ties and all; it is all of `s` where `s` has no more.
It is the one part of `s` of that size that nothing left out exceeds (`eq_greatest`), so a keeper that
holds the `k` greatest and is offered another has to give up a least of the lot, and may give up any
(`erase_eq_greatest_iff`).
-/

namespace Sbmt.Lib

variable {K : Type} [LinearOrder K] {k : Nat} {s t : Multiset K} {a v : K}

def greatest (k : Nat) (s : Multiset K) : Multiset K := ((s.sort (· ≥ ·)).take k : List K)

/-- What `greatest` leaves out. -/
def others (k : Nat) (s : Multiset K) : Multiset K := ((s.sort (· ≥ ·)).drop k : List K)

theorem greatest_add_others (k : Nat) (s : Multiset K) : greatest k s + others k s = s := by
  rw [greatest, others, Multiset.coe_add, List.take_append_drop, Multiset.sort_eq]

theorem greatest_le (k : Nat) (s : Multiset K) : greatest k s ≤ s :=
  (Multiset.le_add_right _ _).trans (greatest_add_others k s).le

theorem sub_greatest (k : Nat) (s : Multiset K) : s - greatest k s = others k s :=
  tsub_eq_of_eq_add_rev (greatest_add_others k s).symm

theorem card_greatest (k : Nat) (s : Multiset K) : (greatest k s).card = min k s.card := by
  rw [greatest, Multiset.coe_card, List.length_take, Multiset.length_sort]

theorem others_le_greatest (k : Nat) (s : Multiset K) : ∀ x ∈ greatest k s, ∀ y ∈ s - greatest k s, y ≤ x := by
  intro x hx y hy
  rw [sub_greatest] at hy
  have hsorted := Multiset.pairwise_sort s (· ≥ ·)
  rw [← List.take_append_drop k (s.sort (· ≥ ·))] at hsorted
  exact (List.pairwise_append.mp hsorted).2.2 x hx y hy

/-- What has the size and is exceeded by nothing it leaves out is it. -/
theorem eq_greatest (hle : t ≤ s) (hcard : t.card = min k s.card) (hall : ∀ x ∈ t, ∀ y ∈ s - t, y ≤ x) :
    t = greatest k s := by
  -- sorted apart, the two parts are the whole sorted
  have hsplit : s.sort (· ≥ ·) = t.sort (· ≥ ·) ++ (s - t).sort (· ≥ ·) := by
    refine List.Perm.eq_of_pairwise' (Multiset.pairwise_sort s (· ≥ ·)) ?_ ?_
    · refine List.pairwise_append.mpr ⟨Multiset.pairwise_sort t _, Multiset.pairwise_sort (s - t) _, fun x hx y hy => ?_⟩
      exact hall x ((Multiset.mem_sort (· ≥ ·)).mp hx) y ((Multiset.mem_sort (· ≥ ·)).mp hy)
    · rw [← Multiset.coe_eq_coe, ← Multiset.coe_add, Multiset.sort_eq, Multiset.sort_eq, Multiset.sort_eq,
        add_tsub_cancel_of_le hle]
  rw [greatest, hsplit]
  rcases Nat.le_total k s.card with hk | hk
  · rw [min_eq_left hk] at hcard
    rw [List.take_left' (by rw [Multiset.length_sort, hcard]), Multiset.sort_eq]
  · rw [min_eq_right hk] at hcard
    have hts : t = s := Multiset.eq_of_le_of_card_le hle hcard.ge
    rw [← hsplit, List.take_of_length_le (by rwa [Multiset.length_sort]), Multiset.sort_eq, hts]

theorem greatest_of_card_le (h : s.card ≤ k) : greatest k s = s :=
  (eq_greatest le_rfl (min_eq_right h).symm fun x _ y hy => by simp at hy).symm

/-- With room for one more nothing is given up. -/
theorem cons_greatest (h : (greatest k s).card < k) : a ::ₘ greatest k s = greatest k (a ::ₘ s) := by
  rw [card_greatest, min_lt_iff] at h
  have hs : s.card < k := h.resolve_left (lt_irrefl k)
  rw [greatest_of_card_le hs.le, greatest_of_card_le (by rw [Multiset.card_cons]; exact hs)]

theorem erase_eq_greatest (hk : (greatest k s).card = k) (hv : v ∈ a ::ₘ greatest k s)
    (hleast : ∀ x ∈ a ::ₘ greatest k s, v ≤ x) : (a ::ₘ greatest k s).erase v = greatest k (a ::ₘ s) := by
  have hkept : v ::ₘ (a ::ₘ greatest k s).erase v = a ::ₘ greatest k s := Multiset.cons_erase hv
  have hcard : ((a ::ₘ greatest k s).erase v).card = k := by
    rw [Multiset.card_erase_of_mem hv, Multiset.card_cons, hk, Nat.pred_succ]
  have hks : k ≤ s.card := by
    rw [card_greatest] at hk
    exact min_eq_left_iff.mp hk
  have hrest : a ::ₘ s - (a ::ₘ greatest k s).erase v = v ::ₘ (s - greatest k s) := by
    refine tsub_eq_of_eq_add_rev ?_
    calc a ::ₘ s = a ::ₘ greatest k s + others k s := by rw [Multiset.cons_add, greatest_add_others]
      _ = v ::ₘ (a ::ₘ greatest k s).erase v + others k s := by rw [hkept]
      _ = (a ::ₘ greatest k s).erase v + v ::ₘ (s - greatest k s) := by
        rw [sub_greatest, Multiset.cons_add, Multiset.add_cons]
  refine eq_greatest ?_ ?_ ?_
  · exact (Multiset.erase_le v _).trans (Multiset.cons_le_cons a (greatest_le k s))
  · rw [hcard, Multiset.card_cons, min_eq_left (hks.trans (Nat.le_succ _))]
  · intro x hx y hy
    rw [hrest, Multiset.mem_cons] at hy
    have hx' : x ∈ a ::ₘ greatest k s := Multiset.mem_of_mem_erase hx
    rcases hy with rfl | hy
    · exact hleast x hx'
    · rcases Multiset.mem_cons.mp hv with rfl | hv'
      · rw [Multiset.erase_cons_head] at hx
        exact others_le_greatest k s x hx y hy
      · -- `v` was kept, and what was left out before is no more than it
        exact (others_le_greatest k s v hv' y hy).trans (hleast x hx')

theorem erase_eq_greatest_iff (hk : (greatest k s).card = k) (hv : v ∈ a ::ₘ greatest k s) :
    (a ::ₘ greatest k s).erase v = greatest k (a ::ₘ s) ↔ ∀ x ∈ a ::ₘ greatest k s, v ≤ x := by
  refine ⟨fun h => ?_, erase_eq_greatest hk hv⟩
  obtain ⟨w, hw, hleast⟩ := (a ::ₘ greatest k s).toFinset.exists_min_image id ⟨v, Multiset.mem_toFinset.mpr hv⟩
  rw [Multiset.mem_toFinset] at hw
  have hleast : ∀ x ∈ a ::ₘ greatest k s, w ≤ x := fun x hx => hleast x (Multiset.mem_toFinset.mpr hx)
  have heq := h.trans (erase_eq_greatest hk hw hleast).symm
  have hvw : v ::ₘ (a ::ₘ greatest k s).erase v = w ::ₘ (a ::ₘ greatest k s).erase v := by
    rw [Multiset.cons_erase hv, heq, Multiset.cons_erase hw]
  rw [(Multiset.cons_inj_left _).mp hvw]
  exact hleast

end Sbmt.Lib
