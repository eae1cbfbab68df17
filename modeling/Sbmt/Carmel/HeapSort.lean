import Sbmt.Carmel.TwoHeap

/-!
# Sorting an array with the heap (`shared/2heap.h`)

| here | there |
| --- | --- |
| `listSlots` | the iterators of an array, `heap` being one before its start |
| `swapSlots` | `std::swap` of two elements |
| `heapSort` | `heapSort` (`:124-135`); the number of elements goes into an `int` |

Both go wrong at the ends.  Without elements `heapSort` swaps with what is before the array, and from 2^31 on its
count is not the number of elements; `heapVerify` passes over the last element, and without elements it reads far
behind the array.
-/

namespace Sbmt.Carmel

open Sbmt.Lib List Option

variable {α : Type}

def listSlots (α : Type) : Slots (List α) α where
  get heap i := if i = 0 then none else heap[i - 1]?
  assign heap i a := heap.set (i - 1) a

theorem listSlots_get (heap : List α) {i : Nat} (hi : i ≠ 0) : (listSlots α).get heap i = heap[i - 1]? := if_neg hi

def swapSlots {M : Type} (S : Slots M α) (heap : M) (i j : Nat) : Option M :=
  (S.get heap i).bind fun a => (S.get heap j).map fun b => S.assign (S.assign heap i b) j a

def heapSortLoop (less : α → α → Bool) : Nat → List α → Option (List α)
  | 0, _ => none
  | 1, heap => some heap
  | i + 2, heap =>
    (swapSlots (listSlots α) heap 1 (i + 2)).bind fun heap =>
      (heapify (listSlots α) less heap (i + 1) 1).bind (heapSortLoop less (i + 1))

/-- The conversion to `int`. -/
def toInt (n : Nat) : Int := (n : Int).bmod (2 ^ 32)

def heapSort (less : α → α → Bool) (heap : List α) : Option (List α) :=
  (heapBuild (listSlots α) less heap heap.length).bind fun heap =>
    let heapSize := toInt heap.length
    -- with 0 or less, what is before the array is swapped
    if heapSize < 1 then none else heapSortLoop less heapSize.toNat heap

/-- The size is counted down before each test; 0 becomes the greatest number. -/
def heapVerifyLoop (less : α → α → Bool) (heap : List α) : Nat → Option Bool
  | 0 => none
  | size + 1 =>
    if 1 < size then
      ((listSlots α).get heap (size / 2)).bind fun p => ((listSlots α).get heap size).bind fun c =>
        if less p c then some false else heapVerifyLoop less heap size
    else some true

def heapVerify (less : α → α → Bool) (heap : List α) : Option Bool := heapVerifyLoop less heap heap.length

/-! ## Sorting -/

section Sorting

variable {less : α → α → Bool} {L rest : List α}

/-- The part of an array before `rest`. -/
theorem listRep (rest : List α) :
    Rep (listSlots α) (fun m L => m = L ++ rest) (fun m L x => ∃ a, m = L.set x a ++ rest) where
  take := by
    rintro m L x rfl hx
    exact ⟨L[x], by rw [set_getElem_self]⟩
  get := by
    rintro m L x rfl hx
    exact getElem?_append_left hx
  get_but := by
    rintro m L x y ⟨a, rfl⟩ hy hxy
    show (L.set x a ++ rest)[y]? = L[y]?
    rw [getElem?_append_left (by rwa [length_set]), getElem?_set_ne (Ne.symm hxy)]
  move := by
    rintro m L x y b ⟨a, rfl⟩ hx hxy hb
    refine ⟨b, ?_⟩
    show (L.set x a ++ rest).set x b = _
    have hy : (L.set x b)[y]? = some b := by rw [getElem?_set_ne (Ne.symm hxy), hb]
    rw [set_append_left _ _ (by rwa [length_set]), set_set,
      swapAt_eq (getElem?_eq_getElem hx) hb, set_set]
    obtain ⟨hlen, hget⟩ := List.getElem?_eq_some_iff.1 hy
    conv_lhs => rw [← set_getElem_self hlen, hget]
  put := by
    rintro m L x t ⟨a, rfl⟩ ht
    show (L.set x a ++ rest).set x t = _
    obtain ⟨hx, rfl⟩ := List.getElem?_eq_some_iff.1 ht
    rw [set_append_left _ _ (by rwa [length_set]), set_set, set_getElem_self]

theorem swapSlots_ends {a z : α} {M : List α} :
    swapSlots (listSlots α) (a :: M ++ z :: rest) 1 (M.length + 2) = some (z :: M ++ a :: rest) := by
  show (some a).bind (fun a' => ((a :: M ++ z :: rest)[M.length + 1]?).map fun b =>
    ((a :: M ++ z :: rest).set 0 b).set (M.length + 1) a') = _
  simp

/-- **The loop** sorts a heap that is at the start of the array. -/
theorem heapSortLoop_spec (hlt : StrictWeak less) : ∀ {i : Nat} {L : List α}, L.length = i + 1 → Sifted less up L →
    ∀ rest, ∃ R, heapSortLoop less (i + 1) (L ++ rest) = some (R ++ rest) ∧ R.Perm L ∧
      R.Pairwise fun a b => less b a = false
  | 0, L, hlen, _, rest => by
    obtain ⟨a, rfl⟩ := length_eq_one_iff.1 hlen
    exact ⟨[a], rfl, .refl _, pairwise_singleton _ _⟩
  | i + 1, L, hlen, hsifted, rest => by
    obtain ⟨a, M, z, rfl⟩ : ∃ a M z, L = a :: M ++ [z] := by
      obtain ⟨a, l, rfl⟩ := exists_cons_of_length_eq_add_one hlen
      have hne : l ≠ [] := by
        rintro rfl
        simp at hlen
      exact ⟨a, l.dropLast, l.getLast hne, by rw [cons_append, dropLast_append_getLast]⟩
    have hM : M.length = i := by simpa using hlen
    obtain ⟨m', L', hrun, rfl, hperm, hsifted'⟩ := heapify_spec (listRep (a :: rest)) hlt (L := z :: M) rfl
      (Nat.succ_pos _) (sifted_exchanged hsifted) le_rfl
    obtain ⟨R, hR, hRperm, hsorted⟩ := heapSortLoop_spec (i := i) hlt (hperm.length_eq.trans (by simp [hM]))
      (siftedFrom_zero.1 hsifted') (a :: rest)
    refine ⟨R ++ [a], ?_, ?_, ?_⟩
    · rw [heapSortLoop]
      have hswap : swapSlots (listSlots α) (a :: M ++ [z] ++ rest) 1 (i + 2) = some (z :: M ++ a :: rest) := by
        rw [append_assoc, ← hM]
        exact swapSlots_ends
      have hlen' : (z :: M).length = i + 1 := by simp [hM]
      rw [hlen'] at hrun
      rw [hswap, bind_some, hrun, bind_some, hR, append_assoc]
      rfl
    · refine (hRperm.append_right [a]).trans ((hperm.append_right [a]).trans ?_)
      have hfirst : (z :: M ++ [a]).Perm (a :: z :: M) := perm_append_comm
      have hlast : ([z] ++ M).Perm (M ++ [z]) := perm_append_comm
      exact hfirst.trans (hlast.cons a)
    · rw [pairwise_append]
      refine ⟨hsorted, pairwise_singleton _ _, ?_⟩
      intro b hb c hc
      obtain rfl := mem_singleton.1 hc
      -- the greatest element goes to the end
      have hmem : b ∈ z :: M := hperm.subset (hRperm.subset hb)
      have hmem : b ∈ c :: M ++ [z] := by
        refine mem_cons_of_mem _ (mem_append.2 ?_)
        rcases mem_cons.1 hmem with rfl | hmem
        · exact .inr (mem_singleton_self _)
        · exact .inl hmem
      obtain ⟨j, hj⟩ := getElem?_of_mem hmem
      have hroot := hsifted.le_root hlt up_lt j
      rw [hj] at hroot
      exact hroot b rfl c rfl

theorem sifted_take (h : Sifted less up L) (n : Nat) : Sifted less up (L.take n) := by
  intro i hi
  have hup := up_lt i hi
  by_cases hin : i < n
  · rw [getElem?_take_of_lt hin, getElem?_take_of_lt (hup.trans hin)]
    exact h i hi
  · rw [getElem?_eq_none ((length_take_le n L).trans (Nat.le_of_not_lt hin))]
    exact atMost_none_left _

/-- A heap whose later elements are as great as the first: every element has such a one below it. -/
theorem sifted_alike (hlt : StrictWeak less) {H : List α} {s : Nat} (h : Sifted less up H) (hs : 2 * s < H.length)
    (hlast : ∀ j, s ≤ j → AtMost less H[0]? H[j]?) : ∀ a ∈ H, ∀ b ∈ H, less a b = false := by
  have hall : ∀ d j, j + d = H.length → AtMost less H[0]? H[j]? := by
    intro d
    induction d using Nat.strong_induction_on with
    | _ d ih =>
      intro j hj
      by_cases hjs : s ≤ j
      · exact hlast j hjs
      have hchild : 2 * j + 1 < H.length := by omega
      have hbelow := ih (H.length - (2 * j + 1)) (by omega) (2 * j + 1) (by omega)
      have hstep := h (2 * j + 1) (by omega)
      have hup : up (2 * j + 1) = j := by
        unfold up
        omega
      rw [hup] at hstep
      refine hbelow.trans_of_mem hlt ?_ hstep
      rw [getElem?_eq_getElem hchild]
      rfl
  intro a ha b hb
  obtain ⟨i, hi⟩ := getElem?_of_mem ha
  obtain ⟨j, hj⟩ := getElem?_of_mem hb
  have hilt := (List.getElem?_eq_some_iff.1 hi).1
  have hroot := h.le_root hlt up_lt j
  have hle := hall (H.length - i) i (by omega)
  have hzero : H[0]?.isSome := by
    rw [getElem?_eq_getElem (by omega)]
    rfl
  have := hroot.trans_of_mem hlt hzero hle
  rw [hi, hj] at this
  exact atMost_some.1 this

theorem toInt_toNat {n : Nat} (h : n < 2 ^ 31) : (toInt n).toNat = n := by
  unfold toInt
  rw [Int.bmod_def]
  split
  · omega
  · omega

theorem toInt_wraps {n : Nat} (h : ¬ n < 2 ^ 31) (hpos : 0 < toInt n) : 2 * (toInt n).toNat < n := by
  unfold toInt at *
  rw [Int.bmod_def] at *
  split at hpos
  · omega
  · omega

theorem heapSort_eq_none {heap : List α} (h : ¬ 0 < toInt heap.length) (hlt : StrictWeak less) :
    heapSort less heap = none := by
  obtain ⟨m', H, hbuild, rfl, hperm, -⟩ := heapBuild_spec (listRep []) hlt (L := heap) (append_nil heap).symm
  rw [heapSort, hbuild, bind_some]
  rw [append_nil, hperm.length_eq, if_pos (by omega)]

/-- **What `heapSort` does**: it sorts as many elements of a heap as its count says. -/
theorem heapSort_eq (hlt : StrictWeak less) {heap : List α} (h : 0 < toInt heap.length) :
    ∃ H R, H.Perm heap ∧ Sifted less up H ∧ R.Perm (H.take (toInt heap.length).toNat) ∧
      (R.Pairwise fun a b => less b a = false) ∧
        heapSort less heap = some (R ++ H.drop (toInt heap.length).toNat) := by
  obtain ⟨m', H, hbuild, rfl, hperm, hsifted⟩ := heapBuild_spec (listRep []) hlt (L := heap) (append_nil heap).symm
  have hle : (toInt heap.length).toNat ≤ H.length := by
    rw [hperm.length_eq]
    by_cases hsmall : heap.length < 2 ^ 31
    · rw [toInt_toNat hsmall]
    · have := toInt_wraps hsmall h
      omega
  obtain ⟨i, hi⟩ := Nat.exists_eq_succ_of_ne_zero (show (toInt heap.length).toNat ≠ 0 by omega)
  rw [hi] at hle ⊢
  have hlen : (H.take (i + 1)).length = i + 1 := by rw [length_take, Nat.min_eq_left hle]
  obtain ⟨R, hR, hRperm, hsorted⟩ := heapSortLoop_spec hlt hlen (sifted_take hsifted _) (H.drop (i + 1))
  refine ⟨H, R, hperm, hsifted, hRperm, hsorted, ?_⟩
  rw [heapSort, hbuild, bind_some]
  rw [append_nil, hperm.length_eq, if_neg (by omega), hi, ← hR, take_append_drop]

/-- The result is sorted exactly if the count is right or there is nothing to sort. -/
theorem heapSort_sorts_iff (hlt : StrictWeak less) (heap : List α) :
    (∃ R, heapSort less heap = some R ∧ R.Perm heap ∧ R.Pairwise fun a b => less b a = false) ↔
      0 < toInt heap.length ∧ (heap.length < 2 ^ 31 ∨ ∀ a ∈ heap, ∀ b ∈ heap, less a b = false) := by
  by_cases hpos : 0 < toInt heap.length
  · obtain ⟨H, R, hperm, hsifted, hRperm, hsorted, hrun⟩ := heapSort_eq hlt hpos
    have hall : (R ++ H.drop (toInt heap.length).toNat).Perm heap := by
      refine ((hRperm.append_right _).trans ?_).trans hperm
      rw [take_append_drop]
    rw [hrun]
    by_cases hsmall : heap.length < 2 ^ 31
    · rw [toInt_toNat hsmall, ← hperm.length_eq, drop_length, append_nil] at *
      exact ⟨fun _ => ⟨hpos, .inl hsmall⟩, fun _ => ⟨R, rfl, hall, hsorted⟩⟩
    · have hwraps := toInt_wraps hsmall hpos
      constructor
      · rintro ⟨R', hR', -, hsorted'⟩
        obtain rfl := Option.some.inj hR'
        refine ⟨hpos, .inr ?_⟩
        have hcross := (pairwise_append.1 hsorted').2.2
        have halike : ∀ a ∈ H, ∀ b ∈ H, less a b = false := by
          refine sifted_alike hlt hsifted (s := (toInt heap.length).toNat) (by rw [hperm.length_eq]; exact hwraps) ?_
          intro j hj a ha b hb
          have hfirst : a ∈ R := by
            refine hRperm.symm.subset (mem_of_getElem? (i := 0) ?_)
            rw [getElem?_take_of_lt (by omega)]
            exact ha
          have hlater : b ∈ H.drop (toInt heap.length).toNat := by
            refine mem_of_getElem? (i := j - (toInt heap.length).toNat) ?_
            rw [getElem?_drop, Nat.add_sub_cancel' hj]
            exact hb
          exact hcross a hfirst b hlater
        exact fun a ha b hb => halike a (hperm.symm.subset ha) b (hperm.symm.subset hb)
      · rintro ⟨-, hlen | halike⟩
        · exact absurd hlen hsmall
        · refine ⟨_, rfl, hall, List.Pairwise.imp_of_mem (R := fun _ _ => True) ?_ (pairwise_of_forall fun _ _ => trivial)⟩
          intro a b ha hb _
          exact halike b (hall.subset hb) a (hall.subset ha)
  · rw [heapSort_eq_none hpos hlt]
    exact ⟨fun ⟨R, hR, _⟩ => (by cases hR), fun h => absurd h.1 hpos⟩

end Sorting

/-! ## Verifying -/

section Verify

variable {less : α → α → Bool} {heap : List α}

variable (less) in
theorem heapVerifyLoop_spec : ∀ {n : Nat}, n < heap.length →
    ∃ b, heapVerifyLoop less heap (n + 1) = some b ∧
      (b = true ↔ ∀ i, 0 < i → i < n → AtMost less heap[i]? heap[up i]?)
  | n, hn => by
    rw [heapVerifyLoop]
    by_cases hsize : 1 < n
    · obtain ⟨n, rfl⟩ := Nat.exists_eq_succ_of_ne_zero (show n ≠ 0 by omega)
      rw [Nat.succ_eq_add_one] at *
      have hhalf : (n + 1) / 2 ≠ 0 := by omega
      have hp : (n + 1) / 2 - 1 < heap.length := by omega
      have hup : up n = (n + 1) / 2 - 1 := by
        unfold up
        omega
      have hgetp : (listSlots α).get heap ((n + 1) / 2) = some heap[(n + 1) / 2 - 1] :=
        (listSlots_get heap hhalf).trans (getElem?_eq_getElem hp)
      have hgetc : (listSlots α).get heap (n + 1) = some heap[n] :=
        (listSlots_get heap (Nat.succ_ne_zero n)).trans (getElem?_eq_getElem (Nat.lt_of_succ_lt hn))
      have hlast : AtMost less heap[n]? heap[up n]? ↔ less heap[(n + 1) / 2 - 1] heap[n] = false := by
        rw [hup, getElem?_eq_getElem hp, getElem?_eq_getElem (Nat.lt_of_succ_lt hn), atMost_some]
      rw [if_pos hsize, hgetp, bind_some, hgetc, bind_some]
      cases hless : less heap[(n + 1) / 2 - 1] heap[n] with
      | true =>
        refine ⟨false, if_pos rfl, ?_⟩
        constructor
        · intro h
          cases h
        · intro h
          rw [hlast.1 (h n (by omega) (Nat.lt_succ_self n))] at hless
          cases hless
      | false =>
        rw [if_neg Bool.false_ne_true]
        obtain ⟨b, hb, hiff⟩ := heapVerifyLoop_spec (n := n) (Nat.lt_of_succ_lt hn)
        refine ⟨b, hb, hiff.trans ⟨?_, fun h i hi hin => h i hi (by omega)⟩⟩
        intro h i hi hin
        by_cases hine : i = n
        · rw [hine]
          exact hlast.2 hless
        · exact h i hi (by omega)
    · rw [if_neg hsize]
      exact ⟨true, rfl, fun _ i hi hin => absurd hin (by omega), fun _ => rfl⟩

theorem sifted_dropLast_iff :
    Sifted less up heap.dropLast ↔ ∀ i, 0 < i → i < heap.length - 1 → AtMost less heap[i]? heap[up i]? := by
  rw [dropLast_eq_take]
  constructor
  · intro h i hi hin
    have := h i hi
    rwa [getElem?_take_of_lt hin, getElem?_take_of_lt ((up_lt i hi).trans hin)] at this
  · intro h i hi
    by_cases hin : i < heap.length - 1
    · rw [getElem?_take_of_lt hin, getElem?_take_of_lt ((up_lt i hi).trans hin)]
      exact h i hi hin
    · rw [getElem?_eq_none ((length_take_le _ _).trans (Nat.le_of_not_lt hin))]
      exact atMost_none_left _

variable (less) in
/-- **What `heapVerify` tells**: whether all but the last element are a heap. -/
theorem heapVerify_spec (hne : heap ≠ []) :
    ∃ b, heapVerify less heap = some b ∧ (b = true ↔ Sifted less up heap.dropLast) := by
  have hlen := length_pos_iff.2 hne
  obtain ⟨b, hb, hiff⟩ := heapVerifyLoop_spec less (Nat.sub_lt hlen Nat.one_pos)
  rw [Nat.sub_add_cancel hlen] at hb
  exact ⟨b, hb, hiff.trans sifted_dropLast_iff.symm⟩

theorem heapVerify_iff :
    (∃ b, heapVerify less heap = some b ∧ (b = true ↔ Sifted less up heap)) ↔
      heap ≠ [] ∧ (Sifted less up heap.dropLast → Sifted less up heap) := by
  by_cases hne : heap = []
  · rw [hne]
    exact ⟨fun ⟨b, hb, _⟩ => (by cases hb), fun h => absurd rfl h.1⟩
  · obtain ⟨b, hb, hiff⟩ := heapVerify_spec less hne
    rw [hb]
    constructor
    · rintro ⟨b', hb', hiff'⟩
      obtain rfl := Option.some.inj hb'
      exact ⟨hne, fun h => hiff'.1 (hiff.2 h)⟩
    · rintro ⟨-, himp⟩
      refine ⟨b, rfl, hiff.trans ⟨himp, fun h => ?_⟩⟩
      rw [dropLast_eq_take]
      exact sifted_take h _

end Verify

/-! ## Both -/

/-- What the two functions are to do with an array. -/
structure HeapFunctionsFit (less : α → α → Bool) (heap : List α) : Prop where
  sorts : ∃ R, heapSort less heap = some R ∧ R.Perm heap ∧ R.Pairwise fun a b => less b a = false
  verifies : ∃ b, heapVerify less heap = some b ∧ (b = true ↔ Sifted less up heap)

/-- **When they do**: there are elements, the count of them is right or nothing is to sort, and the last element is
not the only one that exceeds its parent. -/
theorem heapFunctionsFit_iff {less : α → α → Bool} (hlt : StrictWeak less) (heap : List α) :
    HeapFunctionsFit less heap ↔
      (0 < toInt heap.length ∧ (heap.length < 2 ^ 31 ∨ ∀ a ∈ heap, ∀ b ∈ heap, less a b = false)) ∧
        (Sifted less up heap.dropLast → Sifted less up heap) := by
  constructor
  · intro h
    exact ⟨(heapSort_sorts_iff hlt heap).1 h.sorts, (heapVerify_iff.1 h.verifies).2⟩
  · rintro ⟨hsort, hlast⟩
    refine ⟨(heapSort_sorts_iff hlt heap).2 hsort, heapVerify_iff.2 ⟨?_, hlast⟩⟩
    rintro rfl
    exact absurd hsort.1 (show ¬ 0 < toInt 0 by decide)

theorem heapFunctionsFit_iff_pair :
    HeapFunctionsFit (fun a b : Nat => decide (a < b)) [2, 1] := by
  refine (heapFunctionsFit_iff (StrictWeak.ofKey id) [2, 1]).2 ⟨⟨by decide, .inl (by decide)⟩, fun _ i hi x hx y hy => ?_⟩
  obtain _ | _ | i := i
  · cases hi
  · cases hx
    cases hy
    rfl
  · cases hx

/-- An array with two elements, the greater one last, passes for a heap, and one without elements is not sorted. -/
theorem not_heapFunctionsFit :
    ¬ HeapFunctionsFit (fun a b : Nat => decide (a < b)) [1, 2] ∧ ¬ HeapFunctionsFit (fun a b : Nat => decide (a < b)) [] := by
  constructor
  · intro h
    obtain ⟨b, hb, hiff⟩ := h.verifies
    obtain rfl : true = b := Option.some.inj hb
    have := hiff.1 rfl 1 (by decide)
    exact absurd (this 2 rfl 1 rfl) (by decide)
  · intro h
    obtain ⟨R, hR, -⟩ := h.sorts
    cases hR

end Sbmt.Carmel
