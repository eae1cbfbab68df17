import Sbmt.Lib.Sift

/-!
# The binary heap (`shared/2heap.h`)

| here | there |
| --- | --- |
| `Slots` | what the iterators `heap + i` give: the element read there and the assignment to it, none where `heap + i` is not in the array |
| `heapify` | `heapify` (`:41-58`), `heapifyLoop` its loop |
| `heapPop` | `heapPop` (`:60-66`), given the size |
| `heapAdjustUp` | `heapAdjustUp` (`:96-109`), given the index of the element |
| `heapBuild` | `heapBuild` (`:74-80`), given the size |

The numbering begins at 1.  While an element is moved, it is held in `temp` and its slot is open; `Rep` is what the
proofs ask of the slots, that a move fills the open slot and opens the one it copies from.  Seen so, the loops swap an
element with its parent or its greater child.
-/

namespace Sbmt.Carmel

open Sbmt.Lib Option

structure Slots (M α : Type) where
  get : M → Nat → Option α
  assign : M → Nat → α → M

section Functions

variable {M α : Type} (S : Slots M α) (less : α → α → Bool)

/-- The slots after the loop, `parent` and `child`. -/
def heapifyLoop (temp : α) (heapSize : Nat) : Nat → M → Nat → Nat → Option (M × Nat × Nat)
  | 0, _, _, _ => none
  | fuel + 1, heap, parent, child =>
    if child < heapSize then
      (S.get heap child).bind fun l => (S.get heap (child + 1)).bind fun r =>
        let child := if less l r then child + 1 else child
        (S.get heap child).bind fun c =>
          if less temp c then heapifyLoop temp heapSize fuel (S.assign heap parent c) child (child * 2)
          else some (heap, parent, child)
    else some (heap, parent, child)

/-- What comes after the loop: the last element may be an only child. -/
def heapifyLast (temp : α) (heapSize : Nat) (heap : M) (parent child : Nat) : Option M :=
  if child = heapSize then
    (S.get heap child).map fun c =>
      if less temp c then S.assign (S.assign heap parent c) child temp else S.assign heap parent temp
  else some (S.assign heap parent temp)

def heapify (heap : M) (heapSize i : Nat) : Option M :=
  (S.get heap i).bind fun temp =>
    (heapifyLoop S less temp heapSize (heapSize + 1) heap i (2 * i)).bind fun o =>
      heapifyLast S less temp heapSize o.1 o.2.1 o.2.2

def heapPop (heap : M) (size : Nat) : Option M :=
  (S.get heap size).bind fun last => heapify S less (S.assign heap 1 last) (size - 1) 1

def heapBuildLoop (size : Nat) : Nat → M → Option M
  | 0, heap => some heap
  | i + 1, heap => (heapify S less heap size (i + 1)).bind (heapBuildLoop size i)

def heapBuild (heap : M) (size : Nat) : Option M := heapBuildLoop S less size (size / 2) heap

def heapAdjustUpLoop (temp : α) : Nat → M → Nat → Option (M × Nat)
  | 0, _, _ => none
  | fuel + 1, heap, current =>
    if 1 < current then
      let parent := current / 2
      (S.get heap parent).bind fun p =>
        if less p temp then heapAdjustUpLoop temp fuel (S.assign heap current p) parent else some (heap, current)
    else some (heap, current)

def heapAdjustUp (heap : M) (element : Nat) : Option M :=
  (S.get heap element).bind fun temp =>
    (heapAdjustUpLoop S less temp (element + 1) heap element).map fun o => S.assign o.1 o.2 temp

end Functions

/-- The parent, numbered from 0. -/
def up (x : Nat) : Nat := (x - 1) / 2

theorem up_lt (x : Nat) (hx : 0 < x) : up x < x := by
  unfold up
  omega

theorem up_eq {c x : Nat} (hc : 0 < c) (h : up c = x) : c = 2 * x + 1 ∨ c = 2 * x + 2 := by
  unfold up at h
  omega

/-- Of a heap with its ends exchanged, what is left without the last is a heap but for the first element. -/
theorem sifted_exchanged {α : Type} {less : α → α → Bool} {a z : α} {M : List α} (h : Sifted less up (a :: M ++ [z])) :
    DownHole less up 0 (z :: M) 0 := by
  refine ⟨?_, fun hpos => absurd hpos (Nat.lt_irrefl 0)⟩
  intro i hi _ hne
  obtain ⟨j, rfl⟩ := Nat.exists_eq_succ_of_ne_zero hi.ne'
  obtain ⟨p, hp⟩ := Nat.exists_eq_succ_of_ne_zero hne
  have hj := h (j + 1) hi
  have hup := up_lt (j + 1) hi
  rw [hp] at hj hup ⊢
  rw [List.cons_append, List.getElem?_cons_succ, List.getElem?_cons_succ] at hj
  rw [List.getElem?_cons_succ]
  by_cases hjM : j < M.length
  · rwa [List.getElem?_append_left hjM, List.getElem?_append_left (by omega)] at hj
  · rw [List.getElem?_eq_none (Nat.le_of_not_lt hjM)]
    exact atMost_none_left _

/-- The slots hold the elements `L`: all of them, or all but the one at `x`, numbered from 0. -/
structure Rep {M α : Type} (S : Slots M α) (Full : M → List α → Prop) (But : M → List α → Nat → Prop) : Prop where
  take : ∀ {m L x}, Full m L → x < L.length → But m L x
  get : ∀ {m L x}, Full m L → x < L.length → S.get m (x + 1) = L[x]?
  get_but : ∀ {m L x y}, But m L x → y < L.length → y ≠ x → S.get m (y + 1) = L[y]?
  move : ∀ {m L x y b}, But m L x → x < L.length → y ≠ x → L[y]? = some b →
    But (S.assign m (x + 1) b) (swapAt L x y) y
  put : ∀ {m L x t}, But m L x → L[x]? = some t → Full (S.assign m (x + 1) t) L

section Spec

variable {M α : Type} {S : Slots M α} {less : α → α → Bool} {Full : M → List α → Prop} {But : M → List α → Nat → Prop}

variable {temp : α} {x : Nat} {L : List α} {m : M}

/-- After the loop, where the last element is not a greater child. -/
theorem heapifyLast_put (hR : Rep S Full But) {y : Nat} (hbut : But m L x)
    (hxy : y ≠ x) (hlast : y + 1 = L.length → ∀ c, L[y]? = some c → less temp c = false) :
    heapifyLast S less temp L.length m (x + 1) (y + 1) = some (S.assign m (x + 1) temp) := by
  unfold heapifyLast
  split
  · rename_i hy
    have hlt : y < L.length := by omega
    have hget := List.getElem?_eq_getElem hlt
    rw [hR.get_but hbut hlt hxy, hget, map_some, hlast hy _ hget, if_neg Bool.false_ne_true]
  · rfl

/-- The children of `x` do not exceed what `y` has. -/
def Best (less : α → α → Bool) (L : List α) (x y : Nat) : Prop := ∀ c, 0 < c → up c = x → AtMost less L[c]? L[y]?

theorem best_left (hlt : StrictWeak less) {l r : α} (hl : L[2 * x + 1]? = some l)
    (hr : L[2 * x + 2]? = some r) (hless : less l r = false) : Best less L x (2 * x + 1) := by
  intro c hc hcx
  rcases up_eq hc hcx with rfl | rfl
  · exact .refl hlt _
  · rw [hl, hr]
    exact atMost_some.2 hless

theorem best_right (hlt : StrictWeak less) {l r : α} (hl : L[2 * x + 1]? = some l)
    (hr : L[2 * x + 2]? = some r) (hless : less l r = true) : Best less L x (2 * x + 2) := by
  intro c hc hcx
  rcases up_eq hc hcx with rfl | rfl
  · rw [hl, hr]
    exact .of_less hlt hless
  · exact .refl hlt _

theorem best_only (hlt : StrictWeak less) (hend : L.length ≤ 2 * x + 2) : Best less L x (2 * x + 1) := by
  intro c hc hcx
  rcases up_eq hc hcx with rfl | rfl
  · exact .refl hlt _
  · rw [List.getElem?_eq_none hend]
    exact atMost_none_left _

variable {k : Nat}

theorem stop_best (hlt : StrictWeak less) {y : Nat} (h : DownHole less up k L x)
    (hbest : Best less L x y) (hle : AtMost less L[y]? L[x]?) (hy : y < L.length) : SiftedFrom less up k L := by
  apply h.stop
  intro c hc hcx
  refine (hbest c hc hcx).trans_of_mem hlt ?_ hle
  rw [List.getElem?_eq_getElem hy]
  rfl

variable (hR : Rep S Full But)
include hR

variable (hlt : StrictWeak less)
include hlt

theorem heapifyLoop_spec :
    ∀ {fuel : Nat} {m : M} {L : List α} {x : Nat}, But m L x → L[x]? = some temp → DownHole less up k L x → k ≤ x →
      L.length < fuel + 2 * (x + 1) → 0 < fuel →
        ∃ m' L', ((heapifyLoop S less temp L.length fuel m (x + 1) (2 * (x + 1))).bind fun o =>
            heapifyLast S less temp L.length o.1 o.2.1 o.2.2) = some m' ∧ Full m' L' ∧ L'.Perm L ∧ SiftedFrom less up k L'
  | fuel + 1, m, L, x, hbut, ht, hhole, hkx, hfuel, _ => by
    have hx : x < L.length := (List.getElem?_eq_some_iff.1 ht).1
    by_cases hchild : 2 * (x + 1) < L.length
    · -- two children: the greater one is at `y`
      have hl : 2 * x + 1 < L.length := by omega
      have hr : 2 * x + 2 < L.length := by omega
      have hgetl : S.get m (2 * (x + 1)) = some L[2 * x + 1] :=
        (hR.get_but hbut hl (by omega)).trans (List.getElem?_eq_getElem hl)
      have hgetr : S.get m (2 * (x + 1) + 1) = some L[2 * x + 2] :=
        (hR.get_but hbut hr (by omega)).trans (List.getElem?_eq_getElem hr)
      obtain ⟨y, hy, hpos, hup, hbest, hsel⟩ : ∃ y, y < L.length ∧ 0 < y ∧ up y = x ∧ Best less L x y ∧
          (if less L[2 * x + 1] L[2 * x + 2] then 2 * (x + 1) + 1 else 2 * (x + 1)) = y + 1 := by
        cases hless : less L[2 * x + 1] L[2 * x + 2] with
        | true =>
          refine ⟨2 * x + 2, hr, by omega, by unfold up; omega, ?_, rfl⟩
          exact best_right hlt (List.getElem?_eq_getElem hl) (List.getElem?_eq_getElem hr) hless
        | false =>
          refine ⟨2 * x + 1, hl, by omega, by unfold up; omega, ?_, rfl⟩
          exact best_left hlt (List.getElem?_eq_getElem hl) (List.getElem?_eq_getElem hr) hless
      have hxy : x < y := hup ▸ up_lt y hpos
      have hgety : S.get m (y + 1) = some L[y] := (hR.get_but hbut hy hxy.ne').trans (List.getElem?_eq_getElem hy)
      rw [heapifyLoop, if_pos hchild, hgetl, bind_some, hgetr, bind_some]
      dsimp only
      rw [hsel, hgety, bind_some]
      cases hless : less temp L[y] with
      | true =>
        have hmove := hR.move hbut hx hxy.ne' (List.getElem?_eq_getElem hy)
        have hat : (swapAt L x y)[y]? = some temp := by rw [getElem?_swapAt hx hy, if_pos rfl, ht]
        have hstep := hhole.step hlt up_lt hkx hpos hup ht (List.getElem?_eq_getElem hy) hless (by
          intro c hc hcx
          rw [← List.getElem?_eq_getElem hy]
          exact hbest c hc hcx)
        have hlen : (swapAt L x y).length = L.length := length_swapAt
        obtain ⟨m', L', hrun, hfull, hperm, hsifted⟩ := heapifyLoop_spec hmove hat hstep
          (by omega) (by rw [hlen]; omega) (by omega : 0 < fuel)
        rw [hlen, Nat.mul_comm 2 (y + 1)] at hrun
        exact ⟨m', L', hrun, hfull, hperm.trans (swapAt_perm L x y), hsifted⟩
      | false =>
        refine ⟨_, L, heapifyLast_put hR hbut hxy.ne' ?_, hR.put hbut ht, .refl _, ?_⟩
        · intro _ c hc
          rw [List.getElem?_eq_getElem hy] at hc
          obtain rfl := Option.some.inj hc
          exact hless
        · refine stop_best hlt hhole hbest ?_ hy
          rw [List.getElem?_eq_getElem hy, ht]
          exact atMost_some.2 hless
    · rw [heapifyLoop, if_neg hchild, bind_some]
      have hyx : 2 * x + 1 ≠ x := by omega
      by_cases honly : 2 * (x + 1) = L.length
      · -- one child, the last element
        have hy : 2 * x + 1 < L.length := by omega
        have hget := List.getElem?_eq_getElem hy
        have hbest : Best less L x (2 * x + 1) := best_only hlt (by omega)
        cases hless : less temp L[2 * x + 1] with
        | true =>
          have hgety : S.get m (2 * (x + 1)) = some L[2 * x + 1] := (hR.get_but hbut hy hyx).trans hget
          have hmove := hR.move hbut hx hyx hget
          have hat : (swapAt L x (2 * x + 1))[2 * x + 1]? = some temp := by rw [getElem?_swapAt hx hy, if_pos rfl, ht]
          have hstep := hhole.step hlt up_lt hkx (by omega) (by unfold up; omega) ht hget hless (by
            intro c hc hcx
            rw [← hget]
            exact hbest c hc hcx)
          refine ⟨_, swapAt L x (2 * x + 1), ?_, hR.put hmove hat, swapAt_perm L x _, hstep.stop ?_⟩
          · rw [heapifyLast, if_pos honly, hgety, map_some, hless]
            rfl
          · intro c hc hcy
            rw [List.getElem?_eq_none]
            · exact atMost_none_left _
            · rw [length_swapAt]
              have := up_eq hc hcy
              omega
        | false =>
          refine ⟨_, L, heapifyLast_put (y := 2 * x + 1) hR hbut hyx ?_, hR.put hbut ht, .refl _, ?_⟩
          · intro _ c hc
            rw [hget] at hc
            obtain rfl := Option.some.inj hc
            exact hless
          · refine stop_best hlt hhole hbest ?_ hy
            rw [hget, ht]
            exact atMost_some.2 hless
      · -- no child
        refine ⟨_, L, heapifyLast_put (y := 2 * x + 1) hR hbut hyx ?_, hR.put hbut ht, .refl _, hhole.stop ?_⟩
        · omega
        · intro c hc hcx
          rw [List.getElem?_eq_none]
          · exact atMost_none_left _
          · have := up_eq hc hcx
            omega

/-- **`heapify`** repairs the part of a heap below an element that its children may exceed. -/
theorem heapify_spec (hfull : Full m L) (hx : x < L.length) (hhole : DownHole less up k L x) (hkx : k ≤ x) :
    ∃ m' L', heapify S less m L.length (x + 1) = some m' ∧ Full m' L' ∧ L'.Perm L ∧ SiftedFrom less up k L' := by
  unfold heapify
  rw [hR.get hfull hx, List.getElem?_eq_getElem hx]
  exact heapifyLoop_spec hR hlt (hR.take hfull hx) (List.getElem?_eq_getElem hx) hhole hkx (by omega) (by omega)

theorem heapBuildLoop_spec {i : Nat} (hfull : Full m L) (hi : i ≤ L.length / 2) (hsifted : SiftedFrom less up i L) :
    ∃ m' L', heapBuildLoop S less L.length i m = some m' ∧ Full m' L' ∧ L'.Perm L ∧ Sifted less up L' := by
  induction i generalizing m L with
  | zero => exact ⟨m, L, rfl, hfull, .refl _, siftedFrom_zero.1 hsifted⟩
  | succ i ih =>
    obtain ⟨m1, L1, h1, hfull1, hperm1, hsifted1⟩ := heapify_spec hR hlt hfull (by omega) (hsifted.down up_lt) le_rfl
    rw [heapBuildLoop, h1, ← hperm1.length_eq]
    obtain ⟨m', L', h', hfull', hperm', hsifted'⟩ := ih hfull1 (by rw [hperm1.length_eq]; omega) hsifted1
    exact ⟨m', L', h', hfull', hperm'.trans hperm1, hsifted'⟩

/-- **`heapBuild`** makes a heap of any elements. -/
theorem heapBuild_spec (hfull : Full m L) :
    ∃ m' L', heapBuild S less m L.length = some m' ∧ Full m' L' ∧ L'.Perm L ∧ Sifted less up L' := by
  apply heapBuildLoop_spec hR hlt hfull le_rfl
  intro i hi hk
  unfold up at hk
  rw [List.getElem?_eq_none (by omega)]
  exact atMost_none_left _

theorem heapAdjustUpLoop_spec :
    ∀ {fuel : Nat} {m : M} {L : List α} {x : Nat}, But m L x → L[x]? = some temp → UpHole less up L x → x < fuel →
      ∃ m' L', ((heapAdjustUpLoop S less temp fuel m (x + 1)).map fun o => S.assign o.1 o.2 temp) = some m' ∧
        Full m' L' ∧ L'.Perm L ∧ Sifted less up L'
  | fuel + 1, m, L, x, hbut, ht, hhole, hfuel => by
    have hx : x < L.length := (List.getElem?_eq_some_iff.1 ht).1
    rw [heapAdjustUpLoop]
    by_cases hpos : 0 < x
    · have hup := up_lt x hpos
      have hpx : up x < L.length := hup.trans hx
      have hhalf : (x + 1) / 2 = up x + 1 := by
        unfold up
        omega
      have hget := List.getElem?_eq_getElem hpx
      have hgetp : S.get m (up x + 1) = some L[up x] := (hR.get_but hbut hpx hup.ne).trans hget
      rw [if_pos (by omega), hhalf]
      dsimp only
      rw [hgetp, bind_some]
      cases hless : less L[up x] temp with
      | true =>
        have hmove := hR.move hbut hx hup.ne hget
        have hat : (swapAt L x (up x))[up x]? = some temp := by rw [getElem?_swapAt hx hpx, if_pos rfl, ht]
        obtain ⟨m', L', hrun, hfull, hperm, hsifted⟩ := heapAdjustUpLoop_spec hmove hat
          (hhole.step hlt up_lt hpos ht hget hless) (by omega : up x < fuel)
        exact ⟨m', L', hrun, hfull, hperm.trans (swapAt_perm L x _), hsifted⟩
      | false =>
        refine ⟨_, L, rfl, hR.put hbut ht, .refl _, hhole.stop fun _ => ?_⟩
        rw [hget, ht]
        exact atMost_some.2 hless
    · rw [if_neg (by omega)]
      exact ⟨_, L, rfl, hR.put hbut ht, .refl _, hhole.stop fun h => absurd h hpos⟩

/-- **`heapAdjustUp`** repairs a heap above an element that may exceed its parent. -/
theorem heapAdjustUp_spec (hfull : Full m L) (hx : x < L.length) (hhole : UpHole less up L x) :
    ∃ m' L', heapAdjustUp S less m (x + 1) = some m' ∧ Full m' L' ∧ L'.Perm L ∧ Sifted less up L' := by
  unfold heapAdjustUp
  rw [hR.get hfull hx, List.getElem?_eq_getElem hx]
  exact heapAdjustUpLoop_spec hR hlt (hR.take hfull hx) (List.getElem?_eq_getElem hx) hhole (by omega)

end Spec

end Sbmt.Carmel
