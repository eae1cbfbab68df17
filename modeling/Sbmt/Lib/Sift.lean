import Sbmt.Lib.Heap
/-!
# Sifting in a vector

A vector is a heap along `par` when nothing exceeds what stands at its parent's position (`Sifted`); `par`
is any numbering with parents before their children.  A heap is repaired by carrying the one element that
is out of place upwards, swapping it with its parent, or downwards, swapping it with its greatest child.
`UpHole` and `DownHole` are what holds in between, of a vector with the element at `x`: each direction has
a lemma that starts it, one for a swap, and one for the end.
-/

namespace Sbmt.Lib

open List

variable {α : Type}

def swapAt (l : List α) (i j : Nat) : List α :=
  match l[i]?, l[j]? with
  | some a, some b => (l.set i b).set j a
  | _, _ => l

section

variable {l : List α} {i j k : Nat}

theorem swapAt_eq {a b : α} (ha : l[i]? = some a) (hb : l[j]? = some b) : swapAt l i j = (l.set i b).set j a := by
  rw [swapAt, ha, hb]

@[simp] theorem length_swapAt : (swapAt l i j).length = l.length := by
  unfold swapAt
  split
  · rw [length_set, length_set]
  · rfl

theorem getElem?_swapAt (hi : i < l.length) (hj : j < l.length) (k : Nat) :
    (swapAt l i j)[k]? = if k = j then l[i]? else if k = i then l[j]? else l[k]? := by
  rw [swapAt_eq (getElem?_eq_getElem hi) (getElem?_eq_getElem hj)]
  by_cases hkj : k = j
  · subst hkj
    rw [if_pos rfl, getElem?_set_self (by rwa [length_set]), getElem?_eq_getElem hi]
  · rw [if_neg hkj, getElem?_set_ne (Ne.symm hkj)]
    by_cases hki : k = i
    · subst hki
      rw [if_pos rfl, getElem?_set_self hi, getElem?_eq_getElem hj]
    · rw [if_neg hki, getElem?_set_ne (Ne.symm hki)]

theorem set_perm {a b : α} (hi : l[i]? = some a) : (a :: l.set i b).Perm (b :: l) := by
  induction l generalizing i with
  | nil => simp at hi
  | cons c l ih =>
    cases i with
    | zero =>
      cases hi
      exact .swap _ _ _
    | succ i => exact (Perm.swap _ _ _).trans (((ih (by simpa using hi)).cons c).trans (.swap _ _ _))

theorem swapAt_perm (l : List α) (i j : Nat) : (swapAt l i j).Perm l := by
  unfold swapAt
  split
  · rename_i a b ha hb
    have hj : (l.set i b)[j]? = some b := by
      by_cases hij : i = j
      · subst hij
        rw [getElem?_set_self (List.getElem?_eq_some_iff.mp ha).1]
      · rw [getElem?_set_ne hij, hb]
    exact (perm_cons b).mp ((set_perm hj).trans (set_perm ha))
  · exact .refl _

end

variable (less : α → α → Bool)

/-- What may be missing on either side does not exceed. -/
def AtMost (a b : Option α) : Prop := ∀ x ∈ a, ∀ y ∈ b, less y x = false

/-- Nothing exceeds its parent. -/
def Sifted (par : Nat → Nat) (l : List α) : Prop := ∀ i, 0 < i → AtMost less l[i]? l[par i]?

/-- A heap but for the element at `x`, which may exceed its parent. -/
structure UpHole (less : α → α → Bool) (par : Nat → Nat) (l : List α) (x : Nat) : Prop where
  off : ∀ i, 0 < i → i ≠ x → AtMost less l[i]? l[par i]?
  past : 0 < x → ∀ c, 0 < c → par c = x → AtMost less l[c]? l[par x]?

/-- Nothing exceeds its parent where the parent is not before `k`. -/
def SiftedFrom (par : Nat → Nat) (k : Nat) (l : List α) : Prop :=
  ∀ i, 0 < i → k ≤ par i → AtMost less l[i]? l[par i]?

/-- The same but for the element at `x`, which its children may exceed: with `k = 0`, a heap but for that element. -/
structure DownHole (less : α → α → Bool) (par : Nat → Nat) (k : Nat) (l : List α) (x : Nat) : Prop where
  off : ∀ i, 0 < i → k ≤ par i → par i ≠ x → AtMost less l[i]? l[par i]?
  past : 0 < x → k ≤ par x → ∀ c, 0 < c → par c = x → AtMost less l[c]? l[par x]?

section

variable {less : α → α → Bool} {par : Nat → Nat} {l : List α} {k x y : Nat} {a b v old : α}

theorem siftedFrom_zero : SiftedFrom less par 0 l ↔ Sifted less par l :=
  ⟨fun h i hi => h i hi (Nat.zero_le _), fun h i hi _ => h i hi⟩

/-- One element more, from the end. -/
theorem SiftedFrom.down (hpar : ∀ i, 0 < i → par i < i) (h : SiftedFrom less par (x + 1) l) :
    DownHole less par x l x :=
  ⟨fun i hi hx hne => h i hi (by omega), fun hpos hx => absurd (hpar x hpos) (by omega)⟩

@[simp] theorem atMost_none_left (b : Option α) : AtMost less none b := by simp [AtMost]

@[simp] theorem atMost_none_right (a : Option α) : AtMost less a none := by simp [AtMost]

@[simp] theorem atMost_some : AtMost less (some a) (some b) ↔ less b a = false := by simp [AtMost]

variable (hlt : StrictWeak less)
include hlt

theorem AtMost.trans {a c : Option α} (h1 : AtMost less a (some b)) (h2 : AtMost less (some b) c) :
    AtMost less a c := fun x hx z hz => hlt.negTrans (h2 b rfl z hz) (h1 x hx b rfl)

theorem AtMost.refl (a : Option α) : AtMost less a a := by
  intro x hx y hy
  rw [Option.mem_unique hx hy]
  exact hlt.preorder.le_refl y

/-- What is less does not exceed. -/
theorem AtMost.of_less (h : less a b = true) : AtMost less (some a) (some b) :=
  atMost_some.mpr (hlt.asymm h)

theorem AtMost.trans_of_mem {a b c : Option α} (hb : b.isSome) (h1 : AtMost less a b)
    (h2 : AtMost less b c) : AtMost less a c := by
  obtain ⟨b, rfl⟩ := Option.isSome_iff_exists.mp hb
  exact h1.trans hlt h2

/-! ## Upwards -/

omit hlt in
theorem UpHole.stop (h : UpHole less par l x) (hx : 0 < x → AtMost less l[x]? l[par x]?) : Sifted less par l := by
  intro i hi
  by_cases hix : i = x
  · subst hix
    exact hx hi
  · exact h.off i hi hix

variable (hpar : ∀ i, 0 < i → par i < i)
include hpar

theorem UpHole.step (h : UpHole less par l x) (hx : 0 < x)
    (ha : l[x]? = some a) (hb : l[par x]? = some b) (hless : less b a = true) :
    UpHole less par (swapAt l x (par x)) (par x) := by
  have hxl := (List.getElem?_eq_some_iff.mp ha).1
  have hpl := (List.getElem?_eq_some_iff.mp hb).1
  have hpx := hpar x hx
  have hget := getElem?_swapAt hxl hpl
  have hat : (swapAt l x (par x))[x]? = some b := by rw [hget, if_neg hpx.ne', if_pos rfl, hb]
  have hatp : (swapAt l x (par x))[par x]? = some a := by rw [hget, if_pos rfl, ha]
  have helse : ∀ i, i ≠ x → i ≠ par x → (swapAt l x (par x))[i]? = l[i]? := fun i h1 h2 => by
    rw [hget, if_neg h2, if_neg h1]
  constructor
  · intro i hi hip
    by_cases hix : i = x
    · -- the old parent, now below the element
      subst hix
      rw [hat, hatp]
      exact .of_less hlt hless
    · rw [helse i hix hip]
      by_cases hpix : par i = x
      · rw [hpix, hat, ← hb]
        exact h.past hx i hi hpix
      · by_cases hpip : par i = par x
        · rw [hpip, hatp]
          have hsib := h.off i hi hix
          rw [hpip, hb] at hsib
          exact hsib.trans hlt (.of_less hlt hless)
        · rw [helse _ hpix hpip]
          exact h.off i hi hix
  · intro hp c hc hcp
    have hpp := hpar (par x) hp
    have habove : AtMost less (some b) l[par (par x)]? := hb ▸ h.off (par x) hp hpx.ne
    rw [helse (par (par x)) (by omega) hpp.ne]
    by_cases hcx : c = x
    · subst hcx
      rw [hat]
      exact habove
    · have hcpar := hpar c hc
      rw [helse c hcx (by omega)]
      have hsib := h.off c hc hcx
      rw [hcp, hb] at hsib
      exact hsib.trans hlt habove

/-! ## Downwards -/

omit hpar in
omit hlt in
theorem DownHole.stop (h : DownHole less par k l x)
    (hx : ∀ c, 0 < c → par c = x → AtMost less l[c]? l[x]?) : SiftedFrom less par k l := by
  intro i hi hk
  by_cases hix : par i = x
  · rw [hix]
    exact hx i hi hix
  · exact h.off i hi hk hix

theorem DownHole.step (h : DownHole less par k l x)
    (hkx : k ≤ x) (hto : 0 < y) (hpto : par y = x) (ha : l[x]? = some a) (hb : l[y]? = some b)
    (hless : less a b = true) (hbest : ∀ c, 0 < c → par c = x → AtMost less l[c]? (some b)) :
    DownHole less par k (swapAt l x y) y := by
  have hxl := (List.getElem?_eq_some_iff.mp ha).1
  have htl := (List.getElem?_eq_some_iff.mp hb).1
  have hxt : x < y := hpto ▸ hpar y hto
  have hget := getElem?_swapAt hxl htl
  have hat : (swapAt l x y)[x]? = some b := by rw [hget, if_neg hxt.ne, if_pos rfl, hb]
  have hatt : (swapAt l x y)[y]? = some a := by rw [hget, if_pos rfl, ha]
  have helse : ∀ i, i ≠ x → i ≠ y → (swapAt l x y)[i]? = l[i]? := fun i h1 h2 => by rw [hget, if_neg h2, if_neg h1]
  constructor
  · intro i hi hk hip
    have hpi := hpar i hi
    by_cases hix : i = x
    · subst hix
      rw [hat, helse _ hpi.ne hip, ← hb]
      exact h.past hi hk y hto hpto
    · by_cases hpix : par i = x
      · rw [hpix, hat]
        by_cases hit : i = y
        · subst hit
          rw [hatt]
          exact .of_less hlt hless
        · rw [helse i hix hit]
          exact hbest i hi hpix
      · have hit : i ≠ y := fun hit => hpix (hit ▸ hpto)
        rw [helse i hix hit, helse _ hpix hip]
        exact h.off i hi hk hpix
  · intro _ _ c hc hcp
    have hcpar := hpar c hc
    rw [hpto, hat, helse c (by omega) (by omega), ← hb, ← hcp]
    exact h.off c hc (by omega) (by omega)

/-! ## Starts -/

variable (h : Sifted less par l)
include h

theorem Sifted.le_root (i : Nat) : AtMost less l[i]? l[0]? := by
  induction i using Nat.strong_induction_on with
  | _ i ih =>
    rcases Nat.eq_zero_or_pos i with rfl | hi
    · exact .refl hlt _
    · have hp := hpar i hi
      by_cases hil : i < l.length
      · have hsome : l[par i]?.isSome := by
          rw [getElem?_eq_getElem (hp.trans hil)]
          rfl
        exact (h i hi).trans_of_mem hlt hsome (ih (par i) hp)
      · rw [getElem?_eq_none (not_lt.mp hil)]
        exact atMost_none_left _

omit hlt in
/-- A new element at the end. -/
theorem Sifted.concat (v : α) : UpHole less par (l ++ [v]) l.length where
  off i hi hil := by
    rcases Nat.lt_or_ge i l.length with hlt | hge
    · rw [getElem?_append_left hlt, getElem?_append_left ((hpar i hi).trans hlt)]
      exact h i hi
    · rw [getElem?_eq_none (by rw [length_append, length_singleton]; omega)]
      exact atMost_none_left _
  past _ c hc hcp := by
    have := hpar c hc
    rw [getElem?_eq_none (by rw [length_append, length_singleton]; omega)]
    exact atMost_none_left _

/-- What is below the place of the old element does not exceed what is above it. -/
theorem Sifted.set_past (hold : l[x]? = some old) (hx : 0 < x) {c : Nat} (hc : 0 < c) (hcp : par c = x) :
    AtMost less (l.set x v)[c]? (l.set x v)[par x]? := by
  have hcx := hpar c hc
  have hxp := hpar x hx
  rw [getElem?_set_ne (by omega), getElem?_set_ne hxp.ne']
  have hc' := h c hc
  rw [hcp, hold] at hc'
  exact hc'.trans hlt (hold ▸ h x hx)

/-- A greater element in place of the old one. -/
theorem Sifted.set_up (hold : l[x]? = some old) (hless : less old v = true) : UpHole less par (l.set x v) x := by
  have hxl := (List.getElem?_eq_some_iff.mp hold).1
  constructor
  · intro i hi hix
    rw [getElem?_set_ne (Ne.symm hix)]
    have hi' := h i hi
    by_cases hpi : par i = x
    · rw [hpi, hold] at hi'
      rw [hpi, getElem?_set_self hxl]
      exact hi'.trans hlt (.of_less hlt hless)
    · rwa [getElem?_set_ne (Ne.symm hpi)]
  · exact fun hx c hc hcp => h.set_past hlt hpar hold hx hc hcp

/-- An element that is no greater in place of the old one. -/
theorem Sifted.set_down (hold : l[x]? = some old) (hless : less old v = false) :
    DownHole less par 0 (l.set x v) x := by
  have hxl := (List.getElem?_eq_some_iff.mp hold).1
  have hv : AtMost less (some v) (some old) := atMost_some.mpr hless
  constructor
  · intro i hi _ hpi
    rw [getElem?_set_ne (Ne.symm hpi)]
    by_cases hix : i = x
    · subst hix
      rw [getElem?_set_self hxl]
      exact hv.trans hlt (hold ▸ h i hi)
    · rw [getElem?_set_ne (Ne.symm hix)]
      exact h i hi
  · exact fun hx _ c hc hcp => h.set_past hlt hpar hold hx hc hcp

end

end Sbmt.Lib
