import Sbmt.Lib.LowerBound
/-!
# Quantizers (`biglm/pagh/quantizer.cpp`)

| here | there |
| --- | --- |
| `Quantizer.ofMeans` | the two constructors (`:17-43`): `mid x prev` is `0.5*(x+prev)` |
| `Quantizer.decode`, `size` | `quantizer.cpp:52`, `quantizer.hpp:24` |
| `Quantizer.encode` | `:56`, with the binary search of `std::lower_bound` |

The numbers are any type with a decidable `<`; for what is nearest to what they are a field, with nothing rounded.
-/

namespace Sbmt.Biglm

open Sbmt.Lib List

structure Quantizer (W : Type) where
  means : List W
  boundaries : List W
  length_boundaries : boundaries.length = means.length - 1

variable {W : Type}

/-- The boundaries between each mean and the one before it. -/
def boundariesFrom (mid : W → W → W) (prev : W) : List W → List W
  | [] => []
  | x :: xs => mid x prev :: boundariesFrom mid x xs

/-- `lower_bound(l.begin(), l.end(), p)`: `count` elements from `first` on are left. -/
def lowerBoundLoop [LT W] [DecidableLT W] (l : List W) (p : W) : Nat → Nat → Nat → Nat
  | 0, first, _ => first
  | fuel + 1, first, count =>
    if count = 0 then first
    else
      let half := count / 2
      if (l[first + half]?).any (· < p) then lowerBoundLoop l p fuel (first + half + 1) (count - half - 1)
      else lowerBoundLoop l p fuel first half

def lowerBound [LT W] [DecidableLT W] (l : List W) (p : W) : Nat := lowerBoundLoop l p l.length 0 l.length

theorem length_boundariesFrom (mid : W → W → W) (xs : List W) : ∀ prev, (boundariesFrom mid prev xs).length = xs.length := by
  induction xs with
  | nil => exact fun _ => rfl
  | cons x xs ih => exact fun _ => congrArg (· + 1) (ih x)

namespace Quantizer

/-- `quantizer() {}`. -/
def empty : Quantizer W := ⟨[], [], rfl⟩

def ofMeans (mid : W → W → W) : List W → Quantizer W
  | [] => empty
  | x :: xs => ⟨x :: xs, boundariesFrom mid x xs, length_boundariesFrom mid xs x⟩

def size (q : Quantizer W) : Nat := q.means.length

def decode [Zero W] (q : Quantizer W) (i : Nat) : W := q.means.getD i 0

def encode [LT W] [DecidableLT W] (q : Quantizer W) (p : W) : Nat := lowerBound q.boundaries p

end Quantizer

section

variable [LT W] [DecidableLT W]

/-- The search stays in its part of the list. -/
theorem lowerBoundLoop_le (l : List W) (p : W) (fuel : Nat) :
    ∀ first count, lowerBoundLoop l p fuel first count ≤ first + count := by
  induction fuel with
  | zero => exact fun first count => Nat.le_add_right ..
  | succ fuel ih =>
    intro first count
    unfold lowerBoundLoop
    by_cases h0 : count = 0
    · rw [if_pos h0]
      omega
    · rw [if_neg h0]
      by_cases hlt : (l[first + count / 2]?).any (· < p)
      · rw [if_pos hlt]
        have := ih (first + count / 2 + 1) (count - count / 2 - 1)
        omega
      · rw [if_neg hlt]
        have := ih first (count / 2)
        omega

/-- A number is one of the means', or 0 if there is none. -/
theorem Quantizer.encode_lt (q : Quantizer W) (p : W) : q.encode p < max 1 q.size := by
  have hle := lowerBoundLoop_le q.boundaries p q.boundaries.length 0 q.boundaries.length
  have hlength := q.length_boundaries
  unfold encode lowerBound size
  omega

end

/-! ## Strictly increasing means -/

theorem lowerBoundLoop_eq [LT W] [DecidableLT W] (l : List W) (p : W) (fuel first count : Nat) :
    lowerBoundLoop l p fuel first count = boundLoop (fun i => l[i]?.any (· < p)) fuel first count := by
  induction fuel generalizing first count with
  | zero => rfl
  | succ fuel ih => simp [lowerBoundLoop, boundLoop, ih]

theorem boundariesFrom_eq (mid : W → W → W) (prev : W) (xs : List W) :
    boundariesFrom mid prev xs = zipWith mid xs (prev :: xs) := by
  induction xs generalizing prev with
  | nil => rfl
  | cons x xs ih => rw [boundariesFrom, ih, zipWith_cons_cons]

section

variable {K : Type} [Field K] [LinearOrder K] [IsStrictOrderedRing K] {means : List K} {a b x y : K} {i j : Nat}

/-- `0.5*(x+prev)`. -/
def exactMid (x prev : K) : K := 0.5 * (x + prev)

theorem exactMid_le (hax : a ≤ x) (hby : b ≤ y) : exactMid a b ≤ exactMid x y := by
  unfold exactMid
  linarith

/-- From the middle on, the upper one is at least as near. -/
theorem abs_le_of_exactMid_le (hab : a ≤ b) (h : exactMid b a ≤ x) : |x - b| ≤ |x - a| := by
  unfold exactMid at h
  rw [abs_of_nonneg (show 0 ≤ x - a by linarith), abs_le]
  constructor <;> linarith

theorem abs_le_of_le_exactMid (hab : a ≤ b) (h : x ≤ exactMid b a) : |x - a| ≤ |x - b| := by
  unfold exactMid at h
  rw [abs_of_nonpos (show x - b ≤ 0 by linarith), abs_le]
  constructor <;> linarith

namespace Quantizer

section
omit [LinearOrder K] [IsStrictOrderedRing K]

theorem ofMeans_means : (ofMeans exactMid means).means = means := by
  cases means <;> rfl

theorem getElem_boundaries (hi : i < (ofMeans exactMid means).boundaries.length) (h : i + 1 < means.length) :
    (ofMeans exactMid means).boundaries[i] = exactMid means[i + 1] means[i] := by
  cases means with
  | nil => exact absurd h (Nat.not_lt_zero _)
  | cons m ms => simp [ofMeans, boundariesFrom_eq]

end

omit [Field K] [IsStrictOrderedRing K] in
theorem mean_le (hmeans : means.SortedLT) (hij : i ≤ j) (hj : j < means.length) : means[i] ≤ means[j] :=
  hmeans.sortedLE.getElem_le_getElem_of_le hij

theorem exactMid_between (hmeans : means.SortedLT) (hi : i + 1 < means.length) :
    means[i] < exactMid means[i + 1] means[i] ∧ exactMid means[i + 1] means[i] < means[i + 1] := by
  have hstep : means[i] < means[i + 1] := hmeans.getElem_lt_getElem_of_lt (Nat.lt_succ_self i)
  unfold exactMid
  constructor <;> linarith

/-- **The search counts the middles below the number.** -/
theorem lt_encode_iff (hmeans : means.SortedLT) (hi : i + 1 < means.length) :
    i < (ofMeans exactMid means).encode x ↔ exactMid means[i + 1] means[i] < x := by
  have hlength := (ofMeans exactMid means).length_boundaries
  rw [ofMeans_means] at hlength
  have hparted : Parted (fun b => decide (b < x)) (ofMeans exactMid means).boundaries := by
    refine pairwise_iff_getElem.mpr fun i j hi hj hij hlt => decide_eq_true ((of_decide_eq_true hlt).trans_le' ?_)
    rw [getElem_boundaries hi (by omega), getElem_boundaries hj (by omega)]
    exact exactMid_le (mean_le hmeans (by omega) (by omega)) (mean_le hmeans hij.le (by omega))
  have hpoint := lt_partitionPoint_iff hparted (i := i) (by omega)
  rw [encode, lowerBound, lowerBoundLoop_eq]
  rwa [decide_eq_true_iff, getElem_boundaries (by omega) hi] at hpoint

/-- **A quantizer encodes to the nearest of its means**, never to a lower one for a greater number, and a mean to
itself. -/
theorem encode_nearest (hmeans : means.SortedLT) :
    (∀ x, ∀ m ∈ means, ∃ e, means[(ofMeans exactMid means).encode x]? = some e ∧ |x - e| ≤ |x - m|) ∧
    Monotone (ofMeans exactMid means).encode ∧
    ∀ i m, means[i]? = some m → (ofMeans exactMid means).encode m = i ∧
      (ofMeans exactMid means).decode ((ofMeans exactMid means).encode m) = m := by
  have hlt : ∀ x, (ofMeans exactMid means).encode x < max 1 means.length := by
    intro x
    have hsize := (ofMeans exactMid means).encode_lt x
    rwa [size, ofMeans_means] at hsize
  have hiff : ∀ {i : Nat} (hi : i + 1 < means.length) (x : K),
      i < (ofMeans exactMid means).encode x ↔ exactMid means[i + 1] means[i] < x := fun hi x => lt_encode_iff hmeans hi
  refine ⟨fun x m hm => ?_, fun x y hxy => ?_, fun i m hm => ?_⟩
  · obtain ⟨j, hj, rfl⟩ := mem_iff_getElem.mp hm
    have hx := hlt x
    generalize hc : (ofMeans exactMid means).encode x = c at hx
    refine ⟨means[c], List.getElem?_eq_getElem (by omega), ?_⟩
    rcases Nat.lt_trichotomy j c with hjc | rfl | hcj
    · obtain ⟨k, rfl⟩ : ∃ k, c = k + 1 := ⟨c - 1, by omega⟩
      have hmid := (hiff (by omega) x).mp (show k < _ by omega)
      exact abs_le_of_exactMid_le (mean_le hmeans hjc.le _)
        ((exactMid_le le_rfl (mean_le hmeans (by omega) _)).trans hmid.le)
    · exact le_rfl
    · have hmid : x ≤ exactMid means[c + 1] means[c] :=
        not_lt.mp fun h => absurd ((hiff (by omega) x).mpr h) (by omega)
      exact abs_le_of_le_exactMid (mean_le hmeans hcj.le hj) (hmid.trans (exactMid_le (mean_le hmeans hcj hj) le_rfl))
  · by_contra hyx
    have hx := hlt x
    have hmid := (hiff (by omega) x).mp (Nat.not_le.mp hyx)
    exact absurd ((hiff (by omega) y).mpr (hmid.trans_le hxy)) (Nat.lt_irrefl _)
  · obtain ⟨hi, rfl⟩ := List.getElem?_eq_some_iff.mp hm
    have hm := hlt means[i]
    have heq : (ofMeans exactMid means).encode means[i] = i := by
      generalize hc : (ofMeans exactMid means).encode means[i] = c at hm
      rcases Nat.lt_trichotomy c i with hci | rfl | hic
      · have hmid := (exactMid_between hmeans (show c + 1 < _ by omega)).2
        have hbelow := (hiff (by omega) means[i]).mpr (hmid.trans_le (mean_le hmeans hci hi))
        omega
      · rfl
      · have hmid := (hiff (by omega) means[i]).mp (show i < _ by omega)
        exact absurd hmid (exactMid_between hmeans _).1.not_gt
    exact ⟨heq, by rw [heq, decode, ofMeans_means, getD_eq_getElem _ _ hi]⟩

/-- Halfway between two means. -/
theorem encode_nearest_halfway : (ofMeans exactMid [1, 2, 4] : Quantizer ℚ).encode 4 = 2 ∧
    ∃ e, [1, 2, 4][(ofMeans exactMid [1, 2, 4] : Quantizer ℚ).encode 3]? = some e ∧ |3 - e| ≤ |(3 : ℚ) - 4| := by
  have h := encode_nearest (show ([1, 2, 4] : List ℚ).SortedLT by decide)
  exact ⟨(h.2.2 2 4 rfl).1, h.1 3 4 (by decide)⟩

end Quantizer

end

end Sbmt.Biglm
