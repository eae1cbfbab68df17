import Mathlib

/-!
# Weights kept as logarithms, computed with exactly (`shared/weight.h`)

| here | there |
| --- | --- |
| `LogWeight` | `logweight<Real>`: the number whose logarithm it is, `num 0` for -∞, with what +∞ and NaN stand for |
| `isZero` | `logweight::isZero` (`:266-272`), which is also true of NaN |
| `add`, `sub` | `operator +`, `operator -` (`:808-880`) with `WEIGHT_CORRECT_ZERO` (`shared/config.h:137`) |
| `mul`, `div` | `operator *`, `operator /` (`:784-785`): logarithms added and subtracted, with no test for zero |
| `divAssign` | `operator /=` (`:443-454`) |
| `gt` | `operator >` (`:910`) |

Numbers are not rounded: `K` is any linearly ordered semifield with nothing below zero, and a difference is cut at 0.
-/

namespace Sbmt.Carmel

inductive LogWeight (K : Type*) where
  | num (k : K)
  | infinity
  | nan
deriving DecidableEq

namespace LogWeight

variable {K : Type*} [Semifield K] [LinearOrder K]

def isZero : LogWeight K → Bool
  | num k => decide (k = 0)
  | infinity => false
  | nan => true

variable (lhs rhs : LogWeight K)

def add : LogWeight K :=
  if lhs.isZero then rhs
  else if rhs.isZero then lhs
  else
    match lhs, rhs with
    | num a, num b => num (a + b)
    -- the logarithms are further apart than `MUCH_BIGGER_LN`
    | infinity, num _ | num _, infinity => infinity
    -- their difference is NaN
    | _, _ => nan

def sub [Sub K] : LogWeight K :=
  if rhs.isZero then lhs
  else
    match lhs, rhs with
    | num a, num b => if a ≤ b then num 0 else num (a - b)
    | num _, infinity => num 0
    | infinity, num _ => infinity
    | _, _ => nan

def mul : LogWeight K → LogWeight K → LogWeight K
  | num a, num b => num (a * b)
  | infinity, num b => if b = 0 then nan else infinity
  | num a, infinity => if a = 0 then nan else infinity
  | infinity, infinity => infinity
  | _, _ => nan

def div : LogWeight K → LogWeight K → LogWeight K
  -- -∞ taken from a logarithm is +∞, but from -∞ it is NaN
  | num a, num b => if b = 0 then if a = 0 then nan else infinity else num (a / b)
  | num _, infinity => num 0
  | infinity, num _ => infinity
  | _, _ => nan

def divAssign : LogWeight K := if lhs.isZero then lhs else lhs.div rhs

def gt : LogWeight K → LogWeight K → Bool
  | num a, num b => decide (b < a)
  | infinity, num _ => true
  | _, _ => false

@[simp] theorem isZero_num (k : K) : (num k).isZero = decide (k = 0) := rfl

@[simp] theorem add_num (a b : K) : (num a).add (num b) = num (a + b) := by
  unfold add
  rw [isZero_num, isZero_num]
  by_cases ha : a = 0
  · rw [if_pos (decide_eq_true ha), ha, zero_add]
  rw [if_neg (by simpa using ha)]
  by_cases hb : b = 0
  · rw [if_pos (decide_eq_true hb), hb, add_zero]
  rw [if_neg (by simpa using hb)]

@[simp] theorem mul_num (a b : K) : (num a).mul (num b) = num (a * b) := rfl

theorem div_num {b : K} (hb : b ≠ 0) (a : K) : (num a).div (num b) = num (a / b) := if_neg hb

theorem zero_div_zero : (num (0 : K)).div (num 0) = nan := by
  show (if (0 : K) = 0 then if (0 : K) = 0 then nan else infinity else num (0 / 0)) = nan
  rw [if_pos rfl, if_pos rfl]

omit [Semifield K] in
@[simp] theorem gt_num (a b : K) : (num a).gt (num b) = decide (b < a) := rfl

@[simp] theorem sub_num [CanonicallyOrderedAdd K] [Sub K] [OrderedSub K] (a b : K) : (num a).sub (num b) = num (a - b) := by
  unfold sub
  rw [isZero_num]
  by_cases hb : b = 0
  · rw [if_pos (decide_eq_true hb), hb, tsub_zero]
  rw [if_neg (by simpa using hb)]
  by_cases hle : a ≤ b
  · show (if a ≤ b then num 0 else num (a - b)) = num (a - b)
    rw [if_pos hle, tsub_eq_zero_of_le hle]
  · exact if_neg hle

end LogWeight

end Sbmt.Carmel
