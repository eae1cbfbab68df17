import Mathlib
/-!
# Binary search

`std::lower_bound` and `std::upper_bound` look for the place where a range changes from elements that go
before to elements that do not.  Half of what is left goes away at every look.  `partitionPoint` is that loop;
on a range which is so parted (`Parted`) it finds the place: the elements before it are those that go before.
-/

namespace Sbmt.Lib

variable {α : Type*}

/-- The loop: the place is somewhere in the `len` positions from `first` on, or behind them. -/
def boundLoop (p : Nat → Bool) : Nat → Nat → Nat → Nat
  | 0, first, _ => first
  | fuel + 1, first, len =>
    if len = 0 then first
    else
      let half := len / 2
      if p (first + half) then boundLoop p fuel (first + half + 1) (len - half - 1)
      else boundLoop p fuel first half

/-- Where `p` turns from true to false. -/
def partitionPoint (p : α → Bool) (l : List α) : Nat := boundLoop (fun i => l[i]?.any p) l.length 0 l.length

/-- Behind an element that does not go before there is none that does. -/
def Parted (p : α → Bool) (l : List α) : Prop := l.Pairwise fun x y => p y = true → p x = true

theorem boundLoop_spec {p : Nat → Bool} {fuel : Nat} (first len : Nat) (hp : ∀ i j, i < j → j < first + len → p j = true → p i = true)
    (hfuel : len ≤ fuel) : first ≤ boundLoop p fuel first len ∧ boundLoop p fuel first len ≤ first + len ∧
      (∀ i, first ≤ i → i < boundLoop p fuel first len → p i = true) ∧
      ∀ i, boundLoop p fuel first len ≤ i → i < first + len → p i = false := by
  induction fuel generalizing first len with
  | zero =>
    obtain rfl : len = 0 := Nat.le_zero.mp hfuel
    exact ⟨le_rfl, le_rfl, fun i h h' => absurd h' (Nat.not_lt.mpr h), fun i h h' => absurd h' (Nat.not_lt.mpr h)⟩
  | succ fuel ih =>
    unfold boundLoop
    split
    · rename_i hlen
      subst hlen
      exact ⟨le_rfl, le_rfl, fun i h h' => absurd h' (Nat.not_lt.mpr h), fun i h h' => absurd h' (Nat.not_lt.mpr h)⟩
    · dsimp only
      have hrest : first + len / 2 + 1 + (len - len / 2 - 1) = first + len := by omega
      split
      · rename_i hmid
        obtain ⟨hle, hge, hbefore, hbehind⟩ := ih (first + len / 2 + 1) (len - len / 2 - 1)
          (fun i j hij hj => hp i j hij (by omega)) (by omega)
        rw [hrest] at hge hbehind
        refine ⟨by omega, hge, fun i hi hlt => ?_, hbehind⟩
        rcases Nat.lt_trichotomy i (first + len / 2) with h | rfl | h
        · exact hp i _ h (by omega) hmid
        · exact hmid
        · exact hbefore i (by omega) hlt
      · rename_i hmid
        obtain ⟨hle, hge, hbefore, hbehind⟩ := ih first (len / 2)
          (fun i j hij hj => hp i j hij (by omega)) (by omega)
        refine ⟨hle, by omega, hbefore, fun i hi hlt => ?_⟩
        rcases Nat.lt_or_ge i (first + len / 2) with h | h
        · exact hbehind i hi h
        · by_contra hpi
          rw [Bool.not_eq_false] at hpi
          rcases Nat.eq_or_lt_of_le h with rfl | h
          · exact hmid hpi
          · exact hmid (hp _ i h hlt hpi)

variable {p : α → Bool} {l : List α}

variable (h : Parted p l)
include h

theorem Parted.any {i j : Nat} (hij : i < j) (hj : j < l.length) (hpj : l[j]?.any p = true) : l[i]?.any p = true := by
  rw [List.getElem?_eq_getElem hj] at hpj
  rw [List.getElem?_eq_getElem (hij.trans hj)]
  exact List.pairwise_iff_getElem.mp h i j _ hj hij hpj

theorem partitionPoint_le : partitionPoint p l ≤ l.length := by
  have hspec := (boundLoop_spec 0 l.length (fun i j hij hj => h.any hij (by omega)) le_rfl).2.1
  rwa [Nat.zero_add] at hspec

/-- **The search finds the place where the range is parted.** -/
theorem lt_partitionPoint_iff {i : Nat} (hi : i < l.length) : i < partitionPoint p l ↔ p l[i] = true := by
  obtain ⟨-, -, hbefore, hbehind⟩ := boundLoop_spec 0 l.length (fun i j hij hj => h.any hij (by omega)) le_rfl
  have hget : l[i]?.any p = p l[i] := by simp [List.getElem?_eq_getElem hi]
  constructor
  · intro hlt
    rw [← hget]
    exact hbefore i (Nat.zero_le i) hlt
  · intro hpi
    by_contra hge
    have hfalse : l[i]?.any p = false := hbehind i (Nat.not_lt.mp hge) (by omega)
    simp [hget, hpi] at hfalse

theorem partitionPoint_unique {k : Nat} (hk : k ≤ l.length)
    (hiff : ∀ (i : Nat) (hi : i < l.length), i < k ↔ p l[i] = true) : partitionPoint p l = k := by
  have hle := partitionPoint_le h
  apply Nat.le_antisymm
  · by_contra hlt
    have hk' : k < l.length := by omega
    exact absurd ((hiff k hk').mpr ((lt_partitionPoint_iff h hk').mp (by omega))) (lt_irrefl k)
  · by_contra hlt
    have hlen : partitionPoint p l < l.length := by omega
    exact absurd ((lt_partitionPoint_iff h hlen).mpr ((hiff _ hlen).mp (by omega))) (lt_irrefl _)

end Sbmt.Lib
