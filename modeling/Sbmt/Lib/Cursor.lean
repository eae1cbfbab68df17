import Mathlib
/-!
# Cursors

A position is moved on until it is the end: `walk` is the loop `for (; i != e; ++i)`, `skip` is
`while (i != e && p(*i)) ++i`.  Neither need stop.  Where the positions up to the end are known, and the end is none of
those before it (`Track`), both do, and what they give is said of lists (`Track.walk`, `Track.skip`).
-/

namespace Sbmt.Lib.Cursor

open List

variable {ι α : Type} [DecidableEq ι] (next : ι → ι) (read : ι → α)

/-- What is read on the way to `e`; `none` if `e` is not reached within the fuel. -/
def walk (e : ι) : Nat → ι → Option (List α)
  | 0, i => if i = e then some [] else none
  | fuel + 1, i => if i = e then some [] else (walk e fuel (next i)).map (read i :: ·)

/-- The first position that is `e` or does not read as `p` says. -/
def skip (p : α → Bool) (e : ι) : Nat → ι → Option ι
  | 0, i => if i = e ∨ p (read i) = false then some i else none
  | fuel + 1, i => if i = e ∨ p (read i) = false then some i else skip p e fuel (next i)

/-- How many of the `n` positions from `k` on read as `p` says, up to the first that does not. -/
def along (p : α → Bool) (f : Nat → α) (k n : Nat) : Nat := ((range' k n).takeWhile fun i => p (f i)).length

/-- From `pos 0` it takes `n` steps to the end `pos n`, which is not come to before. -/
structure Track (pos : Nat → ι) (n : Nat) : Prop where
  step : ∀ k < n, next (pos k) = pos (k + 1)
  apart : ∀ k < n, pos k ≠ pos n

namespace Track

variable {next read} {pos : Nat → ι} {n k m fuel : Nat}

variable (h : Track next pos n)
include h

section
omit [DecidableEq ι]

theorem iterate (hk : k ≤ n) : next^[k] (pos 0) = pos k := by
  induction k with
  | zero => rfl
  | succ k ih => rw [Function.iterate_succ_apply', ih (Nat.le_of_succ_le hk), h.step k hk]

theorem add {d : Nat} (hd : k + d ≤ n) : next^[d] (pos k) = pos (k + d) := by
  rw [← h.iterate (k := k) (by omega), ← Function.iterate_add_apply, Nat.add_comm d k, h.iterate hd]

/-- No position is come to twice: from there it would be as far to the end. -/
theorem ne (hkm : k < m) (hm : m ≤ n) : pos k ≠ pos m := by
  intro heq
  apply h.apart (k + (n - m)) (by omega)
  rw [← h.add (by omega), heq, h.add (by omega), Nat.add_sub_cancel' hm]

end

/-- **The loop from one position to a later one reads those from the one up to the other.** -/
theorem walk (hm : m ≤ n) (hkm : k ≤ m) (hfuel : m - k ≤ fuel) :
    walk next read (pos m) fuel (pos k) = some ((range' k (m - k)).map fun i => read (pos i)) := by
  induction fuel generalizing k with
  | zero =>
    obtain rfl : k = m := by omega
    rw [Nat.sub_self]
    exact if_pos rfl
  | succ fuel ih =>
    rcases Nat.eq_or_lt_of_le hkm with rfl | hlt
    · rw [Nat.sub_self]
      exact if_pos rfl
    · rw [Cursor.walk, if_neg (h.ne hlt hm), h.step k (by omega), ih hlt (by omega),
        show m - k = m - (k + 1) + 1 by omega]
      rfl

/-- **`skip` stops behind the positions that read as `p` says.** -/
theorem skip (p : α → Bool) (hk : k ≤ n) (hfuel : n - k ≤ fuel) : skip next read p (pos n) fuel (pos k) =
      some (pos (k + along p (fun i => read (pos i)) k (n - k))) := by
  unfold along
  induction fuel generalizing k with
  | zero =>
    obtain rfl : k = n := by omega
    rw [Nat.sub_self]
    exact if_pos (.inl rfl)
  | succ fuel ih =>
    rcases Nat.eq_or_lt_of_le hk with rfl | hlt
    · rw [Nat.sub_self]
      exact if_pos (.inl rfl)
    · rw [Cursor.skip, show n - k = n - (k + 1) + 1 by omega, range'_succ]
      cases hp : p (read (pos k)) with
      | false =>
        rw [if_pos (.inr rfl), takeWhile_cons_of_neg (by rw [hp]; exact Bool.false_ne_true)]
        rfl
      | true =>
        have hgo : ¬(pos k = pos n ∨ true = false) := by simpa using h.ne hlt le_rfl
        rw [if_neg hgo, h.step k hlt, ih hlt (by omega), takeWhile_cons_of_pos (by exact hp), length_cons,
          Nat.succ_eq_add_one, Nat.add_right_comm, Nat.add_assoc]

end Track

section
variable (p : α → Bool) (f : Nat → α) (k n : Nat)

/-- What reads as `p` says at the front of the positions, and what is behind it. -/
theorem along_spec : along p f k n ≤ n ∧
    (range' k (along p f k n)).map f = ((range' k n).map f).takeWhile p ∧
    (range' (k + along p f k n) (n - along p f k n)).map f = ((range' k n).map f).dropWhile p := by
  have hsplit := (takeWhile_append_dropWhile (p := fun i => p (f i)) (l := range' k n)).symm
  obtain ⟨j, hj, hfront, hback⟩ := range'_eq_append_iff.mp hsplit
  have hlen : along p f k n = j := by
    unfold along
    rw [hfront, length_range']
  rw [Nat.mul_one] at hback
  refine ⟨hlen ▸ hj, ?_, ?_⟩
  · rw [hlen, takeWhile_map, ← hfront]
    rfl
  · rw [hlen, dropWhile_map, ← hback]
    rfl

end

/-! ## Stretches -/

/-- What the loops `while (!p) ++i` and, from the position behind that, `while (p) ++i` leave between them. -/
def stretch (p : α → Bool) (l : List α) : List α :=
  match l.dropWhile fun x => !p x with
  | [] => []
  | x :: rest => x :: rest.takeWhile p

theorem stretch_map {β : Type} (p : α → Bool) (f : β → α) (l : List β) :
    stretch p (l.map f) = (stretch (fun x => p (f x)) l).map f := by
  unfold stretch
  rw [dropWhile_map]
  show (match ((l.dropWhile fun x => !p (f x)).map f : List α) with
    | [] => []
    | x :: rest => x :: rest.takeWhile p) = _
  cases l.dropWhile fun x => !p (f x) with
  | nil => rfl
  | cons x rest =>
    show f x :: (rest.map f).takeWhile p = _
    rw [takeWhile_map]
    rfl

theorem filter_eq_takeWhile {p : α → Bool} {l : List α} (h : l.Pairwise fun x y => p y = true → p x = true) :
    l.filter p = l.takeWhile p := by
  induction l with
  | nil => rfl
  | cons x l ih =>
    obtain ⟨hx, hl⟩ := pairwise_cons.mp h
    cases hp : p x with
    | true => rw [filter_cons_of_pos hp, takeWhile_cons_of_pos hp, ih hl]
    | false =>
      have hnone : ∀ y ∈ x :: l, ¬p y = true := by
        intro y hy
        rcases mem_cons.mp hy with rfl | hy
        · simp [hp]
        · exact fun hpy => by simp [hx y hy hpy] at hp
      rw [filter_eq_nil_iff.mpr hnone, takeWhile_cons_of_neg (by simp [hp])]

theorem not_of_mem_dropWhile {p : α → Bool} {l : List α} (h : l.Pairwise fun x y => p y = true → p x = true) {x : α}
    (hx : x ∈ l.dropWhile p) : p x = false := by
  induction l with
  | nil => exact absurd hx not_mem_nil
  | cons y l ih =>
    obtain ⟨hy, hl⟩ := pairwise_cons.mp h
    cases hp : p y with
    | true =>
      rw [dropWhile_cons_of_pos hp] at hx
      exact ih hl hx
    | false =>
      rw [dropWhile_cons_of_neg (by simp [hp])] at hx
      rcases mem_cons.mp hx with rfl | hx
      · exact hp
      · cases hpx : p x with
        | false => rfl
        | true => exact hp ▸ hy x hx hpx ▸ rfl

/-- **Of increasing numbers, the stretch is all that satisfy `p`**, if these have no gaps. -/
theorem stretch_eq_filter {p : Nat → Bool} (hgap : ∀ x y z, x < y → y < z → p x = true → p z = true → p y = true) {l : List Nat}
    (hl : l.Pairwise (· < ·)) : stretch p l = l.filter p := by
  induction l with
  | nil => rfl
  | cons x l ih =>
    obtain ⟨hx, hl⟩ := pairwise_cons.mp hl
    unfold stretch
    cases hp : p x with
    | true =>
      have hlater : l.Pairwise fun y z => p z = true → p y = true := by
        refine hl.imp_of_mem fun {y z} hy _ hyz hz => ?_
        exact hgap x y z (hx y hy) hyz hp hz
      rw [dropWhile_cons_of_neg (by simp [hp]), filter_cons_of_pos hp, filter_eq_takeWhile hlater]
    | false =>
      rw [dropWhile_cons_of_pos (by simp [hp]), filter_cons_of_neg (by simp [hp])]
      exact ih hl

end Sbmt.Lib.Cursor
