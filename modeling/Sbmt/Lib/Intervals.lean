import Mathlib

/-!
# Coalescing intervals across unmarked positions

Some positions are marked. `coalesce` sorts a list of intervals by their left
ends and joins neighbours between which no position is marked. If each interval
is a hull of positions of `P`, with all marks inside in `P`, then so are the
joined ones, a mark stands between any two of them, and they cover exactly the
positions of `P` and the unmarked ones among them.
-/

namespace Sbmt.Lib

open List

/-- An interval with both its ends. -/
abbrev Interval := Nat × Nat

def Covered (s : List Interval) (p : Nat) : Prop := ∃ i ∈ s, i.1 ≤ p ∧ p ≤ i.2

/-- A sort by left ends. What becomes of equal left ends is left open. -/
structure IntervalSort where
  sort : List Interval → List Interval
  perm : ∀ s, (sort s).Perm s
  sorted : ∀ s, (sort s).Pairwise fun i j => i.1 ≤ j.1

/-- The sort that keeps the order of equal left ends. -/
def IntervalSort.stable : IntervalSort where
  sort s := s.insertionSort fun i j => i.1 ≤ j.1
  perm s := perm_insertionSort _ s
  sorted s := by
    have : Std.Total fun i j : Interval => i.1 ≤ j.1 := ⟨fun i j => Nat.le_total i.1 j.1⟩
    have : IsTrans Interval fun i j => i.1 ≤ j.1 := ⟨fun _ _ _ => Nat.le_trans⟩
    exact pairwise_insertionSort _ s

section
variable (marked : Nat → Bool)

/-- A position strictly between `x` and `y` is marked. -/
def marks (x y : Nat) : Bool := (range' (x + 1) (y - (x + 1))).any marked

/-- Join what follows to the last interval, until a mark stands between. -/
def coalesceFrom : Interval → List Interval → List Interval
  | last, [] => [last]
  | last, i :: is =>
    if marks marked last.2 i.1 then last :: coalesceFrom i is
    else coalesceFrom (last.1, if last.2 < i.2 then i.2 else last.2) is

def coalesce (srt : IntervalSort) (s : List Interval) : List Interval :=
  match srt.sort s with
  | [] => []
  | i :: is => coalesceFrom marked i is

/-- The least interval around some positions of `P`, with no other marks inside. -/
structure Hull (P : Nat → Prop) (i : Interval) : Prop where
  le : i.1 ≤ i.2
  first : P i.1
  last : P i.2
  inside : ∀ q, i.1 ≤ q → q ≤ i.2 → marked q = true → P q

/-- Hulls around all positions of `P`. -/
structure Hulls (P : Nat → Prop) (s : List Interval) : Prop where
  hull : ∀ i ∈ s, Hull marked P i
  covered : ∀ q, P q → Covered s q

/-- A mark stands between any two, and they are in order. -/
def Spaced (s : List Interval) : Prop := s.Pairwise fun i j => ∃ q, i.2 < q ∧ q < j.1 ∧ marked q = true

end

section
variable {marked : Nat → Bool} {P Q : Nat → Prop} {s t : List Interval}

theorem marks_eq_true {x y : Nat} : marks marked x y = true ↔ ∃ q, x < q ∧ q < y ∧ marked q = true := by
  unfold marks
  rw [any_eq_true]
  constructor
  · rintro ⟨q, hq, hmark⟩
    rw [mem_range'_1] at hq
    exact ⟨q, by omega, by omega, hmark⟩
  · rintro ⟨q, hx, hy, hmark⟩
    exact ⟨q, mem_range'_1.2 ⟨by omega, by omega⟩, hmark⟩

theorem Covered.mono (h : s ⊆ t) {p : Nat} (hp : Covered s p) : Covered t p := by
  obtain ⟨i, hi, hip⟩ := hp
  exact ⟨i, h hi, hip⟩

theorem covered_cons {i : Interval} {p : Nat} : Covered (i :: s) p ↔ (i.1 ≤ p ∧ p ≤ i.2) ∨ Covered s p := by
  unfold Covered
  simp only [mem_cons, exists_eq_or_imp]

theorem Hull.mono {i : Interval} (h : Hull marked P i) (hPQ : ∀ q, P q → Q q) : Hull marked Q i where
  le := h.le
  first := hPQ _ h.first
  last := hPQ _ h.last
  inside q hl hr hmark := hPQ q (h.inside q hl hr hmark)

theorem Hulls.congr (h : Hulls marked P s) (hPQ : ∀ q, P q ↔ Q q) : Hulls marked Q s where
  hull i hi := (h.hull i hi).mono fun q => (hPQ q).1
  covered q hq := h.covered q ((hPQ q).2 hq)

theorem hulls_nil : Hulls marked (fun _ => False) [] :=
  ⟨fun _ hi => absurd hi not_mem_nil, fun _ hq => hq.elim⟩

/-- A position is its own hull. -/
theorem hulls_points (l : List Nat) : Hulls marked (· ∈ l) (l.map fun p => (p, p)) where
  hull i hi := by
    obtain ⟨p, hp, rfl⟩ := mem_map.1 hi
    exact ⟨le_rfl, hp, hp, fun q hl hr _ => le_antisymm hr hl ▸ hp⟩
  covered q hq := ⟨(q, q), mem_map.2 ⟨q, hq, rfl⟩, le_rfl, le_rfl⟩

theorem Hulls.append (h : Hulls marked P s) (h' : Hulls marked Q t) : Hulls marked (fun q => P q ∨ Q q) (s ++ t) where
  hull i hi := by
    rcases mem_append.1 hi with hi | hi
    · exact (h.hull i hi).mono fun q => .inl
    · exact (h'.hull i hi).mono fun q => .inr
  covered q hq := by
    rcases hq with hq | hq
    · exact (h.covered q hq).mono (subset_append_left s t)
    · exact (h'.covered q hq).mono (subset_append_right s t)

theorem hulls_flatMap {α : Type} {l : List α} {R : α → Nat → Prop} {f : α → List Interval}
    (h : ∀ x ∈ l, Hulls marked (R x) (f x)) : Hulls marked (fun q => ∃ x ∈ l, R x q) (l.flatMap f) where
  hull i hi := by
    obtain ⟨x, hx, hi⟩ := mem_flatMap.1 hi
    exact ((h x hx).hull i hi).mono fun q hq => ⟨x, hx, hq⟩
  covered q := by
    rintro ⟨x, hx, hq⟩
    exact ((h x hx).covered q hq).mono fun i hi => mem_flatMap.2 ⟨x, hx, hi⟩

theorem Hulls.perm (h : Hulls marked P s) (hst : s.Perm t) : Hulls marked P t where
  hull i hi := h.hull i (hst.mem_iff.2 hi)
  covered q hq := (h.covered q hq).mono hst.subset

/-! ## What coalescing keeps and what it makes -/

/-- Two hulls with no mark between them make one. -/
theorem Hull.join {i j : Interval} (hi : Hull marked P i) (hj : Hull marked P j) (hij : i.1 ≤ j.1)
    (hfree : marks marked i.2 j.1 = false) : Hull marked P (i.1, if i.2 < j.2 then j.2 else i.2) := by
  have hno : ∀ q, i.2 < q → q < j.1 → marked q ≠ true := by
    intro q hl hr hmark
    rw [marks_eq_true.2 ⟨q, hl, hr, hmark⟩] at hfree
    cases hfree
  split
  · next hlt =>
    refine ⟨hij.trans hj.le, hi.first, hj.last, fun q hl hr hmark => ?_⟩
    by_cases hqi : q ≤ i.2
    · exact hi.inside q hl hqi hmark
    · by_cases hqj : j.1 ≤ q
      · exact hj.inside q hqj hr hmark
      · exact absurd hmark (hno q (not_le.1 hqi) (not_le.1 hqj))
  · exact hi

/-- The joined interval starts where the last one did. -/
theorem pairwise_join {i j : Interval} {is : List Interval} (x : Nat) (h : (i :: j :: is).Pairwise fun i j => i.1 ≤ j.1) :
    (((i.1, x) : Interval) :: is).Pairwise fun i j => i.1 ≤ j.1 := by
  obtain ⟨hle, htail⟩ := pairwise_cons.1 h
  exact pairwise_cons.2 ⟨fun k hk => hle k (mem_cons_of_mem j hk), (pairwise_cons.1 htail).2⟩

theorem coalesceFrom_hull : ∀ (is : List Interval) (last : Interval), (last :: is).Pairwise (fun i j => i.1 ≤ j.1) →
    (∀ i ∈ last :: is, Hull marked P i) → ∀ i ∈ coalesceFrom marked last is, Hull marked P i := by
  intro is
  induction is with
  | nil => exact fun _ _ h => h
  | cons i is ih =>
    intro last hsorted h
    obtain ⟨hle, htail⟩ := pairwise_cons.1 hsorted
    obtain ⟨hlast, hi, his⟩ := forall_mem_cons.1 h |>.imp_right forall_mem_cons.1
    unfold coalesceFrom
    split
    · exact forall_mem_cons.2 ⟨hlast, ih i htail (forall_mem_cons.2 ⟨hi, his⟩)⟩
    · next hfree =>
      have hjoin := hlast.join hi (hle i mem_cons_self) (Bool.eq_false_iff.2 hfree)
      exact ih _ (pairwise_join _ hsorted) (forall_mem_cons.2 ⟨hjoin, his⟩)

theorem coalesceFrom_covered : ∀ (is : List Interval) (last : Interval) {p : Nat},
    (last :: is).Pairwise (fun i j => i.1 ≤ j.1) → Covered (last :: is) p → Covered (coalesceFrom marked last is) p := by
  intro is
  induction is with
  | nil => exact fun _ _ _ h => h
  | cons i is ih =>
    intro last p hsorted h
    obtain ⟨hle, htail⟩ := pairwise_cons.1 hsorted
    rw [covered_cons, covered_cons] at h
    unfold coalesceFrom
    split
    · rw [covered_cons]
      exact h.imp_right fun h => ih i htail (covered_cons.2 h)
    · refine ih _ (pairwise_join _ hsorted) (covered_cons.2 ?_)
      have hi := hle i mem_cons_self
      rcases h with ⟨hl, hr⟩ | ⟨hl, hr⟩ | h
      · split <;> omega
      · split <;> omega
      · exact .inr h

theorem le_of_mem_coalesceFrom : ∀ (is : List Interval) (last : Interval), (last :: is).Pairwise (fun i j => i.1 ≤ j.1) →
    ∀ j ∈ coalesceFrom marked last is, last.1 ≤ j.1 := by
  intro is
  induction is with
  | nil =>
    intro last _ j hj
    rw [mem_singleton.1 hj]
  | cons i is ih =>
    intro last hsorted j hj
    obtain ⟨hle, htail⟩ := pairwise_cons.1 hsorted
    unfold coalesceFrom at hj
    split at hj
    · rcases mem_cons.1 hj with rfl | hj
      · exact le_rfl
      · exact (hle i mem_cons_self).trans (ih i htail j hj)
    · exact ih (last.1, if last.2 < i.2 then i.2 else last.2) (pairwise_join _ hsorted) j hj

theorem coalesceFrom_spaced : ∀ (is : List Interval) (last : Interval), (last :: is).Pairwise (fun i j => i.1 ≤ j.1) →
    Spaced marked (coalesceFrom marked last is) := by
  intro is
  induction is with
  | nil => exact fun _ _ => pairwise_singleton _ _
  | cons i is ih =>
    intro last hsorted
    obtain ⟨hle, htail⟩ := pairwise_cons.1 hsorted
    unfold coalesceFrom
    split
    · next hmark =>
      obtain ⟨q, hl, hr, hq⟩ := marks_eq_true.1 hmark
      refine pairwise_cons.2 ⟨fun j hj => ⟨q, hl, hr.trans_le (le_of_mem_coalesceFrom is i htail j hj), hq⟩, ?_⟩
      exact ih i htail
    · exact ih _ (pairwise_join _ hsorted)

theorem coalesce_spaced (srt : IntervalSort) (s : List Interval) : Spaced marked (coalesce marked srt s) := by
  have hsorted := srt.sorted s
  unfold coalesce
  split
  · exact List.Pairwise.nil
  · next i is hsort =>
    rw [hsort] at hsorted
    exact coalesceFrom_spaced is i hsorted

theorem Hulls.coalesce (h : Hulls marked P s) (srt : IntervalSort) : Hulls marked P (coalesce marked srt s) := by
  have hperm := h.perm (srt.perm s).symm
  have hsorted := srt.sorted s
  unfold Lib.coalesce
  split
  · next hsort =>
    rw [hsort] at hperm
    exact hperm
  · next i is hsort =>
    rw [hsort] at hsorted hperm
    exact ⟨coalesceFrom_hull is i hsorted hperm.hull, fun q hq => coalesceFrom_covered is i hsorted (hperm.covered q hq)⟩

/-! ## What spaced hulls cover -/

theorem Hulls.tail_first_le {i : Interval} (hspaced : Spaced marked (i :: s)) (hle : ∀ j ∈ i :: s, j.1 ≤ j.2) {p : Nat}
    (hp : Covered (i :: s) p) : i.1 ≤ p := by
  rcases covered_cons.1 hp with hp | ⟨j, hj, hp⟩
  · exact hp.1
  · obtain ⟨q, hl, hr, -⟩ := (pairwise_cons.1 hspaced).1 j hj
    have := hle i mem_cons_self
    omega

/-- Between two covered positions with an uncovered one between them there is an uncovered mark. -/
theorem exists_mark_between (hspaced : Spaced marked s) (hle : ∀ i ∈ s, i.1 ≤ i.2) {l p r : Nat} (hl : Covered s l)
    (hr : Covered s r) (hlp : l < p) (hpr : p < r) (hp : ¬ Covered s p) :
    ∃ q, l < q ∧ q < r ∧ marked q = true ∧ ¬ Covered s q := by
  induction s with
  | nil =>
    obtain ⟨i, hi, -⟩ := hl
    cases hi
  | cons i s ih =>
    obtain ⟨hfirst, htail⟩ := pairwise_cons.1 hspaced
    obtain ⟨hi, hs⟩ := forall_mem_cons.1 hle
    rw [covered_cons, not_or] at hp
    -- past the first interval, everything is right of it
    have hright : ∀ {x : Nat}, Covered s x → i.2 < x := by
      rintro x ⟨j, hj, hx, -⟩
      obtain ⟨q, hiq, hqj, -⟩ := hfirst j hj
      omega
    rcases covered_cons.1 hl with hli | hls
    · rcases covered_cons.1 hr with hri | hrs
      · exact absurd ⟨by omega, by omega⟩ hp.1
      · cases s with
        | nil =>
          obtain ⟨j, hj, -⟩ := hrs
          cases hj
        | cons j s =>
          obtain ⟨q, hiq, hqj, hmark⟩ := hfirst j mem_cons_self
          have hjr := Hulls.tail_first_le htail hs hrs
          refine ⟨q, by omega, by omega, hmark, ?_⟩
          rw [covered_cons]
          rintro (hq | hq)
          · omega
          · have := Hulls.tail_first_le htail hs hq
            omega
    · have hrs : Covered s r := by
        rcases covered_cons.1 hr with hri | hrs
        · have := hright hls
          omega
        · exact hrs
      obtain ⟨q, hlq, hqr, hmark, hq⟩ := ih htail hs hls hrs hp.2
      refine ⟨q, hlq, hqr, hmark, ?_⟩
      rw [covered_cons]
      rintro (hqi | hqs)
      · have := hright hls
        omega
      · exact hq hqs

/-- **Spaced hulls cover the positions of `P`, and the unmarked ones that have `P` on both sides** with no other mark
between. -/
theorem Hulls.covered_iff (h : Hulls marked P s) (hspaced : Spaced marked s) (hP : ∀ q, P q → marked q = true) (p : Nat) :
    Covered s p ↔ P p ∨ (marked p = false ∧ ∃ l r, l < p ∧ p < r ∧ P l ∧ P r ∧
      ∀ q, l < q → q < r → marked q = true → P q) := by
  constructor
  · rintro ⟨i, hi, hl, hr⟩
    have hhull := h.hull i hi
    by_cases hmark : marked p = true
    · exact .inl (hhull.inside p hl hr hmark)
    · have hne : ∀ {x : Nat}, P x → x ≠ p := by
        rintro x hx rfl
        exact hmark (hP x hx)
      refine .inr ⟨Bool.eq_false_iff.2 hmark, i.1, i.2, lt_of_le_of_ne hl (hne hhull.first),
        lt_of_le_of_ne hr (hne hhull.last).symm, hhull.first, hhull.last, fun q hlq hqr => hhull.inside q hlq.le hqr.le⟩
  · rintro (hp | ⟨-, l, r, hlp, hpr, hl, hr, hbetween⟩)
    · exact h.covered p hp
    · by_contra hno
      obtain ⟨q, hlq, hqr, hmark, hq⟩ := exists_mark_between hspaced (fun i hi => (h.hull i hi).le) (h.covered l hl)
        (h.covered r hr) hlp hpr hno
      exact hq (h.covered q (hbetween q hlq hqr hmark))

/-- If `P` has no other mark in its midst there is one interval at most. -/
theorem Hulls.length_le_one (h : Hulls marked P s) (hspaced : Spaced marked s)
    (hbetween : ∀ l q r, P l → P r → l < q → q < r → marked q = true → P q) : s.length ≤ 1 := by
  match s, h, hspaced with
  | [], _, _ => exact Nat.zero_le 1
  | [_], _, _ => exact le_rfl
  | i :: j :: s, h, hspaced =>
    have hi := h.hull i mem_cons_self
    have hj := h.hull j (mem_cons_of_mem i mem_cons_self)
    obtain ⟨hfirst, htail⟩ := pairwise_cons.1 hspaced
    obtain ⟨q, hiq, hqj, hmark⟩ := hfirst j mem_cons_self
    rcases covered_cons.1 (h.covered q (hbetween i.2 q j.1 hi.last hj.first hiq hqj hmark)) with hq | hq
    · omega
    · have := Hulls.tail_first_le htail (fun k hk => (h.hull k (mem_cons_of_mem i hk)).le) hq
      omega

end

end Sbmt.Lib
