import Mathlib

/-!
# Spans and the generators of spans and partitions

| here | there |
| --- | --- |
| `Span` | `span_t`, a pair of 16-bit indices with `left <= right` (`sbmt/span.hpp:33-87`) |
| `crossing`, `combine`, `adjacent` | the functions of the same name (`src/span.cpp:17-49`) |
| `shiftGenerator` | the range of `shift_generator` (`src/span.cpp:217-265`) |
| `partitionsGenerator` | the range of `partitions_generator` (`src/span.cpp:120-215`) |
| `SpanTransform` | `span_transform` (`src/span.cpp:268-302`) over the indices of a `std::set` |
| `PlainGenerator` | `full_cky_generator`, `limit_syntax_length_generator`, `limit_split_difference_generator` (`src/span.cpp:348-468`) |
| `CkyGenerator` | one of these, or `span_transform_generator` over one (`src/span.cpp:320-346`) |

`shift_sizes` is the length of a span in the coordinates of its generator: the
plain length, or the number of steps between its ends in the transform. Every
span of `shifts(s,n)` has length `n` there, and the parts of a partition are
shorter than the whole.
-/

namespace Sbmt.Search

open List

/-- `USHRT_MAX`. -/
def ushrtMax : Nat := 65535

structure Span where
  left : Nat
  right : Nat
  le : left ≤ right
  bound : right ≤ ushrtMax
deriving DecidableEq

namespace Span

@[ext]
theorem ext {a b : Span} (hl : a.left = b.left) (hr : a.right = b.right) : a = b := by
  cases a
  simp_all

def length (s : Span) : Nat := s.right - s.left

/-- The span from the start of the first to the end of the second, which is to
lie behind it. -/
def combine (s t : Span) : Span := if h : s.left ≤ t.right then ⟨s.left, t.right, h, t.bound⟩ else s

theorem combine_eq {s p q : Span} (hl : p.left = s.left) (hr : q.right = s.right) : p.combine q = s := by
  have hle : p.left ≤ q.right := by
    rw [hl, hr]
    exact s.le
  simp only [combine, hle, dif_pos]
  exact ext hl hr

def adjacent (s t : Span) : Bool := s.right == t.left

/-- The common part is not empty and is neither of the two. -/
def crossing (s t : Span) : Bool :=
  let cleft := max s.left t.left
  let cright := min s.right t.right
  if cleft ≥ cright then false
  else !(cleft == s.left && cright == s.right) && !(cleft == t.left && cright == t.right)

end Span

/-- The range `begin() .. end()` of a `shift_generator`. `end()` is the shift
after the last one, and a shift that would leave 16 bits starts again at 0: for
the span from 0 to `USHRT_MAX` that is `begin()`, and the range is empty. -/
def shiftGenerator (s : Span) (size : Nat) : List Span :=
  if s.left = 0 ∧ s.right = ushrtMax then []
  else (finRange (s.length + 1 - size)).map fun i : Fin (s.length + 1 - size) =>
    ⟨s.left + i, s.left + i + size, Nat.le_add_right _ _, by
      have := i.2; have := s.le; have := s.bound; unfold Span.length at *; omega⟩

/-- The range of a `partitions_generator`. -/
def partitionsGenerator (s : Span) : List (Span × Span) :=
  (finRange (s.length - 1)).map fun i : Fin (s.length - 1) =>
    (⟨s.left, s.left + 1 + i, by omega, by
        have := i.2; have := s.bound; unfold Span.length at *; omega⟩,
     ⟨s.left + 1 + i, s.right, by have := i.2; unfold Span.length at *; omega, s.bound⟩)

theorem mem_shiftGenerator {s t : Span} {size : Nat} (h : t ∈ shiftGenerator s size) :
    t.length = size ∧ s.left ≤ t.left ∧ t.right ≤ s.right ∧ ¬ (s.left = 0 ∧ s.right = ushrtMax) := by
  unfold shiftGenerator at h
  split at h
  · simp at h
  · rename_i hs
    simp only [mem_map, mem_finRange, true_and] at h
    obtain ⟨i, rfl⟩ := h
    have := s.le
    refine ⟨?_, ?_, ?_, hs⟩ <;> simp only [Span.length] at * <;> omega

/-- Every span of the given size inside `s` is one of the shifts. -/
theorem mem_shiftGenerator_iff {s t : Span} {size : Nat} (hs : ¬ (s.left = 0 ∧ s.right = ushrtMax)) :
    t ∈ shiftGenerator s size ↔ t.length = size ∧ s.left ≤ t.left ∧ t.right ≤ s.right := by
  constructor
  · exact fun h => ⟨(mem_shiftGenerator h).1, (mem_shiftGenerator h).2.1, (mem_shiftGenerator h).2.2.1⟩
  · rintro ⟨hlen, hl, hr⟩
    unfold shiftGenerator
    rw [if_neg hs]
    simp only [mem_map, mem_finRange, true_and]
    have hle := t.le
    unfold Span.length at *
    refine ⟨⟨t.left - s.left, by omega⟩, ?_⟩
    apply Span.ext <;> simp only <;> omega

theorem shiftGenerator_nodup (s : Span) (size : Nat) : (shiftGenerator s size).Nodup := by
  unfold shiftGenerator
  split
  · exact nodup_nil
  · refine (nodup_finRange _).map ?_
    intro i j hij
    have hl : s.left + i.1 = s.left + j.1 := congrArg Span.left hij
    exact Fin.ext (by omega)

theorem mem_partitionsGenerator {s p q : Span} :
    (p, q) ∈ partitionsGenerator s ↔
      p.left = s.left ∧ p.right = q.left ∧ q.right = s.right ∧ p.left < p.right ∧ q.left < q.right := by
  unfold partitionsGenerator
  simp only [mem_map, mem_finRange, true_and, Prod.mk.injEq]
  constructor
  · rintro ⟨i, rfl, rfl⟩
    have hi : i.1 < s.right - s.left - 1 := i.2
    refine ⟨rfl, rfl, rfl, ?_, ?_⟩ <;> simp only <;> omega
  · rintro ⟨h1, h2, h3, h4, h5⟩
    have hlen : p.right - p.left - 1 < s.length - 1 := by
      unfold Span.length
      omega
    refine ⟨⟨p.right - p.left - 1, hlen⟩, ?_, ?_⟩
    all_goals
      apply Span.ext <;> simp only <;> omega

theorem partitionsGenerator_nodup (s : Span) : (partitionsGenerator s).Nodup := by
  refine (nodup_finRange _).map ?_
  intro i j hij
  have hl : s.left + 1 + i.1 = s.left + 1 + j.1 := congrArg (fun p => p.1.right) hij
  exact Fin.ext (by omega)

/-! ## Generators -/

/-- The generators that work in the coordinates of the sentence. -/
inductive PlainGenerator where
  | full
  | limitSyntaxLength (maxLength : Nat)
  | limitSplitDifference (maxDiff : Nat)
deriving DecidableEq

namespace PlainGenerator

def shiftSizes (_ : PlainGenerator) (s : Span) : Nat := s.length

def shifts : PlainGenerator → Span → Nat → List Span
  | full, s, size => shiftGenerator s size
  | limitSyntaxLength maxLength, s, size =>
    if maxLength > size then shiftGenerator s size
    -- only the first shift, and only if it begins the sentence
    else if s.left = 0 then (shiftGenerator s size).take 1
    else []
  | limitSplitDifference _, s, size => shiftGenerator s size

def lengthDiff (a b : Span) : Nat := if a.length > b.length then a.length - b.length else b.length - a.length

def partitions : PlainGenerator → Span → List (Span × Span)
  | full, s => partitionsGenerator s
  | limitSyntaxLength maxLength, s =>
    if s.length > maxLength then (partitionsGenerator s).dropWhile fun p => decide (p.2.length > maxLength)
    else partitionsGenerator s
  | limitSplitDifference maxDiff, s =>
    if s.left > 0 then
      match (partitionsGenerator s).dropWhile fun p => decide (lengthDiff p.1 p.2 > maxDiff) with
      | [] => []
      | p :: rest => p :: rest.takeWhile fun p => decide (lengthDiff p.1 p.2 ≤ maxDiff)
    else partitionsGenerator s

theorem shifts_sublist (g : PlainGenerator) (s : Span) (size : Nat) :
    (g.shifts s size).Sublist (shiftGenerator s size) := by
  cases g with
  | full => exact Sublist.refl _
  | limitSplitDifference _ => exact Sublist.refl _
  | limitSyntaxLength maxLength =>
    simp only [shifts]
    split
    · exact Sublist.refl _
    · split
      · exact take_sublist 1 _
      · exact nil_sublist _

theorem partitions_sublist (g : PlainGenerator) (s : Span) : (g.partitions s).Sublist (partitionsGenerator s) := by
  cases g with
  | full => exact Sublist.refl _
  | limitSyntaxLength maxLength =>
    simp only [partitions]
    split
    · exact dropWhile_sublist _
    · exact Sublist.refl _
  | limitSplitDifference maxDiff =>
    simp only [partitions]
    split
    · have hdrop : ((partitionsGenerator s).dropWhile fun p => decide (lengthDiff p.1 p.2 > maxDiff)).Sublist
          (partitionsGenerator s) := dropWhile_sublist _
      split
      · exact nil_sublist _
      · rename_i p rest heq
        rw [heq] at hdrop
        exact ((takeWhile_sublist _).cons_cons p).trans hdrop
    · exact Sublist.refl _

end PlainGenerator

/-- A `span_transform` built from a `std::set` of indices: increasing, in 16 bits. -/
structure SpanTransform where
  indices : List Nat
  increasing : indices.Pairwise (· < ·)
  bounded : ∀ i ∈ indices, i ≤ ushrtMax

namespace SpanTransform

variable (t : SpanTransform)

/-- `transform[i]`. Reading past the end is undefined there; here it gives
`USHRT_MAX`, which keeps the order. -/
def index (i : Nat) : Nat := t.indices.getD i ushrtMax

/-- `lower_bound`: the number of indices below `x`. -/
def inverseIndex (x : Nat) : Nat := (t.indices.takeWhile fun i => decide (i < x)).length

theorem index_bound (i : Nat) : t.index i ≤ ushrtMax := by
  unfold index
  rw [getD_eq_getElem?_getD]
  rcases hi : t.indices[i]? with _ | x
  · exact Nat.le_refl _
  · exact t.bounded x (mem_of_getElem? hi)

theorem index_mono {i j : Nat} (h : i ≤ j) : t.index i ≤ t.index j := by
  by_cases hj : j < t.indices.length
  · have hi : i < t.indices.length := Nat.lt_of_le_of_lt h hj
    simp only [index, getD_eq_getElem?_getD, getElem?_eq_getElem hi, getElem?_eq_getElem hj,
      Option.getD_some]
    rcases Nat.lt_or_eq_of_le h with hlt | rfl
    · exact Nat.le_of_lt (pairwise_iff_getElem.1 t.increasing i j hi hj hlt)
    · exact Nat.le_refl _
  · have hjmax : t.index j = ushrtMax := by
      simp [index, getD_eq_getElem?_getD, getElem?_eq_none (Nat.le_of_not_lt hj)]
    rw [hjmax]
    exact t.index_bound i

theorem inverseIndex_le (x : Nat) : t.inverseIndex x ≤ t.indices.length :=
  Sublist.length_le (takeWhile_sublist _)

/-- `lower_bound` by comparison: position `i` lies before it iff its index is
below `x`. -/
theorem lt_inverseIndex_iff {i x : Nat} (hi : i < t.indices.length) :
    i < t.inverseIndex x ↔ t.indices[i] < x := by
  unfold inverseIndex
  have hinc := t.increasing
  revert i
  generalize t.indices = l at hinc
  induction l with
  | nil => intro i hi; simp at hi
  | cons a l ih =>
    intro i hi
    obtain ⟨ha, hl⟩ := pairwise_cons.1 hinc
    by_cases hax : a < x
    · rw [takeWhile_cons_of_pos (by simpa using hax)]
      cases i with
      | zero => simp [hax]
      | succ i =>
        have := ih hl (Nat.lt_of_succ_lt_succ hi)
        simpa using this
    · rw [takeWhile_cons_of_neg (by simpa using hax)]
      cases i with
      | zero => simpa using hax
      | succ i =>
        have hi' : i < l.length := Nat.lt_of_succ_lt_succ hi
        have hai := ha l[i] (getElem_mem hi')
        simp only [length_nil, Nat.not_lt_zero, getElem_cons_succ, false_iff]
        omega

theorem inverseIndex_mono {x y : Nat} (h : x ≤ y) : t.inverseIndex x ≤ t.inverseIndex y := by
  by_contra hlt
  have hlt := Nat.lt_of_not_le hlt
  have hlen := Nat.lt_of_lt_of_le hlt (t.inverseIndex_le x)
  have hx := (t.lt_inverseIndex_iff hlen).1 hlt
  exact Nat.lt_irrefl _ ((t.lt_inverseIndex_iff hlen).2 (Nat.lt_of_lt_of_le hx h))

/-- The indices increase from 0 on, so there are at most `x` of them below `x`. -/
theorem inverseIndex_le_self (x : Nat) : t.inverseIndex x ≤ x := by
  have hself : ∀ i (hi : i < t.indices.length), i ≤ t.indices[i] := by
    intro i
    induction i with
    | zero => intro _; exact Nat.zero_le _
    | succ i ih =>
      intro hi
      have h1 := ih (Nat.lt_of_succ_lt hi)
      have h2 := pairwise_iff_getElem.1 t.increasing i (i + 1) (Nat.lt_of_succ_lt hi) hi (Nat.lt_succ_self i)
      omega
  by_contra hlt
  have hlt := Nat.lt_of_not_le hlt
  have hlen := Nat.lt_of_lt_of_le hlt (t.inverseIndex_le x)
  have hx := (t.lt_inverseIndex_iff hlen).1 hlt
  exact absurd (hself x hlen) (Nat.not_le_of_lt hx)

theorem index_of_lt {i : Nat} (hi : i < t.indices.length) : t.index i = t.indices[i] := by
  simp [index, getD_eq_getElem?_getD, getElem?_eq_getElem hi]

/-- `lower_bound` finds an index that is there. -/
theorem inverseIndex_getElem {i : Nat} (hi : i < t.indices.length) : t.inverseIndex t.indices[i] = i := by
  apply Nat.le_antisymm
  · by_contra hlt
    have hlt := (t.lt_inverseIndex_iff hi).1 (Nat.lt_of_not_le hlt)
    exact Nat.lt_irrefl _ hlt
  · by_contra hlt
    have hlt := Nat.lt_of_not_le hlt
    have hk : t.inverseIndex t.indices[i] < t.indices.length := Nat.lt_trans hlt hi
    have hinc := pairwise_iff_getElem.1 t.increasing _ i hk hi hlt
    exact Nat.lt_irrefl _ ((t.lt_inverseIndex_iff hk).2 hinc)

/-- The place of an index holds that index. -/
theorem index_inverseIndex {x : Nat} (hx : x ∈ t.indices) : t.index (t.inverseIndex x) = x := by
  obtain ⟨i, hi, rfl⟩ := getElem_of_mem hx
  rw [t.inverseIndex_getElem hi, t.index_of_lt hi]

/-- A position up to the place of an index holds an index. -/
theorem index_mem {x : Nat} (hx : x ∈ t.indices) {i : Nat} (h : i ≤ t.inverseIndex x) : t.index i ∈ t.indices := by
  obtain ⟨j, hj, rfl⟩ := getElem_of_mem hx
  rw [t.inverseIndex_getElem hj] at h
  have hi : i < t.indices.length := Nat.lt_of_le_of_lt h hj
  rw [t.index_of_lt hi]
  exact getElem_mem hi

/-- The inverse takes a transformed position back, also at the end of the
transform where some index of a span lies beyond it. -/
theorem inverseIndex_index {i x : Nat} (h : i ≤ t.inverseIndex x) (hx : x ≤ ushrtMax) :
    t.inverseIndex (t.index i) = i := by
  by_cases hi : i < t.indices.length
  · rw [t.index_of_lt hi, t.inverseIndex_getElem hi]
  · have hidx : t.index i = ushrtMax := by
      simp [index, getD_eq_getElem?_getD, getElem?_eq_none (Nat.le_of_not_lt hi)]
    have hmono := t.inverseIndex_mono hx
    have hle := t.inverseIndex_le ushrtMax
    rw [hidx]
    omega

def apply (s : Span) : Span := ⟨t.index s.left, t.index s.right, t.index_mono s.le, t.index_bound s.right⟩

def inverse (s : Span) : Span :=
  ⟨t.inverseIndex s.left, t.inverseIndex s.right, t.inverseIndex_mono s.le,
    Nat.le_trans (t.inverseIndex_le_self s.right) s.bound⟩

theorem inverse_apply {s u : Span} (h : u.right ≤ (t.inverse s).right) : t.inverse (t.apply u) = u := by
  have hr : t.inverseIndex (t.index u.right) = u.right := t.inverseIndex_index h s.bound
  have hl : t.inverseIndex (t.index u.left) = u.left := t.inverseIndex_index (Nat.le_trans u.le h) s.bound
  exact Span.ext hl hr

end SpanTransform

/-- The generators the decoder runs with. -/
inductive CkyGenerator where
  | plain (gen : PlainGenerator)
  | spanTransform (transform : SpanTransform) (gen : PlainGenerator)

namespace CkyGenerator

def shiftSizes : CkyGenerator → Span → Nat
  | plain gen, s => gen.shiftSizes s
  | spanTransform t _, s => (t.inverse s).length

def shifts : CkyGenerator → Span → Nat → List Span
  | plain gen, s, size => gen.shifts s size
  | spanTransform t gen, s, size => (gen.shifts (t.inverse s) size).map t.apply

def partitions : CkyGenerator → Span → List (Span × Span)
  | plain gen, s => gen.partitions s
  | spanTransform t gen, s => (gen.partitions (t.inverse s)).map fun p => (t.apply p.1, t.apply p.2)

/-- The shifts of size `n` have size `n` in the generator's coordinates. -/
theorem shiftSizes_of_mem_shifts {g : CkyGenerator} {target s : Span} {size : Nat}
    (h : s ∈ g.shifts target size) : g.shiftSizes s = size := by
  cases g with
  | plain gen => exact (mem_shiftGenerator ((gen.shifts_sublist target size).subset h)).1
  | spanTransform t gen =>
    obtain ⟨u, hu, rfl⟩ := mem_map.1 h
    obtain ⟨hlen, -, hr, -⟩ := mem_shiftGenerator ((gen.shifts_sublist _ size).subset hu)
    show (t.inverse (t.apply u)).length = size
    rw [t.inverse_apply hr]
    exact hlen

theorem shifts_nodup (g : CkyGenerator) (target : Span) (size : Nat) : (g.shifts target size).Nodup := by
  cases g with
  | plain gen => exact (gen.shifts_sublist target size).nodup (shiftGenerator_nodup target size)
  | spanTransform t gen =>
    have hsub := gen.shifts_sublist (t.inverse target) size
    refine Nodup.map_on ?_ (hsub.nodup (shiftGenerator_nodup _ size))
    intro u hu v hv huv
    obtain ⟨-, -, hur, -⟩ := mem_shiftGenerator (hsub.subset hu)
    obtain ⟨-, -, hvr, -⟩ := mem_shiftGenerator (hsub.subset hv)
    rw [← t.inverse_apply hur, ← t.inverse_apply hvr, huv]

/-- No shifts at all of a span that fills 16 bits. -/
theorem shifts_eq_nil {g : CkyGenerator} {target : Span} (h : g.shiftSizes target = ushrtMax) (size : Nat) :
    g.shifts target size = [] := by
  have hfull : ∀ s : Span, s.length = ushrtMax → s.left = 0 ∧ s.right = ushrtMax := by
    intro s hs
    have hbound := s.bound
    have hsub : s.right - s.left = ushrtMax := hs
    unfold ushrtMax at *
    omega
  have hplain : ∀ (gen : PlainGenerator) (s : Span), s.length = ushrtMax → gen.shifts s size = [] := by
    intro gen s hs
    have hsub := gen.shifts_sublist s size
    unfold shiftGenerator at hsub
    rw [if_pos (hfull s hs)] at hsub
    exact sublist_nil.1 hsub
  cases g with
  | plain gen => exact hplain gen target h
  | spanTransform t gen =>
    show (gen.shifts (t.inverse target) size).map t.apply = []
    rw [hplain gen _ h]
    rfl

theorem shiftSizes_le (g : CkyGenerator) (target : Span) : g.shiftSizes target ≤ ushrtMax := by
  have hlen : ∀ s : Span, s.length ≤ ushrtMax := fun s => Nat.le_trans (Nat.sub_le _ _) s.bound
  cases g with
  | plain gen => exact hlen target
  | spanTransform t gen => exact hlen (t.inverse target)

/-- The two parts of a partition are shorter than the whole, in the generator's
coordinates. -/
theorem shiftSizes_partitions {g : CkyGenerator} {s p q : Span} (h : (p, q) ∈ g.partitions s) :
    g.shiftSizes p < g.shiftSizes s ∧ g.shiftSizes q < g.shiftSizes s := by
  cases g with
  | plain gen =>
    have hpq := mem_partitionsGenerator.1 ((gen.partitions_sublist s).subset h)
    simp only [shiftSizes, PlainGenerator.shiftSizes, Span.length]
    omega
  | spanTransform t gen =>
    obtain ⟨⟨u, v⟩, huv, heq⟩ := mem_map.1 h
    obtain ⟨rfl, rfl⟩ := Prod.mk.inj heq
    have hpq := mem_partitionsGenerator.1 ((gen.partitions_sublist (t.inverse s)).subset huv)
    have hu : t.inverse (t.apply u) = u := t.inverse_apply (s := s) (by omega)
    have hv : t.inverse (t.apply v) = v := t.inverse_apply (s := s) (by omega)
    simp only [shiftSizes, hu, hv, Span.length]
    omega

end CkyGenerator

end Sbmt.Search
