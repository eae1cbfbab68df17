import Sbmt.Lib.LowerBound
import Sbmt.Search.SpanIterators
/-!
# Generators behind a transform of spans (`src/span.cpp`)

| here | there |
| --- | --- |
| `SpanTransform.index?`, `image` | `span_transform::operator()` (`span.cpp:270-302`), `none` behind the end of the table |
| `SpanTransform.inverseIndex?`, `inverse?` | `span_transform::inverse` (`:277-295`), `none` where its assertion fails |
| `IterRange` | a `std::pair` of `concrete_forward_iterator` (`concrete_iterator.hpp`): iterators of some type behind it |
| `transformRange` | the pair of `boost::make_transform_iterator` over such a pair |
| `CkyVirtual` | the interface `cky_generator` (`span.hpp:314-321`) |
| `spanTransformGenerator` | `span_transform_generator` (`:304-346`) over any generator |

An iterator that stands behind another one transforms what that one points to when it is asked to, and not before:
so the marks at the ends of a range, which lie outside the table, are never looked up in it.
-/

namespace Sbmt.Search

open Sbmt.Lib List

/-- The assertion of the constructor. -/
def SpanT.make (left right : Nat) : Option SpanT := if left ≤ right then some ⟨left, right⟩ else none

namespace SpanTransform

variable (t : SpanTransform)

/-- `transform[idx]` -/
def index? (idx : Nat) : Option Nat := t.indices[idx]?

/-- `lower_bound`, and the position as a `span_index_t`. -/
def inverseIndex? (idx : Nat) : Option Nat :=
  let pos := partitionPoint (fun i => decide (i < idx)) t.indices
  if pos = t.indices.length then none else some (pos % (ushrtMax + 1))

def image (s : SpanT) : Option SpanT :=
  (t.index? s.left).bind fun left => (t.index? s.right).bind fun right => SpanT.make left right

def inverse? (s : SpanT) : Option SpanT :=
  (t.inverseIndex? s.left).bind fun left => (t.inverseIndex? s.right).bind fun right => SpanT.make left right

/-- `transform_p_` -/
def imagePair (p : SpanPair) : Option SpanPair := (t.image p.1).bind fun a => (t.image p.2).map fun b => (a, b)

/-- `transform` has both ends in the table. -/
def Over (s : SpanT) : Prop := s.left ≤ s.right ∧ s.right < t.indices.length

end SpanTransform

/-- Iterators of some type, from `first` to `last`; `none` is read where reading is not defined. -/
structure IterRange (V : Type) where
  Itr : Type
  decEq : DecidableEq Itr
  increment : Itr → Itr
  dereference : Itr → Option V
  first : Itr
  last : Itr

namespace IterRange

variable {V W : Type}

/-- `for (; first != last; ++first)`, and what `*first` is each time. -/
def values (fuel : Nat) (r : IterRange V) : Option (List (Option V)) :=
  have := r.decEq
  Cursor.walk r.increment r.dereference r.last fuel r.first

def transformRange (f : V → Option W) (r : IterRange V) : IterRange W :=
  { r with dereference := fun i => (r.dereference i).bind f }

end IterRange

structure CkyVirtual where
  shifts : SpanT → Nat → Option (IterRange SpanT)
  shiftSizes : SpanT → Option Nat
  partitions : SpanT → Option (IterRange SpanPair)

def spanTransformGenerator (t : SpanTransform) (gen : CkyVirtual) : CkyVirtual where
  shifts s size := (t.inverse? s).bind fun u => (gen.shifts u size).map (IterRange.transformRange t.image)
  shiftSizes s := (t.inverse? s).map SpanT.length
  partitions s := (t.inverse? s).bind fun u => (gen.partitions u).map (IterRange.transformRange t.imagePair)

/-- The three generators that work in the coordinates they are given. -/
def PlainGenerator.asVirtual (fuel : Nat) (g : PlainGenerator) : CkyVirtual where
  shifts s size := some ⟨SpanT, inferInstance, ShiftIterator.increment, fun i => some (ShiftIterator.dereference i),
    (g.shiftRange s size).1, (g.shiftRange s size).2⟩
  shiftSizes s := some s.length
  partitions s := (g.partitionRange fuel s).map fun r =>
    ⟨SpanPair, inferInstance, PartitionIterator.increment, fun i => some (PartitionIterator.dereference i), r.1, r.2⟩

/-! ## The table -/

namespace SpanTransform

variable {t : SpanTransform} {s u : SpanT} {i j x : Nat}

theorem length_le (t : SpanTransform) : t.indices.length ≤ ushrtMax + 1 := by
  have hnodup : t.indices.Nodup := t.increasing.imp fun h => h.ne
  have hsub : t.indices ⊆ range (ushrtMax + 1) :=
    fun i hi => mem_range.mpr (Nat.lt_succ_of_le (t.bounded i hi))
  simpa using (subperm_of_subset hnodup hsub).length_le

theorem index?_lt (hij : i < j) {a b : Nat} (ha : t.index? i = some a) (hb : t.index? j = some b) : a < b := by
  obtain ⟨hi, rfl⟩ := List.getElem?_eq_some_iff.mp ha
  obtain ⟨hj, rfl⟩ := List.getElem?_eq_some_iff.mp hb
  exact pairwise_iff_getElem.mp t.increasing i j hi hj hij

variable (t x) in
theorem parted : Parted (fun i => decide (i < x)) t.indices := by
  refine t.increasing.imp fun {a b} hab hb => ?_
  simp only [decide_eq_true_eq] at hb ⊢
  omega

/-- The position is in the table, so it is no other number of 16 bits. -/
theorem inverseIndex?_eq (x : Nat) : t.inverseIndex? x =
    if partitionPoint (fun i => decide (i < x)) t.indices = t.indices.length then none
    else some (partitionPoint (fun i => decide (i < x)) t.indices) := by
  have hle := partitionPoint_le (t.parted x)
  have hlen := t.length_le
  simp only [inverseIndex?]
  split
  · rfl
  · rw [Nat.mod_eq_of_lt (by omega)]

theorem inverseIndex?_index? (h : t.index? i = some x) : t.inverseIndex? x = some i := by
  obtain ⟨hi, rfl⟩ := List.getElem?_eq_some_iff.mp h
  have hpoint : partitionPoint (fun j => decide (j < t.indices[i])) t.indices = i := by
    refine partitionPoint_unique (t.parted _) hi.le fun j hj => ?_
    rw [decide_eq_true_eq]
    constructor
    · exact fun hji => pairwise_iff_getElem.mp t.increasing j i hj hi hji
    · intro hlt
      by_contra hij
      rcases Nat.eq_or_lt_of_le (Nat.not_lt.mp hij) with rfl | hij
      · exact lt_irrefl _ hlt
      · exact absurd (pairwise_iff_getElem.mp t.increasing i j hi hj hij) (by omega)
  rw [inverseIndex?_eq, hpoint, if_neg hi.ne]

theorem inverseIndex?_lt (h : t.inverseIndex? x = some i) : i < t.indices.length := by
  have hle := partitionPoint_le (t.parted x)
  rw [inverseIndex?_eq] at h
  split at h
  · cases h
  · cases h
    omega

/-- A span of positions has an image. -/
theorem image_of_over (h : t.Over s) : ∃ v, t.image s = some v := by
  have hright : s.right < t.indices.length := h.2
  have hleft : s.left < t.indices.length := h.1.trans_lt hright
  have hl : t.index? s.left = some t.indices[s.left] := getElem?_eq_getElem hleft
  have hr : t.index? s.right = some t.indices[s.right] := getElem?_eq_getElem hright
  have hle : t.indices[s.left] ≤ t.indices[s.right] := by
    rcases Nat.eq_or_lt_of_le h.1 with heq | hlt
    · simp [heq]
    · exact (index?_lt hlt hl hr).le
  exact ⟨⟨t.indices[s.left], t.indices[s.right]⟩, by simp [image, hl, hr, SpanT.make, hle]⟩

theorem inverse?_of_image (hs : s.left ≤ s.right) (h : t.image s = some u) : t.inverse? u = some s := by
  simp only [image, Option.bind_eq_some_iff] at h
  obtain ⟨l, hl, r, hr, h⟩ := h
  simp only [SpanT.make] at h
  split at h
  · cases h
    simp [inverse?, inverseIndex?_index? hl, inverseIndex?_index? hr, SpanT.make, hs]
  · cases h

/-- **The inverse takes a transformed span back**, and what is taken back is a span over the table. -/
theorem inverse?_image (h : t.Over s) : ∃ v, t.image s = some v ∧ t.inverse? v = some s := by
  obtain ⟨v, hv⟩ := image_of_over h
  exact ⟨v, hv, inverse?_of_image h.1 hv⟩

theorem over_of_inverse? (h : t.inverse? s = some u) : t.Over u := by
  simp only [inverse?, Option.bind_eq_some_iff] at h
  obtain ⟨l, _, r, hr, h⟩ := h
  simp only [SpanT.make] at h
  split at h
  · cases h
    exact ⟨‹_›, inverseIndex?_lt hr⟩
  · cases h

end SpanTransform

/-! ## The ranges -/

theorem walk_map {ι A B : Type} [DecidableEq ι] (next : ι → ι) (read : ι → A) (f : A → B) (e : ι) :
    ∀ (fuel : Nat) (i : ι), Cursor.walk next (fun i => f (read i)) e fuel i =
      (Cursor.walk next read e fuel i).map (List.map f)
  | 0, i => by
    simp only [Cursor.walk]
    split <;> rfl
  | fuel + 1, i => by
    simp only [Cursor.walk]
    split
    · rfl
    · rw [walk_map next read f e fuel (next i), Option.map_map, Option.map_map]
      rfl

theorem IterRange.values_transformRange {V W : Type} (f : V → Option W) (r : IterRange V) (fuel : Nat) :
    (r.transformRange f).values fuel = (r.values fuel).map (List.map fun v => v.bind f) := by
  let := r.decEq
  exact walk_map r.increment r.dereference (fun v => v.bind f) r.last fuel r.first

/-- **A generator behind a transform enumerates the images of what the generator itself does on the span taken back**, in order
and each as often; the inverse is one on the spans over the table, and the span taken back is over it. -/
theorem spanTransform_images (t : SpanTransform) (gen : CkyVirtual) {s u : SpanT} (h : t.inverse? s = some u) :
    (∀ v, t.Over v → ∃ w, t.image v = some w ∧ t.inverse? w = some v) ∧ t.Over u ∧
    (spanTransformGenerator t gen).shiftSizes s = some u.length ∧
    (∀ (size : Nat) (r : IterRange SpanT), gen.shifts u size = some r →
      ∃ r', (spanTransformGenerator t gen).shifts s size = some r' ∧
        ∀ fuel, r'.values fuel = (r.values fuel).map (List.map fun v => v.bind t.image)) ∧
    ∀ r : IterRange SpanPair, gen.partitions u = some r →
      ∃ r', (spanTransformGenerator t gen).partitions s = some r' ∧
        ∀ fuel, r'.values fuel = (r.values fuel).map (List.map fun p => p.bind t.imagePair) := by
  refine ⟨fun v hv => t.inverse?_image hv, SpanTransform.over_of_inverse? h, ?_, fun size r hr => ?_, fun r hr => ?_⟩
  · simp [spanTransformGenerator, h]
  · exact ⟨_, by simp [spanTransformGenerator, h, hr], r.values_transformRange t.image⟩
  · exact ⟨_, by simp [spanTransformGenerator, h, hr], r.values_transformRange t.imagePair⟩

theorem spanTransform_images_full :
    ∃ r', (spanTransformGenerator ⟨[0, 2, 5, 9], by decide, by decide⟩ (PlainGenerator.full.asVirtual 9)).shifts ⟨2, 9⟩ 1 =
      some r' ∧ r'.values 5 = some [some ⟨2, 5⟩, some ⟨5, 9⟩] := by
  have hinverse : (⟨[0, 2, 5, 9], by decide, by decide⟩ : SpanTransform).inverse? ⟨2, 9⟩ = some ⟨1, 3⟩ := by decide
  obtain ⟨r', hr', hvalues⟩ := (spanTransform_images _ (PlainGenerator.full.asVirtual 9) hinverse).2.2.2.1 1 _ rfl
  refine ⟨r', hr', (hvalues 5).trans ?_⟩
  decide

/-! ## The generators of the decoder -/

namespace SpanTransform

variable {t : SpanTransform} {s : Span}

theorem inverseIndex?_of_lt {x : Nat} (h : t.inverseIndex x < t.indices.length) :
    t.inverseIndex? x = some (t.inverseIndex x) := by
  have hpoint : partitionPoint (fun i => decide (i < x)) t.indices = t.inverseIndex x := by
    refine partitionPoint_unique (t.parted x) h.le fun i hi => ?_
    rw [t.lt_inverseIndex_iff hi, decide_eq_true_eq]
  rw [inverseIndex?_eq, hpoint, if_neg h.ne]

/-- Where the last index of the table is not passed, the inverse is that of the lists. -/
theorem inverse?_t (h : t.inverseIndex s.right < t.indices.length) : t.inverse? s.t = some (t.inverse s).t := by
  have hmono := t.inverseIndex_mono s.le
  simp [inverse?, inverse, Span.t, inverseIndex?_of_lt h, inverseIndex?_of_lt (hmono.trans_lt h), SpanT.make, hmono]

theorem image_t {x : Span} (h : x.right < t.indices.length) : t.image x.t = some (t.apply x).t := by
  have hleft : x.left < t.indices.length := x.le.trans_lt h
  have hl : t.index? x.left = some (t.index x.left) := by
    rw [t.index_of_lt hleft]
    exact getElem?_eq_getElem hleft
  have hr : t.index? x.right = some (t.index x.right) := by
    rw [t.index_of_lt h]
    exact getElem?_eq_getElem h
  simp [image, apply, Span.t, hl, hr, SpanT.make, t.index_mono x.le]

end SpanTransform

/-- **A transform around one of the decoder's generators is run through as the lists have it**: the shifts of each size, and
the partitions of a span that is not empty in the coordinates of the table. -/
theorem spanTransform_walks (t : SpanTransform) (g : PlainGenerator) {s : Span} (h : t.inverseIndex s.right < t.indices.length) :
    (∀ size fuel n : Nat, size ≤ (t.inverse s).length → (t.inverse s).length + 1 ≤ fuel →
      ∃ r, (spanTransformGenerator t (g.asVirtual n)).shifts s.t size = some r ∧
        r.values fuel = some (((CkyGenerator.spanTransform t g).shifts s size).map fun x => some x.t)) ∧
    (t.inverseIndex s.left < t.inverseIndex s.right → ∀ fuel : Nat, (t.inverse s).length - 1 ≤ fuel →
      ∃ r, (spanTransformGenerator t (g.asVirtual fuel)).partitions s.t = some r ∧
        r.values fuel = some (((CkyGenerator.spanTransform t g).partitions s).map fun p => some (pairT p))) := by
  have hinverse := t.inverse?_t h
  constructor
  · intro size fuel n hsize hfuel
    refine ⟨_, by simp only [spanTransformGenerator, hinverse, Option.bind_some]; rfl, ?_⟩
    have hwalk : Cursor.walk ShiftIterator.increment ShiftIterator.dereference (g.shiftRange (t.inverse s).t size).2 fuel
        (g.shiftRange (t.inverse s).t size).1 = some ((g.shifts (t.inverse s) size).map Span.t) :=
      g.shifts_walk hsize (by omega)
    rw [IterRange.values_transformRange, IterRange.values, walk_map ShiftIterator.increment ShiftIterator.dereference some, hwalk]
    simp only [Option.map_some, map_map, CkyGenerator.shifts, Option.some.injEq]
    refine map_congr_left fun x hx => ?_
    have hin := (mem_shiftGenerator ((g.shifts_sublist _ size).subset hx)).2.2.1
    exact t.image_t (hin.trans_lt h)
  · intro hs fuel hfuel
    have hwalk := g.partitions_walk (s := t.inverse s) hs hfuel
    obtain ⟨range, hrange, hread⟩ := Option.bind_eq_some_iff.mp hwalk
    refine ⟨_, by simp only [spanTransformGenerator, hinverse, Option.bind_some, PlainGenerator.asVirtual, hrange]; rfl, ?_⟩
    have hread' : Cursor.walk PartitionIterator.increment PartitionIterator.dereference range.2 fuel range.1 =
      some ((g.partitions (t.inverse s)).map pairT) := hread
    rw [IterRange.values_transformRange, IterRange.values,
      walk_map PartitionIterator.increment PartitionIterator.dereference some, hread']
    simp only [Option.map_some, map_map, CkyGenerator.partitions, Option.some.injEq]
    refine map_congr_left fun p hp => ?_
    obtain ⟨hl, hm, hr', -, -⟩ := mem_partitionsGenerator.mp ((g.partitions_sublist _).subset (show (p.1, p.2) ∈ _ from hp))
    have hlast : p.2.right < t.indices.length := by
      rw [hr']
      exact h
    have hsplit : p.1.right < t.indices.length := by
      rw [hm]
      exact p.2.le.trans_lt hlast
    simp [SpanTransform.imagePair, pairT, t.image_t hlast, t.image_t hsplit]

theorem spanTransform_walks_full :
    ∃ r, (spanTransformGenerator ⟨[0, 2, 5, 9], by decide, by decide⟩ (PlainGenerator.full.asVirtual 2)).partitions ⟨2, 9⟩ =
      some r ∧ r.values 2 = some [some (⟨2, 5⟩, ⟨5, 9⟩)] := by
  have h := (spanTransform_walks ⟨[0, 2, 5, 9], by decide, by decide⟩ .full (s := ⟨2, 9, by decide, by decide⟩) (by decide)).2
    (by decide) 2 (by decide)
  obtain ⟨r, hr, hvalues⟩ := h
  exact ⟨r, hr, hvalues.trans (by decide)⟩

end Sbmt.Search
