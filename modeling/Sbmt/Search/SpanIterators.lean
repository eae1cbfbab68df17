import Sbmt.Lib.Cursor
import Sbmt.Search.Span
/-!
# The iterators over spans (`sbmt/span.hpp`, `src/span.cpp`)

| here | there |
| --- | --- |
| `SpanT` | `span_t` in memory: two `span_index_t`, that is, numbers modulo `2^16` (`span.hpp:26-87`) |
| `Tribool` | `boost::tribool`, `none` for indeterminate: neither it nor its negation lets an `if` in |
| `pastForward`, `pastReverse`, `initialPartition`, `finalPartition` | `span.cpp:86-138` |
| `PartitionIterator.increment`, … | `partitions_generator::iterator` (`:142-211`) |
| `ShiftIterator.increment`, … | `shift_generator::iterator` (`:215-264`) |
| `PlainGenerator.shiftRange`, `partitionRange` | the members `shifts` and `partitions` of the three generators (`:348-457`) |

A range is two iterators; what it holds is read by the loop from the one to the other.  The lists of `Sbmt.Search.Span` are
these ranges (`partitionsGenerator_walk`, `shiftGenerator_walk`, `PlainGenerator.partitions_walk`).  The span from 0 to
`USHRT_MAX` marks the ends of partitions, which is why that span cannot be told from its own end.
-/

namespace Sbmt.Search

open Sbmt.Lib List

structure SpanT where
  left : Nat
  right : Nat
deriving DecidableEq

/-- The span as it is in memory. -/
def Span.t (s : Span) : SpanT := ⟨s.left, s.right⟩

def indexSucc (i : Nat) : Nat := (i + 1) % (ushrtMax + 1)

def indexPred (i : Nat) : Nat := (i + ushrtMax) % (ushrtMax + 1)

namespace SpanT

variable (s : SpanT)

def length : Nat := s.right - s.left

/-- `span_t(0,USHRT_MAX)` -/
def whole : SpanT := ⟨0, ushrtMax⟩

def shiftLeft : SpanT :=
  if s.left = 0 then ⟨ushrtMax - s.length, ushrtMax⟩ else ⟨s.left - 1, s.right - 1⟩

def shiftRight : SpanT :=
  if s.right = ushrtMax then ⟨0, s.length⟩ else ⟨s.left + 1, s.right + 1⟩

def growRight : SpanT := ⟨s.left, indexSucc s.right⟩

def growLeft : SpanT := ⟨indexPred s.left, s.right⟩

def shrinkRight : SpanT := ⟨s.left, indexPred s.right⟩

def shrinkLeft : SpanT := ⟨indexSucc s.left, s.right⟩

end SpanT

abbrev Tribool := Option Bool

/-- What a `partitions_generator::iterator` holds. -/
abbrev SpanPair := SpanT × SpanT

def pastForward (p : SpanPair) : Tribool :=
  if p.2 = .whole then if p.1 = .whole then none else some true else some false

def pastReverse (p : SpanPair) : Tribool :=
  if p.1 = .whole then if p.2 = .whole then none else some true else some false

def initialPartition (s : SpanT) : SpanPair :=
  if s.length = 1 then (.whole, .whole) else (⟨s.left, indexSucc s.left⟩, ⟨indexSucc s.left, s.right⟩)

def finalPartition (s : SpanT) : SpanPair :=
  if s.length = 1 then (.whole, .whole) else (⟨s.left, indexPred s.right⟩, ⟨indexPred s.right, s.right⟩)

namespace PartitionIterator

def begin (s : SpanT) : SpanPair := initialPartition s

/-- `end()` -/
def fin (s : SpanT) : SpanPair := if s.length = 1 then (.whole, .whole) else (s, .whole)

def increment (p : SpanPair) : SpanPair :=
  if p.2.length = 1 then (p.1.growRight, .whole)
  else if pastReverse p = some true then initialPartition p.2
  else if pastForward p = some false then (p.1.growRight, p.2.shrinkLeft)
  else p

def decrement (p : SpanPair) : SpanPair :=
  if p.1.length = 1 then (.whole, p.2.growLeft)
  else if pastForward p = some true then finalPartition p.1
  else if pastReverse p = some false then (p.1.shrinkRight, p.2.growLeft)
  else p

def dereference (p : SpanPair) : SpanPair := p

/-- `for (; itr != last; ++itr)` -/
def walk (fuel : Nat) (itr last : SpanPair) : Option (List SpanPair) := Cursor.walk increment dereference last fuel itr

/-- `while (itr != last && cond(*itr)) ++itr` -/
def skip (cond : SpanPair → Bool) (fuel : Nat) (itr last : SpanPair) : Option SpanPair :=
  Cursor.skip increment dereference cond last fuel itr

end PartitionIterator

namespace ShiftIterator

def begin (total : SpanT) (size : Nat) : SpanT := ⟨total.left, total.left + size⟩

/-- `end()` -/
def fin (total : SpanT) (size : Nat) : SpanT := SpanT.shiftRight ⟨total.right - size, total.right⟩

def increment (s : SpanT) : SpanT := s.shiftRight

def decrement (s : SpanT) : SpanT := s.shiftLeft

def dereference (s : SpanT) : SpanT := s

def walk (fuel : Nat) (itr last : SpanT) : Option (List SpanT) := Cursor.walk increment dereference last fuel itr

end ShiftIterator

/-! ## Partitions -/

/-- Both parts in memory. -/
def pairT (p : Span × Span) : SpanPair := (p.1.t, p.2.t)

/-- The parts left and right of an index. -/
def splitAt (s : Span) (m : Nat) : SpanPair := (⟨s.left, m⟩, ⟨m, s.right⟩)

/-- Where a loop over the partitions is after `k` rounds. -/
def partitionPos (s : Span) (k : Nat) : SpanPair :=
  if k < s.length - 1 then splitAt s (s.left + 1 + k) else PartitionIterator.fin s.t

variable {s : Span}

/-- The span that marks the ends. -/
def Span.Full (s : Span) : Prop := s.left = 0 ∧ s.right = ushrtMax

instance : DecidablePred Span.Full := fun s => inferInstanceAs (Decidable (s.left = 0 ∧ s.right = ushrtMax))

theorem t_eq_whole_iff : s.t = .whole ↔ s.Full := by
  unfold Span.t SpanT.whole Span.Full
  rw [SpanT.mk.injEq]

theorem begin_eq (hs : s.left < s.right) : PartitionIterator.begin s.t = partitionPos s 0 := by
  have hbound := s.bound
  unfold PartitionIterator.begin initialPartition partitionPos PartitionIterator.fin splitAt Span.t SpanT.length Span.length
    indexSucc ushrtMax at *
  by_cases h : s.right - s.left = 1
  · rw [if_pos h, if_neg (by omega), if_pos h]
  · have hlt : s.left + 1 < 65536 := by omega
    rw [if_neg h, if_pos (by omega), Nat.mod_eq_of_lt hlt]

/-- One step over a split, as it is in memory. -/
theorem increment_splitAt {m : Nat} (hl : s.left < m) (hr : m < s.right) :
    PartitionIterator.increment (splitAt s m) = if m + 1 < s.right then splitAt s (m + 1) else (s.t, .whole) := by
  have hbound := s.bound
  unfold PartitionIterator.increment pastReverse pastForward splitAt Span.t SpanT.length SpanT.growRight SpanT.shrinkLeft
    SpanT.whole indexSucc ushrtMax at *
  dsimp only
  by_cases hlast : s.right - m = 1
  · rw [if_pos hlast, if_neg (by omega), Nat.mod_eq_of_lt (by omega), show m + 1 = s.right by omega]
  · have hfirst : ¬(⟨s.left, m⟩ : SpanT) = ⟨0, 65535⟩ := fun h => by
      have := congrArg SpanT.right h
      dsimp only at this
      omega
    have hsecond : ¬(⟨m, s.right⟩ : SpanT) = ⟨0, 65535⟩ := fun h => by
      have := congrArg SpanT.left h
      dsimp only at this
      omega
    rw [if_neg hlast, if_neg hfirst, if_neg hsecond, if_neg (by simp), if_pos rfl, if_pos (by omega),
      Nat.mod_eq_of_lt (by omega)]

theorem partition_track (hs : s.left < s.right) :
    Cursor.Track PartitionIterator.increment (partitionPos s) (s.length - 1) where
  step k hk := by
    have hlen : s.length = s.right - s.left := rfl
    unfold partitionPos PartitionIterator.fin
    rw [if_pos hk, increment_splitAt (by omega) (by omega), show s.t.length = s.length from rfl,
      if_neg (show ¬s.length = 1 by omega)]
    by_cases hlast : k + 1 < s.length - 1
    · rw [if_pos (by omega), if_pos hlast, Nat.add_assoc]
    · rw [if_neg (by omega), if_neg hlast]
  apart k hk := by
    unfold partitionPos PartitionIterator.fin
    rw [if_pos hk, if_neg (lt_irrefl _), show s.t.length = s.length from rfl, if_neg (show ¬s.length = 1 by omega)]
    intro h
    have hleft := congrArg (fun p : SpanPair => p.2.left) h
    simp only [splitAt, SpanT.whole] at hleft
    omega

theorem fin_eq (s : Span) : PartitionIterator.fin s.t = partitionPos s (s.length - 1) := (if_neg (lt_irrefl _)).symm

/-- **The list of partitions is the range of the iterators.** -/
theorem partitionsGenerator_walk (hs : s.left < s.right) {fuel : Nat} (hfuel : s.length - 1 ≤ fuel) :
    PartitionIterator.walk fuel (PartitionIterator.begin s.t) (PartitionIterator.fin s.t) =
      some ((partitionsGenerator s).map pairT) := by
  rw [begin_eq hs, fin_eq, PartitionIterator.walk, (partition_track hs).walk le_rfl (Nat.zero_le _) (by omega)]
  congr 1
  apply ext_getElem
  · simp [partitionsGenerator]
  · intro i hi _
    simp only [length_map, length_range', Nat.sub_zero] at hi
    simp [partitionsGenerator, partitionPos, splitAt, pairT, Span.t, PartitionIterator.dereference, hi]

theorem map_partitionsGenerator (s : Span) :
    (partitionsGenerator s).map pairT = (range' (s.left + 1) (s.right - s.left - 1)).map (splitAt s) := by
  apply ext_getElem
  · simp [partitionsGenerator, Span.length]
  · simp [partitionsGenerator, splitAt, pairT, Span.t]

theorem decrement_splitAt {m : Nat} (hl : s.left < m) (hr : m + 1 < s.right) :
    PartitionIterator.decrement (splitAt s (m + 1)) = splitAt s m := by
  have hbound := s.bound
  unfold PartitionIterator.decrement pastReverse pastForward splitAt SpanT.length SpanT.growLeft SpanT.shrinkRight
    SpanT.whole indexPred ushrtMax at *
  dsimp only
  have hfirst : ¬(⟨s.left, m + 1⟩ : SpanT) = ⟨0, 65535⟩ := fun h => by
    have := congrArg SpanT.right h
    dsimp only at this
    omega
  have hsecond : ¬(⟨m + 1, s.right⟩ : SpanT) = ⟨0, 65535⟩ := fun h => by
    have := congrArg SpanT.left h
    dsimp only at this
    omega
  have hpred : (m + 1 + 65535) % (65535 + 1) = m := by omega
  rw [if_neg (by omega), if_neg hsecond, if_neg hfirst, if_neg (by simp), if_pos rfl, hpred]

/-- A step back from the end comes to the last split, unless the end is the mark on both sides. -/
theorem decrement_fin (hs : s.left + 1 < s.right) :
    PartitionIterator.decrement (s.t, .whole) = if s.Full then (s.t, .whole) else splitAt s (s.right - 1) := by
  have hbound := s.bound
  have hlen : ¬s.t.length = 1 := by
    show ¬s.right - s.left = 1
    omega
  unfold PartitionIterator.decrement
  rw [if_neg hlen]
  unfold pastForward pastReverse
  by_cases hfull : s.Full
  · have hwhole := t_eq_whole_iff.mpr hfull
    rw [if_pos hwhole, if_neg (by simp), if_pos hwhole, if_neg (by simp), if_pos hfull]
  · have hwhole : ¬s.t = .whole := fun h => hfull (t_eq_whole_iff.mp h)
    have hpred : (s.right + 65535) % (65535 + 1) = s.right - 1 := by
      unfold ushrtMax at hbound
      omega
    rw [if_pos rfl, if_neg hwhole, if_pos rfl, if_neg hfull, finalPartition, if_neg hlen]
    unfold indexPred ushrtMax splitAt Span.t
    rw [hpred]

/-- A loop over the partitions comes to the splits at every index inside, in order, and each step of it can be taken
back, that to the end as well. -/
structure PartitionsIterate (s : Span) : Prop where
  splits : ∀ fuel, s.length - 1 ≤ fuel →
    PartitionIterator.walk fuel (PartitionIterator.begin s.t) (PartitionIterator.fin s.t) =
      some ((range' (s.left + 1) (s.right - s.left - 1)).map (splitAt s))
  last : PartitionIterator.increment^[s.length - 1] (PartitionIterator.begin s.t) = PartitionIterator.fin s.t
  back : ∀ k < s.length - 1,
    PartitionIterator.decrement (PartitionIterator.increment^[k + 1] (PartitionIterator.begin s.t)) =
      PartitionIterator.increment^[k] (PartitionIterator.begin s.t)

/-- A step back, as it is in memory. -/
theorem decrement_partitionPos {k : Nat} (hk : k < s.length - 1) : PartitionIterator.decrement (partitionPos s (k + 1)) =
    if k + 1 = s.length - 1 ∧ s.Full then (s.t, .whole) else partitionPos s k := by
  have hlen : s.length = s.right - s.left := rfl
  have hpos : partitionPos s k = splitAt s (s.left + 1 + k) := if_pos hk
  by_cases hlast : k + 1 = s.length - 1
  · have hfin : PartitionIterator.fin s.t = (s.t, .whole) := if_neg (show ¬s.length = 1 by omega)
    rw [hlast, ← fin_eq, hfin, decrement_fin (by omega), hpos, show s.right - 1 = s.left + 1 + k by omega]
    simp
  · rw [show partitionPos s (k + 1) = splitAt s (s.left + 1 + k + 1) from if_pos (by omega),
      decrement_splitAt (by omega) (by omega), if_neg (fun h => hlast h.1), hpos]

/-- From the end of the marking span there is no step back: that end is the mark on both sides. -/
theorem not_partitionsIterate_of_full (hfull : s.Full) : ¬PartitionsIterate s := by
  intro h
  have hmany : s.length - 1 = 65534 := by
    unfold Span.length
    rw [hfull.1, hfull.2]
    rfl
  have hs : s.left < s.right := by
    unfold Span.length at hmany
    omega
  have hlast := h.back (s.length - 2) (by omega)
  rw [begin_eq hs, (partition_track hs).iterate (by omega), (partition_track hs).iterate (by omega),
    decrement_partitionPos (by omega), if_pos ⟨by omega, hfull⟩, partitionPos, if_pos (by omega)] at hlast
  have hleft := congrArg (fun p : SpanPair => p.2.left) hlast
  simp only [splitAt, SpanT.whole] at hleft
  omega

/-- **A loop over the partitions of a span comes to the splits at every index inside, in order, each once, and each step of
it can be taken back, just when the span is not the one that marks the ends.** -/
theorem partitionsIterate_iff (s : Span) (hs : s.left < s.right) : PartitionsIterate s ↔ ¬(s.left = 0 ∧ s.right = ushrtMax) := by
  have htrack := partition_track hs
  constructor
  · intro h hfull
    exact not_partitionsIterate_of_full hfull h
  · intro hfull
    constructor
    · intro fuel hfuel
      rw [partitionsGenerator_walk hs hfuel, map_partitionsGenerator]
    · rw [begin_eq hs, htrack.iterate le_rfl, fin_eq]
    · intro k hk
      rw [begin_eq hs, htrack.iterate (by omega), htrack.iterate (by omega), decrement_partitionPos hk,
        if_neg fun h => hfull h.2]

theorem partitionsIterate_iff_one_five : PartitionsIterate ⟨1, 5, by decide, by decide⟩ :=
  (partitionsIterate_iff ⟨1, 5, by decide, by decide⟩ (by decide)).2 fun h => absurd h.1 (by decide)

theorem not_partitionsIterate : ¬∀ s : Span, s.left < s.right → PartitionsIterate s := by
  intro h
  exact not_partitionsIterate_of_full ⟨rfl, rfl⟩ (h ⟨0, 65535, by decide, by decide⟩ (by decide))

/-! ## Shifts -/

/-- The window of a size at an index. -/
def window (l size : Nat) : SpanT := ⟨l, l + size⟩

/-- Where a loop over the shifts is after `k` rounds. -/
def shiftPos (total : Span) (size k : Nat) : SpanT :=
  if k < total.length + 1 - size then window (total.left + k) size else ShiftIterator.fin total.t size

variable {total : Span} {size : Nat}

section

theorem shiftGenerator_full (hfull : total.Full) : shiftGenerator total size = [] := if_pos hfull

theorem map_shiftGenerator (hfull : ¬total.Full) : (shiftGenerator total size).map Span.t =
    (range (total.length + 1 - size)).map fun i => window (total.left + i) size := by
  have hlist : shiftGenerator total size = (finRange (total.length + 1 - size)).map _ := if_neg hfull
  rw [hlist]
  apply ext_getElem
  · simp
  · intro i _ _
    simp [window, Span.t]

variable (hsize : size ≤ total.length)
include hsize

/-- The end is the window behind the last one, or the one at 0 where there is none behind. -/
theorem shift_fin : ShiftIterator.fin total.t size =
    if total.right = ushrtMax then window 0 size else window (total.right + 1 - size) size := by
  have hlen : total.length = total.right - total.left := rfl
  unfold ShiftIterator.fin SpanT.shiftRight Span.t SpanT.length window
  dsimp only
  split
  · rw [Nat.sub_sub_self (by omega), Nat.zero_add]
  · rw [show total.right - size + 1 = total.right + 1 - size by omega, show total.right + 1 - size + size = total.right + 1 by omega]

theorem shift_step {k : Nat} (hk : k < total.length + 1 - size) :
    ShiftIterator.increment (shiftPos total size k) = shiftPos total size (k + 1) := by
  have hlen : total.length = total.right - total.left := rfl
  have hbound := total.bound
  have hle := total.le
  unfold shiftPos
  rw [if_pos hk, shift_fin hsize]
  unfold ShiftIterator.increment SpanT.shiftRight SpanT.length window ushrtMax at *
  dsimp only
  by_cases hlast : k + 1 < total.length + 1 - size
  · rw [if_pos hlast, if_neg (by omega), show total.left + k + size + 1 = total.left + (k + 1) + size by omega, Nat.add_assoc]
  · rw [show total.left + k + size = total.right by omega]
    split
    · rw [show total.right - (total.left + k) = size by omega, Nat.zero_add]
    · rw [show total.left + k + 1 = total.right + 1 - size by omega, show total.right + 1 - size + size = total.right + 1 by omega]

theorem shift_track (hfull : ¬total.Full) :
    Cursor.Track ShiftIterator.increment (shiftPos total size) (total.length + 1 - size) where
  step k hk := shift_step hsize hk
  apart k hk := by
    have hlen : total.length = total.right - total.left := rfl
    have hle := total.le
    have hfull' : ¬(total.left = 0 ∧ total.right = ushrtMax) := hfull
    unfold shiftPos
    rw [if_pos hk, if_neg (lt_irrefl _), shift_fin hsize]
    intro h
    split at h
    all_goals
      have hleft := congrArg SpanT.left h
      simp only [window] at hleft
      omega

theorem shift_begin : ShiftIterator.begin total.t size = shiftPos total size 0 :=
  (if_pos (show 0 < total.length + 1 - size by omega)).symm

/-- The marking span has no shifts: the window behind its last one is its first. -/
theorem shift_begin_full (hfull : total.Full) :
    ShiftIterator.begin total.t size = ShiftIterator.fin total.t size := by
  rw [shift_fin hsize, if_pos hfull.2, ← hfull.1]
  rfl

/-- **The list of shifts is the range of the iterators.** -/
theorem shiftGenerator_walk {fuel : Nat} (hfuel : total.length + 1 - size ≤ fuel) :
    ShiftIterator.walk fuel (ShiftIterator.begin total.t size) (ShiftIterator.fin total.t size) =
      some ((shiftGenerator total size).map Span.t) := by
  unfold ShiftIterator.walk
  by_cases hfull : total.Full
  · rw [shiftGenerator_full hfull, shift_begin_full hsize hfull]
    cases fuel <;> exact if_pos rfl
  · have hfin : ShiftIterator.fin total.t size = shiftPos total size (total.length + 1 - size) := (if_neg (lt_irrefl _)).symm
    rw [map_shiftGenerator hfull, shift_begin hsize, hfin,
      (shift_track hsize hfull).walk le_rfl (Nat.zero_le _) (by omega)]
    congr 1
    apply ext_getElem
    · simp
    · intro i hi _
      simp only [length_map, length_range', Nat.sub_zero] at hi
      simp [shiftPos, ShiftIterator.dereference, hi]

end

/-- A loop over the shifts comes to every window of the size, from left to right, each once, and then to the end. -/
def ShiftsIterate (total : Span) (size : Nat) : Prop :=
  ∀ fuel, total.length + 1 - size ≤ fuel →
    ShiftIterator.walk fuel (ShiftIterator.begin total.t size) (ShiftIterator.fin total.t size) =
      some ((range (total.right - total.left - size + 1)).map fun i => window (total.left + i) size)

theorem not_shiftsIterate_of_full (hsize : size ≤ total.length) (hfull : total.Full) : ¬ShiftsIterate total size := by
  intro h
  have hwalk := h _ le_rfl
  rw [shiftGenerator_walk hsize le_rfl, shiftGenerator_full hfull, Option.some.injEq] at hwalk
  exact absurd (congrArg List.length hwalk) (by simp)

/-- **A loop over the shifts of a span comes to every window of the size inside it, just when the span is not the one from
0 to `USHRT_MAX`.** -/
theorem shiftsIterate_iff (total : Span) (size : Nat) (hsize : size ≤ total.right - total.left) :
    ShiftsIterate total size ↔ ¬(total.left = 0 ∧ total.right = ushrtMax) := by
  constructor
  · intro h hfull
    exact not_shiftsIterate_of_full hsize hfull h
  · intro hfull fuel hfuel
    rw [shiftGenerator_walk hsize hfuel, map_shiftGenerator hfull, ← Nat.sub_add_comm hsize]
    rfl

theorem shiftsIterate_iff_zero_five : ShiftsIterate ⟨0, 5, by decide, by decide⟩ 2 :=
  (shiftsIterate_iff ⟨0, 5, by decide, by decide⟩ 2 (by decide)).2 fun h => absurd h.2 (by decide)

theorem not_shiftsIterate :
    ¬∀ (total : Span) (size : Nat), 1 ≤ size → size ≤ total.right - total.left → ShiftsIterate total size := by
  intro h
  have hone : 1 ≤ (⟨0, 65535, by decide, by decide⟩ : Span).length := by decide
  exact not_shiftsIterate_of_full hone ⟨rfl, rfl⟩ (h _ 1 le_rfl hone)

/-! ## The generators -/

/-- `length_diff` -/
def lengthDiffT (a b : SpanT) : Nat := if a.length > b.length then a.length - b.length else b.length - a.length

namespace PlainGenerator

/-- `shifts` -/
def shiftRange : PlainGenerator → SpanT → Nat → SpanT × SpanT
  | full, s, size => (ShiftIterator.begin s size, ShiftIterator.fin s size)
  | limitSyntaxLength maxLength, s, size =>
    if maxLength > size then (ShiftIterator.begin s size, ShiftIterator.fin s size)
    else
      let itr := ShiftIterator.begin s size
      (itr, if itr ≠ ShiftIterator.fin s size ∧ itr.left = 0 then ShiftIterator.increment itr else itr)
  | limitSplitDifference _, s, size => (ShiftIterator.begin s size, ShiftIterator.fin s size)

/-- `partitions`; `none` if one of its loops does not end within the fuel. -/
def partitionRange (fuel : Nat) : PlainGenerator → SpanT → Option (SpanPair × SpanPair)
  | full, s => some (PartitionIterator.begin s, PartitionIterator.fin s)
  | limitSyntaxLength maxLength, s =>
    if s.length > maxLength then
      (PartitionIterator.skip (fun p => p.2.length > maxLength) fuel (PartitionIterator.begin s) (PartitionIterator.fin s)).map
        fun first => (first, PartitionIterator.fin s)
    else some (PartitionIterator.begin s, PartitionIterator.fin s)
  | limitSplitDifference maxDiff, s =>
    if s.left > 0 then
      let pend := PartitionIterator.fin s
      (PartitionIterator.skip (fun p => lengthDiffT p.1 p.2 > maxDiff) fuel (PartitionIterator.begin s) pend).bind fun pitr =>
        (PartitionIterator.skip (fun p => lengthDiffT p.1 p.2 ≤ maxDiff) fuel
            (if pitr ≠ pend then PartitionIterator.increment pitr else pitr) pend).map
          fun last => (pitr, last)
    else some (PartitionIterator.begin s, PartitionIterator.fin s)

/-- What is in the range of shifts. -/
def shiftsT (fuel : Nat) (g : PlainGenerator) (s : SpanT) (size : Nat) : Option (List SpanT) :=
  ShiftIterator.walk fuel (g.shiftRange s size).1 (g.shiftRange s size).2

/-- What is in the range of partitions. -/
def partitionsT (fuel : Nat) (g : PlainGenerator) (s : SpanT) : Option (List SpanPair) :=
  (g.partitionRange fuel s).bind fun r => PartitionIterator.walk fuel r.1 r.2

variable {fuel : Nat}

/-- **The lists of shifts are the ranges of the iterators.** -/
theorem shifts_walk (g : PlainGenerator) (hsize : size ≤ total.length) (hfuel : total.length + 1 - size ≤ fuel) :
    g.shiftsT fuel total.t size = some ((g.shifts total size).map Span.t) := by
  cases g with
  | full => exact shiftGenerator_walk hsize hfuel
  | limitSplitDifference _ => exact shiftGenerator_walk hsize hfuel
  | limitSyntaxLength maxLength =>
    unfold shiftsT shiftRange shifts
    dsimp only
    by_cases hmax : maxLength > size
    · rw [if_pos hmax, if_pos hmax]
      exact shiftGenerator_walk hsize hfuel
    · rw [if_neg hmax, if_neg hmax]
      have hleft : (ShiftIterator.begin total.t size).left = total.left := rfl
      by_cases hone : ShiftIterator.begin total.t size ≠ ShiftIterator.fin total.t size ∧ total.left = 0
      · -- The range of one shift: the first.
        have hfull : ¬total.Full := fun h => hone.1 (shift_begin_full hsize h)
        have hpos : shiftPos total size 1 = ShiftIterator.increment (ShiftIterator.begin total.t size) := by
          rw [shift_begin hsize, shift_step hsize (by omega)]
        rw [if_pos (by rw [hleft]; exact hone), if_pos hone.2, ShiftIterator.walk, ← hpos, shift_begin hsize,
          (shift_track hsize hfull).walk (by omega) (by omega) (by omega), map_take, map_shiftGenerator hfull]
        rw [← map_take, take_range, Nat.min_eq_left (by omega)]
        have hfirst : shiftPos total size 0 = window (total.left + 0) size := if_pos (by omega)
        exact congrArg (fun w => some [w]) hfirst
      · rw [if_neg (by rw [hleft]; exact hone), ShiftIterator.walk]
        have hnil : Cursor.walk ShiftIterator.increment ShiftIterator.dereference (ShiftIterator.begin total.t size) fuel
            (ShiftIterator.begin total.t size) = some [] := by
          cases fuel <;> exact if_pos rfl
        rw [hnil]
        by_cases h0 : total.left = 0
        · have hfull : total.Full := by
            by_contra hfull
            exact hone ⟨by
              rw [shift_begin hsize, show ShiftIterator.fin total.t size = shiftPos total size (total.length + 1 - size) from
                (if_neg (lt_irrefl _)).symm]
              exact (shift_track hsize hfull).apart 0 (by omega), h0⟩
          rw [if_pos h0, shiftGenerator_full hfull]
          rfl
        · rw [if_neg h0]
          rfl

/-- The partitions as the positions of the loop. -/
theorem map_range'_partitionPos (s : Span) : ((range' 0 (s.length - 1)).map fun i =>
    PartitionIterator.dereference (partitionPos s i)) = (partitionsGenerator s).map pairT := by
  rw [map_partitionsGenerator]
  apply ext_getElem
  · simp [Span.length]
  · intro i hi _
    simp only [length_map, length_range'] at hi
    simp [partitionPos, PartitionIterator.dereference, hi]

/-- The first loop of the difference limit finds where the stretch of partitions within the limit begins, the second where
it ends. -/
theorem splitDifference_walk (hs : s.left < s.right) (hleft : 0 < s.left) (maxDiff : Nat)
    (hfuel : s.length - 1 ≤ fuel) : (limitSplitDifference maxDiff).partitionsT fuel s.t =
      some (Cursor.stretch (fun p => decide (lengthDiffT p.1 p.2 ≤ maxDiff)) ((partitionsGenerator s).map pairT)) := by
  have htrack := partition_track hs
  have hover : (fun p : SpanPair => decide (lengthDiffT p.1 p.2 > maxDiff)) =
      fun p => !decide (lengthDiffT p.1 p.2 ≤ maxDiff) := by
    funext p
    rw [← decide_not, decide_eq_decide]
    exact Nat.not_le.symm
  simp only [partitionsT, partitionRange, PartitionIterator.skip]
  rw [if_pos (show s.t.left > 0 from hleft), begin_eq hs, fin_eq, htrack.skip _ (Nat.zero_le _) (by omega), Option.bind_some]
  obtain ⟨hj, -, hdrop⟩ := Cursor.along_spec (fun p : SpanPair => decide (lengthDiffT p.1 p.2 > maxDiff))
    (fun i => PartitionIterator.dereference (partitionPos s i)) 0 (s.length - 1)
  rw [Nat.zero_add]
  rw [map_range'_partitionPos, hover, Nat.zero_add] at hdrop
  rw [hover] at hj
  rw [hover]
  generalize Cursor.along (fun p : SpanPair => !decide (lengthDiffT p.1 p.2 ≤ maxDiff))
    (fun i => PartitionIterator.dereference (partitionPos s i)) 0 (s.length - 1) = j at hj hdrop ⊢
  unfold Cursor.stretch
  rw [← hdrop]
  rcases Nat.eq_or_lt_of_le hj with rfl | hlt
  · -- No partition is within the limit.
    have hpast : s.length - 1 + Cursor.along (fun p : SpanPair => decide (lengthDiffT p.1 p.2 ≤ maxDiff))
        (fun i => PartitionIterator.dereference (partitionPos s i)) (s.length - 1) 0 = s.length - 1 := rfl
    rw [if_neg (by simp), htrack.skip _ le_rfl (by omega), Nat.sub_self, hpast, Option.map_some, Option.bind_some,
      PartitionIterator.walk, htrack.walk le_rfl le_rfl (by omega), Nat.sub_self]
    rfl
  · rw [if_pos (htrack.apart j hlt), htrack.step j hlt, htrack.skip _ hlt (by omega), Option.map_some, Option.bind_some]
    obtain ⟨hm, htake, -⟩ := Cursor.along_spec (fun p : SpanPair => decide (lengthDiffT p.1 p.2 ≤ maxDiff))
      (fun i => PartitionIterator.dereference (partitionPos s i)) (j + 1) (s.length - 1 - (j + 1))
    generalize Cursor.along (fun p : SpanPair => decide (lengthDiffT p.1 p.2 ≤ maxDiff))
      (fun i => PartitionIterator.dereference (partitionPos s i)) (j + 1) (s.length - 1 - (j + 1)) = m at hm htake ⊢
    have hend : j + 1 + m ≤ s.length - 1 := by omega
    rw [PartitionIterator.walk, htrack.walk hend (by omega) (by omega), show j + 1 + m - j = m + 1 by omega,
      range'_succ, map_cons, htake, show s.length - 1 - j = s.length - 1 - (j + 1) + 1 by omega,
      range'_succ, map_cons]

/-- **The lists of partitions are the ranges of the iterators.** -/
theorem partitions_walk (g : PlainGenerator) (hs : s.left < s.right) (hfuel : s.length - 1 ≤ fuel) :
    g.partitionsT fuel s.t = some ((g.partitions s).map pairT) := by
  cases g with
  | full => exact partitionsGenerator_walk hs hfuel
  | limitSyntaxLength maxLength =>
    simp only [partitionsT, partitionRange, partitions]
    by_cases hmax : s.length > maxLength
    · obtain ⟨hj, -, hdrop⟩ := Cursor.along_spec (fun p : SpanPair => decide (p.2.length > maxLength))
        (fun i => PartitionIterator.dereference (partitionPos s i)) 0 (s.length - 1)
      rw [if_pos (show s.t.length > maxLength from hmax), if_pos hmax, PartitionIterator.skip, begin_eq hs, fin_eq,
        (partition_track hs).skip _ (Nat.zero_le _) (by omega), Option.map_some, Option.bind_some, Nat.sub_zero, Nat.zero_add,
        PartitionIterator.walk, (partition_track hs).walk le_rfl hj (by omega)]
      rw [Nat.zero_add, map_range'_partitionPos, dropWhile_map] at hdrop
      rw [hdrop]
      rfl
    · rw [if_neg (show ¬s.t.length > maxLength from hmax), if_neg hmax]
      exact partitionsGenerator_walk hs hfuel
  | limitSplitDifference maxDiff =>
    by_cases hleft : 0 < s.left
    · rw [splitDifference_walk hs hleft maxDiff hfuel, Cursor.stretch_map]
      have hover : (fun p : Span × Span => decide (lengthDiff p.1 p.2 > maxDiff)) =
          fun p => !decide (lengthDiffT (pairT p).1 (pairT p).2 ≤ maxDiff) := by
        funext p
        rw [← decide_not, decide_eq_decide]
        exact Nat.not_le.symm
      simp only [partitions, Cursor.stretch]
      rw [if_pos hleft, hover]
      cases (partitionsGenerator s).dropWhile fun p => !decide (lengthDiffT (pairT p).1 (pairT p).2 ≤ maxDiff) with
      | nil => rfl
      | cons p rest => rfl
    · simp only [partitionsT, partitionRange, partitions]
      rw [if_neg (show ¬s.t.left > 0 from hleft), if_neg hleft]
      exact partitionsGenerator_walk hs hfuel

/-- The generator's own shifts of the length of the span come to it. -/
def Enumerates (fuel : Nat) (g : PlainGenerator) (target s : SpanT) : Prop :=
  ∃ l, g.shiftsT fuel target s.length = some l ∧ s ∈ l

/-- **The difference limit keeps the partitions within it, and all of a span that begins the sentence.** -/
theorem splitDifference_filter (hs : s.left < s.right) (maxDiff : Nat) (hfuel : s.length - 1 ≤ fuel) :
    (limitSplitDifference maxDiff).partitionsT fuel s.t = some (((partitionsGenerator s).map pairT).filter fun p =>
      decide (s.left = 0 ∨ lengthDiffT p.1 p.2 ≤ maxDiff)) := by
  rcases Nat.eq_zero_or_pos s.left with h0 | hleft
  · have hall : ∀ p ∈ (partitionsGenerator s).map pairT, decide (s.left = 0 ∨ lengthDiffT p.1 p.2 ≤ maxDiff) = true :=
      fun _ _ => decide_eq_true (.inl h0)
    rw [partitions_walk _ hs hfuel, filter_eq_self.mpr hall]
    simp only [partitions]
    rw [if_neg (Nat.not_lt.mpr h0.le)]
  · have hgap : ∀ x y z : Nat, x < y → y < z → decide (lengthDiffT (splitAt s x).1 (splitAt s x).2 ≤ maxDiff) = true →
        decide (lengthDiffT (splitAt s z).1 (splitAt s z).2 ≤ maxDiff) = true →
        decide (lengthDiffT (splitAt s y).1 (splitAt s y).2 ≤ maxDiff) = true := by
      intro x y z hxy hyz hx hz
      have hx := of_decide_eq_true hx
      have hz := of_decide_eq_true hz
      apply decide_eq_true
      unfold lengthDiffT SpanT.length splitAt at *
      dsimp only at *
      split_ifs at hx hz ⊢ <;> omega
    have hiff : ∀ p : SpanPair, decide (s.left = 0 ∨ lengthDiffT p.1 p.2 ≤ maxDiff) = decide (lengthDiffT p.1 p.2 ≤ maxDiff) :=
      fun p => decide_eq_decide.mpr (or_iff_right (Nat.pos_iff_ne_zero.mp hleft))
    rw [splitDifference_walk hs hleft maxDiff hfuel, map_partitionsGenerator, Cursor.stretch_map,
      Cursor.stretch_eq_filter hgap (pairwise_lt_range' ..), filter_map]
    simp only [hiff]
    rfl

theorem mem_shifts_limitSyntaxLength {maxLength : Nat} {t : Span} (hsize : t.length = size) :
    t ∈ (limitSyntaxLength maxLength).shifts total size ↔ ¬total.Full ∧ total.left ≤ t.left ∧ t.right ≤ total.right ∧
      (size < maxLength ∨ (total.left = 0 ∧ t.left = 0)) := by
  have hmem : t ∈ shiftGenerator total size ↔ ¬total.Full ∧ total.left ≤ t.left ∧ t.right ≤ total.right := by
    constructor
    · intro h
      obtain ⟨_, hl, hr, hfull⟩ := mem_shiftGenerator h
      exact ⟨hfull, hl, hr⟩
    · rintro ⟨hfull, hl, hr⟩
      exact (mem_shiftGenerator_iff hfull).mpr ⟨hsize, hl, hr⟩
  simp only [shifts]
  split_ifs with hmax h0
  · tauto
  · have hfirst : t ∈ (shiftGenerator total size).take 1 ↔ t ∈ shiftGenerator total size ∧ t.left = total.left := by
      by_cases hfull : total.Full
      · simp [shiftGenerator_full hfull]
      · have hinj : Function.Injective Span.t := fun a b hab => Span.ext (congrArg SpanT.left hab) (congrArg SpanT.right hab)
        rw [← mem_map_of_injective hinj, ← mem_map_of_injective (l := shiftGenerator total size) hinj, map_take,
          map_shiftGenerator hfull, ← map_take, take_range]
        simp only [mem_map, mem_range]
        constructor
        · rintro ⟨i, hi, h⟩
          obtain rfl : i = 0 := by omega
          exact ⟨⟨0, by omega, h⟩, (congrArg SpanT.left h).symm⟩
        · rintro ⟨⟨i, hi, h⟩, hl⟩
          have hi0 : total.left + i = t.left := congrArg SpanT.left h
          exact ⟨i, by omega, h⟩
    rw [hfirst, hmem, h0]
    constructor
    · rintro ⟨⟨hfull, hl, hr⟩, ht⟩
      exact ⟨hfull, hl, hr, .inr ⟨rfl, ht⟩⟩
    · rintro ⟨hfull, hl, hr, ht⟩
      exact ⟨⟨hfull, hl, hr⟩, (ht.resolve_left hmax).2⟩
  · constructor
    · intro h
      exact absurd h not_mem_nil
    · rintro ⟨_, _, _, h⟩
      rcases h with h | h
      · exact absurd h hmax
      · exact absurd h.1 h0

theorem enumerates_iff {g : PlainGenerator} {t : Span} (hin : t.length ≤ total.length)
    (hfuel : total.length + 1 ≤ fuel) : g.Enumerates fuel total.t t.t ↔ t ∈ g.shifts total t.length := by
  have hinj : Function.Injective Span.t := fun a b hab => Span.ext (congrArg SpanT.left hab) (congrArg SpanT.right hab)
  unfold Enumerates
  rw [show t.t.length = t.length from rfl, shifts_walk g hin (by omega)]
  simp only [Option.some.injEq, exists_eq_left', mem_map_of_injective hinj]

/-- The second parts get shorter, so behind those that are too long none is. -/
theorem le_of_mem_partitions_limitSyntaxLength {maxLength : Nat} {p q : Span} (hlong : s.length > maxLength)
    (h : (p, q) ∈ (limitSyntaxLength maxLength).partitions s) : q.length ≤ maxLength := by
  have hshorter : (partitionsGenerator s).Pairwise fun a b =>
      decide (b.2.length > maxLength) = true → decide (a.2.length > maxLength) = true := by
    unfold partitionsGenerator
    rw [pairwise_map]
    refine (pairwise_lt_finRange _).imp ?_
    intro i j hij hj
    have hj := of_decide_eq_true hj
    apply decide_eq_true
    unfold Span.length at *
    dsimp only at *
    omega
  simp only [partitions] at h
  rw [if_pos hlong] at h
  exact Nat.le_of_not_lt (of_decide_eq_false (Cursor.not_of_mem_dropWhile hshorter h))

/-- Of a span it comes to itself, the length limit gives parts it comes to, where these are not just as long as the limit. -/
theorem mem_shifts_of_mem_partitions {maxLength : Nat} {p q : Span}
    (ht : s ∈ (limitSyntaxLength maxLength).shifts total s.length)
    (hpq : (p, q) ∈ (limitSyntaxLength maxLength).partitions s) {half : Span} (hhalf : half = p ∨ half = q)
    (hne : half.length ≠ maxLength) : half ∈ (limitSyntaxLength maxLength).shifts total half.length := by
  obtain ⟨hfull, hl, hr, hlimit⟩ := (mem_shifts_limitSyntaxLength rfl).mp ht
  obtain ⟨hpl, hmid, hqr, hp, hq⟩ := mem_partitionsGenerator.mp ((partitions_sublist _ s).subset hpq)
  have hlen : s.length = s.right - s.left := rfl
  have hplen : p.length = p.right - p.left := rfl
  have hqlen : q.length = q.right - q.left := rfl
  rw [mem_shifts_limitSyntaxLength rfl]
  rcases hhalf with rfl | rfl
  · refine ⟨hfull, by omega, by omega, ?_⟩
    rcases hlimit with hlt | h0
    · exact .inl (by omega)
    · exact .inr ⟨h0.1, hpl.trans h0.2⟩
  · refine ⟨hfull, by omega, by omega, .inl ?_⟩
    rcases hlimit with hlt | _
    · omega
    · by_cases hlong : s.length > maxLength
      · have hle := le_of_mem_partitions_limitSyntaxLength hlong hpq
        omega
      · omega

end PlainGenerator

open PlainGenerator in
/-- **The difference limit gives the partitions within it, in order, and all those of a span that begins the sentence; of a
span that its own shifts come to, the length limit gives parts that its own shifts come to, if they are not just as long as
the limit.** -/
theorem generators_limit (total t : Span) (ht : t.left < t.right) (hl : total.left ≤ t.left) (hr : t.right ≤ total.right)
    (fuel : Nat) (hfuel : total.length + 1 ≤ fuel) :
    (∀ maxDiff, ∃ ps, full.partitionsT fuel t.t = some ps ∧ (limitSplitDifference maxDiff).partitionsT fuel t.t =
      some (ps.filter fun p => decide (t.left = 0 ∨ lengthDiffT p.1 p.2 ≤ maxDiff))) ∧
    ∀ maxLength, (limitSyntaxLength maxLength).Enumerates fuel total.t t.t →
      ∃ ps, (limitSyntaxLength maxLength).partitionsT fuel t.t = some ps ∧ ∀ p ∈ ps, ∀ half, half = p.1 ∨ half = p.2 →
        half.length ≠ maxLength → (limitSyntaxLength maxLength).Enumerates fuel total.t half := by
  have hlen : t.length = t.right - t.left := rfl
  have htotal : total.length = total.right - total.left := rfl
  constructor
  · intro maxDiff
    exact ⟨_, partitions_walk full ht (by omega), splitDifference_filter ht maxDiff (by omega)⟩
  · intro maxLength hown
    have hown := (enumerates_iff (by omega) hfuel).mp hown
    refine ⟨_, partitions_walk _ ht (by omega), ?_⟩
    intro p hp half hhalf hne
    obtain ⟨⟨a, b⟩, hab, rfl⟩ := mem_map.mp hp
    obtain ⟨hal, hmid, hbr, ha, hb⟩ := mem_partitionsGenerator.mp ((partitions_sublist _ t).subset hab)
    have hashort : a.length ≤ total.length := by
      unfold Span.length
      omega
    have hbshort : b.length ≤ total.length := by
      unfold Span.length
      omega
    rcases hhalf with rfl | rfl
    · exact (enumerates_iff hashort hfuel).mpr (mem_shifts_of_mem_partitions hown hab (.inl rfl) hne)
    · exact (enumerates_iff hbshort hfuel).mpr (mem_shifts_of_mem_partitions hown hab (.inr rfl) hne)

open PlainGenerator in
theorem generators_limit_two_six :
    (∀ maxDiff, ∃ ps, full.partitionsT 7 ⟨2, 6⟩ = some ps ∧ (limitSplitDifference maxDiff).partitionsT 7 ⟨2, 6⟩ =
      some (ps.filter fun p => decide ((2 : Nat) = 0 ∨ lengthDiffT p.1 p.2 ≤ maxDiff))) ∧
    ∀ maxLength, (limitSyntaxLength maxLength).Enumerates 7 ⟨0, 6⟩ ⟨2, 6⟩ →
      ∃ ps, (limitSyntaxLength maxLength).partitionsT 7 ⟨2, 6⟩ = some ps ∧ ∀ p ∈ ps, ∀ half, half = p.1 ∨ half = p.2 →
        half.length ≠ maxLength → (limitSyntaxLength maxLength).Enumerates 7 ⟨0, 6⟩ half :=
  generators_limit ⟨0, 6, by decide, by decide⟩ ⟨2, 6, by decide, by decide⟩ (by decide) (by decide) (by decide) 7 (by decide)

open PlainGenerator in
/-- The span from 0 to 4 is cut behind its first word, whatever the limit. -/
theorem not_generators_limit : ¬∀ (total t : Span), t.left < t.right → total.left ≤ t.left → t.right ≤ total.right →
    ∀ fuel, total.length + 1 ≤ fuel →
      (∀ maxDiff, ∃ ps, full.partitionsT fuel t.t = some ps ∧ (limitSplitDifference maxDiff).partitionsT fuel t.t =
        some (ps.filter fun p => decide (lengthDiffT p.1 p.2 ≤ maxDiff))) ∧
      ∀ maxLength, ∃ ps, (limitSyntaxLength maxLength).partitionsT fuel t.t = some ps ∧ ∀ p ∈ ps, ∀ half,
        half = p.1 ∨ half = p.2 → (limitSyntaxLength maxLength).Enumerates fuel total.t half := by
  intro h
  obtain ⟨ps, hall, hlimit⟩ := (h ⟨0, 6, by decide, by decide⟩ ⟨0, 4, by decide, by decide⟩ (by decide) (by decide) (by decide)
    7 (by decide)).1 1
  have hps : full.partitionsT 7 ⟨0, 4⟩ = some [(⟨0, 1⟩, ⟨1, 4⟩), (⟨0, 2⟩, ⟨2, 4⟩), (⟨0, 3⟩, ⟨3, 4⟩)] := by decide
  have hthree : (limitSplitDifference 1).partitionsT 7 ⟨0, 4⟩ =
      some [(⟨0, 1⟩, ⟨1, 4⟩), (⟨0, 2⟩, ⟨2, 4⟩), (⟨0, 3⟩, ⟨3, 4⟩)] := by decide
  obtain rfl := Option.mem_unique hps hall
  exact absurd (hthree.symm.trans hlimit) (by decide)

end Sbmt.Search
