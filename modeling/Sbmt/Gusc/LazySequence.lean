import Mathlib
/-!
# Lazy sequences (`gusc/gusc/generator/lazy_sequence.hpp`)

A `lazy_sequence` keeps the values its generator has yielded, and asks for more when a position is looked at.

| here | there |
| --- | --- |
| `LazySequence` | `g` and `c` of `lazy_sequence` (`lazy_sequence.hpp:20-67`); `g` is given by the values it has left to yield |
| `instantiate`, `instantiateAll` | `instantiate(n)`, `instantiate()`: its default is more than a vector can hold |
| `index` | `operator[]`; `none` is the exception of `c.at(n)` |
| `Iter` | `lazy_sequence_iterator`, without the sequence it is of (`:71-158`) |
| `distanceTo`, `advance`, `dereference`, `equal` | the members `iterator_facade` builds on (`:90-134`) |
| `make`, `begin`, `fin`| the constructor, `begin()`, `end()` (`:136-149`, `:161-175`) |
| `Iter.add`, `Iter.sub`| the facade's `i + n` and `j - i` |

`++` and `--` advance by `1` and `-1`.  The test walks back to `begin() - 1`, so positions are integers.
-/

namespace Sbmt.Gusc

open List

variable {α : Type}

structure LazySequence (α : Type) where
  g : List α
  c : List α

structure Iter where
  idx : Int
  at_end : Bool
deriving DecidableEq

namespace LazySequence

/-- The loop of `instantiate`. -/
def draw (n : Nat) : List α → List α → LazySequence α
  | [], c => ⟨[], c⟩
  | ag :: g, c => if c.length ≤ n then draw n g (c ++ [ag]) else ⟨ag :: g, c⟩

variable (s : LazySequence α)

def instantiate (n : Int) : LazySequence α :=
  if n < 0 ∨ n < s.c.length ∨ s.g = [] then s else draw n.toNat s.g s.c

def instantiateAll : LazySequence α := ⟨[], s.c ++ s.g⟩

def index (n : Nat) : LazySequence α × Option α :=
  ((s.instantiate n), (s.instantiate n).c[n]?)

/-- The constructor: an index past the last value becomes the end, and its index the size. -/
def make (idx : Int) (at_end : Bool) : LazySequence α × Iter :=
  let s := s.instantiate idx
  if idx < 0 ∨ s.c.length ≤ idx then (s, ⟨s.c.length, true⟩) else (s, ⟨idx, at_end⟩)

def begin : LazySequence α × Iter := s.make 0 false

def fin : LazySequence α × Iter := s.make 0 true

end LazySequence

namespace Iter

def distanceTo (it ptr : Iter) : Int := ptr.idx - it.idx

variable (s : LazySequence α)

def advance (it : Iter) (n : Int) : LazySequence α × Iter :=
  if it.at_end then
    if 0 ≤ n then (s, it)
    else (s.instantiateAll, ⟨s.instantiateAll.c.length + n, false⟩)
  else
    if 0 < n then
      let s := s.instantiate (it.idx + n)
      if 0 ≤ it.idx + n ∧ s.c.length ≤ it.idx + n then (s, ⟨s.c.length, true⟩)
      else (s, ⟨it.idx + n, false⟩)
    else (s, ⟨it.idx + n, false⟩)

def dereference (it : Iter) : LazySequence α × Option α :=
  if it.idx < 0 then (s, none) else s.index it.idx.toNat

def equal (it other : Iter) : Bool :=
  if it.at_end then other.at_end
  else !other.at_end && decide (it.idx = other.idx)

/-- `i + n`. -/
def add (i : Iter) (n : Int) : Iter := (i.advance s n).2

/-- `j - i`. -/
def sub (j i : Iter) : Int := i.distanceTo j

end Iter

/-! ## Any interleaving -/

/-- What a user of the sequence can do: look at a position, get an iterator, copy or move one of those had so far. -/
inductive LazyAct
  | index (n : Nat)
  | begin
  | fin
  | copy (k : Nat)
  | advance (k : Nat) (n : Int)

structure LazyUse (α : Type) where
  seq : LazySequence α
  iters : List Iter

namespace LazyUse

def start (g : List α) : LazyUse α := ⟨⟨g, []⟩, []⟩

def step (s : LazyUse α) : LazyAct → LazyUse α
  | .index n => { s with seq := (s.seq.index n).1 }
  | .begin => ⟨s.seq.begin.1, s.iters ++ [s.seq.begin.2]⟩
  | .fin => ⟨s.seq.fin.1, s.iters ++ [s.seq.fin.2]⟩
  | .copy k =>
    match s.iters[k]? with
    | some it => { s with iters := s.iters ++ [it] }
    | none => s
  | .advance k n =>
    match s.iters[k]? with
    | some it => ⟨(it.advance s.seq n).1, s.iters.set k (it.advance s.seq n).2⟩
    | none => s

end LazyUse

/-! ## Positions in a list -/

/-- The same uses of a list of `size` values: an iterator is a position, and no position is past the end. -/
def stepPositions (size : Nat) (ps : List Int) : LazyAct → List Int
  | .index _ => ps
  | .begin => ps ++ [0]
  | .fin => ps ++ [(size : Int)]
  | .copy k =>
    match ps[k]? with
    | some p => ps ++ [p]
    | none => ps
  | .advance k n =>
    match ps[k]? with
    | some p => ps.set k (min (p + n) size)
    | none => ps

/-- The value at a position. -/
def valueAt (vals : List α) (p : Int) : Option α := if p < 0 then none else vals[p.toNat]?

namespace LazySequence

variable {vals : List α} {s : LazySequence α}

/-- The sequence holds these values, drawn or not. -/
def Holds (vals : List α) (s : LazySequence α) : Prop := s.c ++ s.g = vals

theorem draw_spec {n : Nat} : ∀ {g c : List α}, Holds (c ++ g) (draw n g c) ∧
    (n < (draw n g c).c.length ∨ (draw n g c).g = [])
  | [], c => ⟨rfl, .inr rfl⟩
  | ag :: g, c => by
    unfold draw
    split_ifs with hlen
    · have := draw_spec (n := n) (g := g) (c := c ++ [ag])
      rwa [append_assoc] at this
    · exact ⟨rfl, .inl (Nat.lt_of_not_le hlen)⟩

variable (h : Holds vals s)
include h

/-- `instantiate(n)` loses nothing, and afterwards position `n` is there if it ever will be. -/
theorem instantiate_spec (n : Int) : Holds vals (s.instantiate n) ∧
    (0 ≤ n → n < (s.instantiate n).c.length ∨ (s.instantiate n).c = vals) := by
  unfold instantiate
  split_ifs with hskip
  · refine ⟨h, fun hn => ?_⟩
    rcases hskip with hneg | hin | hg
    · omega
    · exact .inl hin
    · right
      rw [← h, hg, append_nil]
  · obtain ⟨hholds, hdone⟩ := draw_spec (n := n.toNat) (g := s.g) (c := s.c)
    rw [h] at hholds
    refine ⟨hholds, fun hn => hdone.imp (fun hlt => ?_) fun hg => ?_⟩
    · omega
    · rw [← hholds, hg, append_nil]

theorem Holds.length_le : s.c.length ≤ vals.length := by
  rw [← h, length_append]
  omega

/-- Whether a position is past the last value shows once it has been asked for. -/
theorem instantiate_length {n : Int} (hn : 0 ≤ n) : ((s.instantiate n).c.length ≤ n ↔ (vals.length : Int) ≤ n) ∧
    ((vals.length : Int) ≤ n → (s.instantiate n).c.length = vals.length) := by
  obtain ⟨hholds, hdone⟩ := instantiate_spec h n
  have hle := hholds.length_le
  rcases hdone hn with hlt | hall
  · constructor
    · omega
    · omega
  · rw [hall]
    exact ⟨Iff.rfl, fun _ => rfl⟩

/-- **Position `n` yields the `n`-th value.** -/
theorem index_spec (n : Nat) : Holds vals (s.index n).1 ∧ (s.index n).2 = vals[n]? := by
  obtain ⟨hholds, hdone⟩ := instantiate_spec h n
  refine ⟨hholds, ?_⟩
  show (s.instantiate n).c[n]? = vals[n]?
  rcases hdone (Int.natCast_nonneg n) with hlt | hall
  · rw [← hholds, getElem?_append_left (by omega)]
  · rw [hall]

end LazySequence

namespace Iter

variable {vals : List α} {s : LazySequence α} {it i j : Iter} (size : Nat)

/-- Where an iterator is. -/
def pos (it : Iter) : Int := if it.at_end then size else it.idx

/-- An iterator at the end has the size for its index, unless it is still as `end()` made it. -/
structure Placed (size : Nat) (it : Iter) : Prop where
  inside : it.at_end = false → it.idx < size
  past : it.at_end = true → it.idx = 0 ∨ it.idx = size

/-- At the end, as `end()` makes it where there are values. -/
def Sentinel (it : Iter) : Prop := it.at_end = true ∧ it.idx ≠ size

instance (size : Nat) (it : Iter) : Decidable (Sentinel size it) := inferInstanceAs (Decidable (_ ∧ _))

theorem pos_end (idx : Int) : pos size ⟨idx, true⟩ = size := rfl

theorem pos_inside (idx : Int) : pos size ⟨idx, false⟩ = idx := rfl

/-- An iterator with the size for its index is at the end. -/
theorem placed_end : Placed size ⟨size, true⟩ := ⟨nofun, fun _ => .inr rfl⟩

theorem placed_inside {size : Nat} {idx : Int} (h : idx < size) : Placed size ⟨idx, false⟩ := ⟨fun _ => h, nofun⟩

theorem make_spec (h : s.Holds vals) (b : Bool) : (s.make 0 b).1.Holds vals ∧ (s.make 0 b).2.Placed vals.length ∧
    (s.make 0 b).2.pos vals.length = if b then (vals.length : Int) else 0 := by
  obtain ⟨hholds, -⟩ := LazySequence.instantiate_spec h 0
  obtain ⟨hend, hsize⟩ := LazySequence.instantiate_length h le_rfl
  unfold LazySequence.make
  by_cases hpast : ((s.instantiate 0).c.length : Int) ≤ 0
  · have hzero := hend.mp hpast
    rw [if_pos (.inr hpast), hsize hzero]
    refine ⟨hholds, placed_end _, ?_⟩
    rw [pos_end]
    split_ifs
    · rfl
    · omega
  · rw [if_neg (by omega)]
    refine ⟨hholds, ?_, ?_⟩
    · cases b with
      | true => exact ⟨nofun, fun _ => .inl rfl⟩
      | false =>
        exact placed_inside (by omega)
    · cases b with
      | true => rfl
      | false => rfl

/-- **A move is a move of the position**, and stops at the end. -/
theorem advance_spec (h : s.Holds vals) (hit : it.Placed vals.length) (n : Int) :
    (it.advance s n).1.Holds vals ∧ (it.advance s n).2.Placed vals.length ∧
      (it.advance s n).2.pos vals.length = min (it.pos vals.length + n) vals.length := by
  obtain ⟨idx, at_end⟩ := it
  unfold advance
  cases at_end with
  | true =>
    rw [if_pos rfl, pos_end]
    by_cases hn : 0 ≤ n
    · rw [if_pos hn]
      refine ⟨h, hit, ?_⟩
      rw [pos_end]
      omega
    · have hall : s.instantiateAll.c = vals := h
      rw [if_neg hn, hall]
      refine ⟨?_, placed_inside (by omega), ?_⟩
      · show s.instantiateAll.c ++ [] = vals
        rw [append_nil, hall]
      · rw [pos_inside]
        omega
  | false =>
    have hlt : idx < vals.length := hit.inside rfl
    rw [if_neg Bool.false_ne_true, pos_inside]
    dsimp only
    by_cases hn : 0 < n
    · rw [if_pos hn]
      have hholds := (LazySequence.instantiate_spec h (idx + n)).1
      by_cases hpast : 0 ≤ idx + n ∧ ((s.instantiate (idx + n)).c.length : Int) ≤ idx + n
      · obtain ⟨hend, hsize⟩ := LazySequence.instantiate_length h hpast.1
        have hle := hend.mp hpast.2
        rw [if_pos hpast, hsize hle]
        refine ⟨hholds, placed_end _, ?_⟩
        rw [pos_end]
        omega
      · have hin : idx + n < vals.length := by
          by_contra hle
          have h0 : 0 ≤ idx + n := by omega
          exact hpast ⟨h0, (LazySequence.instantiate_length h h0).1.mpr (by omega)⟩
        rw [if_neg hpast]
        refine ⟨hholds, placed_inside hin, ?_⟩
        rw [pos_inside]
        omega
    · rw [if_neg hn]
      refine ⟨h, placed_inside (by omega), ?_⟩
      rw [pos_inside]
      omega

/-- **Iterators are equal where their positions are**, however they came there. -/
theorem equal_iff {size : Nat} (hi : i.Placed size) (hj : j.Placed size) : i.equal j = true ↔ i.pos size = j.pos size := by
  obtain ⟨idx, at_end⟩ := i
  obtain ⟨idx', at_end'⟩ := j
  cases at_end with
  | true => cases at_end' with
    | true => simp [equal, pos]
    | false =>
      have : idx' < size := hj.inside rfl
      simp only [equal, pos, if_true, Bool.false_eq_true, if_false, false_iff]
      omega
  | false => cases at_end' with
    | true =>
      have : idx < size := hi.inside rfl
      simp only [equal, pos, if_true, Bool.false_eq_true, if_false, Bool.not_true, Bool.false_and, false_iff]
      omega
    | false => simp [equal, pos]

theorem dereference_spec (h : s.Holds vals) (hin : it.at_end = false) :
    (it.dereference s).1.Holds vals ∧ (it.dereference s).2 = valueAt vals (it.pos vals.length) := by
  unfold dereference valueAt pos
  rw [hin, if_neg Bool.false_ne_true]
  split_ifs
  · exact ⟨h, rfl⟩
  · exact LazySequence.index_spec h _

/-- **When `i + (j - i) == j`**: not across an `end()` that has the index of `begin()`. -/
theorem add_sub_iff (h : s.Holds vals) (hi : i.Placed vals.length) (hj : j.Placed vals.length) :
    (i.add s (j.sub i)).equal j = true ↔
      (j.Sentinel vals.length → i.Sentinel vals.length) ∧ (i.Sentinel vals.length → j.at_end = true) := by
  obtain ⟨-, hplaced, hpos⟩ := advance_spec h hi (j.sub i)
  rw [add, equal_iff hplaced hj, hpos]
  obtain ⟨idx, at_end⟩ := i
  obtain ⟨idx', at_end'⟩ := j
  simp only [sub, distanceTo, pos, Sentinel]
  cases at_end with
  | true =>
    have hi := hi.past rfl
    cases at_end' with
    | true =>
      have hj := hj.past rfl
      simp only at hi hj
      simp only [if_true, true_and, and_true, implies_true]
      omega
    | false =>
      have hj := hj.inside rfl
      simp only at hi hj
      simp only [if_true, Bool.false_eq_true, if_false, true_and, false_and, false_implies, imp_false, not_not]
      omega
  | false =>
    cases at_end' with
    | true =>
      have hj := hj.past rfl
      simp only at hi hj
      simp only [if_true, Bool.false_eq_true, if_false, true_and, false_and, imp_false, not_not, false_implies, and_true]
      omega
    | false =>
      have hj := hj.inside rfl
      simp only at hi hj
      simp only [Bool.false_eq_true, if_false, false_and, false_implies, and_true, iff_true]
      omega

end Iter

namespace LazyUse

variable {vals : List α}

/-- The uses so far, at the positions they would be at in the list of the values. -/
structure Refines (vals : List α) (s : LazyUse α) (ps : List Int) : Prop where
  holds : s.seq.Holds vals
  placed : ∀ it ∈ s.iters, it.Placed vals.length
  positions : s.iters.map (Iter.pos vals.length) = ps

theorem Refines.getElem? {s : LazyUse α} {ps : List Int} (h : Refines vals s ps) (k : Nat) :
    ps[k]? = (s.iters[k]?).map (Iter.pos vals.length) := by
  rw [← h.positions, getElem?_map]

theorem refines_step {s : LazyUse α} {ps : List Int} (h : Refines vals s ps) (a : LazyAct) :
    Refines vals (s.step a) (stepPositions vals.length ps a) := by
  have hnew : ∀ b, Refines vals ⟨(s.seq.make 0 b).1, s.iters ++ [(s.seq.make 0 b).2]⟩
      (ps ++ [if b then (vals.length : Int) else 0]) := by
    intro b
    obtain ⟨hholds, hplaced, hpos⟩ := Iter.make_spec h.holds b
    refine ⟨hholds, fun it hit => ?_, ?_⟩
    · rcases mem_append.mp hit with hit | hit
      · exact h.placed it hit
      · rw [mem_singleton.mp hit]
        exact hplaced
    · rw [map_append, h.positions, map_singleton, hpos]
  cases a with
  | index n => exact ⟨(LazySequence.index_spec h.holds n).1, h.placed, h.positions⟩
  | begin => exact hnew false
  | fin => exact hnew true
  | copy k =>
    unfold step stepPositions
    dsimp only
    rw [h.getElem? k]
    cases hk : s.iters[k]? with
    | none => exact h
    | some it =>
      have hmem : it ∈ s.iters := mem_of_getElem? hk
      refine ⟨h.holds, fun it' hit' => ?_, ?_⟩
      · rcases mem_append.mp hit' with hit' | hit'
        · exact h.placed it' hit'
        · rw [mem_singleton.mp hit']
          exact h.placed it hmem
      · rw [map_append, h.positions]
        rfl
  | advance k n =>
    unfold step stepPositions
    dsimp only
    rw [h.getElem? k]
    cases hk : s.iters[k]? with
    | none => exact h
    | some it =>
      obtain ⟨hholds, hplaced, hpos⟩ := Iter.advance_spec h.holds (h.placed it (mem_of_getElem? hk)) n
      refine ⟨hholds, fun it' hit' => ?_, ?_⟩
      · rcases mem_or_eq_of_mem_set hit' with hit' | rfl
        · exact h.placed it' hit'
        · exact hplaced
      · rw [map_set, h.positions, hpos]
        rfl

/-- Whatever the uses, the iterators are where they would be in the list. -/
theorem refines_run (vals : List α) (acts : List LazyAct) :
    Refines vals (acts.foldl step (start vals)) (acts.foldl (stepPositions vals.length) []) := by
  have hrun : ∀ (acts : List LazyAct) (s : LazyUse α) (ps : List Int), Refines vals s ps →
      Refines vals (acts.foldl step s) (acts.foldl (stepPositions vals.length) ps) := by
    intro acts
    induction acts with
    | nil => exact fun _ _ h => h
    | cons a acts ih => exact fun s ps h => ih _ _ (refines_step h a)
  exact hrun acts (start vals) [] ⟨nil_append vals, fun it hit => absurd hit not_mem_nil, rfl⟩

end LazyUse

/-- **A lazy sequence is the list of its generator's values**, for any interleaving of its uses: every position yields its
value, iterators are equal where their positions are, and equal to `end()` past the last value only.  Random access agrees
exactly where neither iterator is an `end()` that still has the index of `begin()`; or both are at the end, and the second
is such an `end()` only if the first is. -/
theorem lazySequence_refines_iff (vals : List α) (acts : List LazyAct) :
    let s := acts.foldl LazyUse.step (LazyUse.start vals)
    s.iters.map (Iter.pos vals.length) = acts.foldl (stepPositions vals.length) [] ∧
    (∀ n, (s.seq.index n).2 = vals[n]?) ∧
    (∀ i ∈ s.iters, (i.at_end = false → (i.dereference s.seq).2 = valueAt vals (i.pos vals.length)) ∧
      (i.equal s.seq.fin.2 = true ↔ i.pos vals.length = vals.length)) ∧
    ∀ i ∈ s.iters, ∀ j ∈ s.iters, (i.equal j = true ↔ i.pos vals.length = j.pos vals.length) ∧
      ((i.add s.seq (j.sub i)).equal j = true ↔
        (j.Sentinel vals.length → i.Sentinel vals.length) ∧ (i.Sentinel vals.length → j.at_end = true)) := by
  obtain ⟨hholds, hplaced, hpos⟩ := LazyUse.refines_run vals acts
  refine ⟨hpos, fun n => (LazySequence.index_spec hholds n).2, fun i hi => ⟨fun hin => ?_, ?_⟩, fun i hi j hj => ⟨?_, ?_⟩⟩
  · exact (Iter.dereference_spec hholds hin).2
  · obtain ⟨-, hfin, hend⟩ := Iter.make_spec hholds true
    have := Iter.equal_iff (hplaced i hi) hfin
    rwa [hend] at this
  · exact Iter.equal_iff (hplaced i hi) (hplaced j hj)
  · exact Iter.add_sub_iff hholds (hplaced i hi) (hplaced j hj)

theorem lazySequence_refines_iff_seven :
    (((⟨0, false⟩ : Iter).add ⟨[], [7]⟩ (Iter.sub ⟨1, true⟩ ⟨0, false⟩)).equal ⟨1, true⟩ = true) := by
  obtain ⟨-, -, -, h⟩ := lazySequence_refines_iff [7] [.begin, .begin, .advance 1 1]
  exact (h ⟨0, false⟩ (by decide) ⟨1, true⟩ (by decide)).2.mpr (by decide)

/-- `end()` has the index of `begin()`: `begin() + (end() - begin())` is `begin()`. -/
theorem not_lazySequence_add_sub :
    ∃ i ∈ ([.begin, .fin].foldl LazyUse.step (LazyUse.start [7])).iters,
      ∃ j ∈ ([.begin, .fin].foldl LazyUse.step (LazyUse.start [7])).iters,
        (i.add ([.begin, .fin].foldl LazyUse.step (LazyUse.start [7])).seq (j.sub i)).equal j = false ∧
        i.pos 1 = 0 ∧ j.pos 1 = 1 :=
  ⟨⟨0, false⟩, by decide, ⟨0, true⟩, by decide, by decide, rfl, rfl⟩

end Sbmt.Gusc
