import Sbmt.Lib.SortedMap
/-!
# Sparse vectors

`src/gusc/gusc/math/sparse_vector.hpp`.  A vector keeps the coordinates that were set, in a `std::map`, and reads a zero
for the others.  The binary operations go over the coordinates in one of two ways: look up each coordinate of the one
vector in the other, or walk both in the order of the keys.  Numbers are those of a commutative ring: no rounding.

| here | there |
|------|-------|
| `get` | `operator[]` on a constant vector `:518-523`, `get_d` `:279-285` |
| `sparseLookupOpReduce`, `sparsePairwiseOpReduce`, `sparseOpReduce` | `:58-138` |
| `sparseLookupOp`, `sparsePairwiseOp`, `sparseOpInplace`, `sparseOpCopy` | `:140-249` |
| `mul`, `add`, `sub`, `dot` | `:684-693`, `:707-714`, `:739-746`, `:795-799` |

The operands are two vectors; an operand that is also the result (`v += v`) is not modelled, and neither are the debug
build's comparisons of the two ways.
-/

namespace Sbmt.Gusc

open Lib List

section
variable {K F : Type} [LinearOrder K] [CommRing F]

abbrev SparseVector (K F : Type) [LinearOrder K] := SortedMap K F

namespace SparseVector

def get (v : SparseVector K F) (k : K) : F := (v.find k).getD 0

theorem get_of_not_mem {v : SparseVector K F} {k : K} (h : k ∉ v.keys) : v.get k = 0 := by
  rw [get, SortedMap.find_eq_none_iff.mpr h]
  rfl

theorem get_of_mem {v : SparseVector K F} {e : K × F} (h : e ∈ v.entries) : v.get e.1 = e.2 := by
  rw [get, SortedMap.find_eq_some_iff.mpr h]
  rfl

/-! ## Folding the products -/

variable (v1 v2 : SparseVector K F) (op reduce : F → F → F)

def sparseLookupOpReduce : F :=
  v2.entries.foldl (fun ret p => reduce ret (op (v1.get p.1) p.2)) 0

/-- The walk over both: step past the smaller key, meet at equal ones. -/
def pairwiseReduceLoop (op reduce : F → F → F) : F → List (K × F) → List (K × F) → F
  | res, (k1, x1) :: i1, (k2, x2) :: i2 =>
    if k1 < k2 then pairwiseReduceLoop op reduce res i1 ((k2, x2) :: i2)
    else if k2 < k1 then pairwiseReduceLoop op reduce res ((k1, x1) :: i1) i2
    else pairwiseReduceLoop op reduce (reduce res (op x1 x2)) i1 i2
  | res, _, _ => res
termination_by _ i1 i2 => i1.length + i2.length

def sparsePairwiseOpReduce : F :=
  pairwiseReduceLoop op reduce 0 v1.entries v2.entries

/-- The choice once the first vector is not the smaller one. -/
def sparseOpReduceOrdered : F :=
  if v1.size > 2 * v2.size then sparseLookupOpReduce v1 v2 op reduce else sparsePairwiseOpReduce v1 v2 op reduce

/-- With the first vector the smaller one, the two change places and so do the arguments of `op`. -/
def sparseOpReduce : F :=
  if v1.size < v2.size then sparseOpReduceOrdered v2 v1 (fun x y => op y x) reduce
  else sparseOpReduceOrdered v1 v2 op reduce

def dot (v w : SparseVector K F) : F := sparseOpReduce w v (· * ·) (· + ·)

/-! ## The walk over both folds what the lookups fold -/

section
variable {op : F → F → F}

/-- A coordinate of the first list alone is never met, and one of the second alone adds nothing. -/
theorem pairwiseReduceLoop_eq (hl : ∀ y, op 0 y = 0) (res : F) (i1 i2 : List (K × F))
    (h1 : i1.Pairwise fun a b => a.1 < b.1) (h2 : i2.Pairwise fun a b => a.1 < b.1) :
    pairwiseReduceLoop op (· + ·) res i1 i2 =
      i2.foldl (fun ret p => ret + op ((Lib.find p.1 i1).getD 0) p.2) res := by
  fun_induction pairwiseReduceLoop op (· + ·) res i1 i2 with
  | case1 res k1 x1 i1 k2 x2 i2 hlt ih =>
    obtain ⟨_, h1⟩ := pairwise_cons.mp h1
    rw [ih h1 h2]
    refine foldl_ext _ _ _ fun ret p hp => ?_
    have hlt' : k1 < p.1 := by
      rcases mem_cons.mp hp with rfl | hp
      · exact hlt
      · exact hlt.trans ((pairwise_cons.mp h2).1 p hp)
    rw [Lib.find, if_neg hlt'.ne]
  | case2 res k1 x1 i1 k2 x2 i2 hlt hgt ih =>
    have habsent : Lib.find k2 ((k1, x1) :: i1) = none := by
      refine find_eq_none fun e he heq => ?_
      rcases mem_cons.mp he with rfl | he
      · exact hgt.ne heq.symm
      · exact (hgt.trans ((pairwise_cons.mp h1).1 e he)).ne heq.symm
    rw [ih h1 (pairwise_cons.mp h2).2, foldl_cons, habsent, Option.getD_none, hl, add_zero]
  | case3 res k1 x1 i1 k2 x2 i2 hlt hgt ih =>
    obtain rfl : k1 = k2 := le_antisymm (not_lt.mp hgt) (not_lt.mp hlt)
    obtain ⟨_, h1⟩ := pairwise_cons.mp h1
    obtain ⟨hbehind, h2⟩ := pairwise_cons.mp h2
    rw [ih h1 h2, foldl_cons, Lib.find, if_pos rfl]
    refine foldl_ext _ _ _ fun ret p hp => ?_
    rw [Lib.find, if_neg (hbehind p hp).ne]
  | case4 res i1 i2 hcases =>
    cases i2 with
    | nil => rfl
    | cons p2 i2 =>
      cases i1 with
      | nil => exact (foldl_fixed' (fun p => by simp only [Lib.find, Option.getD_none, hl, add_zero]) _).symm
      | cons p1 i1 => exact absurd rfl (hcases p1.1 p1.2 i1 p2.1 p2.2 i2 rfl)

theorem sparsePairwiseOpReduce_eq (hl : ∀ y, op 0 y = 0) (v1 v2 : SparseVector K F) :
    sparsePairwiseOpReduce v1 v2 op (· + ·) = sparseLookupOpReduce v1 v2 op (· + ·) :=
  pairwiseReduceLoop_eq hl 0 v1.entries v2.entries v1.sorted v2.sorted

/-- The coordinates that only the first vector has add nothing. -/
theorem sparseLookupOpReduce_eq (hr : ∀ x, op x 0 = 0) (v1 v2 : SparseVector K F) :
    sparseLookupOpReduce v1 v2 op (· + ·) =
      ∑ k ∈ v1.keys.toFinset ∪ v2.keys.toFinset, op (v1.get k) (v2.get k) := by
  have hsum : ∀ (l : List (K × F)) (res : F), l.foldl (fun ret p => ret + op (v1.get p.1) p.2) res =
      res + (l.map fun p => op (v1.get p.1) p.2).sum := by
    intro l
    induction l with
    | nil => simp
    | cons p l ih =>
      intro res
      rw [foldl_cons, ih, map_cons, sum_cons, add_assoc]
  have hvalues : v2.entries.map (fun p => op (v1.get p.1) p.2) = v2.keys.map fun k => op (v1.get k) (v2.get k) := by
    rw [SortedMap.keys, map_map]
    refine map_congr_left fun e he => ?_
    show op (v1.get e.1) e.2 = op (v1.get e.1) (v2.get e.1)
    rw [get_of_mem he]
  rw [sparseLookupOpReduce, hsum, zero_add, hvalues, ← sum_toFinset _ v2.nodup_keys]
  refine Finset.sum_subset Finset.subset_union_right fun k _ hk => ?_
  rw [mem_toFinset] at hk
  rw [get_of_not_mem hk, hr]

/-- Whichever way is chosen, it folds one number for every coordinate of either vector. -/
theorem sparseOpReduce_eq (hl : ∀ y, op 0 y = 0) (hr : ∀ x, op x 0 = 0) (v1 v2 : SparseVector K F) :
    sparseOpReduce v1 v2 op (· + ·) =
      ∑ k ∈ v1.keys.toFinset ∪ v2.keys.toFinset, op (v1.get k) (v2.get k) := by
  unfold sparseOpReduce sparseOpReduceOrdered
  split_ifs
  · rw [sparseLookupOpReduce_eq hl, Finset.union_comm]
  · rw [sparsePairwiseOpReduce_eq hr, sparseLookupOpReduce_eq hl, Finset.union_comm]
  · rw [sparseLookupOpReduce_eq hr]
  · rw [sparsePairwiseOpReduce_eq hl, sparseLookupOpReduce_eq hr]

end

/-! ## Changing a vector in place -/

variable [DecidableEq F]

/-- A zero is not kept. -/
def set (v : SparseVector K F) (k : K) (s : F) : SparseVector K F := if s = 0 then v.erase k else v.insert k s

variable (v1 v2 : SparseVector K F) (op : F → F → F)

def sparseLookupOp : SparseVector K F :=
  v2.entries.foldl (fun v1 p => v1.set p.1 (op (v1.get p.1) p.2)) v1

/-- Both vectors have a coordinate left.  A place of `v1` is its key, and the place moves on before the coordinate it left
is changed, since the change may take the coordinate out.  A coordinate of `v2` alone goes in behind the place. -/
def pairwiseLoop (op : F → F → F) : Nat → SparseVector K F → Option K → List (K × F) →
    SparseVector K F × Option K × List (K × F)
  | fuel + 1, v1, some i1, (k2, x2) :: i2 =>
    if i1 < k2 then pairwiseLoop op fuel (v1.set i1 (op (v1.get i1) 0)) (v1.next i1) ((k2, x2) :: i2)
    else if k2 < i1 then pairwiseLoop op fuel (v1.set k2 (op 0 x2)) (some i1) i2
    else pairwiseLoop op fuel (v1.set i1 (op (v1.get i1) x2)) (v1.next i1) i2
  | _, v1, i1, i2 => (v1, i1, i2)

/-- Only the first vector has coordinates left. -/
def leftLoop (op : F → F → F) : Nat → SparseVector K F → Option K → SparseVector K F
  | fuel + 1, v1, some i1 => leftLoop op fuel (v1.set i1 (op (v1.get i1) 0)) (v1.next i1)
  | _, v1, _ => v1

/-- Only the second one has. -/
def rightLoop (v1 : SparseVector K F) (i2 : List (K × F)) : SparseVector K F :=
  i2.foldl (fun v1 p => v1.set p.1 (op 0 p.2)) v1

def sparsePairwiseOp : SparseVector K F :=
  let (w, i1, i2) := pairwiseLoop op (v1.size + v2.size) v1 v1.first v2.entries
  rightLoop op (leftLoop op v1.size w i1) i2

def sparseOpInplace (w v : SparseVector K F) (op : F → F → F) (forcePairwise : Bool) : SparseVector K F :=
  if 2 * v.size < w.size ∧ ¬forcePairwise then sparseLookupOp w v op else sparsePairwiseOp w v op

def sparseOpCopy (forcePairwise : Bool) : SparseVector K F :=
  sparseOpInplace v1 v2 op forcePairwise

def mul : SparseVector K F := sparseOpCopy v1 v2 (· * ·) true

def add : SparseVector K F := sparseOpCopy v1 v2 (· + ·) false

def sub : SparseVector K F := sparseOpCopy v1 v2 (· - ·) false

/-! ## One coordinate -/

/-- What is kept of a number. -/
def kept (s : F) : Option F := if s = 0 then none else some s

theorem getD_kept (s : F) : (kept s).getD 0 = s := by
  unfold kept
  split_ifs with h
  · exact h.symm
  · rfl

theorem find_set (v : SparseVector K F) (k k' : K) (s : F) :
    (v.set k s).find k' = if k' = k then kept s else v.find k' := by
  unfold set kept
  split_ifs with hs h h
  · rw [SortedMap.find_erase, if_pos h]
  · rw [SortedMap.find_erase, if_neg h]
  · rw [SortedMap.find_insert, if_pos h]
  · rw [SortedMap.find_insert, if_neg h]

section
variable {op : F → F → F} {v u w : SparseVector K F} {l l' : List K} {k : K} {s : F}

/-- `w` is `v` with the coordinates in `l` written, each from its values in `v` and `u`. -/
def Written (op : F → F → F) (v u : SparseVector K F) (l : List K) (w : SparseVector K F) : Prop :=
  ∀ k, w.find k = if k ∈ l then kept (op (v.get k) (u.get k)) else v.find k

theorem Written.get_of_not_mem (h : Written op v u l w) (hk : k ∉ l) : w.get k = v.get k := by
  rw [get, h k, if_neg hk]
  rfl

theorem Written.set (h : Written op v u l w) (hl : ∀ j, j ∈ l' ↔ j = k ∨ j ∈ l) (hs : s = op (v.get k) (u.get k)) :
    Written op v u l' (w.set k s) := by
  intro j
  rw [find_set, h j]
  by_cases hj : j = k
  · subst hj
    rw [if_pos rfl, if_pos ((hl j).mpr (.inl rfl)), hs]
  · rw [if_neg hj]
    by_cases hmem : j ∈ l
    · rw [if_pos hmem, if_pos ((hl j).mpr (.inr hmem))]
    · rw [if_neg hmem, if_neg fun h' => ((hl j).mp h').elim hj hmem]

/-- The lookups write the coordinates of the second vector. -/
theorem sparseLookupOp_written (v u : SparseVector K F) : Written op v u u.keys (sparseLookupOp v u op) := by
  have hloop : ∀ (todo done : List (K × F)) (w : SparseVector K F), u.entries = done ++ todo →
      Written op v u (done.map Prod.fst) w →
      Written op v u u.keys (todo.foldl (fun v1 p => v1.set p.1 (op (v1.get p.1) p.2)) w) := by
    intro todo
    induction todo with
    | nil =>
      intro done w hu h
      rw [append_nil] at hu
      rw [SortedMap.keys, hu]
      exact h
    | cons p todo ih =>
      intro done w hu h
      have hnew : p.1 ∉ done.map Prod.fst := by
        have hnodup := u.nodup_keys
        rw [SortedMap.keys, hu, map_append] at hnodup
        intro hmem
        exact disjoint_of_nodup_append hnodup hmem mem_cons_self
      have hp : p ∈ u.entries := by
        rw [hu]
        exact mem_append_right _ mem_cons_self
      refine ih (done ++ [p]) _ (by simpa using hu) (h.set (fun j => by simp [or_comm]) ?_)
      rw [h.get_of_not_mem hnew, SparseVector.get_of_mem hp]
  exact hloop u.entries [] v rfl fun k => by simp

/-! ## The walk in place -/

/-- Where the walk stands: each vector is split into what it walked over and what is left, what it walked over of either
lies before what is left of the other, and `w` is written so far. -/
structure Walk (op : F → F → F) (v u : SparseVector K F) (done1 left1 done2 left2 : List (K × F)) (w : SparseVector K F) :
    Prop where
  split1 : v.entries = done1 ++ left1
  split2 : u.entries = done2 ++ left2
  before1 : ∀ a ∈ done1, ∀ b ∈ left2, a.1 < b.1
  before2 : ∀ b ∈ done2, ∀ a ∈ left1, b.1 < a.1
  written : Written op v u (done1.map Prod.fst ++ done2.map Prod.fst) w

variable {done1 left1 done2 left2 : List (K × F)} {a b : K × F}

omit [DecidableEq F] in
/-- A key before everything that is left of a vector, or behind everything it walked over, is not one of its keys. -/
theorem get_of_between {m : SparseVector K F} (h : m.entries = done1 ++ left1) (hdone : ∀ a ∈ done1, a.1 < k)
    (hleft : ∀ a ∈ left1, k < a.1) : m.get k = 0 := by
  refine SparseVector.get_of_not_mem fun hk => ?_
  obtain ⟨e, he, rfl⟩ := mem_map.mp hk
  rw [h] at he
  rcases mem_append.mp he with he | he
  · exact lt_irrefl _ (hdone e he)
  · exact lt_irrefl _ (hleft e he)

section

variable (h : Walk op v u done1 (a :: left1) done2 left2 w)
include h

/-- What the walk left behind lies before the place in the first vector. -/
theorem Walk.lt_place : ∀ k ∈ done1.map Prod.fst ++ done2.map Prod.fst, k < a.1 := by
  intro k hk
  rcases mem_append.mp hk with hk | hk
  · obtain ⟨e, he, rfl⟩ := mem_map.mp hk
    exact SortedMap.lt_of_split h.split1 e he a mem_cons_self
  · obtain ⟨e, he, rfl⟩ := mem_map.mp hk
    exact h.before2 e he a mem_cons_self

/-- The coordinate at the place still has its old value. -/
theorem Walk.get_place : w.get a.1 = v.get a.1 :=
  h.written.get_of_not_mem fun hmem => lt_irrefl _ (h.lt_place _ hmem)

/-- The place moves to the next coordinate that the vector had from the start. -/
theorem Walk.next_place : w.next a.1 = left1.head?.map Prod.fst := by
  have hsame : ∀ i, a.1 < i → w.find i = v.find i := by
    intro i hi
    rw [h.written i, if_neg fun hmem => lt_asymm hi (h.lt_place _ hmem)]
  rw [SortedMap.next_congr hsame]
  exact SortedMap.next_of_split h.split1

/-- A coordinate of the first vector alone. -/
theorem Walk.stepLeft (ha : ∀ b ∈ left2, a.1 < b.1) :
    Walk op v u (done1 ++ [a]) left1 done2 left2 (w.set a.1 (op (w.get a.1) 0)) where
  split1 := by simpa using h.split1
  split2 := h.split2
  before1 := by
    intro e he
    rcases mem_append.mp he with he | he
    · exact h.before1 e he
    · cases mem_singleton.mp he
      exact ha
  before2 := fun b hb e he => h.before2 b hb e (mem_cons_of_mem _ he)
  written := by
    have habsent : u.get a.1 = 0 := get_of_between h.split2 (fun e he => h.before2 e he a mem_cons_self) ha
    refine h.written.set (fun j => ?_) ?_
    · simp only [map_append, map_cons, map_nil, mem_append, mem_singleton]
      tauto
    · rw [h.get_place, habsent]

end

/-- A coordinate of the second vector alone. -/
theorem Walk.stepRight (h : Walk op v u done1 left1 done2 (b :: left2) w) (hb : ∀ a ∈ left1, b.1 < a.1) :
    Walk op v u done1 left1 (done2 ++ [b]) left2 (w.set b.1 (op 0 b.2)) where
  split1 := h.split1
  split2 := by simpa using h.split2
  before1 := fun a ha e he => h.before1 a ha e (mem_cons_of_mem _ he)
  before2 := by
    intro e he
    rcases mem_append.mp he with he | he
    · exact h.before2 e he
    · cases mem_singleton.mp he
      exact hb
  written := by
    have habsent : v.get b.1 = 0 := get_of_between h.split1 (fun e he => h.before1 e he b mem_cons_self) hb
    have hvalue : u.get b.1 = b.2 := SparseVector.get_of_mem (by rw [h.split2]; simp)
    refine h.written.set (fun j => ?_) ?_
    · simp only [map_append, map_cons, map_nil, mem_append, mem_singleton]
      tauto
    · rw [habsent, hvalue]

/-- A coordinate of both. -/
theorem Walk.stepBoth (h : Walk op v u done1 (a :: left1) done2 (b :: left2) w) (hab : a.1 = b.1) :
    Walk op v u (done1 ++ [a]) left1 (done2 ++ [b]) left2 (w.set a.1 (op (w.get a.1) b.2)) where
  split1 := by simpa using h.split1
  split2 := by simpa using h.split2
  before1 := by
    intro e he b' hb'
    rcases mem_append.mp he with he | he
    · exact h.before1 e he b' (mem_cons_of_mem _ hb')
    · cases mem_singleton.mp he
      rw [hab]
      exact SortedMap.head_lt_of_split h.split2 b' hb'
  before2 := by
    intro e he a' ha'
    rcases mem_append.mp he with he | he
    · exact h.before2 e he a' (mem_cons_of_mem _ ha')
    · cases mem_singleton.mp he
      rw [← hab]
      exact SortedMap.head_lt_of_split h.split1 a' ha'
  written := by
    have hvalue : u.get a.1 = b.2 := by
      rw [hab]
      exact SparseVector.get_of_mem (by rw [h.split2]; simp)
    refine h.written.set (fun j => ?_) ?_
    · simp only [map_append, map_cons, map_nil, mem_append, mem_singleton, ← hab]
      tauto
    · rw [h.get_place, hvalue]

theorem pairwiseLoop_walk (fuel : Nat) (h : Walk op v u done1 left1 done2 left2 w)
    (hfuel : left1.length + left2.length ≤ fuel) : ∃ done1' left1' done2' left2',
      Walk op v u done1' left1' done2' left2' (pairwiseLoop op fuel w (left1.head?.map Prod.fst) left2).1 ∧
      (pairwiseLoop op fuel w (left1.head?.map Prod.fst) left2).2 = (left1'.head?.map Prod.fst, left2') ∧
      (left1' = [] ∨ left2' = []) := by
  induction fuel generalizing done1 left1 done2 left2 w with
  | zero =>
    have hleft1 : left1 = [] := eq_nil_of_length_eq_zero (by omega)
    exact ⟨done1, left1, done2, left2, h, rfl, .inl hleft1⟩
  | succ fuel ih =>
    rcases left1 with _ | ⟨a, left1⟩
    · exact ⟨done1, [], done2, left2, h, rfl, .inl rfl⟩
    rcases left2 with _ | ⟨b, left2⟩
    · exact ⟨done1, a :: left1, done2, [], h, rfl, .inr rfl⟩
    rw [length_cons, length_cons] at hfuel
    rw [head?_cons, Option.map_some, pairwiseLoop]
    rcases lt_trichotomy a.1 b.1 with hlt | heq | hgt
    · rw [if_pos hlt, h.next_place]
      refine ih (h.stepLeft fun e he => ?_) (by rw [length_cons]; omega)
      rcases mem_cons.mp he with rfl | he
      · exact hlt
      · exact hlt.trans (SortedMap.head_lt_of_split h.split2 e he)
    · rw [if_neg heq.not_lt, if_neg heq.not_gt, h.next_place]
      exact ih (h.stepBoth heq) (by omega)
    · rw [if_neg hgt.not_gt, if_pos hgt]
      refine ih (h.stepRight fun e he => ?_) (by rw [length_cons]; omega)
      rcases mem_cons.mp he with rfl | he
      · exact hgt
      · exact hgt.trans (SortedMap.head_lt_of_split h.split1 e he)

theorem leftLoop_none (fuel : Nat) (w : SparseVector K F) : leftLoop op fuel w none = w := by
  cases fuel with
  | zero => rfl
  | succ fuel => rfl

theorem leftLoop_walk (fuel : Nat) (h : Walk op v u done1 left1 done2 [] w) (hfuel : left1.length ≤ fuel) :
    Walk op v u v.entries [] done2 [] (leftLoop op fuel w (left1.head?.map Prod.fst)) := by
  induction left1 generalizing done1 w fuel with
  | nil =>
    obtain rfl : done1 = v.entries := by rw [h.split1, append_nil]
    rw [head?_nil, Option.map_none, leftLoop_none]
    exact h
  | cons a left1 ih =>
    obtain ⟨fuel, rfl⟩ : ∃ n, fuel = n + 1 := ⟨fuel - 1, by rw [length_cons] at hfuel; omega⟩
    rw [head?_cons, Option.map_some, leftLoop, h.next_place]
    exact ih fuel (h.stepLeft fun e he => absurd he not_mem_nil) (Nat.le_of_succ_le_succ hfuel)

theorem rightLoop_walk (h : Walk op v u done1 [] done2 left2 w) :
    Walk op v u done1 [] u.entries [] (rightLoop op w left2) := by
  induction left2 generalizing done2 w with
  | nil =>
    obtain rfl : done2 = u.entries := by rw [h.split2, append_nil]
    exact h
  | cons b left2 ih => exact ih (h.stepRight fun e he => absurd he not_mem_nil)

/-- The walk writes the coordinates of both. -/
theorem sparsePairwiseOp_written (v u : SparseVector K F) : Written op v u (v.keys ++ u.keys) (sparsePairwiseOp v u op) := by
  have hstart : Walk op v u [] v.entries [] u.entries v :=
    ⟨rfl, rfl, fun a ha => absurd ha not_mem_nil, fun b hb => absurd hb not_mem_nil, fun k => by simp⟩
  obtain ⟨done1, left1, done2, left2, hwalk, hplaces, hend⟩ := pairwiseLoop_walk (v.size + u.size) hstart le_rfl
  have hresult : sparsePairwiseOp v u op = rightLoop op (leftLoop op v.size
      (pairwiseLoop op (v.size + u.size) v (v.entries.head?.map Prod.fst) u.entries).1 (left1.head?.map Prod.fst)) left2 := by
    unfold sparsePairwiseOp SortedMap.first
    dsimp only
    rw [congrArg Prod.fst hplaces, congrArg Prod.snd hplaces]
  have hdone : Walk op v u v.entries [] u.entries [] (sparsePairwiseOp v u op) := by
    rw [hresult]
    rcases hend with rfl | rfl
    · obtain rfl : done1 = v.entries := by rw [hwalk.split1, append_nil]
      rw [head?_nil, Option.map_none, leftLoop_none]
      exact rightLoop_walk hwalk
    · obtain rfl : done2 = u.entries := by rw [hwalk.split2, append_nil]
      refine leftLoop_walk v.size hwalk ?_
      rw [SortedMap.size, hwalk.split1, length_append]
      omega
  exact hdone.written

/-! ## The operators -/

/-- No zero is kept. -/
def NoZeros (v : SparseVector K F) : Prop := ∀ k, v.find k ≠ some 0

theorem kept_ne_zero (s : F) : kept s ≠ some 0 := by
  unfold kept
  split_ifs with h
  · exact nofun
  · exact fun h' => h (Option.some.inj h')

omit [DecidableEq F] in
theorem noZeros_empty : NoZeros (SortedMap.empty : SparseVector K F) := fun _ => nofun

theorem NoZeros.set (hv : NoZeros v) (k : K) (s : F) : NoZeros (v.set k s) := by
  intro j
  rw [find_set]
  split_ifs
  · exact kept_ne_zero s
  · exact hv j

/-- Without zeros a vector is its coordinates. -/
theorem NoZeros.ext (hv : NoZeros v) (hw : NoZeros w) (h : ∀ k, v.get k = w.get k) : v = w := by
  have hfind : ∀ {u : SparseVector K F}, NoZeros u → ∀ k, u.find k = kept (u.get k) := by
    intro u hu k
    rcases hk : u.find k with _ | s
    · simp [get, hk, kept]
    · have hs : s ≠ 0 := fun hs => hu k (hs ▸ hk)
      simp [get, hk, kept, hs]
  exact SortedMap.ext_find fun k => by rw [hfind hv, hfind hw, h]

theorem Written.noZeros (h : Written op v u l w) (hv : NoZeros v) : NoZeros w := by
  intro k
  rw [h k]
  split_ifs
  · exact kept_ne_zero _
  · exact hv k

/-- Where the operation leaves a coordinate that only the first vector has, it need not be written. -/
theorem Written.get_eq (h : Written op v u l w) (hk : k ∉ l → v.get k = op (v.get k) (u.get k)) :
    w.get k = op (v.get k) (u.get k) := by
  by_cases hmem : k ∈ l
  · rw [get, h k, if_pos hmem, getD_kept]
  · rw [h.get_of_not_mem hmem]
    exact hk hmem

theorem sparseLookupOp_get (hr : ∀ x, op x 0 = x) (v u : SparseVector K F) (k : K) :
    (sparseLookupOp v u op).get k = op (v.get k) (u.get k) :=
  (sparseLookupOp_written v u).get_eq fun hk => by rw [SparseVector.get_of_not_mem hk, hr]

theorem sparsePairwiseOp_get (h0 : op 0 0 = 0) (v u : SparseVector K F) (k : K) :
    (sparsePairwiseOp v u op).get k = op (v.get k) (u.get k) :=
  (sparsePairwiseOp_written v u).get_eq fun hk => by
    rw [mem_append, not_or] at hk
    rw [SparseVector.get_of_not_mem hk.1, SparseVector.get_of_not_mem hk.2, h0]

/-- Either way may be taken where a missing coordinate leaves the other as it is. -/
theorem sparseOpInplace_get (hr : ∀ x, op x 0 = x) (force : Bool) (v u : SparseVector K F) (k : K) :
    (sparseOpInplace v u op force).get k = op (v.get k) (u.get k) := by
  unfold sparseOpInplace
  split_ifs
  · exact sparseLookupOp_get hr v u k
  · exact sparsePairwiseOp_get (hr 0) v u k

theorem sparseOpInplace_noZeros (force : Bool) (u : SparseVector K F) (hv : NoZeros v) :
    NoZeros (sparseOpInplace v u op force) := by
  unfold sparseOpInplace
  split_ifs
  · exact (sparseLookupOp_written v u).noZeros hv
  · exact (sparsePairwiseOp_written v u).noZeros hv

/-- The two ways leave the same vector where no zero was kept: a kept zero that the lookups leave is taken out by the walk. -/
theorem lookup_eq_pairwise (hr : ∀ x, op x 0 = x) (hv : NoZeros v) (u : SparseVector K F) :
    sparseLookupOp v u op = sparsePairwiseOp v u op :=
  NoZeros.ext ((sparseLookupOp_written v u).noZeros hv) ((sparsePairwiseOp_written v u).noZeros hv) fun k => by
    rw [sparseLookupOp_get hr, sparsePairwiseOp_get (hr 0)]

theorem mul_eq_pairwise (v w : SparseVector K F) : mul v w = sparsePairwiseOp v w (· * ·) := if_neg fun h => h.2 rfl

end

/-- The dot product is the sum of the products, over the coordinates that either vector keeps, whichever of the four ways
its sizes choose.  Sum, difference and product are those of the coordinates; the sum and the difference are the same by
lookups as by the walk, as vectors too where no zero is kept, and the product is always made by the walk.  No operation
makes a zero that is kept. -/
theorem sparse_vector_ops (v w : SparseVector K F) :
    let sum := ∑ k ∈ v.keys.toFinset ∪ w.keys.toFinset, v.get k * w.get k
    (dot v w = sum ∧
      sparseLookupOpReduce w v (· * ·) (· + ·) = sum ∧ sparsePairwiseOpReduce w v (· * ·) (· + ·) = sum ∧
      sparseLookupOpReduce v w (fun x y => y * x) (· + ·) = sum ∧
      sparsePairwiseOpReduce v w (fun x y => y * x) (· + ·) = sum) ∧
    (∀ k, (add v w).get k = v.get k + w.get k ∧ (sub v w).get k = v.get k - w.get k ∧ (mul v w).get k = v.get k * w.get k) ∧
    (∀ k, (sparseLookupOp v w (· + ·)).get k = (sparsePairwiseOp v w (· + ·)).get k ∧
      (sparseLookupOp v w (· - ·)).get k = (sparsePairwiseOp v w (· - ·)).get k) ∧
    (NoZeros v → sparseLookupOp v w (· + ·) = sparsePairwiseOp v w (· + ·) ∧
      sparseLookupOp v w (· - ·) = sparsePairwiseOp v w (· - ·)) ∧
    mul v w = sparsePairwiseOp v w (· * ·) ∧
    (NoZeros v → NoZeros w → NoZeros (add v w) ∧ NoZeros (sub v w) ∧ NoZeros (mul v w)) := by
  intro sum
  have hsum : (∑ k ∈ w.keys.toFinset ∪ v.keys.toFinset, w.get k * v.get k) = sum := by
    rw [Finset.union_comm]
    exact Finset.sum_congr rfl fun k _ => mul_comm _ _
  have hsum' : (∑ k ∈ v.keys.toFinset ∪ w.keys.toFinset, w.get k * v.get k) = sum :=
    Finset.sum_congr rfl fun k _ => mul_comm _ _
  refine ⟨⟨?_, ?_, ?_, ?_, ?_⟩, fun k => ⟨?_, ?_, ?_⟩, fun k => ⟨?_, ?_⟩,
    fun hv => ⟨lookup_eq_pairwise add_zero hv w, lookup_eq_pairwise sub_zero hv w⟩, mul_eq_pairwise v w,
    fun hv _ => ⟨?_, ?_, ?_⟩⟩
  · exact (sparseOpReduce_eq zero_mul mul_zero w v).trans hsum
  · exact (sparseLookupOpReduce_eq mul_zero w v).trans hsum
  · exact ((sparsePairwiseOpReduce_eq zero_mul w v).trans (sparseLookupOpReduce_eq mul_zero w v)).trans hsum
  · exact (sparseLookupOpReduce_eq zero_mul v w).trans hsum'
  · exact ((sparsePairwiseOpReduce_eq mul_zero v w).trans (sparseLookupOpReduce_eq zero_mul v w)).trans hsum'
  · exact sparseOpInplace_get add_zero false v w k
  · exact sparseOpInplace_get sub_zero false v w k
  · rw [mul_eq_pairwise]
    exact sparsePairwiseOp_get (mul_zero 0) v w k
  · rw [sparseLookupOp_get add_zero, sparsePairwiseOp_get (add_zero 0)]
  · rw [sparseLookupOp_get sub_zero, sparsePairwiseOp_get (sub_zero 0)]
  · exact sparseOpInplace_noZeros false w hv
  · exact sparseOpInplace_noZeros false w hv
  · exact sparseOpInplace_noZeros true w hv

/-- `{1: 2, 3: -1}` and `{1: -2, 4: 7}`: the coordinate 1 of the sum is zero and is not kept. -/
theorem sparse_vector_ops_cancel :
    let v : SparseVector Nat Int := set (set SortedMap.empty 1 2) 3 (-1)
    let w : SparseVector Nat Int := set (set SortedMap.empty 1 (-2)) 4 7
    dot v w = -4 ∧ (sub v w).get 4 = -7 ∧ NoZeros (add v w) ∧ (add v w).keys = [3, 4] := by
  intro v w
  obtain ⟨⟨hdot, _⟩, hops, _, _, _, hzeros⟩ := sparse_vector_ops v w
  refine ⟨hdot.trans (by decide), (hops 4).2.1.trans (by decide), (hzeros ?_ ?_).1, by decide⟩
  · exact (noZeros_empty.set 1 2).set 3 (-1)
  · exact (noZeros_empty.set 1 (-2)).set 4 7

end SparseVector

end

end Sbmt.Gusc
