import Sbmt.Lib.Blocks
import Sbmt.Lib.Fallible
/-!
# Substitution into word alignments (`sbmt_decoder/include/sbmt/grammar/alignment.hpp`)

| here | there |
| --- | --- |
| `Alignment`, `setEmpty`, `add`, `unit` | `alignment`, `set_empty`, `add`, `set_unit` (`:71-88`, `:262-293`) |
| `setLengths`, `substituteInto` | `substitute_into` (`:319-363`) |

Positions and lengths are `unsigned`, and sums of them wrap around (`word`).  `none` is where
`alignment_out_of_range` is thrown, and where the code reads or writes behind the end of a vector.

`graft` says what substituting one alignment is for, with sums that do not wrap around: every target position
that the variable is aligned to gives way to a copy of the other alignment's target positions.
-/

namespace Sbmt.Grammar

open Sbmt.Lib List Function

/-- What is left of a number in an `unsigned`. -/
def word (n : Nat) : Nat := n % 2 ^ 32

abbrev Tars := List Nat

/-- For each source position the target positions it is aligned to. -/
structure Alignment where
  ntar : Nat
  sa : List Tars
deriving DecidableEq

/-- The offsets, and the final sum. -/
def cumulativeOffsets (base : Nat) : List Nat → List Nat × Nat
  | [] => ([], base)
  | delta :: deltas =>
    let rest := cumulativeOffsets (word (base + delta)) deltas
    (base :: rest.1, rest.2)

namespace Alignment

variable (a : Alignment)

def nSrc : Nat := a.sa.length

def isNull : Bool := a.ntar == 0 && a.sa.isEmpty

def setEmpty (nSrc nTar : Nat) : Alignment := ⟨nTar, replicate nSrc []⟩

def add (s t : Nat) : Option Alignment :=
  if s < a.nSrc ∧ t < a.ntar then some { a with sa := a.sa.modify s (· ++ [t]) } else none

/-- When it is substituted for a variable, nothing changes. -/
def unit : Alignment := ⟨1, [[0]]⟩

def setLength (tarOffsets : Tars) (t length : Nat) : Option Tars :=
  if t < tarOffsets.length then some (tarOffsets.set t length) else none

/-- The loop over the substitutions: the lengths of the variables' targets, and what is substituted for each source
position. -/
def setLengths (a : Alignment) : List (Nat × Alignment) → Tars → List (Option Alignment) →
    Option (Tars × List (Option Alignment))
  | [], tarOffsets, srcVars => some (tarOffsets, srcVars)
  | (i, var) :: subs, tarOffsets, srcVars =>
    a.sa[i]?.bind fun s =>
      (s.foldlM (fun tarOffsets t => setLength tarOffsets t var.ntar) tarOffsets).bind fun tarOffsets =>
        setLengths a subs tarOffsets (srcVars.set i (some var))

def appendRemap (s offs : Tars) : Option (List Tars) := (s.mapM fun t => offs[t]?).map fun s => [s]

/-- A copy of the variable's links for each target of the parent's. -/
def appendOffset (parentTars : Tars) (var : Alignment) (offs : Tars) : Option (List Tars) :=
  var.sa.mapM fun s =>
    (parentTars.mapM fun t => offs[t]?.map fun offset => s.map fun x => word (x + offset)).map List.flatten

/-- One source position, with what is substituted for it. -/
def appendSource (offs : Tars) : Tars × Option Alignment → Option (List Tars)
  | (s, some var) => appendOffset s var offs
  | (s, none) => appendRemap s offs

def substituteInto (subs : List (Nat × Alignment)) : Option Alignment :=
  if a.isNull then some ⟨0, []⟩
  else
    (a.setLengths subs (replicate a.ntar 1) (replicate a.nSrc none)).bind fun (lengths, srcVars) =>
      let (offs, total) := cumulativeOffsets 0 lengths
      ((a.sa.zip srcVars).mapM (appendSource offs)).map fun sa => ⟨total, sa.flatten⟩

variable (i : Nat)

/-- One alignment for one variable. -/
def substitute (b : Alignment) : Option Alignment := a.substituteInto [(i, b)]

/-! ## What it is for -/

/-- What source position `i` is aligned to. -/
def tarsOf : Tars := a.sa[i]?.getD []

/-- Links lead to target positions, and these can be counted. -/
structure WellFormed (a : Alignment) : Prop where
  lt : ∀ s ∈ a.sa, ∀ t ∈ s, t < a.ntar
  ntar_lt : a.ntar < 2 ^ 32

/-- What the variable is aligned to, nothing else is. -/
def Exclusive : Prop := ∀ s, s ≠ i → ∀ t ∈ a.tarsOf i, t ∉ a.tarsOf s

/-- The number of target positions a variable is aligned to. -/
def fertility : Nat := (a.tarsOf i).dedup.length

/-- How many target positions come of each, when `n` come of those of the variable. -/
def lengths (i n : Nat) : List Nat := (range a.ntar).map fun t => if t ∈ a.tarsOf i then n else 1

/-- A copy of `b`'s target positions for each that the variable `i` is aligned to. -/
def graft (b : Alignment) : Alignment where
  ntar := (a.lengths i b.ntar).sum
  sa := (a.sa.take i).map (·.map (start (a.lengths i b.ntar))) ++
    (b.sa.map fun s => (a.tarsOf i).flatMap fun t => s.map (start (a.lengths i b.ntar) t + ·)) ++
    (a.sa.drop (i + 1)).map (·.map (start (a.lengths i b.ntar)))

/-- All numbers as far as an `unsigned` has them. -/
def wrap : Alignment := ⟨word a.ntar, a.sa.map (·.map word)⟩

section

variable {a b c : Alignment} {i j n t : Nat} {s : Tars}

theorem word_of_lt {n : Nat} (h : n < 2 ^ 32) : word n = n := Nat.mod_eq_of_lt h

theorem word_word_add (m n : Nat) : word (word m + n) = word (m + n) := Nat.mod_add_mod _ _ _

theorem word_add_word (m n : Nat) : word (m + word n) = word (m + n) := Nat.add_mod_mod _ _ _

theorem mem_tarsOf (hi : i < a.nSrc) : a.tarsOf i ∈ a.sa := by
  rw [tarsOf, getElem?_eq_getElem hi]
  exact getElem_mem hi

theorem tarsOf_eq (hi : i < a.nSrc) : a.sa[i]? = some (a.tarsOf i) := by
  rw [tarsOf, getElem?_eq_getElem hi]
  rfl

theorem WellFormed.tarsOf_lt (h : a.WellFormed) (ht : t ∈ a.tarsOf i) : t < a.ntar := by
  by_cases hi : i < a.nSrc
  · exact h.lt _ (mem_tarsOf hi) t ht
  · rw [tarsOf, getElem?_eq_none (Nat.le_of_not_lt hi)] at ht
    cases ht

@[simp] theorem length_lengths : (a.lengths i n).length = a.ntar := by simp [lengths]

theorem getElem?_lengths (ht : t < a.ntar) : (a.lengths i n)[t]? = some (if t ∈ a.tarsOf i then n else 1) := by
  simp [lengths, getElem?_range ht]

/-- The wrapped offsets. -/
theorem cumulativeOffsets_eq (base : Nat) (deltas : List Nat) :
    cumulativeOffsets (word base) deltas =
      ((range deltas.length).map fun t => word (base + start deltas t), word (base + deltas.sum)) := by
  induction deltas generalizing base with
  | nil => simp [cumulativeOffsets]
  | cons delta deltas ih =>
    unfold cumulativeOffsets
    rw [word_word_add, ih]
    simp only [length_cons, range_succ_eq_map, map_cons, map_map, start_zero, Nat.add_zero,
      sum_cons, Nat.add_assoc, Prod.mk.injEq, List.cons.injEq, true_and, and_true]
    apply map_congr_left
    intro t _
    simp only [comp_apply, start_cons_succ, Nat.succ_eq_add_one]

/-! ## The code grafts -/

theorem foldlM_setLength (n : Nat) : ∀ (s offs : Tars), (∀ t ∈ s, t < offs.length) →
    ∃ offs', s.foldlM (fun offs t => setLength offs t n) offs = some offs' ∧ offs'.length = offs.length ∧
      ∀ t < offs.length, offs'[t]? = if t ∈ s then some n else offs[t]?
  | [], offs, _ => ⟨offs, rfl, rfl, fun t _ => by simp⟩
  | t :: s, offs, h => by
    have ht := h t mem_cons_self
    obtain ⟨offs', hrun, hlen, hget⟩ := foldlM_setLength n s (offs.set t n)
      (fun u hu => by rw [length_set]; exact h u (mem_cons_of_mem t hu))
    rw [length_set] at hlen hget
    refine ⟨offs', ?_, hlen, fun u hu => ?_⟩
    · rw [foldlM_cons, setLength, if_pos ht]
      exact hrun
    · rw [hget u hu]
      by_cases hut : u = t
      · subst hut
        simp [getElem?_set_self ht]
      · simp [hut, getElem?_set_ne (Ne.symm hut)]

theorem setLengths_eq (h : a.WellFormed) (hi : i < a.nSrc) (b : Alignment) :
    a.setLengths [(i, b)] (replicate a.ntar 1) (replicate a.nSrc none) =
      some (a.lengths i b.ntar, (replicate a.nSrc none).set i (some b)) := by
  obtain ⟨offs, hrun, hlen, hget⟩ := foldlM_setLength b.ntar (a.tarsOf i) (replicate a.ntar 1)
    (fun t ht => by rw [length_replicate]; exact h.tarsOf_lt ht)
  rw [length_replicate] at hlen hget
  have hoffs : offs = a.lengths i b.ntar := by
    apply ext_getElem?
    intro t
    by_cases ht : t < a.ntar
    · rw [hget t ht, getElem?_lengths ht, getElem?_replicate]
      split <;> rfl
    · rw [getElem?_eq_none (by omega), getElem?_eq_none (by rw [length_lengths]; omega)]
  rw [setLengths, tarsOf_eq hi, Option.bind_some, hrun, hoffs]
  rfl

theorem zip_replicate {α β : Type} (y : β) : ∀ l : List α, l.zip (replicate l.length y) = l.map (·, y)
  | [] => rfl
  | x :: l => by
    rw [length_cons, replicate_succ, zip_cons_cons, zip_replicate y l]
    rfl

theorem zip_replicate_set {α β : Type} {x : α} (y z : β) : ∀ {l : List α} {i : Nat}, l[i]? = some x →
    l.zip ((replicate l.length y).set i z) = (l.take i).map (·, y) ++ (x, z) :: (l.drop (i + 1)).map (·, y)
  | [], i, h => by simp at h
  | x' :: l, 0, h => by
    cases h
    rw [length_cons, replicate_succ, set_cons_zero, zip_cons_cons, zip_replicate]
    rfl
  | x' :: l, i + 1, h => by
    rw [length_cons, replicate_succ, set_cons_succ, zip_cons_cons,
      zip_replicate_set y z (by simpa using h)]
    rfl

/-- What the offsets are read as. -/
def offsets (lens : List Nat) : Tars := (range lens.length).map fun t => word (start lens t)

theorem getElem?_offsets {lens : List Nat} (ht : t < lens.length) : (offsets lens)[t]? = some (word (start lens t)) := by
  simp [offsets, getElem?_range ht]

theorem appendRemap_eq {lens : List Nat} (h : ∀ t ∈ s, t < lens.length) :
    appendRemap s (offsets lens) = some [s.map fun t => word (start lens t)] := by
  rw [appendRemap, mapM_some fun t ht => getElem?_offsets (h t ht)]
  rfl

theorem appendOffset_eq {lens : List Nat} (h : ∀ t ∈ s, t < lens.length) (b : Alignment) :
    appendOffset s b (offsets lens) = some (b.sa.map fun u => s.flatMap fun t => u.map fun x => word (start lens t + x)) := by
  apply mapM_some
  intro u _
  rw [mapM_some (g := fun t => u.map fun x => word (start lens t + x)) fun t ht => ?_]
  · rfl
  · rw [getElem?_offsets (h t ht), Option.map_some]
    simp only [word_add_word, Nat.add_comm]

/-- **The code grafts**, with numbers as far as they go. -/
theorem substitute_eq_graft (h : a.WellFormed) (hi : i < a.nSrc) (b : Alignment) :
    a.substitute i b = some (a.graft i b).wrap := by
  have hnull : ¬ a.isNull = true := by
    rw [isNull, Bool.and_eq_true, List.isEmpty_iff]
    rintro ⟨-, hnil⟩
    rw [nSrc, hnil] at hi
    exact absurd hi (Nat.not_lt_zero i)
  have hlt : ∀ s ∈ a.sa, ∀ t ∈ s, t < (a.lengths i b.ntar).length := by
    intro s hs t ht
    rw [length_lengths]
    exact h.lt s hs t ht
  have hremap : ∀ sa : List Tars, (∀ s ∈ sa, s ∈ a.sa) →
      (sa.map fun s => (s, (none : Option Alignment))).mapM (appendSource (offsets (a.lengths i b.ntar))) =
        some (sa.map fun s => [s.map fun t => word (start (a.lengths i b.ntar) t)]) := by
    intro sa hsa
    rw [mapM_map]
    exact mapM_some fun s hs => appendRemap_eq (hlt s (hsa s hs))
  have hcumulative : cumulativeOffsets 0 (a.lengths i b.ntar) =
      (offsets (a.lengths i b.ntar), word (a.lengths i b.ntar).sum) := by
    have heq := cumulativeOffsets_eq 0 (a.lengths i b.ntar)
    simp only [Nat.zero_add] at heq
    exact heq
  rw [substitute, substituteInto, if_neg hnull, setLengths_eq h hi, Option.bind_some]
  dsimp only
  rw [hcumulative, nSrc, zip_replicate_set none (some b) (tarsOf_eq hi)]
  rw [mapM_append, mapM_cons, hremap _ fun s hs => mem_of_mem_take hs,
    hremap _ fun s hs => mem_of_mem_drop hs, appendSource, appendOffset_eq (hlt _ (mem_tarsOf hi))]
  have hsingle : ∀ sa : List Tars, (sa.map fun s => [s.map fun t => word (start (a.lengths i b.ntar) t)]).flatten =
      sa.map (·.map (word ∘ start (a.lengths i b.ntar))) := by
    intro sa
    rw [← flatMap_def, ← map_eq_flatMap]
    rfl
  simp only [Option.pure_def, Option.bind_eq_bind, Option.bind_some, Option.map_some, flatten_append, flatten_cons,
    hsingle, graft, wrap, map_append, map_map, append_assoc, map_flatMap, comp_def]

/-! ## Grafting -/

theorem mem_take (h : s ∈ a.sa.take i) : ∃ k, k ≠ i ∧ a.tarsOf k = s := by
  obtain ⟨k, hk, rfl⟩ := mem_take_iff_getElem.mp h
  refine ⟨k, by omega, ?_⟩
  rw [tarsOf, getElem?_eq_getElem (by omega)]
  rfl

theorem mem_drop (h : s ∈ a.sa.drop (i + 1)) : ∃ k, k ≠ i ∧ a.tarsOf k = s := by
  obtain ⟨k, hk, rfl⟩ := mem_drop_iff_getElem.mp h
  refine ⟨i + 1 + k, by omega, ?_⟩
  rw [tarsOf, getElem?_eq_getElem (by omega)]
  rfl

theorem place_graft (hb : b.WellFormed) (ht : t ∈ a.tarsOf i) (hta : t < a.ntar) {x : Nat} (hs : s ∈ b.sa)
    (hx : x ∈ s) : start (a.lengths i b.ntar) t + x < (a.graft i b).ntar := by
  refine place_lt (getElem?_lengths hta) ?_
  rw [if_pos ht]
  exact hb.lt s hs x hx

theorem graft_wellFormed (ha : a.WellFormed) (hb : b.WellFormed) (hai : a.Exclusive i)
    (hfits : (a.graft i b).ntar < 2 ^ 32) : (a.graft i b).WellFormed := by
  refine ⟨fun s hs t ht => ?_, hfits⟩
  have hother : ∀ k, k ≠ i → ∀ u ∈ a.tarsOf k, start (a.lengths i b.ntar) u < (a.graft i b).ntar := by
    intro k hk u hu
    refine place_lt (b := 0) (getElem?_lengths (ha.tarsOf_lt hu)) ?_
    rw [if_neg fun hui => hai k hk u hui hu]
    exact Nat.one_pos
  rw [graft, mem_append, mem_append] at hs
  rcases hs with (hs | hs) | hs
  · obtain ⟨s', hs', rfl⟩ := mem_map.mp hs
    obtain ⟨u, hu, rfl⟩ := mem_map.mp ht
    obtain ⟨k, hk, rfl⟩ := mem_take hs'
    exact hother k hk u hu
  · obtain ⟨s', hs', rfl⟩ := mem_map.mp hs
    obtain ⟨u, hu, hx⟩ := mem_flatMap.mp ht
    obtain ⟨x, hx', rfl⟩ := mem_map.mp hx
    exact place_graft hb hu (ha.tarsOf_lt hu) hs' hx'
  · obtain ⟨s', hs', rfl⟩ := mem_map.mp hs
    obtain ⟨u, hu, rfl⟩ := mem_map.mp ht
    obtain ⟨k, hk, rfl⟩ := mem_drop hs'
    exact hother k hk u hu

/-- The links of one of the substituted alignment's positions. -/
def copies (a : Alignment) (i n : Nat) (s : Tars) : Tars :=
  (a.tarsOf i).flatMap fun t => s.map (start (a.lengths i n) t + ·)

theorem graft_sa (a b : Alignment) (i : Nat) : (a.graft i b).sa =
    (a.sa.take i).map (·.map (start (a.lengths i b.ntar))) ++ b.sa.map (a.copies i b.ntar) ++
      (a.sa.drop (i + 1)).map (·.map (start (a.lengths i b.ntar))) := rfl

theorem nSrc_graft (hi : i < a.nSrc) (b : Alignment) : (a.graft i b).nSrc = a.nSrc - 1 + b.nSrc := by
  rw [nSrc, graft_sa]
  simp only [length_append, length_map, length_take, length_drop, nSrc] at hi ⊢
  omega

section

variable (hi : i < a.nSrc) (hj : j ≤ b.nSrc)
include hi hj

theorem take_graft : (a.graft i b).sa.take (i + j) =
    (a.sa.take i).map (·.map (start (a.lengths i b.ntar))) ++ (b.sa.take j).map (a.copies i b.ntar) := by
  have hleft : ((a.sa.take i).map (·.map (start (a.lengths i b.ntar)))).length = i := by
    rw [length_map, length_take]
    exact Nat.min_eq_left hi.le
  rw [graft_sa, append_assoc, take_append, hleft, Nat.add_sub_cancel_left,
    take_of_length_le (hleft.le.trans (Nat.le_add_right i j)), take_append_of_le_length (by rw [length_map]; exact hj),
    ← map_take]

theorem drop_graft : (a.graft i b).sa.drop (i + j) =
    (b.sa.drop j).map (a.copies i b.ntar) ++ (a.sa.drop (i + 1)).map (·.map (start (a.lengths i b.ntar))) := by
  have hleft : ((a.sa.take i).map (·.map (start (a.lengths i b.ntar)))).length = i := by
    rw [length_map, length_take]
    exact Nat.min_eq_left hi.le
  rw [graft_sa, append_assoc, drop_append, hleft, Nat.add_sub_cancel_left,
    drop_of_length_le (hleft.le.trans (Nat.le_add_right i j)), nil_append,
    drop_append_of_le_length (by rw [length_map]; exact hj), ← map_drop]

end

theorem tarsOf_graft (hi : i < a.nSrc) (hj : j < b.nSrc) :
    (a.graft i b).tarsOf (i + j) = a.copies i b.ntar (b.tarsOf j) := by
  have hget : (a.graft i b).sa[i + j]? = some (a.copies i b.ntar (b.tarsOf j)) := by
    rw [← Nat.add_zero (i + j), ← getElem?_drop, drop_graft hi hj.le, getElem?_append_left (by
      rw [length_map, length_drop]
      exact Nat.sub_pos_of_lt hj), getElem?_map, getElem?_drop, Nat.add_zero, tarsOf_eq hj]
    rfl
  rw [tarsOf, hget]
  rfl

/-! ### Grafting twice -/

/-- The lengths that come of the target positions of a graft, block by block. -/
def pieces (a : Alignment) (i : Nat) (b : Alignment) (j n : Nat) : List (List Nat) :=
  (range a.ntar).map fun t => if t ∈ a.tarsOf i then b.lengths j n else [1]

theorem pieces_length : (a.pieces i b j n).map List.length = a.lengths i b.ntar := by
  rw [pieces, map_map]
  apply map_congr_left
  intro t _
  rw [comp_apply]
  split
  · exact length_lengths
  · rfl

theorem pieces_sum : (a.pieces i b j n).map List.sum = a.lengths i (b.lengths j n).sum := by
  rw [pieces, map_map]
  apply map_congr_left
  intro t _
  rw [comp_apply]
  split
  · rfl
  · rfl

theorem getElem?_pieces (ht : t < a.ntar) :
    (a.pieces i b j n)[t]? = some (if t ∈ a.tarsOf i then b.lengths j n else [1]) := by
  simp [pieces, getElem?_range ht]

theorem mem_copies (ha : a.WellFormed) (hb : b.WellFormed) {x len : Nat} (ht : (a.lengths i b.ntar)[t]? = some len)
    (hx : x < len) : start (a.lengths i b.ntar) t + x ∈ a.copies i b.ntar (b.tarsOf j) ↔ t ∈ a.tarsOf i ∧ x ∈ b.tarsOf j := by
  rw [copies, mem_flatMap]
  constructor
  · rintro ⟨t', ht', hmem⟩
    obtain ⟨x', hx', heq⟩ := mem_map.mp hmem
    have hget := getElem?_lengths (i := i) (n := b.ntar) (ha.tarsOf_lt ht')
    rw [if_pos ht'] at hget
    obtain ⟨rfl, rfl⟩ := place_inj hget (hb.tarsOf_lt hx') ht hx heq
    exact ⟨ht', hx'⟩
  · rintro ⟨ht', hx'⟩
    exact ⟨t, ht', mem_map.mpr ⟨x, hx', rfl⟩⟩

theorem lengths_graft (ha : a.WellFormed) (hb : b.WellFormed) (hi : i < a.nSrc) (hj : j < b.nSrc) (n : Nat) :
    (a.graft i b).lengths (i + j) n = (a.pieces i b j n).flatten := by
  apply eq_flatten
  · rw [length_lengths, pieces_length]
    rfl
  · intro t l x hl hx
    have ht : t < a.ntar := by
      have := (List.getElem?_eq_some_iff.mp hl).1
      rwa [pieces, length_map, length_range] at this
    have hlen : (a.lengths i b.ntar)[t]? = some l.length := by
      rw [← pieces_length (j := j) (n := n), getElem?_map, hl]
      rfl
    rw [pieces_length, getElem?_lengths (place_lt hlen hx), tarsOf_graft hi hj]
    simp only [mem_copies ha hb hlen hx]
    rw [getElem?_pieces ht] at hl
    split at hl
    · rename_i hmem
      cases hl
      rw [length_lengths] at hx
      rw [getElem?_lengths hx]
      simp only [hmem, true_and]
    · rename_i hmem
      cases hl
      have hx0 : x = 0 := by simpa using hx
      subst hx0
      simp [hmem]

section

variable (ha : a.WellFormed) (hb : b.WellFormed) (hi : i < a.nSrc) (hj : j < b.nSrc)
include ha hb hi hj

/-- Where a target position of the second graft begins, block by block. -/
theorem start_graft (ht : t < a.ntar) {x : Nat} (hx : x ≤ (if t ∈ a.tarsOf i then b.lengths j n else [1]).length) :
    start ((a.graft i b).lengths (i + j) n) (start (a.lengths i b.ntar) t + x) =
      start (a.lengths i (b.lengths j n).sum) t + start (if t ∈ a.tarsOf i then b.lengths j n else [1]) x := by
  rw [lengths_graft ha hb hi hj, ← pieces_length (j := j) (n := n), ← pieces_sum]
  exact start_flatten (getElem?_pieces ht) hx

theorem start_graft_zero (ht : t < a.ntar) :
    start ((a.graft i b).lengths (i + j) n) (start (a.lengths i b.ntar) t) = start (a.lengths i (b.lengths j n).sum) t :=
  start_graft ha hb hi hj ht (Nat.zero_le _)

theorem start_graft_mem (ht : t ∈ a.tarsOf i) {x : Nat} (hx : x < b.ntar) :
    start ((a.graft i b).lengths (i + j) n) (start (a.lengths i b.ntar) t + x) =
      start (a.lengths i (b.lengths j n).sum) t + start (b.lengths j n) x := by
  have h := start_graft ha hb hi hj (n := n) (ha.tarsOf_lt ht) (x := x) (by
    rw [if_pos ht, length_lengths]
    exact hx.le)
  rwa [if_pos ht] at h

theorem map_copies (hs : s ∈ b.sa) :
    (a.copies i b.ntar s).map (start ((a.graft i b).lengths (i + j) n)) =
      a.copies i (b.lengths j n).sum (s.map (start (b.lengths j n))) := by
  rw [copies, map_flatMap]
  apply flatMap_congr
  intro t ht
  rw [map_map, map_map]
  apply map_congr_left
  intro x hx
  exact start_graft_mem ha hb hi hj ht (hb.lt s hs x hx)

theorem copies_graft (s : Tars) :
    (a.graft i b).copies (i + j) n s = a.copies i (b.lengths j n).sum (b.copies j n s) := by
  rw [copies, tarsOf_graft hi hj, copies, flatMap_assoc]
  apply flatMap_congr
  intro t ht
  rw [flatMap_map, copies, map_flatMap]
  apply flatMap_congr
  intro x hx
  rw [start_graft_mem ha hb hi hj ht (hb.tarsOf_lt hx), map_map]
  apply map_congr_left
  intro y _
  exact Nat.add_assoc _ _ _

/-- **Grafting is associative.** -/
theorem graft_graft (c : Alignment) : a.graft i (b.graft j c) = (a.graft i b).graft (i + j) c := by
  have hmap : ∀ sa : List Tars, (∀ s ∈ sa, s ∈ a.sa) →
      (sa.map (·.map (start (a.lengths i b.ntar)))).map (·.map (start ((a.graft i b).lengths (i + j) c.ntar))) =
        sa.map (·.map (start (a.lengths i (b.lengths j c.ntar).sum))) := by
    intro sa hsa
    rw [map_map]
    apply map_congr_left
    intro s hs
    rw [comp_apply, map_map]
    apply map_congr_left
    intro t ht
    exact start_graft_zero ha hb hi hj (ha.lt s (hsa s hs) t ht)
  have hcopies : ∀ sa : List Tars, (∀ s ∈ sa, s ∈ b.sa) →
      (sa.map (a.copies i b.ntar)).map (·.map (start ((a.graft i b).lengths (i + j) c.ntar))) =
        (sa.map (·.map (start (b.lengths j c.ntar)))).map (a.copies i (b.lengths j c.ntar).sum) := by
    intro sa hsa
    rw [map_map, map_map]
    apply map_congr_left
    intro s hs
    exact map_copies ha hb hi hj (hsa s hs)
  have hntar : (a.graft i (b.graft j c)).ntar = ((a.graft i b).graft (i + j) c).ntar := by
    show (a.lengths i (b.lengths j c.ntar).sum).sum = ((a.graft i b).lengths (i + j) c.ntar).sum
    rw [lengths_graft ha hb hi hj, sum_flatten, pieces_sum]
  have hsa : (a.graft i (b.graft j c)).sa = ((a.graft i b).graft (i + j) c).sa := by
    rw [graft_sa a, graft_sa b, graft_sa (a.graft i b), take_graft hi hj.le, Nat.add_assoc, drop_graft hi hj]
    simp only [map_append]
    rw [hmap _ fun s hs => mem_of_mem_take hs, hmap _ fun s hs => mem_of_mem_drop hs,
      hcopies _ fun s hs => mem_of_mem_take hs, hcopies _ fun s hs => mem_of_mem_drop hs]
    have hmid : c.sa.map ((a.graft i b).copies (i + j) c.ntar) =
        (c.sa.map (b.copies j c.ntar)).map (a.copies i (b.lengths j c.ntar).sum) := by
      rw [map_map]
      exact map_congr_left fun s _ => copies_graft ha hb hi hj s
    rw [hmid]
    simp only [append_assoc]
    rfl
  calc a.graft i (b.graft j c) = ⟨(a.graft i (b.graft j c)).ntar, (a.graft i (b.graft j c)).sa⟩ := rfl
    _ = (a.graft i b).graft (i + j) c := by rw [hntar, hsa]

end

/-! ### The unit, and the sizes -/

theorem lengths_one : a.lengths i 1 = replicate a.ntar 1 := by
  rw [eq_replicate_iff]
  refine ⟨by simp, fun n hn => ?_⟩
  obtain ⟨t, -, rfl⟩ := mem_map.mp hn
  exact ite_self 1

theorem start_replicate_one (ht : t ≤ n) : start (replicate n 1) t = t := by
  rw [start, take_replicate, Nat.min_eq_left ht]
  simp

section

theorem sum_ite (p : Nat → Prop) [DecidablePred p] (n : Nat) : ∀ l : List Nat,
    (l.map fun t => if p t then n else 1).sum = l.length - (l.filter p).length + (l.filter p).length * n
  | [] => by simp
  | t :: l => by
    have hle : (l.filter p).length ≤ l.length := length_filter_le _ _
    rw [map_cons, sum_cons, sum_ite p n l]
    by_cases ht : p t
    · rw [if_pos ht, filter_cons, if_pos (decide_eq_true ht), length_cons, length_cons, Nat.succ_mul]
      omega
    · rw [if_neg ht, filter_cons, if_neg (by simpa using ht), length_cons]
      omega

variable (ha : a.WellFormed)
include ha

theorem graft_unit (hi : i < a.nSrc) : a.graft i unit = a := by
  have hstart : ∀ t < a.ntar, start (a.lengths i 1) t = t := by
    intro t ht
    rw [lengths_one, start_replicate_one ht.le]
  have hmap : ∀ sa : List Tars, (∀ s ∈ sa, s ∈ a.sa) → sa.map (·.map (start (a.lengths i 1))) = sa := by
    intro sa hsa
    conv_rhs => rw [← map_id sa]
    refine map_congr_left fun s hs => ?_
    conv_rhs => rw [← map_id s]
    exact map_congr_left fun t ht => hstart t (ha.lt s (hsa s hs) t ht)
  have hmid : a.copies i 1 [0] = a.tarsOf i := by
    conv_rhs => rw [← flatMap_singleton' (a.tarsOf i)]
    apply flatMap_congr
    intro t ht
    rw [hstart t (ha.tarsOf_lt ht)]
    rfl
  have hntar : (a.graft i unit).ntar = a.ntar := by
    show (a.lengths i 1).sum = a.ntar
    rw [lengths_one, sum_replicate, smul_eq_mul, Nat.mul_one]
  have hsa : (a.graft i unit).sa = a.sa := by
    have hdrop : a.sa.drop i = a.tarsOf i :: a.sa.drop (i + 1) := by
      rw [drop_eq_getElem_cons hi, tarsOf, getElem?_eq_getElem hi]
      rfl
    show (a.sa.take i).map (·.map (start (a.lengths i 1))) ++ [a.copies i 1 [0]] ++
      (a.sa.drop (i + 1)).map (·.map (start (a.lengths i 1))) = a.sa
    rw [hmap _ fun s hs => mem_of_mem_take hs, hmap _ fun s hs => mem_of_mem_drop hs, hmid, append_assoc,
      singleton_append, ← hdrop, take_append_drop]
  calc a.graft i unit = ⟨(a.graft i unit).ntar, (a.graft i unit).sa⟩ := rfl
    _ = a := by rw [hntar, hsa]

theorem sum_lengths (i n : Nat) : (a.lengths i n).sum = a.ntar - a.fertility i + a.fertility i * n := by
  have hperm : ((range a.ntar).filter (· ∈ a.tarsOf i)).Perm (a.tarsOf i).dedup := by
    rw [perm_ext_iff_of_nodup (nodup_range.filter _) (nodup_dedup _)]
    intro t
    simp only [mem_filter, mem_range, mem_dedup, decide_eq_true_eq]
    exact ⟨fun h => h.2, fun h => ⟨ha.tarsOf_lt h, h⟩⟩
  rw [lengths, sum_ite, length_range, hperm.length_eq]
  rfl

/-! ## Substitution -/

theorem wrap_wellFormed : a.wrap = a := by
  have hsa : a.sa.map (·.map word) = a.sa := by
    conv_rhs => rw [← map_id a.sa]
    refine map_congr_left fun s hs => ?_
    conv_rhs => rw [← map_id s]
    exact map_congr_left fun t ht => word_of_lt ((ha.lt s hs t ht).trans ha.ntar_lt)
  rw [wrap, hsa, word_of_lt ha.ntar_lt]

/-- While target positions can be counted, the code grafts. -/
theorem substitute_eq (hb : b.WellFormed) (hi : i < a.nSrc) (hai : a.Exclusive i)
    (hfits : (a.graft i b).ntar < 2 ^ 32) : a.substitute i b = some (a.graft i b) := by
  rw [substitute_eq_graft ha hi, wrap_wellFormed (graft_wellFormed ha hb hai hfits)]

theorem substitute_unit (hi : i < a.nSrc) : a.substitute i unit = some a := by
  rw [substitute_eq_graft ha hi, graft_unit ha hi, wrap_wellFormed ha]

end

/-- The target positions there are after a substitution. -/
def targets (a : Alignment) (i : Nat) (b : Alignment) : Nat := a.ntar - a.fertility i + a.fertility i * b.ntar

/-- **Substitution acts like a monoid**: the unit changes nothing, source positions are as many as before but one and the
new ones, the target positions that the variable is aligned to each give way to all of the new ones, and it does not matter
which of two substitutions is made first as long as `unsigned` counts what there is between them. -/
theorem substitute_laws (ha : a.WellFormed) (hb : b.WellFormed) (hc : c.WellFormed) (hi : i < a.nSrc) (hj : j < b.nSrc)
    (hai : a.Exclusive i) (hbj : b.Exclusive j) :
    a.substitute i unit = some a ∧
    (∃ r, a.substitute i b = some r ∧ r.nSrc = a.nSrc - 1 + b.nSrc ∧ r.ntar = word (a.targets i b)) ∧
    (a.targets i b < 2 ^ 32 → b.targets j c < 2 ^ 32 →
      ∃ r, (b.substitute j c).bind (a.substitute i) = some r ∧
        ((a.substitute i b).bind fun ab => ab.substitute (i + j) c) = some r) := by
  refine ⟨substitute_unit ha hi, ⟨_, substitute_eq_graft ha hi b, ?_, ?_⟩, fun hab hbc => ?_⟩
  · rw [← nSrc_graft hi b, nSrc, wrap, length_map]
    rfl
  · show word (a.lengths i b.ntar).sum = _
    rw [sum_lengths ha]
    rfl
  · have hgraft : (a.graft i b).ntar < 2 ^ 32 := by
      show (a.lengths i b.ntar).sum < 2 ^ 32
      rwa [sum_lengths ha]
    have hgraft' : (b.graft j c).ntar < 2 ^ 32 := by
      show (b.lengths j c.ntar).sum < 2 ^ 32
      rwa [sum_lengths hb]
    have hij : i + j < (a.graft i b).nSrc := by
      rw [nSrc_graft hi]
      omega
    refine ⟨(a.graft i (b.graft j c)).wrap, ?_, ?_⟩
    · rw [substitute_eq hb hc hj hbj hgraft', Option.bind_some, substitute_eq_graft ha hi]
    · rw [substitute_eq ha hb hi hai hgraft, Option.bind_some,
        substitute_eq_graft (graft_wellFormed ha hb hai hgraft) hij, graft_graft ha hb hi hj]

end

/-- A variable with two target positions takes up room twice; and where the target positions between two substitutions are too
many to count, the second one reads behind the end. -/
theorem not_substitute_laws :
    (¬ ∀ (a b : Alignment) (i : Nat), a.WellFormed → b.WellFormed → i < a.nSrc → a.Exclusive i →
      ∀ r, a.substitute i b = some r → r.ntar = a.ntar - 1 + b.ntar) ∧
    ¬ ∀ (a b c : Alignment) (i j : Nat), a.WellFormed → b.WellFormed → c.WellFormed → i < a.nSrc → j < b.nSrc →
      a.Exclusive i → b.Exclusive j →
      (b.substitute j c).bind (a.substitute i) = (a.substitute i b).bind fun ab => ab.substitute (i + j) c := by
  have hunit : unit.WellFormed := ⟨by decide, by decide⟩
  have hbig : (⟨2 ^ 31, [[0]]⟩ : Alignment).WellFormed := ⟨by simp, by norm_num⟩
  have hone : ∀ n s, Exclusive ⟨n, [s]⟩ 0 := by
    intro n s k hk t _
    cases k with
    | zero => exact absurd rfl hk
    | succ k => exact not_mem_nil
  constructor
  · intro h
    have htwice := h ⟨4, [[3], [1, 2], [0]]⟩ ⟨2, [[0], [1]]⟩ 1 ⟨by decide, by decide⟩ ⟨by decide, by decide⟩ (by decide)
      (by
        intro k hk
        rcases k with _ | _ | _ | k
        · decide
        · exact absurd rfl hk
        · decide
        · exact fun t _ => not_mem_nil)
      ⟨6, [[5], [1, 3], [2, 4], [0]]⟩ (by decide)
    exact absurd htwice (by decide)
  · intro h
    have hassoc := h ⟨2, [[0, 1]]⟩ ⟨2 ^ 31, [[0]]⟩ unit 0 0 ⟨by decide, by decide⟩ hbig hunit (by decide) (by decide)
      (hone _ _) (hone _ _)
    rw [substitute_unit hbig (by decide)] at hassoc
    exact absurd hassoc (by decide)

/-- Three levels, with a variable that is aligned twice. -/
theorem substitute_laws_twoTargets :
    let a : Alignment := ⟨4, [[3], [1, 2], [0]]⟩
    let b : Alignment := ⟨2, [[1], [0]]⟩
    let c : Alignment := ⟨3, [[2], [0, 1]]⟩
    a.substitute 1 unit = some a ∧
      ∃ r, (b.substitute 0 c).bind (a.substitute 1) = some r ∧
        ((a.substitute 1 b).bind fun ab => ab.substitute 1 c) = some r := by
  intro a b c
  have haExcl : a.Exclusive 1 := by
    intro k hk
    rcases k with _ | _ | _ | k
    · decide
    · exact absurd rfl hk
    · decide
    · exact fun t _ => not_mem_nil
  have hbExcl : b.Exclusive 0 := by
    intro k hk
    rcases k with _ | _ | k
    · exact absurd rfl hk
    · decide
    · exact fun t _ => not_mem_nil
  obtain ⟨hunit, -, hassoc⟩ := substitute_laws (a := a) (b := b) (c := c) (i := 1) (j := 0) ⟨by decide, by decide⟩
    ⟨by decide, by decide⟩ ⟨by decide, by decide⟩ (by decide) (by decide) haExcl hbExcl
  exact ⟨hunit, hassoc (by decide) (by decide)⟩

end Alignment

end Sbmt.Grammar
