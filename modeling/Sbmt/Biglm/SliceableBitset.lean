import Mathlib
/-!
# Bits in slices (`biglm/pagh/sliceable_bitset.hpp`)

A bitset of which up to a whole block can be read and written at once, wherever it starts.

| here | there |
| --- | --- |
| `Block`, `lsbits` | `block_type`, `lsbits` (`types.hpp:16-17`, `sliceable_bitset.hpp:16-18`) |
| `SliceableBitset` | `m_bits`, `m_size` (`:20-45`) |

`block` reads a block; there is one past the last that a slice can end at.  A shift by a whole block, of a block that is
zero then, is zero.
-/

namespace Sbmt.Biglm

open List

def bitsPerBlock : Nat := 64

abbrev Block := BitVec 64

def bitMask (pos : Nat) : Block := 1#64 <<< pos

/-- The lowest `pos` bits. -/
def lsbits (pos : Nat) : Block := if pos = bitsPerBlock then ~~~0#64 else ~~~(~~~0#64 <<< pos)

structure SliceableBitset where
  bits : List Block
  size : Nat
deriving DecidableEq

namespace SliceableBitset

def blockIndex (pos : Nat) : Nat := pos / bitsPerBlock

def bitIndex (pos : Nat) : Nat := pos % bitsPerBlock

def make (numBits : Nat) : SliceableBitset := ⟨replicate (blockIndex numBits + 1) 0, numBits⟩

variable (b : SliceableBitset)

def block (i : Nat) : Block := b.bits.getD i 0

/-- `m_bits[i] = f(m_bits[i])`. -/
def modify (b : SliceableBitset) (i : Nat) (f : Block → Block) : SliceableBitset := { b with bits := b.bits.modify i f }

def getBit (pos : Nat) : Bool := b.block (blockIndex pos) &&& bitMask (bitIndex pos) != 0

def clearSlice (start stop : Nat) : SliceableBitset :=
  if blockIndex start = blockIndex stop then
    b.modify (blockIndex start) (· &&& (lsbits (bitIndex start) ||| ~~~lsbits (bitIndex stop)))
  else
    let b := b.modify (blockIndex start) (· &&& lsbits (bitIndex start))
    let b := (range' (blockIndex start + 1) (blockIndex stop - (blockIndex start + 1))).foldl
      (fun b bi => b.modify bi fun _ => 0) b
    b.modify (blockIndex stop) (· &&& ~~~lsbits (bitIndex stop))

def setSlice (start stop : Nat) (y : Block) : SliceableBitset :=
  let b := b.clearSlice start stop
  if bitIndex start = 0 then b.modify (blockIndex start) (· ||| y)
  else
    let b := b.modify (blockIndex start) (· ||| y <<< bitIndex start)
    if y >>> (bitsPerBlock - bitIndex start) ≠ 0 then
      b.modify (blockIndex start + 1) (· ||| y >>> (bitsPerBlock - bitIndex start))
    else b

def getSlice (start stop : Nat) : Block :=
  if blockIndex start = blockIndex stop then (b.block (blockIndex start) &&& lsbits (bitIndex stop)) >>> bitIndex start
  else
    b.block (blockIndex start) >>> bitIndex start |||
      (b.block (blockIndex start + 1) &&& lsbits (bitIndex stop)) <<< (bitsPerBlock - bitIndex start)

/-! ## Bit by bit -/

/-- The bit at a position. -/
def bit (pos : Nat) : Bool := (b.block (pos / 64)).getLsbD (pos % 64)

/-- There is a block for every position, and for the end. -/
def Allocated : Prop := b.bits.length = b.size / 64 + 1

variable {b : SliceableBitset} {start stop pos : Nat}

theorem getLsbD_lsbits {i : Nat} (hi : i < 64) (hpos : pos ≤ 64) : (lsbits pos).getLsbD i = decide (i < pos) := by
  unfold lsbits bitsPerBlock
  split_ifs with h
  · subst h
    rw [BitVec.getLsbD_not, BitVec.getLsbD_zero, decide_eq_true hi]
    rfl
  · simp only [BitVec.getLsbD_not, BitVec.getLsbD_shiftLeft, hi, decide_true, Bool.true_and]
    by_cases hlt : i < pos
    · simp [hlt]
    · have hin : i - pos < 64 := by omega
      simp [hlt, hin]

section

variable (b : SliceableBitset) {i : Nat}

theorem block_modify (f : Block → Block) (hi : i < b.bits.length) (j : Nat) :
    (b.modify i f).block j = if j = i then f (b.block i) else b.block j := by
  unfold block modify
  rw [getD_eq_getElem?_getD, getD_eq_getElem?_getD, getElem?_modify]
  split_ifs with h h'
  · subst h
    rw [getElem?_eq_getElem hi]
    rfl
  · exact absurd h.symm h'
  · rename_i h'
    exact absurd h'.symm h
  · exact congrArg (Option.getD · 0) (Option.map_id' ..)

theorem length_modify (i : Nat) (f : Block → Block) : (b.modify i f).bits.length = b.bits.length :=
  List.length_modify ..

theorem make_allocated (numBits : Nat) : (make numBits).Allocated := by
  unfold Allocated make
  rw [length_replicate]
  rfl

theorem getLsbD_bitMask (hi : i < 64) : (bitMask pos).getLsbD i = decide (i = pos) := by
  unfold bitMask
  rw [Bool.eq_iff_iff]
  simp [hi]
  omega

theorem getBit_eq (pos : Nat) : b.getBit pos = b.bit pos := by
  have hpos : pos % 64 < 64 := Nat.mod_lt pos (by decide)
  unfold getBit bit blockIndex bitIndex bitsPerBlock
  rw [Bool.eq_iff_iff, bne_iff_ne]
  constructor
  · intro h
    by_contra hbit
    apply h
    apply BitVec.eq_of_getLsbD_eq
    intro i hi
    have hzero : (0 : Block).getLsbD i = false := BitVec.getLsbD_zero
    rw [BitVec.getLsbD_and, getLsbD_bitMask hi, hzero]
    by_cases hip : i = pos % 64
    · rw [hip, Bool.eq_false_of_not_eq_true hbit, Bool.false_and]
    · simp [hip]
  · intro h hzero
    have hbit : (b.block (pos / 64) &&& bitMask (pos % 64)).getLsbD (pos % 64) = false := by
      rw [hzero]
      exact BitVec.getLsbD_zero
    rw [BitVec.getLsbD_and, getLsbD_bitMask hpos, h] at hbit
    simp at hbit

/-! ## One block written -/

theorem bit_modify (f : Block → Block) (hi : i < b.bits.length) (pos : Nat) :
    (b.modify i f).bit pos = if pos / 64 = i then (f (b.block i)).getLsbD (pos % 64) else b.bit pos := by
  rw [bit, block_modify b f hi]
  split_ifs
  · rfl
  · rfl

theorem bit_and (m : Block) (hi : i < b.bits.length) (pos : Nat) :
    (b.modify i (· &&& m)).bit pos = (b.bit pos && (!decide (pos / 64 = i) || m.getLsbD (pos % 64))) := by
  rw [bit_modify b _ hi]
  by_cases h : pos / 64 = i
  · subst h
    simp [bit]
  · simp [h]

theorem bit_or (m : Block) (hi : i < b.bits.length) (pos : Nat) :
    (b.modify i (· ||| m)).bit pos = (b.bit pos || (decide (pos / 64 = i) && m.getLsbD (pos % 64))) := by
  rw [bit_modify b _ hi]
  by_cases h : pos / 64 = i
  · subst h
    simp [bit]
  · simp [h]

end

/-- A block is zeroed, and then the next one. -/
theorem zero_blocks (n : Nat) : ∀ {k : Nat} {b : SliceableBitset}, k + n ≤ b.bits.length →
    ((range' k n).foldl (fun b bi => b.modify bi fun _ => 0) b).bits.length = b.bits.length ∧
    ((range' k n).foldl (fun b bi => b.modify bi fun _ => 0) b).size = b.size ∧
    ∀ pos, ((range' k n).foldl (fun b bi => b.modify bi fun _ => 0) b).bit pos =
      (b.bit pos && !decide (k ≤ pos / 64 ∧ pos / 64 < k + n)) := by
  induction n with
  | zero =>
    intro k b _
    refine ⟨rfl, rfl, fun pos => ?_⟩
    have hnone : ¬(k ≤ pos / 64 ∧ pos / 64 < k + 0) := by omega
    rw [decide_eq_false hnone, Bool.not_false, Bool.and_true]
    rfl
  | succ n ih =>
    intro k b hlen
    rw [range'_succ, foldl_cons]
    obtain ⟨hlength, hsize, hbit⟩ := ih (k := k + 1) (b := b.modify k fun _ => 0) (by rw [length_modify]; omega)
    refine ⟨hlength.trans (length_modify ..), hsize, fun pos => ?_⟩
    rw [hbit, bit_modify b _ (by omega)]
    by_cases hk : pos / 64 = k
    · simp [hk]
    · have hiff : (k + 1 ≤ pos / 64 ∧ pos / 64 < k + 1 + n) ↔ (k ≤ pos / 64 ∧ pos / 64 < k + (n + 1)) := by omega
      simp only [hk, if_false, hiff]

/-! ## Slices -/

section

variable (hle : start ≤ stop)
include hle

/-- **`clear_slice` clears the slice and nothing else.** -/
theorem clearSlice_spec (hstop : stop / 64 < b.bits.length) :
    (b.clearSlice start stop).bits.length = b.bits.length ∧ (b.clearSlice start stop).size = b.size ∧
    ∀ pos, (b.clearSlice start stop).bit pos = (b.bit pos && !decide (start ≤ pos ∧ pos < stop)) := by
  have hmod : ∀ n, n % 64 < 64 := fun n => Nat.mod_lt n (by decide)
  unfold clearSlice blockIndex bitIndex bitsPerBlock
  by_cases hsame : start / 64 = stop / 64
  · rw [if_pos hsame]
    refine ⟨length_modify .., rfl, fun pos => ?_⟩
    rw [bit_and b _ (by omega)]
    rw [BitVec.getLsbD_or, BitVec.getLsbD_not, getLsbD_lsbits (hmod pos) (hmod start).le,
      getLsbD_lsbits (hmod pos) (hmod stop).le, Bool.eq_iff_iff]
    simp
    omega
  · rw [if_neg hsame]
    obtain ⟨hlength, hsize, hbit⟩ := zero_blocks (stop / 64 - (start / 64 + 1)) (k := start / 64 + 1)
      (b := b.modify (start / 64) (· &&& lsbits (start % 64))) (by rw [length_modify]; omega)
    refine ⟨(length_modify ..).trans (hlength.trans (length_modify ..)), hsize, fun pos => ?_⟩
    rw [bit_and _ _ (by rw [hlength, length_modify]; exact hstop), hbit, bit_and b _ (by omega), Bool.and_assoc,
      Bool.and_assoc]
    rw [BitVec.getLsbD_not, getLsbD_lsbits (hmod pos) (hmod start).le, getLsbD_lsbits (hmod pos) (hmod stop).le,
      Bool.eq_iff_iff]
    simp
    omega

variable (hwidth : stop - start ≤ 64)
include hwidth

/-- **`set_slice` writes a number that fits to the slice, and nothing else.** -/
theorem setSlice_spec {y : Block} (hstop : stop / 64 < b.bits.length)
    (hy : ∀ i, stop - start ≤ i → y.getLsbD i = false) :
    (b.setSlice start stop y).bits.length = b.bits.length ∧ (b.setSlice start stop y).size = b.size ∧
    ∀ pos, (b.setSlice start stop y).bit pos =
      if start ≤ pos ∧ pos < stop then y.getLsbD (pos - start) else b.bit pos := by
  obtain ⟨hlength, hsize, hbit⟩ := clearSlice_spec (b := b) hle hstop
  unfold setSlice blockIndex bitIndex bitsPerBlock
  by_cases h0 : start % 64 = 0
  · rw [if_pos h0]
    refine ⟨(length_modify ..).trans hlength, hsize, fun pos => ?_⟩
    rw [bit_or _ _ (by omega), hbit]
    by_cases hin : start ≤ pos ∧ pos < stop
    · by_cases hblock : pos / 64 = start / 64
      · have hpos : pos % 64 = pos - start := by omega
        simp [hin, hblock, hpos]
      · omega
    · by_cases hblock : pos / 64 = start / 64
      · have hout : y.getLsbD (pos % 64) = false := hy _ (by omega)
        simp [hin, hout]
      · simp [hin, hblock]
  · rw [if_neg h0]
    -- What a block takes of the number, and what goes over to the next one.
    have hlow : ∀ pos, ((b.clearSlice start stop).modify (start / 64) (· ||| y <<< (start % 64))).bit pos =
        ((b.bit pos && !decide (start ≤ pos ∧ pos < stop)) ||
          (decide (pos / 64 = start / 64) && (y <<< (start % 64)).getLsbD (pos % 64))) := by
      intro pos
      rw [bit_or _ _ (by omega), hbit]
    have hmod : ∀ n, n % 64 < 64 := fun n => Nat.mod_lt n (by decide)
    have hwhole : ∀ pos, ((b.bit pos && !decide (start ≤ pos ∧ pos < stop)) ||
          (decide (pos / 64 = start / 64) && (y <<< (start % 64)).getLsbD (pos % 64)) ||
          (decide (pos / 64 = start / 64 + 1) && (y >>> (64 - start % 64)).getLsbD (pos % 64))) =
        if start ≤ pos ∧ pos < stop then y.getLsbD (pos - start) else b.bit pos := by
      intro pos
      rw [BitVec.getLsbD_shiftLeft]
      have hm := hmod pos
      by_cases hin : start ≤ pos ∧ pos < stop
      · by_cases hblock : pos / 64 = start / 64
        · have hoff : pos % 64 - start % 64 = pos - start := by omega
          have hnot : ¬pos % 64 < start % 64 := by omega
          simp [hin, hblock, hoff, hnot, hm]
        · have hnext : pos / 64 = start / 64 + 1 := by omega
          have hoff : 64 - start % 64 + pos % 64 = pos - start := by omega
          simp [hin, hnext, hoff]
      · have hcur : pos / 64 = start / 64 → start % 64 ≤ pos % 64 → y.getLsbD (pos % 64 - start % 64) = false :=
          fun _ _ => hy _ (by omega)
        have hnext : pos / 64 = start / 64 + 1 → y.getLsbD (64 - start % 64 + pos % 64) = false :=
          fun _ => hy _ (by omega)
        by_cases hblock : pos / 64 = start / 64
        · by_cases hlt : pos % 64 < start % 64
          · simp [hin, hblock, hlt]
          · simp [hin, hblock, hcur hblock (by omega)]
        · by_cases hblock' : pos / 64 = start / 64 + 1
          · simp [hin, hblock', hnext hblock']
          · simp [hin, hblock, hblock']
    by_cases hcarry : y >>> (64 - start % 64) ≠ 0
    · rw [if_pos hcarry]
      have hnext : start / 64 + 1 ≤ stop / 64 := by
        by_contra hover
        apply hcarry
        apply BitVec.eq_of_getLsbD_eq
        intro i _
        rw [BitVec.getLsbD_ushiftRight]
        exact (hy _ (by omega)).trans BitVec.getLsbD_zero.symm
      refine ⟨(length_modify ..).trans ((length_modify ..).trans hlength), hsize, fun pos => ?_⟩
      rw [bit_or _ _ (by rw [length_modify]; omega), hlow, hwhole]
    · rw [if_neg hcarry]
      refine ⟨(length_modify ..).trans hlength, hsize, fun pos => ?_⟩
      rw [hlow, ← hwhole pos, not_not.mp hcarry]
      simp

/-- **`get_slice` reads the slice.** -/
theorem getLsbD_getSlice (k : Nat) :
    (b.getSlice start stop).getLsbD k = (decide (k < stop - start) && b.bit (start + k)) := by
  have hmod : ∀ n, n % 64 < 64 := fun n => Nat.mod_lt n (by decide)
  unfold getSlice blockIndex bitIndex bitsPerBlock
  by_cases hsame : start / 64 = stop / 64
  · rw [if_pos hsame, BitVec.getLsbD_ushiftRight, BitVec.getLsbD_and]
    by_cases hk : k < stop - start
    · have hblock : (start + k) / 64 = start / 64 := by omega
      have hpos : (start + k) % 64 = start % 64 + k := by omega
      rw [getLsbD_lsbits (by omega) (hmod stop).le, bit, hblock, hpos, decide_eq_true hk, Bool.true_and,
        decide_eq_true (by omega), Bool.and_true]
    · rw [decide_eq_false hk, Bool.false_and]
      by_cases hi : start % 64 + k < 64
      · rw [getLsbD_lsbits hi (hmod stop).le, decide_eq_false (by omega), Bool.and_false]
      · rw [BitVec.getLsbD_of_ge _ _ (by omega), Bool.false_and]
  · rw [if_neg hsame, BitVec.getLsbD_or, BitVec.getLsbD_ushiftRight, BitVec.getLsbD_shiftLeft, BitVec.getLsbD_and]
    by_cases hk : start % 64 + k < 64
    · have hblock : (start + k) / 64 = start / 64 := by omega
      have hpos : (start + k) % 64 = start % 64 + k := by omega
      have hlt : k < stop - start := by omega
      have hshift : k < 64 - start % 64 := by omega
      rw [bit, hblock, hpos, decide_eq_true hlt, decide_eq_true hshift]
      simp
    · by_cases hk64 : k < 64
      · have hpos : (start + k) % 64 = k - (64 - start % 64) := by omega
        rw [BitVec.getLsbD_of_ge (b.block (start / 64)) _ (by omega), getLsbD_lsbits (by omega) (hmod stop).le, bit,
          show (start + k) / 64 = start / 64 + 1 by omega, hpos]
        have hshift : ¬k < 64 - start % 64 := by omega
        have hiff : k - (64 - start % 64) < stop % 64 ↔ k < stop - start := by omega
        simp [hk64, hshift, hiff, Bool.and_comm]
      · rw [BitVec.getLsbD_of_ge (b.block (start / 64)) _ (by omega), decide_eq_false hk64,
          decide_eq_false (show ¬k < stop - start by omega)]
        simp

/-- What a slice reads depends on its bits only. -/
theorem getSlice_eq {y : Block}
    (hy : ∀ i, stop - start ≤ i → y.getLsbD i = false) (hbit : ∀ k, k < stop - start → b.bit (start + k) = y.getLsbD k) :
    b.getSlice start stop = y := by
  apply BitVec.eq_of_getLsbD_eq
  intro k _
  rw [getLsbD_getSlice hle hwidth]
  by_cases hk : k < stop - start
  · rw [decide_eq_true hk, Bool.true_and, hbit k hk]
  · rw [decide_eq_false hk, Bool.false_and, hy k (by omega)]

end

/-- **`get_slice` gives back what `set_slice` wrote, which changes no bit outside the slice.** -/
theorem getSlice_setSlice (b : SliceableBitset) (start stop : Nat) (y : Block) (halloc : b.Allocated) (hlt : start < stop)
    (hstop : stop ≤ b.size) (hwidth : stop - start ≤ bitsPerBlock) (hy : y.toNat < 2 ^ (stop - start)) :
    (b.setSlice start stop y).getSlice start stop = y ∧
    ∀ pos, ¬(start ≤ pos ∧ pos < stop) → (b.setSlice start stop y).getBit pos = b.getBit pos := by
  have hlength : b.bits.length = b.size / 64 + 1 := halloc
  have hhigh : ∀ i, stop - start ≤ i → y.getLsbD i = false := fun i hi =>
    Nat.testBit_lt_two_pow (hy.trans_le (Nat.pow_le_pow_right (by decide) hi))
  obtain ⟨-, -, hbit⟩ := setSlice_spec hlt.le hwidth (b := b) (by omega) hhigh
  constructor
  · refine getSlice_eq hlt.le hwidth hhigh fun k hk => ?_
    rw [hbit, if_pos (by omega), Nat.add_sub_cancel_left]
  · intro pos hpos
    rw [getBit_eq, getBit_eq, hbit, if_neg hpos]

theorem getSlice_setSlice_across : ((make 128).setSlice 60 70 0b1011011101).getSlice 60 70 = 0b1011011101 ∧
    ∀ pos, ¬(60 ≤ pos ∧ pos < 70) → ((make 128).setSlice 60 70 0b1011011101).getBit pos = (make 128).getBit pos :=
  getSlice_setSlice (make 128) 60 70 0b1011011101 rfl (by decide) (by decide) (by decide) (by decide)

end SliceableBitset

/-! ## Slices written one after the other -/

/-- One `set_slice`. -/
structure Write where
  start : Nat
  stop : Nat
  value : Block

namespace Write

/-- The number fits its slice, and the slice a block. -/
structure Fits (w : Write) : Prop where
  le : w.start ≤ w.stop
  width : w.stop - w.start ≤ 64
  lt : w.value.toNat < 2 ^ (w.stop - w.start)

/-- The bit ranges have nothing in common. -/
def Apart (w w' : Write) : Prop := w.stop ≤ w'.start ∨ w'.stop ≤ w.start

theorem Fits.high {w : Write} (h : w.Fits) {i : Nat} (hi : w.stop - w.start ≤ i) : w.value.getLsbD i = false :=
  Nat.testBit_lt_two_pow (h.lt.trans_le (Nat.pow_le_pow_right (by decide) hi))

end Write

namespace SliceableBitset

def setSlices (b : SliceableBitset) (ws : List Write) : SliceableBitset :=
  ws.foldl (fun b w => b.setSlice w.start w.stop w.value) b

/-- Outside of the slices nothing changes. -/
theorem setSlices_frame (ws : List Write) :
    ∀ b : SliceableBitset, (∀ w ∈ ws, w.Fits ∧ w.stop / 64 < b.bits.length) →
      (b.setSlices ws).bits.length = b.bits.length ∧
      ∀ pos, (∀ w ∈ ws, ¬(w.start ≤ pos ∧ pos < w.stop)) → (b.setSlices ws).bit pos = b.bit pos := by
  induction ws with
  | nil => exact fun b _ => ⟨rfl, fun _ _ => rfl⟩
  | cons w ws ih =>
    intro b hws
    obtain ⟨hfits, hstop⟩ := hws w mem_cons_self
    obtain ⟨hlength, -, hbit⟩ := setSlice_spec hfits.le hfits.width hstop fun i => hfits.high
    obtain ⟨hlength', hbit'⟩ := ih (b.setSlice w.start w.stop w.value) fun w' hw' =>
      ⟨(hws w' (mem_cons_of_mem _ hw')).1, hlength ▸ (hws w' (mem_cons_of_mem _ hw')).2⟩
    refine ⟨hlength'.trans hlength, fun pos hpos => ?_⟩
    exact (hbit' pos fun w' hw' => hpos w' (mem_cons_of_mem _ hw')).trans
      ((hbit pos).trans (if_neg (hpos w mem_cons_self)))

/-- **Of slices apart, each reads what was written to it.** -/
theorem getSlice_setSlices {ws : List Write} (hapart : ws.Pairwise Write.Apart) :
    ∀ {b : SliceableBitset}, (∀ w ∈ ws, w.Fits ∧ w.stop / 64 < b.bits.length) →
      ∀ w ∈ ws, (b.setSlices ws).getSlice w.start w.stop = w.value := by
  induction hapart with
  | nil => exact fun _ w hw => absurd hw not_mem_nil
  | @cons v vs hv _ ih =>
    intro b hws w hw
    obtain ⟨hfits, hstop⟩ := hws v mem_cons_self
    obtain ⟨hlength, -, hbit⟩ := setSlice_spec hfits.le hfits.width hstop fun i => hfits.high
    have hrest : ∀ w' ∈ vs, w'.Fits ∧ w'.stop / 64 < (b.setSlice v.start v.stop v.value).bits.length := fun w' hw' =>
      ⟨(hws w' (mem_cons_of_mem _ hw')).1, hlength ▸ (hws w' (mem_cons_of_mem _ hw')).2⟩
    rcases mem_cons.mp hw with rfl | hw
    · refine getSlice_eq hfits.le hfits.width (fun i => hfits.high) fun k hk => ?_
      have hlater := (setSlices_frame vs _ hrest).2 (w.start + k) fun w' hw' => by
        have := hv w' hw'
        unfold Write.Apart at this
        omega
      refine hlater.trans ((hbit _).trans ?_)
      rw [if_pos (by omega), Nat.add_sub_cancel_left]
    · exact ih hrest w hw

end SliceableBitset

end Sbmt.Biglm
