import Sbmt.Biglm.SliceableBitset
/-!
# Copying slices (`sliceable_bitset::copy_slice`, `biglm/pagh/sliceable_bitset.hpp:113-168`)

| here | there |
| --- | --- |
| `Source` | `src`: another bitset, or `*this` |
| `copyBackward` | "do it the slow way" (`:118-123`) |
| `CopyState`, `copyStep`, `copyLoop` | the local variables, a round of the loop, the loop (`:125-165`) |
| `copySlice` | the function; its last statement writes what is left in `buf` (`:166-167`) |

A round that copies less than a block may leave bits in `buf` above those copied, but then it is the last.  What is
written before a round lies in blocks below the current one, and never where the rounds to come read (`Copied.source`).
-/

namespace Sbmt.Biglm.SliceableBitset

def setBit (b : SliceableBitset) (pos : Nat) (y : Bool) : SliceableBitset :=
  if y then b.modify (blockIndex pos) (· ||| bitMask (bitIndex pos))
  else b.modify (blockIndex pos) (· &&& ~~~bitMask (bitIndex pos))

inductive Source where
  | self
  | other (src : SliceableBitset)
deriving DecidableEq

/-- `src`, when `*this` is `b`. -/
def Source.of (src : Source) (b : SliceableBitset) : SliceableBitset :=
  match src with
  | .self => b
  | .other src => src

/-- `for (long i=remaining-1; i>=0; i--)`, in what is left of it. -/
def copyBackward (start srcstart : Nat) : Nat → SliceableBitset → SliceableBitset
  | 0, b => b
  | i + 1, b => copyBackward start srcstart i (b.setBit (start + i) (b.getBit (srcstart + i)))

structure CopyState where
  dst : SliceableBitset
  block : Nat
  srcblock : Nat
  bit : Nat
  srcbit : Nat
  remaining : Nat
  buf : Block

/-- "the maximum number of bits we can copy at once" -/
def CopyState.len (s : CopyState) : Nat :=
  let len := s.remaining
  let len := if bitsPerBlock - s.bit < len then bitsPerBlock - s.bit else len
  if bitsPerBlock - s.srcbit < len then bitsPerBlock - s.srcbit else len

/-- `if (bit == bits_per_block)` -/
def CopyState.flush (s : CopyState) : CopyState :=
  if s.bit = bitsPerBlock then
    { s with dst := s.dst.modify s.block fun _ => s.buf, buf := 0, bit := 0, block := s.block + 1 }
  else s

/-- `if (srcbit == bits_per_block)` -/
def CopyState.turn (s : CopyState) : CopyState :=
  if s.srcbit = bitsPerBlock then { s with srcbit := 0, srcblock := s.srcblock + 1 } else s

/-- `len` bits go to the buffer.  The ends of the two blocks are looked at when all is counted. -/
def CopyState.part (s : CopyState) (srcBits : SliceableBitset) : CopyState :=
  { s with
    buf := s.buf ||| srcBits.block s.srcblock >>> s.srcbit <<< s.bit
    bit := s.bit + s.len
    srcbit := s.srcbit + s.len
    remaining := s.remaining - s.len }

def copyStep (src : Source) (s : CopyState) : CopyState :=
  let srcBits := src.of s.dst
  if s.bit = 0 ∧ bitsPerBlock ≤ s.remaining then
    let word :=
      if s.srcbit = 0 then srcBits.block s.srcblock
      else srcBits.block s.srcblock >>> s.srcbit ||| srcBits.block (s.srcblock + 1) <<< (bitsPerBlock - s.srcbit)
    { s with dst := s.dst.modify s.block fun _ => word, block := s.block + 1, srcblock := s.srcblock + 1,
             remaining := s.remaining - bitsPerBlock }
  else
    (s.part srcBits).flush.turn

/-- `while (remaining > 0)`; a round copies a bit at least. -/
def copyLoop (src : Source) : Nat → CopyState → CopyState
  | 0, s => s
  | fuel + 1, s => if 0 < s.remaining then copyLoop src fuel (copyStep src s) else s

def copySlice (b : SliceableBitset) (start stop : Nat) (src : Source) (srcstart : Nat) : SliceableBitset :=
  let remaining := stop - start
  if src = .self ∧ srcstart ≤ start ∧ start < srcstart + remaining then copyBackward start srcstart remaining b
  else
    let s := copyLoop src remaining
      ⟨b, blockIndex start, blockIndex srcstart, bitIndex start, bitIndex srcstart, remaining,
        b.block (blockIndex start) &&& lsbits (bitIndex start)⟩
    s.dst.modify s.block fun word => s.buf &&& lsbits s.bit ||| word &&& ~~~lsbits s.bit

/-! ## Single bits -/

variable {b : SliceableBitset} {start stop srcstart pos : Nat} {src : Source}

theorem setBit_spec {y : Bool} (hpos : pos / 64 < b.bits.length) :
    (b.setBit pos y).bits.length = b.bits.length ∧ (b.setBit pos y).size = b.size ∧
    ∀ x, (b.setBit pos y).bit x = if x = pos then y else b.bit x := by
  have hmod : ∀ n, n % 64 < 64 := fun n => Nat.mod_lt n (by decide)
  unfold setBit blockIndex bitIndex bitsPerBlock
  cases y with
  | true =>
    refine ⟨length_modify .., rfl, fun x => ?_⟩
    rw [if_pos rfl, bit_or _ _ hpos, getLsbD_bitMask (hmod x)]
    by_cases hx : x = pos
    · simp [hx]
    · have hne : ¬(x / 64 = pos / 64 ∧ x % 64 = pos % 64) := by omega
      rw [if_neg hx, ← Bool.decide_and, decide_eq_false hne, Bool.or_false]
  | false =>
    refine ⟨length_modify .., rfl, fun x => ?_⟩
    rw [if_neg Bool.false_ne_true, bit_and _ _ hpos, BitVec.getLsbD_not, getLsbD_bitMask (hmod x)]
    by_cases hx : x = pos
    · simp [hx]
    · have hne : ¬(x / 64 = pos / 64 ∧ x % 64 = pos % 64) := by omega
      rw [if_neg hx, decide_eq_true (hmod x), Bool.true_and, ← decide_not, ← decide_not, ← Bool.decide_or,
        decide_eq_true (not_and_or.mp hne), Bool.and_true]

/-- The bits of the range are set from the last down; those still to be read are below. -/
theorem copyBackward_spec (hle : srcstart ≤ start) (n : Nat) : ∀ b : SliceableBitset, (start + n) / 64 < b.bits.length →
    (copyBackward start srcstart n b).bits.length = b.bits.length ∧ (copyBackward start srcstart n b).size = b.size ∧
    ∀ x, (copyBackward start srcstart n b).bit x =
      if start ≤ x ∧ x < start + n then b.bit (srcstart + (x - start)) else b.bit x := by
  induction n with
  | zero =>
    intro b _
    refine ⟨rfl, rfl, fun x => ?_⟩
    rw [if_neg (by omega)]
    rfl
  | succ n ih =>
    intro b hlen
    have hpos : (start + n) / 64 < b.bits.length := by omega
    obtain ⟨hlength, hsize, hset⟩ := setBit_spec (b := b) (y := b.getBit (srcstart + n)) hpos
    obtain ⟨hlength', hsize', hbit⟩ := ih (b.setBit (start + n) (b.getBit (srcstart + n))) (by rw [hlength]; omega)
    refine ⟨hlength'.trans hlength, hsize'.trans hsize, fun x => ?_⟩
    rw [copyBackward, hbit]
    by_cases hx : start ≤ x ∧ x < start + n
    · rw [if_pos hx, if_pos (by omega), hset, if_neg (by omega)]
    · rw [if_neg hx, hset, getBit_eq]
      by_cases hlast : x = start + n
      · rw [if_pos hlast, if_pos (by omega), hlast, Nat.add_sub_cancel_left]
      · rw [if_neg hlast, if_neg (by omega)]

/-! ## The loop forward -/

theorem getLsbD_block (b : SliceableBitset) (k : Nat) {i : Nat} (hi : i < 64) :
    (b.block k).getLsbD i = b.bit (k * 64 + i) := by
  unfold bit
  rw [show (k * 64 + i) / 64 = k by omega, show (k * 64 + i) % 64 = i by omega]

/-- What the bit at `x` is to be: that of the source in the range, and as it was outside. -/
def copied (d src : SliceableBitset) (start srcstart x : Nat) : Bool :=
  if start ≤ x then src.bit (srcstart + (x - start)) else d.bit x

/-- Of `n` bits all but the remaining ones are copied, the last few to the buffer only. -/
structure Copied (d : SliceableBitset) (src : Source) (start srcstart n : Nat) (s : CopyState) : Prop where
  length : s.dst.bits.length = d.bits.length
  size : s.dst.size = d.size
  le : s.remaining ≤ n
  bit_le : s.bit ≤ 64
  srcbit_le : s.srcbit ≤ 64
  dst_pos : s.block * 64 + s.bit = start + (n - s.remaining)
  src_pos : s.srcblock * 64 + s.srcbit = srcstart + (n - s.remaining)
  written : ∀ x, s.dst.bit x = if x / 64 < s.block then copied d (src.of d) start srcstart x else d.bit x
  buf : ∀ i < s.bit, s.buf.getLsbD i = copied d (src.of d) start srcstart (s.block * 64 + i)
  clean : 0 < s.remaining → ∀ i, s.bit ≤ i → s.buf.getLsbD i = false

/-- The range is not one that has to be copied backward. -/
def Forward (src : Source) (start srcstart n : Nat) : Prop := ¬(src = .self ∧ srcstart ≤ start ∧ start < srcstart + n)

variable {d : SliceableBitset} {n : Nat} {s : CopyState}

section

/-- A block of the source from any bit on. -/
theorem getLsbD_word (b : SliceableBitset) (k : Nat) {srcbit i : Nat} (hsrcbit : srcbit < 64) (hi : i < 64) :
    (if srcbit = 0 then b.block k else b.block k >>> srcbit ||| b.block (k + 1) <<< (bitsPerBlock - srcbit)).getLsbD i =
      b.bit (k * 64 + srcbit + i) := by
  unfold bitsPerBlock
  by_cases h0 : srcbit = 0
  · rw [if_pos h0, getLsbD_block b k hi, h0, Nat.add_zero]
  · rw [if_neg h0, BitVec.getLsbD_or, BitVec.getLsbD_ushiftRight, BitVec.getLsbD_shiftLeft]
    by_cases hlow : srcbit + i < 64
    · rw [getLsbD_block b k hlow, Nat.add_assoc, decide_eq_true hi, decide_eq_true (show i < 64 - srcbit by omega)]
      simp
    · rw [BitVec.getLsbD_of_ge _ _ (by omega), decide_eq_true hi, decide_eq_false (show ¬i < 64 - srcbit by omega),
        getLsbD_block b (k + 1) (by omega), show (k + 1) * 64 + (i - (64 - srcbit)) = k * 64 + srcbit + i by omega]
      simp

theorem CopyState.len_spec (s : CopyState) : s.len ≤ s.remaining ∧ s.len ≤ 64 - s.bit ∧ s.len ≤ 64 - s.srcbit ∧
    (s.len = s.remaining ∨ s.len = 64 - s.bit ∨ s.len = 64 - s.srcbit) := by
  unfold CopyState.len bitsPerBlock
  dsimp only
  split_ifs <;> omega

variable (h : Copied d src start srcstart n s)
include h

/-- The bits still to be copied are in the source as they were. -/
theorem Copied.source (hforward : Forward src start srcstart n) {j : Nat}
    (hj : j < s.remaining) : (src.of s.dst).bit (s.srcblock * 64 + s.srcbit + j) = (src.of d).bit (s.srcblock * 64 + s.srcbit + j) := by
  cases src with
  | other src => rfl
  | self =>
    show s.dst.bit _ = d.bit _
    have hdst := h.dst_pos
    have hsrc := h.src_pos
    rw [h.written]
    split
    · next hbelow =>
      have hapart : ¬(srcstart ≤ start ∧ start < srcstart + n) := fun hover => hforward ⟨rfl, hover⟩
      exact if_neg (by omega)
    · rfl

theorem Copied.flush (hlen : s.bit = 64 → s.block < d.bits.length) :
    Copied d src start srcstart n s.flush ∧ s.flush.bit < 64 := by
  unfold CopyState.flush
  by_cases hfull : s.bit = bitsPerBlock
  · have hfull' : s.bit = 64 := hfull
    have hin : s.block < s.dst.bits.length := h.length ▸ hlen hfull'
    rw [if_pos hfull]
    refine ⟨⟨(length_modify ..).trans h.length, h.size, h.le, Nat.zero_le _, h.srcbit_le, ?_, h.src_pos, ?_, ?_, ?_⟩,
      Nat.zero_lt_succ _⟩
    · have hdst := h.dst_pos
      show (s.block + 1) * 64 + 0 = start + (n - s.remaining)
      omega
    · intro x
      show (s.dst.modify s.block fun _ => s.buf).bit x = if x / 64 < s.block + 1 then _ else _
      rw [bit_modify _ _ hin, h.written]
      by_cases hx : x / 64 = s.block
      · have hpos : s.block * 64 + x % 64 = x := by omega
        rw [if_pos hx, if_pos (by omega), h.buf _ (by omega), hpos]
      · by_cases hlt : x / 64 < s.block
        · rw [if_neg hx, if_pos hlt, if_pos (by omega)]
        · rw [if_neg hx, if_neg hlt, if_neg (by omega)]
    · intro i hi
      exact absurd hi (Nat.not_lt_zero i)
    · intro _ i _
      exact BitVec.getLsbD_zero
  · have hle := h.bit_le
    have hne : ¬s.bit = 64 := hfull
    rw [if_neg hfull]
    exact ⟨h, by omega⟩

theorem Copied.turn : Copied d src start srcstart n s.turn ∧ s.turn.srcbit < 64 := by
  unfold CopyState.turn
  by_cases hfull : s.srcbit = bitsPerBlock
  · have hfull' : s.srcbit = 64 := hfull
    have hsrc := h.src_pos
    rw [if_pos hfull]
    refine ⟨⟨h.length, h.size, h.le, h.bit_le, Nat.zero_le _, h.dst_pos, ?_, h.written, h.buf, h.clean⟩,
      Nat.zero_lt_succ _⟩
    show (s.srcblock + 1) * 64 + 0 = srcstart + (n - s.remaining)
    omega
  · have hle := h.srcbit_le
    have hne : ¬s.srcbit = 64 := hfull
    rw [if_neg hfull]
    exact ⟨h, by omega⟩

variable (hforward : Forward src start srcstart n)
include hforward

/-- Each bit of a round goes to its place. -/
theorem Copied.target {j : Nat} (hj : j < s.remaining) : (src.of s.dst).bit (s.srcblock * 64 + s.srcbit + j) =
      copied d (src.of d) start srcstart (s.block * 64 + s.bit + j) := by
  have hdst := h.dst_pos
  have hsrc := h.src_pos
  rw [h.source hforward hj, copied, if_pos (by omega)]
  congr 1
  omega

/-- A whole block is copied. -/
theorem Copied.whole (hsrcbit : s.srcbit < 64)
    (hbit : s.bit = 0) (hmany : 64 ≤ s.remaining) (hin : s.block < d.bits.length) :
    Copied d src start srcstart n
      { s with
        dst := s.dst.modify s.block fun _ =>
          if s.srcbit = 0 then (src.of s.dst).block s.srcblock
          else (src.of s.dst).block s.srcblock >>> s.srcbit |||
            (src.of s.dst).block (s.srcblock + 1) <<< (bitsPerBlock - s.srcbit)
        block := s.block + 1
        srcblock := s.srcblock + 1
        remaining := s.remaining - bitsPerBlock } := by
  have hdst := h.dst_pos
  have hsrc := h.src_pos
  have hle := h.le
  constructor
  · exact (length_modify ..).trans h.length
  · exact h.size
  · exact (Nat.sub_le _ _).trans h.le
  · exact h.bit_le
  · exact h.srcbit_le
  · show (s.block + 1) * 64 + s.bit = start + (n - (s.remaining - 64))
    omega
  · show (s.srcblock + 1) * 64 + s.srcbit = srcstart + (n - (s.remaining - 64))
    omega
  · intro x
    show (s.dst.modify s.block _).bit x = if x / 64 < s.block + 1 then _ else _
    rw [bit_modify _ _ (h.length ▸ hin), h.written]
    by_cases hx : x / 64 = s.block
    · have hpos : s.block * 64 + s.bit + x % 64 = x := by omega
      have hmod : x % 64 < 64 := Nat.mod_lt x (by decide)
      have hcur : x / 64 < s.block + 1 := by omega
      rw [if_pos hx, getLsbD_word _ _ hsrcbit hmod, h.target hforward (by omega), hpos, if_pos hcur]
    · by_cases hlt : x / 64 < s.block
      · rw [if_neg hx, if_pos hlt, if_pos (by omega)]
      · rw [if_neg hx, if_neg hlt, if_neg (by omega)]
  · intro i hi
    exact absurd (hbit ▸ hi : i < 0) (Nat.not_lt_zero i)
  · intro _ i hi
    exact h.clean (by omega) i hi

/-- Bits go to the buffer, above those that are there. -/
theorem Copied.part (hbit : s.bit < 64)
    (hsrcbit : s.srcbit < 64) (hmore : 0 < s.remaining) : Copied d src start srcstart n (s.part (src.of s.dst)) := by
  obtain ⟨hremaining, hroom, hsrcroom, hcause⟩ := s.len_spec
  have hdst := h.dst_pos
  have hsrc := h.src_pos
  have hle := h.le
  have hbuf : ∀ i, (s.part (src.of s.dst)).buf.getLsbD i = (s.buf.getLsbD i || (decide (i < 64) && !decide (i < s.bit) &&
      ((src.of s.dst).block s.srcblock).getLsbD (s.srcbit + (i - s.bit)))) := by
    intro i
    show (s.buf ||| (src.of s.dst).block s.srcblock >>> s.srcbit <<< s.bit).getLsbD i = _
    rw [BitVec.getLsbD_or, BitVec.getLsbD_shiftLeft, BitVec.getLsbD_ushiftRight]
  constructor
  · exact h.length
  · exact h.size
  · exact (Nat.sub_le _ _).trans h.le
  · show s.bit + s.len ≤ 64
    omega
  · show s.srcbit + s.len ≤ 64
    omega
  · show s.block * 64 + (s.bit + s.len) = start + (n - (s.remaining - s.len))
    omega
  · show s.srcblock * 64 + (s.srcbit + s.len) = srcstart + (n - (s.remaining - s.len))
    omega
  · exact h.written
  · intro i hi
    have hi : i < s.bit + s.len := hi
    rw [hbuf]
    by_cases hold : i < s.bit
    · rw [h.buf i hold, decide_eq_true hold]
      simp [CopyState.part]
    · have htarget := h.target hforward (j := i - s.bit) (by omega)
      rw [h.clean hmore i (by omega), decide_eq_true (show i < 64 by omega), decide_eq_false hold,
        getLsbD_block _ _ (by omega), ← Nat.add_assoc, htarget, show s.block * 64 + s.bit + (i - s.bit) = s.block * 64 + i by omega]
      simp [CopyState.part]
  · intro hrest i hi
    have hi : s.bit + s.len ≤ i := hi
    have hrest : 0 < s.remaining - s.len := hrest
    rw [hbuf, h.clean hmore i (by omega)]
    by_cases h64 : i < 64
    · rw [BitVec.getLsbD_of_ge _ _ (by omega), Bool.and_false, Bool.or_false]
    · rw [decide_eq_false h64]
      rfl

end

/-- What a round leaves to be done. -/
structure Turning (d : SliceableBitset) (src : Source) (start srcstart n : Nat) (s : CopyState) : Prop
    extends Copied d src start srcstart n s where
  bit_lt : s.bit < 64
  srcbit_lt : s.srcbit < 64

theorem CopyState.turn_bit (s : CopyState) : s.turn.bit = s.bit ∧ s.turn.remaining = s.remaining := by
  unfold CopyState.turn
  split <;> exact ⟨rfl, rfl⟩

theorem CopyState.flush_remaining (s : CopyState) : s.flush.remaining = s.remaining := by
  unfold CopyState.flush
  split <;> rfl

/-- **A round copies some bits.** -/
theorem Turning.step (h : Turning d src start srcstart n s) (hforward : Forward src start srcstart n)
    (hmore : 0 < s.remaining) (hin : (start + n) / 64 < d.bits.length) :
    Turning d src start srcstart n (copyStep src s) ∧ (copyStep src s).remaining < s.remaining := by
  have hdst := h.dst_pos
  by_cases hwhole : s.bit = 0 ∧ bitsPerBlock ≤ s.remaining
  · have hmany : 64 ≤ s.remaining := hwhole.2
    have hcopied := h.toCopied.whole hforward h.srcbit_lt hwhole.1 hmany (by omega)
    unfold copyStep
    rw [if_pos hwhole]
    refine ⟨⟨hcopied, h.bit_lt, h.srcbit_lt⟩, ?_⟩
    show s.remaining - 64 < s.remaining
    omega
  · obtain ⟨hremaining, hroom, hsrcroom, hcause⟩ := s.len_spec
    have hbit := h.bit_lt
    have hsrcbit := h.srcbit_lt
    have hpart := h.toCopied.part hforward h.bit_lt h.srcbit_lt hmore
    obtain ⟨hflush, hflush_lt⟩ := hpart.flush fun hfull => by
      show s.block < d.bits.length
      omega
    obtain ⟨hturn, hturn_lt⟩ := hflush.turn
    unfold copyStep
    rw [if_neg hwhole]
    refine ⟨⟨hturn, ?_, hturn_lt⟩, ?_⟩
    · rw [(CopyState.turn_bit _).1]
      exact hflush_lt
    · rw [(CopyState.turn_bit _).2, CopyState.flush_remaining]
      show s.remaining - s.len < s.remaining
      omega

theorem copyLoop_spec (hforward : Forward src start srcstart n) (hin : (start + n) / 64 < d.bits.length) (fuel : Nat) :
    ∀ s : CopyState, Turning d src start srcstart n s → s.remaining ≤ fuel →
      Turning d src start srcstart n (copyLoop src fuel s) ∧ (copyLoop src fuel s).remaining = 0 := by
  induction fuel with
  | zero => exact fun s h hfuel => ⟨h, Nat.le_zero.mp hfuel⟩
  | succ fuel ih =>
    intro s h hfuel
    rw [copyLoop]
    split
    · next hmore =>
      obtain ⟨hstep, hlt⟩ := h.step hforward hmore hin
      exact ih _ hstep (by omega)
    · next hdone => exact ⟨h, by omega⟩

theorem getLsbD_and_lsbits (w : Block) {i : Nat} (hi : i < 64) (hpos : pos ≤ 64) :
    (w &&& lsbits pos).getLsbD i = (w.getLsbD i && decide (i < pos)) := by
  rw [BitVec.getLsbD_and, getLsbD_lsbits hi hpos]

/-- At first nothing is copied, and the buffer holds what is below the range in its first block. -/
theorem start_turning (b : SliceableBitset) (src : Source) (start srcstart n : Nat) :
    Turning b src start srcstart n
      ⟨b, blockIndex start, blockIndex srcstart, bitIndex start, bitIndex srcstart, n,
        b.block (blockIndex start) &&& lsbits (bitIndex start)⟩ := by
  have hmod : ∀ m, m % 64 < 64 := fun m => Nat.mod_lt m (by decide)
  unfold blockIndex bitIndex bitsPerBlock
  refine ⟨⟨rfl, rfl, le_rfl, (hmod start).le, (hmod srcstart).le, ?_, ?_, ?_, ?_, ?_⟩, hmod start, hmod srcstart⟩
  · show start / 64 * 64 + start % 64 = start + (n - n)
    omega
  · show srcstart / 64 * 64 + srcstart % 64 = srcstart + (n - n)
    omega
  · intro x
    show b.bit x = if x / 64 < start / 64 then copied b (src.of b) start srcstart x else b.bit x
    split
    · exact (if_neg (by omega)).symm
    · rfl
  · intro i hi
    have hi : i < start % 64 := hi
    show (b.block (start / 64) &&& lsbits (start % 64)).getLsbD i = copied b (src.of b) start srcstart (start / 64 * 64 + i)
    rw [getLsbD_and_lsbits _ (by omega) (hmod start).le, decide_eq_true hi, Bool.and_true, getLsbD_block _ _ (by omega), copied,
      if_neg (by omega)]
  · intro _ i hi
    have hi : start % 64 ≤ i := hi
    by_cases h64 : i < 64
    · rw [getLsbD_and_lsbits _ h64 (hmod start).le, decide_eq_false (by omega), Bool.and_false]
    · exact BitVec.getLsbD_of_ge _ _ (by omega)

/-- What is left in the buffer goes below the end of the range. -/
theorem Turning.finish (h : Turning d src start srcstart n s) (hdone : s.remaining = 0) (hin : (start + n) / 64 < d.bits.length)
    (x : Nat) : (s.dst.modify s.block fun word => s.buf &&& lsbits s.bit ||| word &&& ~~~lsbits s.bit).bit x =
      if start ≤ x ∧ x < start + n then (src.of d).bit (srcstart + (x - start)) else d.bit x := by
  have hdst := h.dst_pos
  have hbit := h.bit_lt
  have hmod : x % 64 < 64 := Nat.mod_lt x (by decide)
  have hcopied : x < start + n → copied d (src.of d) start srcstart x =
      if start ≤ x ∧ x < start + n then (src.of d).bit (srcstart + (x - start)) else d.bit x := by
    intro hx
    unfold copied
    simp only [hx, and_true]
  rw [bit_modify _ _ (by rw [h.length]; omega), h.written]
  by_cases hx : x / 64 = s.block
  · have hpos : s.block * 64 + x % 64 = x := by omega
    rw [if_pos hx, BitVec.getLsbD_or, getLsbD_and_lsbits _ hmod hbit.le, BitVec.getLsbD_and, BitVec.getLsbD_not,
      getLsbD_lsbits hmod hbit.le, getLsbD_block _ _ hmod, hpos, h.written, if_neg (by omega)]
    by_cases hlow : x % 64 < s.bit
    · rw [h.buf _ hlow, hpos, hcopied (by omega), decide_eq_true hlow]
      simp
    · rw [decide_eq_false hlow, decide_eq_true hmod, if_neg (show ¬(start ≤ x ∧ x < start + n) by omega)]
      simp
  · rw [if_neg hx]
    split
    · exact hcopied (by omega)
    · exact (if_neg (by omega)).symm

/-- **`copy_slice` copies the range of the source, as it was before the call, and changes nothing else**, also within one
bitset where the ranges overlap. -/
theorem copySlice_spec (b : SliceableBitset) (start stop : Nat) (src : Source) (srcstart : Nat) (halloc : b.Allocated)
    (hle : start ≤ stop) (hstop : stop ≤ b.size) (pos : Nat) : (b.copySlice start stop src srcstart).getBit pos =
      if start ≤ pos ∧ pos < stop then (src.of b).getBit (srcstart + (pos - start)) else b.getBit pos := by
  have hlength : b.bits.length = b.size / 64 + 1 := halloc
  have hend : start + (stop - start) = stop := Nat.add_sub_cancel' hle
  have hin : (start + (stop - start)) / 64 < b.bits.length := by omega
  rw [getBit_eq, getBit_eq, getBit_eq]
  unfold copySlice
  by_cases hover : src = .self ∧ srcstart ≤ start ∧ start < srcstart + (stop - start)
  · rw [if_pos hover]
    obtain ⟨rfl, hback, _⟩ := hover
    rw [(copyBackward_spec hback _ b hin).2.2, hend]
    rfl
  · obtain ⟨hloop, hdone⟩ := copyLoop_spec hover hin (stop - start) _
      (start_turning b src start srcstart (stop - start)) le_rfl
    rw [if_neg hover, hloop.finish hdone hin, hend]

theorem copySlice_spec_overlapping :
    ((⟨[0b1101, 0], 70⟩ : SliceableBitset).copySlice 2 67 .self 1).getBit 3 =
      (⟨[0b1101, 0], 70⟩ : SliceableBitset).getBit 2 :=
  copySlice_spec ⟨[0b1101, 0], 70⟩ 2 67 .self 1 rfl (by decide) (by decide) 3

end Sbmt.Biglm.SliceableBitset
