import Sbmt.Biglm.Lm
/-!
# Packing a language model (`biglm/pagh/make_biglm.cpp`)

| here | there |
| --- | --- |
| `ArpaLine`, `Arpa` | `arpa_line` (`arpa.hpp:11-19`) and what an `arpa_reader` reads of a file, order by order |
| `MphFile` | what `dump_mph_from_arpa` leaves and `read_mph` reads (`make_biglm.cpp:86-134`, `biglm.cpp:114-146`) |
| `bitsFor`, `quantizerBits` | the widths (`:169-193`) |
| `packLine`, `packOrder` | the loops over the n-grams (`:203-247`) |
| `dumpValues` | `dump_values_from_arpa` (`:136-252`), and `read_values` of it (`biglm.cpp:148-175`) |

`Write` is one `set_slice`; `writes` are those of a line, and `packLine_eq` says so.
-/

namespace Sbmt.Biglm

open List

variable {W : Type}

structure ArpaLine (W : Type) (order : Nat) where
  words : List String
  prob : W
  bow : W
  hasBow : Bool
  length_words : words.length = order

structure Arpa (W : Type) where
  nOrders : Nat
  ngrams : (order : Nat) → List (ArpaLine W order)

structure MphFile where
  order : Nat
  vocabMph : Mph String
  ngramMph : List (Mph (List Nat))

/-- A hash function that is perfect for the keys it was built from. -/
structure Mph.BuiltFrom {κ : Type} (m : Mph κ) (keys : List κ) : Prop where
  nodup : keys.Nodup
  inj : ∀ k ∈ keys, ∀ k' ∈ keys, m.search k = m.search k' → k = k'
  lt : ∀ k ∈ keys, m.search k < m.size

inductive PackError where
  | runtimeError (what : String)
  /-- The mask `1<<bits` is no `int`. -/
  | overflow
deriving DecidableEq

/-- `bits = 1; while (1<<bits < max_quanta) bits++`. -/
def bitsFor (maxQuanta : Nat) : Except PackError Nat :=
  match (range' 1 30).find? (maxQuanta ≤ 2 ^ ·) with
  | some bits => .ok bits
  | none => .error .overflow

def quantizerBits (order : Nat) (qs : List (Quantizer W)) : Except PackError Nat :=
  if qs.length < order then .error (.runtimeError "quantizer order is less than LM order")
  else bitsFor ((qs.take order).foldl (fun maxQuanta q => max maxQuanta q.size) 0)

namespace Lm

variable (lm : Lm W)

def ids (words : List String) : List Nat := words.map lm.vocabMph.search

def index (o : Nat) (ngram : List Nat) : Nat := if o = 1 then ngram.headD 0 else (lm.mph o).search ngram

variable [LT W] [DecidableLT W] [Zero W]

/-- `pqs[o-1].encode(l.prob)`. -/
def quantum (qs : List (Quantizer W)) (o : Nat) (p : W) : Nat := (qs.getD (o - 1) .empty).encode p

def packLine (o : Nat) (values : SliceableBitset) (l : ArpaLine W o) : SliceableBitset :=
  let ngram := lm.ids l.words
  let cur := lm.index o ngram * lm.valueBits o
  let (values, cur) :=
    if o = 1 then (values, cur)
    else (values.setSlice cur (cur + lm.checksumBits) (lm.checksum ngram), cur + lm.checksumBits)
  let values := values.setSlice cur (cur + lm.probBits) (BitVec.ofNat 64 (quantum lm.probQuantizer o l.prob))
  let cur := cur + lm.probBits
  if o < lm.order then
    values.setSlice cur (cur + lm.bowBits) (BitVec.ofNat 64 (quantum lm.bowQuantizer o (if l.hasBow then l.bow else 0)))
  else values

def packOrder (arpa : Arpa W) (o : Nat) : SliceableBitset :=
  (arpa.ngrams o).foldl (lm.packLine o) (.make (lm.nKeys o * lm.valueBits o))

end Lm

variable [LT W] [DecidableLT W] [Zero W]

def dumpValues (file : MphFile) (arpa : Arpa W) (ngramHash : List Nat → BitVec 32) (checksumBits : Nat)
    (pqs bqs : List (Quantizer W)) (overrideUnk : Bool) (pUnk : W) : Except PackError (Lm W) :=
  if file.order ≠ arpa.nOrders then .error (.runtimeError "mismatch in order")
  else do
    let probBits ← quantizerBits file.order pqs
    let bowBits ← quantizerBits (file.order - 1) bqs
    let lm : Lm W := { file with
      ngramHash, probQuantizer := pqs, bowQuantizer := bqs, checksumBits, probBits, bowBits, values := [], overrideUnk, pUnk }
    return { lm with values := (range' 1 file.order).map (lm.packOrder arpa) }

/-- The hash functions of the file are built from the vocabulary and the n-grams of the language model. -/
structure MphFile.BuiltFrom (file : MphFile) (arpa : Arpa W) : Prop where
  vocab : file.vocabMph.BuiltFrom ((arpa.ngrams 1).map (·.words.headD ""))
  ngrams : ∀ o, 2 ≤ o → o ≤ file.order →
    (ngramMphAt file.ngramMph o).BuiltFrom ((arpa.ngrams o).map (·.words.map file.vocabMph.search))

/-! ## What is written where -/

section

omit [LT W] [DecidableLT W] [Zero W]

theorem bitsFor_spec {maxQuanta bits : Nat} (h : bitsFor maxQuanta = .ok bits) :
    1 ≤ bits ∧ bits ≤ 30 ∧ maxQuanta ≤ 2 ^ bits := by
  unfold bitsFor at h
  cases hfind : (range' 1 30).find? (maxQuanta ≤ 2 ^ ·) with
  | none => simp [hfind] at h
  | some found =>
    simp only [hfind, Except.ok.injEq] at h
    subst h
    have hmem := mem_of_find?_eq_some hfind
    rw [mem_range'_1] at hmem
    have hle := find?_some hfind
    exact ⟨hmem.1, by omega, of_decide_eq_true hle⟩

theorem le_foldl_max (qs : List (Quantizer W)) :
    ∀ m, m ≤ qs.foldl (fun m q => max m q.size) m ∧ ∀ q ∈ qs, q.size ≤ qs.foldl (fun m q => max m q.size) m := by
  induction qs with
  | nil => exact fun m => ⟨le_rfl, fun q hq => absurd hq not_mem_nil⟩
  | cons q qs ih =>
    intro m
    obtain ⟨hle, hqs⟩ := ih (max m q.size)
    refine ⟨(le_max_left ..).trans hle, fun q' hq' => ?_⟩
    rcases mem_cons.mp hq' with rfl | hq'
    · exact (le_max_right ..).trans hle
    · exact hqs q' hq'

/-- The width is enough for each of the orders that use it. -/
theorem quantizerBits_spec {order bits : Nat} {qs : List (Quantizer W)} (h : quantizerBits order qs = .ok bits) :
    1 ≤ bits ∧ bits ≤ 30 ∧ ∀ i < order, (qs.getD i .empty).size ≤ 2 ^ bits := by
  unfold quantizerBits at h
  by_cases hlen : qs.length < order
  · rw [if_pos hlen] at h
    cases h
  · rw [if_neg hlen] at h
    obtain ⟨hpos, hle, hmax⟩ := bitsFor_spec h
    refine ⟨hpos, hle, fun i hi => le_trans ?_ hmax⟩
    have hi' : i < qs.length := by omega
    apply (le_foldl_max (qs.take order) 0).2
    rw [getD_eq_getElem?_getD, getElem?_eq_getElem hi']
    exact mem_take_iff_getElem.mpr ⟨i, by omega, rfl⟩

end

namespace Lm

variable (lm : Lm W) (o : Nat) (l : ArpaLine W o)

def cur : Nat := lm.index o (lm.ids l.words) * lm.valueBits o

/-- The bits of a slot before those of the probability. -/
def sumBits : Nat := if o = 1 then 0 else lm.checksumBits

def checksumWrite : Write :=
  ⟨lm.cur o l, lm.cur o l + lm.checksumBits, lm.checksum (lm.ids l.words)⟩

def probWrite : Write :=
  ⟨lm.cur o l + lm.sumBits o, lm.cur o l + lm.sumBits o + lm.probBits,
    BitVec.ofNat 64 (quantum lm.probQuantizer o l.prob)⟩

def bowWrite : Write :=
  ⟨lm.cur o l + lm.sumBits o + lm.probBits, lm.cur o l + lm.sumBits o + lm.probBits + lm.bowBits,
    BitVec.ofNat 64 (quantum lm.bowQuantizer o (if l.hasBow then l.bow else 0))⟩

/-- The slices that are written for a line. -/
def writes : List Write :=
  (if o = 1 then [] else [lm.checksumWrite o l]) ++ lm.probWrite o l :: if o < lm.order then [lm.bowWrite o l] else []

theorem packLine_eq (values : SliceableBitset) (l : ArpaLine W o) :
    lm.packLine o values l = values.setSlices (lm.writes o l) := by
  unfold packLine writes checksumWrite probWrite bowWrite cur sumBits SliceableBitset.setSlices
  by_cases h1 : o = 1
  · by_cases ho : o < lm.order
    · simp [if_pos h1, if_pos ho]
    · simp [if_pos h1, if_neg ho]
  · by_cases ho : o < lm.order
    · simp [if_neg h1, if_pos ho]
    · simp [if_neg h1, if_neg ho]

theorem packOrder_eq (arpa : Arpa W) (o : Nat) :
    lm.packOrder arpa o =
      (SliceableBitset.make (lm.nKeys o * lm.valueBits o)).setSlices ((arpa.ngrams o).flatMap (lm.writes o)) := by
  unfold packOrder SliceableBitset.setSlices
  rw [foldl_flatMap]
  congr 1
  funext values l
  exact lm.packLine_eq o values l

variable {lm} {o : Nat}

theorem mem_writes {l : ArpaLine W o} {w : Write} :
    w ∈ lm.writes o l ↔
      (o ≠ 1 ∧ w = lm.checksumWrite o l) ∨ w = lm.probWrite o l ∨ (o < lm.order ∧ w = lm.bowWrite o l) := by
  unfold writes
  by_cases h1 : o = 1
  · simp [h1]
  · by_cases ho : o < lm.order
    · simp [h1, ho]
    · simp [h1, ho]

omit [LT W] [DecidableLT W] [Zero W] in
theorem valueBits_eq (lm : Lm W) (h : 1 ≤ o) :
    lm.valueBits o = lm.sumBits o + lm.probBits + if o < lm.order then lm.bowBits else 0 := by
  unfold valueBits sumBits
  by_cases h1 : o = 1
  · rw [if_neg (by omega), if_pos h1]
    omega
  · rw [if_pos (by omega), if_neg h1]
    omega

/-- A line writes to its own slot. -/
theorem writes_slot (h : 1 ≤ o) {l : ArpaLine W o} {w : Write} (hw : w ∈ lm.writes o l) :
    lm.cur o l ≤ w.start ∧ w.stop ≤ lm.cur o l + lm.valueBits o := by
  have hbits := valueBits_eq lm h
  rcases mem_writes.mp hw with ⟨h1, rfl⟩ | rfl | ⟨ho, rfl⟩
  · have hsum : lm.sumBits o = lm.checksumBits := if_neg h1
    simp only [checksumWrite]
    omega
  · simp only [probWrite]
    omega
  · rw [if_pos ho] at hbits
    simp only [bowWrite]
    omega

/-- The fields of a slot are apart. -/
theorem writes_apart (o : Nat) (l : ArpaLine W o) : (lm.writes o l).Pairwise Write.Apart := by
  unfold writes
  rw [pairwise_append]
  refine ⟨by split_ifs <;> simp, ?_, fun w hw w' hw' => ?_⟩
  · rw [pairwise_cons]
    refine ⟨fun w hw => ?_, by split_ifs <;> simp⟩
    by_cases ho : o < lm.order
    · rw [if_pos ho, mem_singleton] at hw
      exact .inl (hw ▸ le_rfl)
    · rw [if_neg ho] at hw
      exact absurd hw not_mem_nil
  · by_cases h1 : o = 1
    · rw [if_pos h1] at hw
      exact absurd hw not_mem_nil
    · rw [if_neg h1, mem_singleton] at hw
      have hsum : lm.sumBits o = lm.checksumBits := if_neg h1
      have hstart : lm.cur o l + lm.checksumBits ≤ w'.start := by
        rcases mem_cons.mp hw' with rfl | hw'
        · exact (congrArg (lm.cur o l + ·) hsum).ge
        · by_cases ho : o < lm.order
          · rw [if_pos ho, mem_singleton] at hw'
            rw [hw']
            simp only [bowWrite]
            omega
          · rw [if_neg ho] at hw'
            exact absurd hw' not_mem_nil
      exact .inl (hw ▸ hstart)

/-- What a packed order needs: slots of its own for its lines, and widths that are enough. -/
structure Sized (lm : Lm W) (arpa : Arpa W) (o : Nat) : Prop where
  pos : 1 ≤ o
  slots : (arpa.ngrams o).Pairwise fun l l' => lm.index o (lm.ids l.words) ≠ lm.index o (lm.ids l'.words)
  inside : ∀ l ∈ arpa.ngrams o, lm.index o (lm.ids l.words) < lm.nKeys o
  checksum : lm.checksumBits ≤ 64
  prob : lm.probBits ≤ 30 ∧ ∀ p, quantum lm.probQuantizer o p < 2 ^ lm.probBits
  bow : o < lm.order → lm.bowBits ≤ 30 ∧ ∀ p, quantum lm.bowQuantizer o p < 2 ^ lm.bowBits

namespace Sized

variable {arpa : Arpa W}

/-- A number of a few bits stays what it is in a block. -/
theorem toNat_block {n bits : Nat} (hbits : bits ≤ 30) (hn : n < 2 ^ bits) : (BitVec.ofNat 64 n).toNat = n := by
  rw [BitVec.toNat_ofNat]
  have := Nat.pow_le_pow_right (show 0 < 2 by decide) (show bits ≤ 64 by omega)
  exact Nat.mod_eq_of_lt (by omega)

variable (h : lm.Sized arpa o)
include h

theorem apart : ((arpa.ngrams o).flatMap (lm.writes o)).Pairwise Write.Apart := by
  rw [pairwise_flatMap]
  refine ⟨fun l _ => writes_apart o l, h.slots.imp fun hne w hw w' hw' => ?_⟩
  have hw := writes_slot h.pos hw
  have hw' := writes_slot h.pos hw'
  unfold cur at hw hw'
  rcases Nat.lt_or_gt_of_ne hne with hlt | hgt
  · have := Nat.mul_le_mul_right (lm.valueBits o) hlt
    rw [Nat.succ_mul] at this
    exact .inl (by omega)
  · have := Nat.mul_le_mul_right (lm.valueBits o) hgt
    rw [Nat.succ_mul] at this
    exact .inr (by omega)

theorem fits {l : ArpaLine W o} {w : Write} (hw : w ∈ lm.writes o l) : w.Fits := by
  rcases mem_writes.mp hw with ⟨-, rfl⟩ | rfl | ⟨ho, rfl⟩
  · refine ⟨Nat.le_add_right .., ?_, ?_⟩
    · have := h.checksum
      simp only [checksumWrite]
      omega
    · simp only [checksumWrite, Nat.add_sub_cancel_left]
      apply Nat.lt_pow_two_of_testBit
      intro i hi
      change ((lm.ngramHash _).setWidth 64 &&& lsbits lm.checksumBits).getLsbD i = false
      by_cases hi64 : i < 64
      · rw [BitVec.getLsbD_and, SliceableBitset.getLsbD_lsbits hi64 h.checksum, decide_eq_false (by omega), Bool.and_false]
      · exact BitVec.getLsbD_of_ge _ _ (by omega)
  · obtain ⟨hle, hlt⟩ := h.prob
    refine ⟨Nat.le_add_right .., ?_, ?_⟩
    · simp only [probWrite]
      omega
    · simp only [probWrite, Nat.add_sub_cancel_left]
      rw [toNat_block hle (hlt _)]
      exact hlt _
  · obtain ⟨hle, hlt⟩ := h.bow ho
    refine ⟨Nat.le_add_right .., ?_, ?_⟩
    · simp only [bowWrite]
      omega
    · simp only [bowWrite, Nat.add_sub_cancel_left]
      rw [toNat_block hle (hlt _)]
      exact hlt _

/-- Every slot is inside of the bitset. -/
theorem stop_le {l : ArpaLine W o} (hl : l ∈ arpa.ngrams o) {w : Write} (hw : w ∈ lm.writes o l) :
    w.stop ≤ lm.nKeys o * lm.valueBits o := by
  have hslot := (writes_slot h.pos hw).2
  have := Nat.mul_le_mul_right (lm.valueBits o) (h.inside l hl)
  rw [Nat.succ_mul] at this
  unfold cur at hslot
  omega

/-- **Every slice of the packed order reads what was written for its line.** -/
theorem getSlice_packOrder {l : ArpaLine W o} (hl : l ∈ arpa.ngrams o) {w : Write}
    (hw : w ∈ lm.writes o l) : (lm.packOrder arpa o).getSlice w.start w.stop = w.value := by
  rw [packOrder_eq]
  apply SliceableBitset.getSlice_setSlices h.apart
  · intro w' hw'
    obtain ⟨l', hl', hw'⟩ := mem_flatMap.mp hw'
    refine ⟨h.fits hw', ?_⟩
    rw [SliceableBitset.make_allocated]
    have := Nat.div_le_div_right (c := 64) (h.stop_le hl' hw')
    exact Nat.lt_succ_of_le this
  · exact mem_flatMap.mpr ⟨l, hl, hw⟩

end Sized

/-- A language model whose bitsets are packed from an ARPA file. -/
structure Packed (lm : Lm W) (arpa : Arpa W) : Prop where
  sized : ∀ o, 1 ≤ o → o ≤ lm.order → lm.Sized arpa o
  bitset : ∀ o, 1 ≤ o → o ≤ lm.order → lm.bitset o = lm.packOrder arpa o

namespace Packed

variable {arpa : Arpa W} {l : ArpaLine W o}

/-- The reader finds the slot of a line, unless a word of it has the number of `<unk>`. -/
theorem slot_eq (h : lm.Packed arpa) (h2 : 2 ≤ o) (ho : o ≤ lm.order) (hl : l ∈ arpa.ngrams o)
    (hunk : lm.unk ∉ lm.ids l.words) : lm.slot (lm.ids l.words) o = some (lm.cur o l + lm.checksumBits) := by
  have hsized := h.sized o (by omega) ho
  have htake : (lm.ids l.words).take o = lm.ids l.words :=
    take_of_length_le (by rw [ids, length_map, l.length_words])
  have hany : ¬(lm.ids l.words).any (· == lm.unk) = true := by
    rw [any_eq_true]
    rintro ⟨w, hw, heq⟩
    exact hunk (beq_iff_eq.mp heq ▸ hw)
  have hindex : lm.index o (lm.ids l.words) = (lm.mph o).search (lm.ids l.words) := if_neg (by omega)
  have hkeys : lm.nKeys o = (lm.mph o).size := if_neg (by omega)
  have hcur : lm.cur o l = (lm.mph o).search (lm.ids l.words) * lm.valueBits o := congrArg (· * _) hindex
  have hinside := hsized.inside l hl
  have hread := hsized.getSlice_packOrder hl (mem_writes.mpr (.inl ⟨by omega, rfl⟩))
  rw [← h.bitset o (by omega) ho] at hread
  unfold slot
  rw [htake, if_neg hany]
  rw [if_neg (by omega), ← hcur]
  have hsum : ¬lm.checksum (lm.ids l.words) ≠ (lm.bitset o).getSlice (lm.cur o l) (lm.cur o l + lm.checksumBits) :=
    not_not.mpr hread.symm
  rw [if_neg hsum]

omit [LT W] [DecidableLT W] [Zero W] in
theorem slot_unk (hunk : lm.unk ∈ lm.ids l.words) : lm.slot (lm.ids l.words) o = none := by
  have htake : (lm.ids l.words).take o = lm.ids l.words :=
    take_of_length_le (by rw [ids, length_map, l.length_words])
  have hany : (lm.ids l.words).any (· == lm.unk) = true := any_eq_true.mpr ⟨_, hunk, beq_self_eq_true _⟩
  unfold slot
  rw [htake, if_pos hany]

/-- **The probability that is looked up is the one that was stored.** -/
theorem lookupQprob_eq (h : lm.Packed arpa) (h2 : 2 ≤ o) (ho : o ≤ lm.order) (hl : l ∈ arpa.ngrams o)
    (hunk : lm.unk ∉ lm.ids l.words) :
    lm.lookupQprob (lm.ids l.words) o = some (quantum lm.probQuantizer o l.prob) := by
  have hsized := h.sized o (by omega) ho
  have hread := hsized.getSlice_packOrder hl (mem_writes.mpr (.inr (.inl rfl)))
  have hsum : lm.sumBits o = lm.checksumBits := if_neg (by omega)
  rw [← h.bitset o (by omega) ho] at hread
  unfold lookupQprob
  rw [if_neg (by omega), h.slot_eq h2 ho hl hunk]
  simp only [probWrite, hsum] at hread
  simp only [Option.map_some, hread]
  exact congrArg some (Sized.toNat_block hsized.prob.1 (hsized.prob.2 _))

/-- **The backoff weight that is looked up is the one that was stored.** -/
theorem lookupQbow_eq (h : lm.Packed arpa) (h2 : 2 ≤ o) (ho : o < lm.order) (hl : l ∈ arpa.ngrams o)
    (hunk : lm.unk ∉ lm.ids l.words) :
    lm.lookupQbow (lm.ids l.words) o = some (quantum lm.bowQuantizer o (if l.hasBow then l.bow else 0)) := by
  have hsized := h.sized o (by omega) ho.le
  have hread := hsized.getSlice_packOrder hl (mem_writes.mpr (.inr (.inr ⟨ho, rfl⟩)))
  have hsum : lm.sumBits o = lm.checksumBits := if_neg (by omega)
  rw [← h.bitset o (by omega) ho.le] at hread
  unfold lookupQbow
  rw [if_neg (by omega), if_neg (by omega), h.slot_eq h2 ho.le hl hunk]
  simp only [bowWrite, hsum] at hread
  simp only [Option.map_some, hread]
  exact congrArg some (Sized.toNat_block (hsized.bow ho).1 ((hsized.bow ho).2 _))

end Packed

end Lm

omit [LT W] [DecidableLT W] [Zero W] in
/-- Lines with different keys have different places. -/
theorem Mph.BuiltFrom.pairwise {α κ : Type} {m : Mph κ} {lines : List α} {key : α → κ} (h : m.BuiltFrom (lines.map key)) :
    lines.Pairwise fun l l' => m.search (key l) ≠ m.search (key l') := by
  have hnodup := pairwise_map.mp h.nodup
  refine hnodup.imp_of_mem fun hl hl' hne heq => hne ?_
  exact h.inj _ (mem_map_of_mem hl) _ (mem_map_of_mem hl') heq

omit [Zero W] in
theorem quantum_lt {order bits o : Nat} {qs : List (Quantizer W)} (h : quantizerBits order qs = .ok bits) (hpos : 1 ≤ o)
    (ho : o ≤ order) (p : W) : Lm.quantum qs o p < 2 ^ bits := by
  obtain ⟨-, -, hsize⟩ := quantizerBits_spec h
  have hlt := (qs.getD (o - 1) .empty).encode_lt p
  have hle := hsize (o - 1) (by omega)
  have hone := Nat.one_le_two_pow (n := bits)
  exact hlt.trans_le (max_le hone hle)

variable {file : MphFile} {arpa : Arpa W} {ngramHash : List Nat → BitVec 32} {checksumBits : Nat} {pqs bqs : List (Quantizer W)}
  {overrideUnk : Bool} {pUnk : W} {lm : Lm W}

/-- **What is dumped is packed from the ARPA file.** -/
theorem dumpValues_packed (hpack : dumpValues file arpa ngramHash checksumBits pqs bqs overrideUnk pUnk = .ok lm)
    (hmph : file.BuiltFrom arpa) (hbits : checksumBits ≤ 64) :
    lm.Packed arpa ∧ lm.order = file.order ∧ lm.vocabMph = file.vocabMph := by
  unfold dumpValues at hpack
  by_cases horder : file.order ≠ arpa.nOrders
  · rw [if_pos horder] at hpack
    cases hpack
  rw [if_neg horder] at hpack
  cases hp : quantizerBits file.order pqs with
  | error e =>
    rw [hp] at hpack
    cases hpack
  | ok probBits =>
    cases hb : quantizerBits (file.order - 1) bqs with
    | error e =>
      rw [hp, hb] at hpack
      cases hpack
    | ok bowBits =>
      rw [hp, hb] at hpack
      cases hpack
      have hheads : ∀ l : ArpaLine W 1, (l.words.map file.vocabMph.search).headD 0 =
          file.vocabMph.search (l.words.headD "") := by
        rintro ⟨words, prob, bow, hasBow, hlength⟩
        obtain ⟨w, rfl⟩ := length_eq_one_iff.mp hlength
        rfl
      have hbound := quantizerBits_spec hp
      have hbound' := quantizerBits_spec hb
      refine ⟨⟨fun o hpos ho => ⟨hpos, ?_, ?_, hbits, ⟨hbound.2.1, quantum_lt hp hpos ho⟩, fun hlt =>
        ⟨hbound'.2.1, quantum_lt hb hpos ?_⟩⟩, fun o hpos ho => ?_⟩, rfl, rfl⟩
      · rcases Nat.eq_or_lt_of_le hpos with rfl | h2
        · refine hmph.vocab.pairwise.imp fun hne => ?_
          simpa only [Lm.index, Lm.ids, if_true, hheads] using hne
        · refine (hmph.ngrams o h2 ho).pairwise.imp fun hne => ?_
          simpa only [Lm.index, Lm.mph, Lm.ids, if_neg (show o ≠ 1 by omega)] using hne
      · intro l hl
        rcases Nat.eq_or_lt_of_le hpos with rfl | h2
        · simpa only [Lm.index, Lm.ids, Lm.nKeys, if_true, hheads] using hmph.vocab.lt _ (mem_map_of_mem hl)
        · simpa only [Lm.index, Lm.nKeys, Lm.mph, Lm.ids, if_neg (show o ≠ 1 by omega)] using
            (hmph.ngrams o h2 ho).lt _ (mem_map_of_mem hl)
      · simp only at hlt
        omega
      · have hlen : o - 1 < file.order := by
          simp only at ho
          omega
        unfold Lm.bitset
        dsimp only
        rw [getD_eq_getElem?_getD, getElem?_map, getElem?_range' hlen, Nat.one_mul,
          Nat.add_sub_cancel' hpos]
        rfl

/-! ## The reader agrees with the writer -/

/-- What packing promises: an n-gram of two words or more, none of them `<unk>`, is looked up with what was stored for it,
and every number fits in bits of its own. -/
structure Agrees (lm : Lm W) (arpa : Arpa W) : Prop where
  prob : ∀ o, 2 ≤ o → o ≤ lm.order → ∀ l ∈ arpa.ngrams o, "<unk>" ∉ l.words →
    lm.lookupQprob (lm.ids l.words) o = some (Lm.quantum lm.probQuantizer o l.prob)
  bow : ∀ o, 2 ≤ o → o < lm.order → ∀ l ∈ arpa.ngrams o, "<unk>" ∉ l.words →
    lm.lookupQbow (lm.ids l.words) o = some (Lm.quantum lm.bowQuantizer o (if l.hasBow then l.bow else 0))
  packed : ∀ o, 1 ≤ o → o ≤ lm.order → lm.bitset o =
    (SliceableBitset.make (lm.nKeys o * lm.valueBits o)).setSlices ((arpa.ngrams o).flatMap (lm.writes o))
  apart : ∀ o, 1 ≤ o → o ≤ lm.order → ((arpa.ngrams o).flatMap (lm.writes o)).Pairwise Write.Apart
  fits : ∀ o, 1 ≤ o → o ≤ lm.order → ∀ l ∈ arpa.ngrams o, ∀ w ∈ lm.writes o l,
    w.Fits ∧ w.stop ≤ lm.nKeys o * lm.valueBits o

/-- **The reader finds what the writer stored exactly when no word of an n-gram has the number that `<unk>` is looked up
under.**  `<unk>` itself need not be in the vocabulary, and its number is another word's then. -/
theorem dumpValues_agrees_iff (hpack : dumpValues file arpa ngramHash checksumBits pqs bqs overrideUnk pUnk = .ok lm)
    (hmph : file.BuiltFrom arpa) (hbits : checksumBits ≤ 64) :
    Agrees lm arpa ↔
      ∀ o, 2 ≤ o → o ≤ file.order → ∀ l ∈ arpa.ngrams o, "<unk>" ∉ l.words →
        file.vocabMph.search "<unk>" ∉ l.words.map file.vocabMph.search := by
  obtain ⟨hpacked, horder, hvocab⟩ := dumpValues_packed hpack hmph hbits
  constructor
  · intro hagrees o h2 ho l hl hunk hmem
    have hfound := hagrees.prob o h2 (horder ▸ ho) l hl hunk
    have hnone : lm.lookupQprob (lm.ids l.words) o = none := by
      unfold Lm.lookupQprob
      rw [if_neg (by omega), Lm.Packed.slot_unk (by rw [Lm.unk, Lm.ids, hvocab]; exact hmem)]
      rfl
    rw [hnone] at hfound
    cases hfound
  · intro hunk
    have hnot : ∀ o, 2 ≤ o → o ≤ lm.order → ∀ l ∈ arpa.ngrams o, "<unk>" ∉ l.words → lm.unk ∉ lm.ids l.words := by
      intro o h2 ho l hl hwords
      rw [Lm.unk, Lm.ids, hvocab]
      exact hunk o h2 (horder ▸ ho) l hl hwords
    refine ⟨?_, ?_, ?_, ?_, ?_⟩
    · intro o h2 ho l hl hwords
      exact hpacked.lookupQprob_eq h2 ho hl (hnot o h2 ho l hl hwords)
    · intro o h2 ho l hl hwords
      exact hpacked.lookupQbow_eq h2 ho hl (hnot o h2 ho.le l hl hwords)
    · intro o hpos ho
      rw [hpacked.bitset o hpos ho, Lm.packOrder_eq]
    · intro o hpos ho
      exact (hpacked.sized o hpos ho).apart
    · intro o hpos ho l hl w hw
      exact ⟨(hpacked.sized o hpos ho).fits hw, (hpacked.sized o hpos ho).stop_le hl hw⟩

/-! ## Vocabularies with `<unk>` and without -/

omit [LT W] [DecidableLT W] [Zero W] in
theorem MphFile.builtFrom_two (horder : file.order = 2)
    (hvocab : file.vocabMph.BuiltFrom ((arpa.ngrams 1).map (·.words.headD "")))
    (hngrams : (ngramMphAt file.ngramMph 2).BuiltFrom ((arpa.ngrams 2).map (·.words.map file.vocabMph.search))) :
    file.BuiltFrom arpa := by
  refine ⟨hvocab, fun o h2 ho => ?_⟩
  obtain rfl : o = 2 := le_antisymm (horder ▸ ho) h2
  exact hngrams

def twoMeans : List (Quantizer Int) := replicate 2 (.ofMeans (fun x prev => (x + prev) / 2) [-3, -1])

/-- The vocabulary `a`, `b` and `<unk>`. -/
def unkKnown : MphFile where
  order := 2
  vocabMph := ⟨fun w => if w = "a" then 0 else if w = "b" then 1 else 2, 3⟩
  ngramMph := [⟨fun ids => ids.headD 0, 2⟩]

def unkKnownArpa : Arpa Int where
  nOrders := 2
  ngrams
    | 1 => [⟨["<unk>"], -3, 0, false, rfl⟩, ⟨["a"], -1, -1, true, rfl⟩, ⟨["b"], -2, 0, false, rfl⟩]
    | 2 => [⟨["a", "b"], -1, 0, false, rfl⟩, ⟨["b", "a"], -3, 0, false, rfl⟩]
    | _ => []

theorem unkKnown_builtFrom : unkKnown.BuiltFrom unkKnownArpa :=
  MphFile.builtFrom_two rfl ⟨by decide, by decide, by decide⟩ ⟨by decide, by decide, by decide⟩

theorem dumpValues_agrees_unkKnown :
    ∃ lm, dumpValues unkKnown unkKnownArpa (fun _ => 77) 8 twoMeans twoMeans false 0 = .ok lm ∧ Agrees lm unkKnownArpa := by
  obtain ⟨lm, hpack⟩ : ∃ lm, dumpValues unkKnown unkKnownArpa (fun _ => 77) 8 twoMeans twoMeans false 0 = .ok lm :=
    ⟨_, rfl⟩
  refine ⟨lm, hpack, (dumpValues_agrees_iff hpack unkKnown_builtFrom (by decide)).2 fun o h2 ho => ?_⟩
  obtain rfl : o = 2 := le_antisymm ho h2
  decide

/-- A vocabulary of `a` and `b` alone, with a hash function that takes every other word to the place of `a`. -/
def twoWords : MphFile where
  order := 2
  vocabMph := ⟨fun w => if w = "b" then 1 else 0, 2⟩
  ngramMph := [⟨fun _ => 0, 1⟩]

def twoWordsArpa : Arpa Int where
  nOrders := 2
  ngrams
    | 1 => [⟨["a"], -1, -1, true, rfl⟩, ⟨["b"], -2, 0, false, rfl⟩]
    | 2 => [⟨["a", "b"], -1, 0, false, rfl⟩]
    | _ => []

theorem twoWords_builtFrom : twoWords.BuiltFrom twoWordsArpa :=
  MphFile.builtFrom_two rfl ⟨by decide, by decide, by decide⟩ ⟨by decide, by decide, by decide⟩

/-- `a b` is stored, and not found: `<unk>` has the number of `a`. -/
theorem not_dumpValues_agrees :
    ∃ lm, dumpValues twoWords twoWordsArpa (fun _ => 77) 8 twoMeans twoMeans false 0 = .ok lm ∧
      twoWords.BuiltFrom twoWordsArpa ∧ ¬Agrees lm twoWordsArpa := by
  refine ⟨_, rfl, twoWords_builtFrom, fun hagrees => ?_⟩
  have hfound := hagrees.prob 2 le_rfl le_rfl ⟨["a", "b"], -1, 0, false, rfl⟩ mem_cons_self (by decide)
  cases hfound

end Sbmt.Biglm
