import Sbmt.Biglm.Quantizer
import Sbmt.Biglm.SliceableBitset
/-!
# The packed language model (`biglm/pagh/biglm.hpp`, `biglm.cpp`)

| here | there |
| --- | --- |
| `Mph` | `mph` (`cmph.hpp:134-205`): what it is built from, and how, is the library's |
| `Lm`, `nKeys`, `valueBits` | `lm` (`biglm.hpp:25-66`); `unk` is set at `biglm.cpp:145` |
| `lookupQprob`, `lookupQbow` | `biglm.cpp:177-280`; `none` is `-1` |
| `checkNgram` | `biglm.cpp:284-301`, where the place of a slot is a product of 32 bits |
| `decodeProb`, `decodeBow` | what `lookup_ngram` makes of their numbers (`biglm.cpp:344-348`) |

A `const word_type *` is the list of the words from it on.
-/

namespace Sbmt.Biglm

structure Mph (κ : Type) where
  search : κ → Nat
  size : Nat

/-- `ngram_mph[o-2]`. -/
def ngramMphAt (ngramMph : List (Mph (List Nat))) (o : Nat) : Mph (List Nat) := ngramMph.getD (o - 2) ⟨fun _ => 0, 0⟩

structure Lm (W : Type) where
  order : Nat
  vocabMph : Mph String
  ngramMph : List (Mph (List Nat))
  ngramHash : List Nat → BitVec 32
  probQuantizer : List (Quantizer W)
  bowQuantizer : List (Quantizer W)
  checksumBits : Nat
  probBits : Nat
  bowBits : Nat
  values : List SliceableBitset
  overrideUnk : Bool
  pUnk : W

namespace Lm

variable {W : Type} (lm : Lm W)

def unk : Nat := lm.vocabMph.search "<unk>"

def mph (o : Nat) : Mph (List Nat) := ngramMphAt lm.ngramMph o

def nKeys (o : Nat) : Nat := if o = 1 then lm.vocabMph.size else (lm.mph o).size

def valueBits (o : Nat) : Nat :=
  lm.probBits + (if o > 1 then lm.checksumBits else 0) + (if o < lm.order then lm.bowBits else 0)

/-- `values[o-1]`. -/
def bitset (o : Nat) : SliceableBitset := lm.values.getD (o - 1) (.make 0)

variable (ngram : List Nat)

def checksum : Block := (lm.ngramHash ngram).setWidth 64 &&& lsbits lm.checksumBits

/-- Where the values of an n-gram of two words or more are, behind its checksum, if it is found. -/
def slot (o : Nat) : Option Nat :=
  if (ngram.take o).any (· == lm.unk) then none
  else
    let h := (lm.mph o).search (ngram.take o)
    if h ≥ (lm.mph o).size then none
    else
      let cur := h * lm.valueBits o
      let foundChecksum := (lm.bitset o).getSlice cur (cur + lm.checksumBits)
      let cur := cur + lm.checksumBits
      if lm.checksum (ngram.take o) ≠ foundChecksum then none else some cur

def lookupQprob (o : Nat) : Option Nat :=
  let cur := if o = 1 then some (ngram.headD 0 * lm.valueBits o) else lm.slot ngram o
  cur.map fun cur => ((lm.bitset o).getSlice cur (cur + lm.probBits)).toNat

def lookupQbow (o : Nat) : Option Nat :=
  if o = 0 then none
  else
    let cur := if o = 1 then some (ngram.headD 0 * lm.valueBits o) else lm.slot ngram o
    cur.map fun cur => ((lm.bitset o).getSlice (cur + lm.probBits) (cur + lm.probBits + lm.bowBits)).toNat

def checkNgram (start length : Nat) : Bool :=
  let sub := (ngram.drop start).take length
  let h := (lm.mph length).search sub
  if h ≥ (lm.mph length).size then false
  else
    let tmpCur := h * lm.valueBits length % 2 ^ 32
    lm.checksum sub == (lm.bitset length).getSlice tmpCur (tmpCur + lm.checksumBits)

variable [Zero W]

/-- `prob_quantizer[o-1].decode(qp)`. -/
def decodeProb (o qp : Nat) : W := (lm.probQuantizer.getD (o - 1) .empty).decode qp

/-- `bow_quantizer[o-1].decode(qb)`. -/
def decodeBow (o qb : Nat) : W := (lm.bowQuantizer.getD (o - 1) .empty).decode qb

end Lm

end Sbmt.Biglm
