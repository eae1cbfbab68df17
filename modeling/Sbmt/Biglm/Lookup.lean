import Sbmt.Biglm.Lm
/-!
# Looking up an n-gram, with and without checks (`biglm/pagh/biglm.cpp`)

| here | there |
| --- | --- |
| `lookupLoop`, `lookupNgram` | `lookup_ngram` (`:335-354`) |
| `Checks` | the flags and bounds of the checked lookup (`:371-379`) |
| `startLoop` | the loop over `j`, the same text twice (`:401-408`, `:452-459`) |
| `probChecks`, `bowChecks` | the bodies of the loops over `i` (`:394-419`, `:448-462`) |
| `checkLoop` | these loops |
| `checkedLoop`, `lookupNgramChecked` | `lookup_ngram_checked` (`:369-487`) |

`impossible` is the constant of `types.hpp`.  The checks count their words from the start of the query, also where the
n-gram that was found starts behind it.
-/

namespace Sbmt.Biglm.Lm

variable {W : Type} [Add W] [Zero W] (impossible : W) (lm : Lm W) (ngram : List Nat)

/-- The last word is unknown, and its probability is given. -/
def unkWord (o : Nat) : Bool := o == 1 && ngram.getD (ngram.length - 1) 0 == lm.unk && lm.overrideUnk

def lookupLoop : Nat → W → W
  | 0, _ => impossible
  | o + 1, bow =>
    if lm.unkWord ngram (o + 1) then bow + lm.pUnk
    else
      match lm.lookupQprob (ngram.drop (ngram.length - (o + 1))) (o + 1) with
      | some qp => bow + lm.decodeProb (o + 1) qp
      | none =>
        match lm.lookupQbow (ngram.drop (ngram.length - (o + 1))) o with
        | some qb => lookupLoop o (bow + lm.decodeBow o qb)
        | none => lookupLoop o bow

def lookupNgram : W := lm.lookupLoop impossible ngram ngram.length 0

structure Checks where
  nextProb : Nat
  nextBow : Nat
  failedChk : Bool
  bowChked : Bool

/-- `for (j; j>0; j--)`: the n-grams of `i` words from `j` on. -/
def startLoop (o i : Nat) : Nat → Checks → Checks
  | 0, s => s
  | j + 1, s =>
    if lm.checkNgram ngram (j + 1) i then startLoop o i j s
    else { s with failedChk := true, nextBow := o - 2 - (j + 1), nextProb := o - 1 - (j + 1) }

/-- `for (i; i>1; i--)`, until a check fails. -/
def checkLoop (checks : Nat → Checks → Checks) : Nat → Checks → Checks
  | 0, s => s
  | i + 1, s =>
    if i + 1 ≤ 1 then s
    else
      let s := checks (i + 1) s
      if s.failedChk then s else checkLoop checks i s

/-- The n-grams of `i` words, for a probability. -/
def probChecks (o i : Nat) (s : Checks) : Checks :=
  let s :=
    if !s.bowChked then
      lm.startLoop ngram o i (o - i - 1)
        (if !lm.checkNgram ngram 0 i then { s with failedChk := true, nextBow := o - 2 } else s)
    else s
  if !lm.checkNgram ngram (o - i) i then { s with failedChk := true, nextProb := i - 1 } else s

/-- The n-grams of `i` words, for a backoff weight. -/
def bowChecks (o i : Nat) (s : Checks) : Checks :=
  lm.startLoop ngram o i (o - 1 - i) (if !lm.checkNgram ngram 0 i then { s with failedChk := true } else s)

/-- A probability, if there is one that passes. -/
def probPart (o : Nat) (s : Checks) : Option Nat × Checks :=
  if o ≤ s.nextProb then
    match lm.lookupQprob (ngram.drop (ngram.length - o)) o with
    | some qp =>
      let s := checkLoop (lm.probChecks ngram o) (o - 1) { s with failedChk := false }
      if !s.failedChk then (some qp, s) else (none, s)
    | none => (none, s)
  else (none, s)

/-- A backoff weight, if there is one that passes. -/
def bowPart (o : Nat) (s : Checks) : Option Nat × Checks :=
  if o - 1 ≤ s.nextBow then
    match lm.lookupQbow (ngram.drop (ngram.length - o)) (o - 1) with
    | some qb =>
      let s := { s with failedChk := false }
      let s := if !s.bowChked then checkLoop (lm.bowChecks ngram o) (o - 2) s else s
      if !s.failedChk then (some qb, { s with bowChked := true }) else (none, s)
    | none => (none, s)
  else (none, s)

def checkedLoop : Nat → W → Checks → W
  | 0, _, _ => impossible
  | o + 1, bow, s =>
    if lm.unkWord ngram (o + 1) then bow + lm.pUnk
    else
      match lm.probPart ngram (o + 1) s with
      | (some qp, _) => bow + lm.decodeProb (o + 1) qp
      | (none, s) =>
        match lm.bowPart ngram (o + 1) s with
        | (some qb, s) => checkedLoop o (bow + lm.decodeBow o qb) s
        | (none, s) => checkedLoop o bow s

def lookupNgramChecked : W :=
  lm.checkedLoop impossible ngram ngram.length 0 ⟨ngram.length, ngram.length, false, false⟩

end Sbmt.Biglm.Lm
