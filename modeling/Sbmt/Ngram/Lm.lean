import Mathlib

/-!
# The n-gram language model as the decoder sees it: `base_ngram_lm`

`sbmt/ngram/base_ngram_lm.hpp`. A concrete LM supplies `open_prob` and `find_bow`; everything else is here.

| here | there |
|---|---|
| `NgramOptions` | `ngram_options` (`:50`), of which `openclass_lm`, `check_unks`, `unknown_word_prob` |
| `NgramLM.openProb`, `NgramLM.findBow` | `open_prob` (`:788`), `find_bow` (`:1064`); a zero backoff (not stored) is `none` |
| `NgramLM.weigh` | `_ ^ own_weight` |
| `probUnmixed`, `sequenceProb`, `bowInterval`, `longestPrefix`, `longestSuffix` | the members of those names |

A pointer range `[seq, end)` with a mark `i` in it is given as the two lists `[seq, i)` and `[i, end)`. Scores live
in any commutative monoid: `score_t` under multiplication.
-/

namespace Sbmt.Ngram

/-- `ngram_options`. The constructor refuses a closed LM that does not check for unknown words. -/
structure NgramOptions (S : Type*) where
  openclassLm : Bool
  checkUnks : Bool
  unknownWordProb : S
  closed_checks : openclassLm = false → checkUnks = true

/-- `ngram_options::is_open`. -/
def NgramOptions.isOpen {S : Type*} (opt : NgramOptions S) : Bool := opt.openclassLm && !opt.checkUnks

/-- `base_ngram_lm`: what the decoder uses of it. The special ids are distinct. -/
structure NgramLM (Id S : Type*) [CommMonoid S] where
  opt : NgramOptions S
  weigh : S →* S
  openProb : List Id → S
  findBow : List Id → Option S
  maxOrder : Nat
  unkId : Id
  startId : Id
  endId : Id
  nullId : Id
  boId : Id
  start_ne_null : startId ≠ nullId
  start_ne_bo : startId ≠ boId
  start_ne_end : startId ≠ endId
  end_ne_null : endId ≠ nullId
  end_ne_bo : endId ≠ boId
  null_ne_bo : nullId ≠ boId

namespace NgramLM

variable {Id S : Type*} [DecidableEq Id] [CommMonoid S] (lm : NgramLM Id S)

/-- An ordinary word: none of the special ids but possibly the unknown one. -/
structure IsWord (w : Id) : Prop where
  ne_null : w ≠ lm.nullId
  ne_bo : w ≠ lm.boId
  ne_start : w ≠ lm.startId
  ne_end : w ≠ lm.endId

/-- What follows the last unknown word of `l`, all of `l` if there is none. -/
def afterUnk (l : List Id) : List Id := (l.reverse.takeWhile fun i => i ≠ lm.unkId).reverse

/-- `prob_unmixed` (`base_ngram_lm.hpp:673`), of the last word of the list given those before it. -/
def probUnmixed (ctx : List Id) : S :=
  if lm.opt.checkUnks = true ∧ lm.unkId ∈ ctx then
    if lm.opt.openclassLm = true then lm.openProb ctx
    else if lm.afterUnk ctx = [] then 1
    else lm.openProb (lm.afterUnk ctx)
  else lm.openProb ctx

/-- `sequence_prob_unmixed` (`:908`): the words of the second list, given the first. -/
def sequenceProbUnmixed : List Id → List Id → S
  | _, [] => 1
  | seq, i :: rest => lm.probUnmixed (seq ++ [i]) * sequenceProbUnmixed (seq ++ [i]) rest

/-- `count_unk` (`:929`). -/
def countUnk (ws : List Id) : Nat := ws.countP fun i => i = lm.unkId

/-- `sequence_prob` (`:898`). -/
def sequenceProb (seq ws : List Id) : S :=
  lm.weigh (lm.sequenceProbUnmixed seq ws) *
    (if lm.opt.isOpen then 1 else lm.opt.unknownWordProb ^ lm.countUnk ws)

/-- The loop of `bow_interval`: the backoff of every nonempty suffix of the first list, extended by the second;
unknown ones are skipped (`BASE_NGRAM_BOW_WITH_HOLES`). -/
def bowLoop : List Id → List Id → S
  | [], _ => 1
  | i :: rest, v => (lm.findBow (i :: rest ++ v)).getD 1 * bowLoop rest v

/-- `shorten_history` (`:1083`): at most `max_order - 1` words in all. -/
def shortenHistory (hist v : List Id) : List Id := hist.drop (hist.length + v.length - (lm.maxOrder - 1))

/-- `bow_interval` (`:1001`). -/
def bowInterval (hist v : List Id) : S := lm.bowLoop (lm.shortenHistory hist v) v

/-- `longest_prefix_raw` on the first `k` words (`:1099`). -/
def longestPrefixRaw (l : List Id) : Nat → List Id
  | 0 => []
  | k + 1 => if (lm.findBow (l.take (k + 1))).isSome then l.take (k + 1) else longestPrefixRaw l k

/-- `longest_prefix`. -/
def longestPrefix (l : List Id) : List Id := lm.longestPrefixRaw l l.length

/-- `longest_suffix` (`:1110`). -/
def longestSuffix : List Id → List Id
  | [] => []
  | i :: rest => if (lm.findBow (i :: rest)).isSome then i :: rest else longestSuffix rest

/-! ## Sequence probabilities are products -/

theorem sequenceProbUnmixed_append (seq us vs : List Id) : lm.sequenceProbUnmixed seq (us ++ vs) =
    lm.sequenceProbUnmixed seq us * lm.sequenceProbUnmixed (seq ++ us) vs := by
  induction us generalizing seq with
  | nil => simp [sequenceProbUnmixed]
  | cons u us ih => simp [sequenceProbUnmixed, ih, mul_assoc]

@[simp] theorem sequenceProb_nil (seq : List Id) : lm.sequenceProb seq [] = 1 := by
  simp [sequenceProb, sequenceProbUnmixed, countUnk]

theorem sequenceProb_append (seq us vs : List Id) :
    lm.sequenceProb seq (us ++ vs) = lm.sequenceProb seq us * lm.sequenceProb (seq ++ us) vs := by
  simp only [sequenceProb, sequenceProbUnmixed_append, map_mul, countUnk, List.countP_append]
  split
  · simp
  · rw [pow_add]
    exact mul_mul_mul_comm _ _ _ _

theorem sequenceProb_cons (seq : List Id) (u : Id) (vs : List Id) :
    lm.sequenceProb seq (u :: vs) = lm.sequenceProb seq [u] * lm.sequenceProb (seq ++ [u]) vs :=
  lm.sequenceProb_append seq [u] vs

end NgramLM

end Sbmt.Ngram
