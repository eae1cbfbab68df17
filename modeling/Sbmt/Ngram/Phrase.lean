import Sbmt.Ngram.Lm

/-!
# Building an item's LM state: `lm_phrase` and `compute_ngrams_generic`

`sbmt/edge/impl/lm_phrase.ipp` and `sbmt/edge/impl/ngram_info.ipp:176-257`. An item of the chart keeps its first and
last `ctxlen = N - 1` words only. A rule's lm string is consumed word by word and child by child; an n-gram is scored
as soon as its context is known.

| here | there |
|---|---|
| `NgramInfo` | `ngram_info<N>`: `lr[0]` and `lr[1]`, each of `ctxlen` slots padded with `null_id` or `bo_id` |
| `Phrase` | `lm_phrase`: the buffer `[phrase, phrase_end)`, `ctx_end` as an offset, `left_done`; with it the left state being built (`result`) and the inside score (`inside_accum`) |
| `LmDeriv`, `LmStr` | a derivation: the rule's lm string, with the child derivation in place of each variable |
| `computeNgrams` | `compute_ngrams_generic` on every item of the derivation |

The specialisation `ngram_info_accessors<1, LM>` (no slots, nothing stored) is the general one at `ctxlen = 0`.
-/

namespace Sbmt.Ngram

universe u

variable {Id : Type u} {S : Type*}

/-- `ngram_info`: the left and the right boundary words. -/
structure NgramInfo (Id : Type*) where
  left : List Id
  right : List Id

section
variable [DecidableEq Id] [CommMonoid S] (lm : NgramLM Id S)

/-! ## `ngram_info_accessors` -/

variable (n : NgramInfo Id)

/-- `no_gap`: the last left slot is null, so all words are known. -/
def noGap : Bool := n.left.getLast? = some lm.nullId

/-- `needs_left_backoff`: the last left slot is the backoff marker. -/
def needsLeftBackoff : Bool := n.left.getLast? = some lm.boId

/-- `[gapless_begin, gapless_end)`. -/
def gaplessWords : List Id := n.left.dropLast.rdropWhile fun i => i = lm.nullId

/-- `[left_begin, left_backoff_end)`. -/
def leftBackoffWords : List Id := n.left.dropLast.rdropWhile fun i => i = lm.boId

/-- `[left_begin, left_end)`. -/
def leftWords : List Id := n.left.takeWhile fun i => i ≠ lm.nullId ∧ i ≠ lm.boId

/-- `[right_begin, right_end)`. -/
def rightWords : List Id := n.right.rtakeWhile fun i => i ≠ lm.nullId

/-! ## `lm_phrase` -/

/-- `lm_phrase`, with the left state and the inside score it writes to. -/
structure Phrase (Id S : Type*) where
  phrase : List Id
  ctxEnd : Nat
  leftDone : Bool
  left : List Id
  inside : S

variable (ctxlen : Nat) (shortenLeft shortenRight : Bool)

/-- `reset`, with the inside score one. -/
def Phrase.reset : Phrase Id S := ⟨[], ctxlen, false, [], 1⟩

variable (p : Phrase Id S)

/-- `append_word` (`lm_phrase.ipp:378`). -/
def appendWord (i : Id) : Phrase Id S :=
  { p with
    phrase := p.phrase ++ [i]
    ctxEnd := if i = lm.startId then p.phrase.length + 1 else p.ctxEnd }

/-- `append_words` (`:464`): words that open with the start of sentence set `ctx_end` after each of them. -/
def appendWords (ws : List Id) : Phrase Id S :=
  let start := ws.head? = some lm.startId
  ws.foldl (fun p i =>
    let p := appendWord lm p i
    if start then { p with ctxEnd := min p.phrase.length ctxlen } else p) p

/-- The loop of `use_phrase` (`:456`): score the words of the second list one by one, each given at most `ctxlen`
words before it. -/
def scoreWords : List Id → List Id → S
  | _, [] => 1
  | ctx, i :: rest => lm.sequenceProb (ctx.drop (ctx.length - ctxlen)) [i] * scoreWords (ctx ++ [i]) rest

/-- Score what the buffer holds after `ctx_end`. -/
def scorePhrase : Phrase Id S :=
  { p with
    inside := p.inside * scoreWords lm ctxlen (p.phrase.take p.ctxEnd) (p.phrase.drop p.ctxEnd)
    ctxEnd := max p.ctxEnd p.phrase.length }

/-- Copy the words into the left slots and fill up with the terminator. -/
def fillLeft (ws : List Id) (terminator : Id) : List Id := ws ++ List.replicate (ctxlen - ws.length) terminator

/-- `finish_left` (`:493`): done at most once. -/
def finishLeft (terminator : Id) : Phrase Id S :=
  if p.leftDone then p
  else if p.phrase.head? = some lm.startId then
    { p with leftDone := true, left := List.replicate ctxlen lm.startId }
  else
    let ctx := p.phrase.take ctxlen
    let short := if shortenLeft then lm.longestPrefix ctx else ctx
    if short = ctx then { p with leftDone := true, left := fillLeft ctxlen ctx terminator }
    else
      { p with
        leftDone := true
        left := fillLeft ctxlen short lm.boId
        inside := p.inside * lm.sequenceProb short (ctx.drop short.length) }

/-- `use_phrase`. -/
def usePhrase : Phrase Id S := finishLeft lm ctxlen shortenLeft (scorePhrase lm ctxlen p) lm.nullId

/-- The part of `append_child` (`:397`) that handles the child's left words. -/
def useLeft (kid : NgramInfo Id) : Phrase Id S :=
  if needsLeftBackoff lm kid then
    let q := appendWords lm ctxlen p (leftBackoffWords lm kid)
    let q := { q with inside := q.inside * lm.bowInterval p.phrase (q.phrase.drop p.phrase.length) }
    finishLeft lm ctxlen shortenLeft (scorePhrase lm ctxlen q) lm.boId
  else usePhrase lm ctxlen shortenLeft (appendWords lm ctxlen p (leftWords lm kid))

/-- `append_child` (`:397`). -/
def appendChild (kid : NgramInfo Id) : Phrase Id S :=
  if noGap lm kid then appendWords lm ctxlen p (gaplessWords lm kid)
  else
    let q := useLeft lm ctxlen shortenLeft p kid
    let q := appendWords lm ctxlen { q with phrase := [] } (rightWords lm kid)
    { q with ctxEnd := q.phrase.length }

/-- `finish_right` (`:538`). -/
def finishRight : List Id :=
  if p.phrase.getLast? = some lm.endId then List.replicate ctxlen lm.endId
  else
    let ctx := p.phrase.drop (p.phrase.length - ctxlen)
    let short := if shortenRight then lm.longestSuffix ctx else ctx
    List.replicate (ctxlen - short.length) lm.nullId ++ short

/-- `finish_last_phrase`: the item's LM state, and the inside score accumulated. -/
def finishLastPhrase : NgramInfo Id × S :=
  let q := usePhrase lm ctxlen shortenLeft p
  (⟨q.left, finishRight lm ctxlen shortenRight q⟩, q.inside)

end

/-! ## Derivations -/

mutual

/-- A derivation: the lm string of its topmost rule. -/
inductive LmDeriv (Id : Type u)
  | node (str : LmStr Id)

/-- An lm string, with a derivation in the place of each variable. -/
inductive LmStr (Id : Type u)
  | nil
  | word (w : Id) (rest : LmStr Id)
  | child (kid : LmDeriv Id) (rest : LmStr Id)

end

mutual

/-- The words a derivation yields. -/
def LmDeriv.yield : LmDeriv Id → List Id
  | .node str => str.yield

def LmStr.yield : LmStr Id → List Id
  | .nil => []
  | .word w rest => w :: rest.yield
  | .child kid rest => kid.yield ++ rest.yield

end

section
variable [DecidableEq Id] [CommMonoid S] (lm : NgramLM Id S) (ctxlen : Nat) (shortenLeft shortenRight : Bool)

mutual

/-- `compute_ngrams_generic` for an item below the top (`ngram_info.ipp:180`), over the whole derivation: the item's
state, and the product of the inside factors of all its rules. The identity lm string passes its child through. -/
def computeNgrams : LmDeriv Id → NgramInfo Id × S
  | .node (.child kid .nil) => computeNgrams kid
  | .node str => finishLastPhrase lm ctxlen shortenLeft shortenRight (feed str (.reset ctxlen))

/-- The loop over the lm string. -/
def feed : LmStr Id → Phrase Id S → Phrase Id S
  | .nil, p => p
  | .word w rest, p => feed rest (appendWord lm p w)
  | .child kid rest, p =>
    let (info, inside) := computeNgrams kid
    let p := appendChild lm ctxlen shortenLeft p info
    feed rest { p with inside := p.inside * inside }

end

/-- `compute_ngrams_generic` for the toplevel item, wrapped in the sentence markers. -/
def computeToplevel : LmDeriv Id → NgramInfo Id × S
  | .node str =>
    finishLastPhrase lm ctxlen shortenLeft shortenRight
      (appendWord lm
        (feed lm ctxlen shortenLeft shortenRight str (appendWord lm (.reset ctxlen) lm.startId)) lm.endId)

end

end Sbmt.Ngram
