import Sbmt.Ngram.Phrase

/-!
# The LM score of a derivation is that of its yield

What an item's boundary words must mean for the bookkeeping of `lm_phrase` to be exact (`Represents`), and the laws
that the LM has to satisfy for it (`Laws`): the probability of a word depends on the last `ctxlen` words before it,
and, when boundary states are shortened, dropped right words must not matter to any continuation and dropped left
words must be worth the backoffs paid for them later.

Under the laws every n-gram of the yield is scored exactly once, whatever the bracketing
(`computeToplevel_inside`). Without shortening the first law is the only one.
-/

namespace Sbmt.Ngram

open List

universe u

variable {Id : Type u} {S : Type*} [CommMonoid S]

namespace NgramLM

variable (lm : NgramLM Id S)

/-! ## Backoff intervals -/

theorem bowLoop_append (a b v : List Id) : lm.bowLoop (a ++ b) v = lm.bowLoop a (b ++ v) * lm.bowLoop b v := by
  induction a with
  | nil => simp [bowLoop]
  | cons i a ih => simp [bowLoop, ih, mul_assoc]

/-- Backoffs over a longer history: first the near part, then the far one. -/
theorem bowInterval_append (c z v : List Id) :
    lm.bowInterval (c ++ z) v = lm.bowInterval z v * lm.bowInterval c (z ++ v) := by
  unfold bowInterval shortenHistory
  simp only [length_append, drop_append]
  by_cases h : z.length + v.length ≤ lm.maxOrder - 1
  · have h1 : c.length + z.length + v.length - (lm.maxOrder - 1) - c.length = 0 := by omega
    have h2 : z.length + v.length - (lm.maxOrder - 1) = 0 := by omega
    rw [h1, h2, drop_zero, bowLoop_append, mul_comm, ← Nat.add_assoc]
  · have h1 : c.length + z.length + v.length - (lm.maxOrder - 1) - c.length = z.length + v.length - (lm.maxOrder - 1) := by
      omega
    have h2 : c.drop (c.length + z.length + v.length - (lm.maxOrder - 1)) = [] := drop_eq_nil_of_le (by omega)
    rw [h1, ← Nat.add_assoc, h2]
    simp [bowLoop]

theorem longestPrefixRaw_eq (l : List Id) : ∀ k, ∃ j ≤ k, lm.longestPrefixRaw l k = l.take j
  | 0 => ⟨0, le_rfl, by simp [longestPrefixRaw]⟩
  | k + 1 => by
    unfold longestPrefixRaw
    split
    · exact ⟨k + 1, le_rfl, rfl⟩
    · obtain ⟨j, hj, he⟩ := longestPrefixRaw_eq l k
      exact ⟨j, by omega, he⟩

theorem longestPrefix_append_drop (l : List Id) : lm.longestPrefix l ++ l.drop (lm.longestPrefix l).length = l := by
  obtain ⟨j, hj, he⟩ := lm.longestPrefixRaw_eq l l.length
  rw [longestPrefix, he, length_take_of_le hj]
  exact take_append_drop j l

theorem longestSuffix_suffix : ∀ l : List Id, lm.longestSuffix l <:+ l
  | [] => suffix_refl _
  | i :: rest => by
    unfold longestSuffix
    split
    · exact suffix_refl _
    · exact (longestSuffix_suffix rest).trans (suffix_cons i rest)

/-! ## The laws -/

/-- All are ordinary words. -/
def Words (ws : List Id) : Prop := ∀ w ∈ ws, lm.IsWord w

/-- What may stand before an item in a sentence. -/
def Ctx (c : List Id) : Prop := ∃ u, c = lm.startId :: u ∧ lm.Words u

variable {us vs : List Id}

theorem Words.append {lm : NgramLM Id S} (hu : lm.Words us) (hv : lm.Words vs) : lm.Words (us ++ vs) := by
  intro w hw
  exact (mem_append.1 hw).elim (hu w) (hv w)

theorem Words.of_append {lm : NgramLM Id S} (h : lm.Words (us ++ vs)) : lm.Words us ∧ lm.Words vs :=
  ⟨fun w hw => h w (by simp [hw]), fun w hw => h w (by simp [hw])⟩

theorem Words.sublist {lm : NgramLM Id S} (hv : lm.Words vs) (h : us.Sublist vs) : lm.Words us :=
  fun w hw => hv w (h.subset hw)

theorem Ctx.append {lm : NgramLM Id S} {c ws : List Id} (hc : lm.Ctx c) (hw : lm.Words ws) : lm.Ctx (c ++ ws) := by
  obtain ⟨u, rfl, hu⟩ := hc
  exact ⟨u ++ ws, by simp, hu.append hw⟩

variable [DecidableEq Id] (shortenLeft : Bool)

/-- Two histories that no continuation tells apart; with left shortening, neither by the backoffs it pays. -/
def Same (h h' : List Id) : Prop := ∀ zs, (∀ ws, lm.sequenceProb (h ++ zs) ws = lm.sequenceProb (h' ++ zs) ws) ∧
  (shortenLeft = true → ∀ v, lm.bowInterval (h ++ zs) v = lm.bowInterval (h' ++ zs) v)

/-- What `lm_phrase` relies on. -/
structure Laws (ctxlen : Nat) (shortenLeft shortenRight : Bool) : Prop where
  order : ∀ c l, ctxlen ≤ l.length → lm.Same shortenLeft (c ++ l) l
  suffix : shortenRight = true → ∀ l, l.length ≤ ctxlen → lm.Same shortenLeft l (lm.longestSuffix l)
  full : shortenLeft = true → ∀ c l, ctxlen ≤ l.length → lm.bowInterval c l = 1
  drop : shortenLeft = true → ∀ l, lm.Words l → l.length ≤ ctxlen → lm.longestPrefix l ≠ l →
    (∀ c, lm.Ctx c → ∀ ws, lm.Words ws → lm.sequenceProb (c ++ lm.longestPrefix l)
      (l.drop (lm.longestPrefix l).length ++ ws) = lm.bowInterval c (lm.longestPrefix l) *
        lm.sequenceProb (lm.longestPrefix l) (l.drop (lm.longestPrefix l).length ++ ws)) ∧
    ∀ c, lm.Same shortenLeft (c ++ l) l ∧ ∀ ws, lm.bowInterval c (l ++ ws) = 1

variable {lm} {shortenLeft}

theorem Same.refl (h : List Id) : lm.Same shortenLeft h h := fun _ => ⟨fun _ => rfl, fun _ _ => rfl⟩

theorem Same.trans {h1 h2 h3 : List Id} (h : lm.Same shortenLeft h1 h2) (h' : lm.Same shortenLeft h2 h3) :
    lm.Same shortenLeft h1 h3 :=
  fun zs => ⟨fun ws => ((h zs).1 ws).trans ((h' zs).1 ws), fun hs v => ((h zs).2 hs v).trans ((h' zs).2 hs v)⟩

variable {h h' : List Id}

variable (hs : lm.Same shortenLeft h h')
include hs

theorem Same.append (us : List Id) : lm.Same shortenLeft (h ++ us) (h' ++ us) := fun zs => by
  simpa only [append_assoc] using hs (us ++ zs)

theorem Same.sequenceProb (ws : List Id) : lm.sequenceProb h ws = lm.sequenceProb h' ws := by
  simpa using (hs []).1 ws

theorem Same.bowInterval (hsl : shortenLeft = true) (v : List Id) : lm.bowInterval h v = lm.bowInterval h' v := by
  simpa using (hs []).2 hsl v

end NgramLM

open NgramLM

theorem getLast?_fill {ctxlen : Nat} {x : Id} {ws : List Id} (h : ws.length < ctxlen) :
    (fillLeft ctxlen ws x).getLast? = some x := by
  obtain ⟨k, hk⟩ : ∃ k, ctxlen - ws.length = k + 1 := ⟨ctxlen - ws.length - 1, by omega⟩
  simp [fillLeft, hk, replicate_succ']

theorem dropLast_fill {ctxlen : Nat} {x : Id} {ws : List Id} (h : ws.length < ctxlen) :
    (fillLeft ctxlen ws x).dropLast = ws ++ replicate (ctxlen - ws.length - 1) x := by
  obtain ⟨k, hk⟩ : ∃ k, ctxlen - ws.length = k + 1 := ⟨ctxlen - ws.length - 1, by omega⟩
  rw [fillLeft, hk, replicate_succ', ← append_assoc, dropLast_concat]
  rfl

/-- The LM is of order `N`: `open_prob` looks at the last `N` words only. -/
def NgramLM.OfOrder (lm : NgramLM Id S) (N : Nat) : Prop :=
  ∀ l, lm.openProb l = lm.openProb (l.drop (l.length - N))

theorem NgramLM.OfOrder.openProb_append {lm : NgramLM Id S} {N : Nat} (h : lm.OfOrder N) (c : List Id) {m : List Id}
    (hm : N ≤ m.length) :
    lm.openProb (c ++ m) = lm.openProb m := by
  rw [h (c ++ m), h m]
  congr 1
  rw [drop_append, drop_eq_nil_of_le (by simp only [length_append]; omega), nil_append,
    length_append]
  congr 1
  omega

section
variable [DecidableEq Id] {lm : NgramLM Id S} {ctxlen : Nat} {shortenLeft shortenRight : Bool}

/-! ## Reading the state back -/

variable {ws : List Id}

theorem rdropWhile_fill {x : Id} (h : ∀ w ∈ ws, w ≠ x) (k : Nat) :
    (ws ++ replicate k x).rdropWhile (fun i => i = x) = ws := by
  induction k with
  | zero =>
    rw [replicate_zero, append_nil, rdropWhile_eq_self_iff]
    intro hne
    simpa using h _ (getLast_mem hne)
  | succ k ih =>
    rw [replicate_succ', ← append_assoc, rdropWhile_concat_pos _ _ _ (by simp)]
    exact ih

variable {r : List Id}

/-- A left state with too few words tells them, and whether they are all. -/
theorem gaplessWords_fill (hw : lm.Words ws) (h : ws.length < ctxlen) :
    noGap lm ⟨fillLeft ctxlen ws lm.nullId, r⟩ = true ∧
      gaplessWords lm ⟨fillLeft ctxlen ws lm.nullId, r⟩ = ws := by
  refine ⟨by simp [noGap, getLast?_fill h], ?_⟩
  rw [gaplessWords, dropLast_fill h]
  exact rdropWhile_fill (fun w hm => (hw w hm).ne_null) _

theorem leftBackoffWords_fill (hw : lm.Words ws) (h : ws.length < ctxlen) :
    noGap lm ⟨fillLeft ctxlen ws lm.boId, r⟩ = false ∧ needsLeftBackoff lm ⟨fillLeft ctxlen ws lm.boId, r⟩ = true ∧
      leftBackoffWords lm ⟨fillLeft ctxlen ws lm.boId, r⟩ = ws := by
  refine ⟨by simp [noGap, getLast?_fill h, lm.null_ne_bo.symm], by simp [needsLeftBackoff, getLast?_fill h], ?_⟩
  rw [leftBackoffWords, dropLast_fill h]
  exact rdropWhile_fill (fun w hm => (hw w hm).ne_bo) _

/-- A full left state is all words. -/
theorem leftWords_full {x : Id} (hw : lm.Words ws) (h : ws.length = ctxlen) :
    noGap lm ⟨fillLeft ctxlen ws x, r⟩ = false ∧ needsLeftBackoff lm ⟨fillLeft ctxlen ws x, r⟩ = false ∧
      leftWords lm ⟨fillLeft ctxlen ws x, r⟩ = ws := by
  have hfill : fillLeft ctxlen ws x = ws := by simp [fillLeft, h]
  have hlast : ∀ y, ws.getLast? = some y → lm.IsWord y := fun y hy => hw y (mem_of_getLast? hy)
  refine ⟨?_, ?_, ?_⟩
  · simp only [noGap, hfill, decide_eq_false_iff_not]
    exact fun hy => (hlast _ hy).ne_null rfl
  · simp only [needsLeftBackoff, hfill, decide_eq_false_iff_not]
    exact fun hy => (hlast _ hy).ne_bo rfl
  · rw [leftWords, hfill, takeWhile_eq_self_iff]
    exact fun w hm => by simp [(hw w hm).ne_null, (hw w hm).ne_bo]

variable {l : List Id}

theorem rightWords_fill (hw : lm.Words ws) (k : Nat) : rightWords lm ⟨l, replicate k lm.nullId ++ ws⟩ = ws := by
  simp only [rightWords, List.rtakeWhile, reverse_append, reverse_replicate]
  rw [takeWhile_append_of_pos fun w hm => by simp [(hw w (by simpa using hm)).ne_null]]
  simp

/-! ## Feeding words -/

theorem appendWord_word (p : Phrase Id S) {w : Id} (hw : w ≠ lm.startId) :
    appendWord lm p w = { p with phrase := p.phrase ++ [w] } := by
  simp [appendWord, hw]

theorem appendWords_words (hw : lm.Words ws) (p : Phrase Id S) :
    appendWords lm ctxlen p ws = { p with phrase := p.phrase ++ ws } := by
  have hstart : ¬ ws.head? = some lm.startId := fun h => (hw _ (mem_of_head? h)).ne_start rfl
  simp only [appendWords, hstart, if_false]
  clear hstart
  induction ws generalizing p with
  | nil => simp
  | cons w ws ih =>
    rw [foldl_cons, appendWord_word p (hw w (by simp)).ne_start]
    have := ih (fun w hm => hw w (by simp [hm])) { p with phrase := p.phrase ++ [w] }
    simpa using this

/-- Scoring word by word over at most `ctxlen` words of context is scoring the sequence. -/
theorem scoreWords_eq (laws : lm.Laws ctxlen shortenLeft shortenRight) : ∀ (ws ctx : List Id),
    scoreWords lm ctxlen ctx ws = lm.sequenceProb ctx ws
  | [], ctx => by simp [scoreWords]
  | w :: ws, ctx => by
    have hctx : lm.sequenceProb (ctx.drop (ctx.length - ctxlen)) [w] = lm.sequenceProb ctx [w] := by
      by_cases h : ctxlen ≤ ctx.length
      · have := (laws.order (ctx.take (ctx.length - ctxlen)) (ctx.drop (ctx.length - ctxlen))
          (by rw [length_drop]; omega)).sequenceProb [w]
        rw [take_append_drop] at this
        exact this.symm
      · rw [Nat.sub_eq_zero_of_le (by omega), drop_zero]
    rw [scoreWords, hctx, scoreWords_eq laws ws, ← lm.sequenceProb_cons]

/-! ## What a state stands for -/

/-- What the left words `l` of a state are worth in the context `c`: their own score, and the backoffs still to be
paid if the state ends in the backoff marker. -/
def worth (lm : NgramLM Id S) (l : List Id) (bo : Bool) (c : List Id) : S :=
  lm.sequenceProb c l * if bo then lm.bowInterval c l else 1

/-- The terminator of a left state. -/
def terminator (lm : NgramLM Id S) (bo : Bool) : Id := if bo then lm.boId else lm.nullId

/-- `l` and `bo` may be a left state: full, or shortened and marked so. -/
structure LeftState (lm : NgramLM Id S) (ctxlen : Nat) (shortenLeft : Bool) (l : List Id) (bo : Bool) : Prop where
  words : lm.Words l
  marked : bo = true → shortenLeft = true ∧ l.length < ctxlen
  full : bo = false → l.length = ctxlen

/-- A state and an inside score that stand for the words `y`. Either all words are in the state and nothing has been
scored; or the score, completed by the worth of the left words, is that of `y` in every context, and the right words
are as good a history as all of `y`. -/
inductive Represents (lm : NgramLM Id S) (ctxlen : Nat) (shortenLeft : Bool) : NgramInfo Id → S → List Id → Prop
  | whole {y r} (h : y.length < ctxlen) : Represents lm ctxlen shortenLeft ⟨fillLeft ctxlen y lm.nullId, r⟩ 1 y
  | gap {l bo r y x} (hl : LeftState lm ctxlen shortenLeft l bo) (hr : lm.Words r)
      (hy : ∀ c, lm.Ctx c → lm.Same shortenLeft (c ++ y) r ∧ x * worth lm l bo c = lm.sequenceProb c y) :
      Represents lm ctxlen shortenLeft
        ⟨fillLeft ctxlen l (terminator lm bo), replicate (ctxlen - r.length) lm.nullId ++ r⟩ x y

/-- A child with a gap: its left words are appended, the backoffs owed by them paid, and everything scored. -/
theorem useLeft_gap {bo : Bool} (hl : LeftState lm ctxlen shortenLeft l bo) (p : Phrase Id S) :
    useLeft lm ctxlen shortenLeft p ⟨fillLeft ctxlen l (terminator lm bo), r⟩ =
      finishLeft lm ctxlen shortenLeft (scorePhrase lm ctxlen
        { p with
          phrase := p.phrase ++ l
          inside := p.inside * if bo then lm.bowInterval p.phrase l else 1 }) (terminator lm bo) := by
  cases bo with
  | true =>
    obtain ⟨-, hneeds, hwords⟩ := leftBackoffWords_fill (r := r) hl.words (hl.marked rfl).2
    simp [useLeft, terminator, hneeds, hwords, appendWords_words hl.words]
  | false =>
    obtain ⟨-, hneeds, hwords⟩ := leftWords_full (r := r) (x := lm.nullId) hl.words (hl.full rfl)
    simp [useLeft, usePhrase, terminator, hneeds, hwords, appendWords_words hl.words]

/-- `append_child` of a child with a gap goes on from the child's right words. -/
theorem appendChild_gap {bo : Bool} (hl : LeftState lm ctxlen shortenLeft l bo) (hr : lm.Words r)
    (p : Phrase Id S) (k : Nat) :
    appendChild lm ctxlen shortenLeft p ⟨fillLeft ctxlen l (terminator lm bo), replicate k lm.nullId ++ r⟩ =
      { finishLeft lm ctxlen shortenLeft (scorePhrase lm ctxlen
          { p with
            phrase := p.phrase ++ l
            inside := p.inside * if bo then lm.bowInterval p.phrase l else 1 }) (terminator lm bo) with
        phrase := r
        ctxEnd := r.length } := by
  have hgap : noGap lm ⟨fillLeft ctxlen l (terminator lm bo), replicate k lm.nullId ++ r⟩ = false := by
    cases bo with
    | true => exact (leftBackoffWords_fill hl.words (hl.marked rfl).2).1
    | false => exact (leftWords_full hl.words (hl.full rfl)).1
  simp [appendChild, hgap, useLeft_gap hl, rightWords_fill hr, appendWords_words hr]

theorem appendChild_whole {y : List Id} (hy : lm.Words y) (h : y.length < ctxlen) (p : Phrase Id S) :
    appendChild lm ctxlen shortenLeft p ⟨fillLeft ctxlen y lm.nullId, r⟩ = { p with phrase := p.phrase ++ y } := by
  obtain ⟨hgap, hwords⟩ := gaplessWords_fill (r := r) hy h
  simp [appendChild, hgap, hwords, appendWords_words hy]

/-! ## A phrase whose words before `ctx_end` are accounted for -/

/-- Of the words `z` consumed so far, those after `ctx_end` are still in the buffer. The others are accounted for in
every context of `cs`, up to the factor `pend`, and the buffer is as good a history. -/
structure Scored (lm : NgramLM Id S) (shortenLeft : Bool) (cs : List Id → Prop) (pend : List Id → S) (p : Phrase Id S)
    (z : List Id) : Prop where
  ctx : p.ctxEnd ≤ p.phrase.length
  split : ∃ z₁, z = z₁ ++ p.phrase.drop p.ctxEnd ∧ ∀ c, cs c →
    lm.Same shortenLeft (c ++ z₁) (p.phrase.take p.ctxEnd) ∧ p.inside * pend c = lm.sequenceProb c z₁

section
variable {cs : List Id → Prop} {pend : List Id → S} {p : Phrase Id S} {z : List Id}

theorem Scored.append (h : Scored lm shortenLeft cs pend p z) (ws : List Id) :
    Scored lm shortenLeft cs pend { p with phrase := p.phrase ++ ws } (z ++ ws) := by
  obtain ⟨hctx, z1, hz, hc⟩ := h
  refine ⟨by simp only [length_append]; omega, z1, ?_, fun c hcs => ?_⟩
  · rw [drop_append_of_le_length hctx, ← append_assoc, ← hz]
  · rw [take_append_of_le_length hctx]
    exact hc c hcs

/-- Scoring the rest of the buffer accounts for all words. -/
theorem Scored.score (laws : lm.Laws ctxlen shortenLeft shortenRight) (h : Scored lm shortenLeft cs pend p z)
    {c : List Id} (hcs : cs c) : lm.Same shortenLeft (c ++ z) p.phrase ∧
      (scorePhrase lm ctxlen p).inside * pend c = lm.sequenceProb c z := by
  obtain ⟨-, z1, hz, hc⟩ := h
  obtain ⟨hsame, hin⟩ := hc c hcs
  constructor
  · have := hsame.append (p.phrase.drop p.ctxEnd)
    rwa [take_append_drop, append_assoc, ← hz] at this
  · simp only [scorePhrase, scoreWords_eq laws]
    rw [mul_right_comm, hin, ← hsame.sequenceProb, ← lm.sequenceProb_append, ← hz]

variable (lm ctxlen shortenLeft) in
/-- Once the left state is settled, or about to be a start of sentence, `finish_left` scores nothing. -/
theorem finishLeft_fixed {q : Phrase Id S}
    (h : q.leftDone = true ∨ q.phrase.head? = some lm.startId) (t : Id) :
    (finishLeft lm ctxlen shortenLeft q t).inside = q.inside ∧
    (finishLeft lm ctxlen shortenLeft q t).leftDone = true ∧
    (q.leftDone = true → (finishLeft lm ctxlen shortenLeft q t).left = q.left) := by
  unfold finishLeft
  by_cases hd : q.leftDone = true
  · simp [hd]
  · simp [hd, h.resolve_left hd]

/-- A child with a gap, appended to a phrase with a settled left state. -/
theorem Scored.child (laws : lm.Laws ctxlen shortenLeft shortenRight) (h : Scored lm shortenLeft cs pend p z)
    (hfix : p.leftDone = true ∨ p.phrase.head? = some lm.startId) (hctx : ∀ c, cs c → lm.Ctx (c ++ z))
    {l r y : List Id} {bo : Bool} {x : S} (hl : LeftState lm ctxlen shortenLeft l bo) (hr : lm.Words r)
    (hy : ∀ c, lm.Ctx c → lm.Same shortenLeft (c ++ y) r ∧ x * worth lm l bo c = lm.sequenceProb c y) (k : Nat)
    (q : Phrase Id S)
    (hq : q = appendChild lm ctxlen shortenLeft p
      ⟨fillLeft ctxlen l (terminator lm bo), replicate k lm.nullId ++ r⟩) :
    Scored lm shortenLeft cs pend { q with inside := q.inside * x } (z ++ y) ∧ q.leftDone = true ∧
      (p.leftDone = true → q.left = p.left) ∧ q.phrase = r := by
  rw [appendChild_gap hl hr] at hq
  obtain ⟨hin, hdone, hleft⟩ := finishLeft_fixed lm ctxlen shortenLeft
    (q := scorePhrase lm ctxlen
      { p with
        phrase := p.phrase ++ l
        inside := p.inside * if bo then lm.bowInterval p.phrase l else 1 })
    (hfix.imp id fun hhead => by simp [scorePhrase, hhead]) (terminator lm bo)
  subst hq
  refine ⟨⟨le_rfl, z ++ y, by simp, fun c hcs => ?_⟩, hdone, hleft, rfl⟩
  obtain ⟨hsame, hxy⟩ := hy (c ++ z) (hctx c hcs)
  refine ⟨by simpa using hsame, ?_⟩
  have hz := (h.score laws hcs).1
  have hzl := ((h.append l).score laws hcs).2
  have hbow : (if bo then lm.bowInterval p.phrase l else 1) = if bo then lm.bowInterval (c ++ z) l else 1 := by
    cases bo with
    | true => simpa using (hz.bowInterval (hl.marked rfl).1 l).symm
    | false => rfl
  simp only [hin]
  simp only [scorePhrase] at hzl ⊢
  rw [hbow, lm.sequenceProb_append c z y, ← hxy, worth]
  rw [lm.sequenceProb_append] at hzl
  calc _ = p.inside * scoreWords lm ctxlen ((p.phrase ++ l).take p.ctxEnd) ((p.phrase ++ l).drop p.ctxEnd) * pend c *
        (x * if bo then lm.bowInterval (c ++ z) l else 1) := by ac_rfl
    _ = _ := by rw [hzl]; ac_rfl

end

/-! ## Settling the left state -/

variable {q : Phrase Id S}

theorem finishLeft_keep (hdone : q.leftDone = false) (hhead : ¬ q.phrase.head? = some lm.startId)
    (h : shortenLeft = true → lm.longestPrefix (q.phrase.take ctxlen) = q.phrase.take ctxlen) (t : Id) :
    finishLeft lm ctxlen shortenLeft q t =
      { q with leftDone := true, left := fillLeft ctxlen (q.phrase.take ctxlen) t } := by
  cases shortenLeft with
  | true => simp [finishLeft, hdone, hhead, h rfl]
  | false => simp [finishLeft, hdone, hhead]

theorem finishLeft_short (hdone : q.leftDone = false) (hhead : ¬ q.phrase.head? = some lm.startId)
    {v : List Id} (hv : lm.longestPrefix (q.phrase.take ctxlen) = v) (h : v ≠ q.phrase.take ctxlen) (t : Id) :
    finishLeft lm ctxlen true q t =
      { q with
        leftDone := true
        left := fillLeft ctxlen v lm.boId
        inside := q.inside * lm.sequenceProb v ((q.phrase.take ctxlen).drop v.length) } := by
  simp [finishLeft, hdone, hhead, hv, h]

/-- `finish_left` on a buffer `xs` whose words from the `ctxlen`-th on have been scored: the left state is worth, with
what it scores itself, what `xs` and the backoffs announced by the terminator are worth. The one exception is a short
`xs` kept whole. -/
theorem finishLeft_open (laws : lm.Laws ctxlen shortenLeft shortenRight) {xs : List Id} (hxs : lm.Words xs) (bo : Bool)
    (hbo : bo = true → shortenLeft = true) {x : S} (hphrase : q.phrase = xs)
    (hdone : q.leftDone = false)
    (hin : q.inside = x * lm.sequenceProb (xs.take ctxlen) (xs.drop ctxlen)) :
    (bo = false ∧ xs.length < ctxlen ∧ (finishLeft lm ctxlen shortenLeft q (terminator lm bo)).inside = x ∧
      (finishLeft lm ctxlen shortenLeft q (terminator lm bo)).left = fillLeft ctxlen xs lm.nullId) ∨
    ∃ l bo', LeftState lm ctxlen shortenLeft l bo' ∧
      (finishLeft lm ctxlen shortenLeft q (terminator lm bo)).left = fillLeft ctxlen l (terminator lm bo') ∧
      (finishLeft lm ctxlen shortenLeft q (terminator lm bo)).leftDone = true ∧
      (bo = false → ∀ c, lm.Same shortenLeft (c ++ xs) xs) ∧
      ∀ c, lm.Ctx c → (finishLeft lm ctxlen shortenLeft q (terminator lm bo)).inside * worth lm l bo' c =
        x * worth lm xs bo c := by
  subst hphrase
  have hhead : ¬ q.phrase.head? = some lm.startId := fun h => (hxs _ (mem_of_head? h)).ne_start rfl
  have hw : lm.Words (q.phrase.take ctxlen) := hxs.sublist (take_sublist _ _)
  by_cases hkeep : shortenLeft = true → lm.longestPrefix (q.phrase.take ctxlen) = q.phrase.take ctxlen
  · -- nothing is dropped
    rw [finishLeft_keep hdone hhead hkeep]
    by_cases hlen : ctxlen ≤ q.phrase.length
    · have hfull : (q.phrase.take ctxlen).length = ctxlen := length_take_of_le hlen
      refine .inr ⟨q.phrase.take ctxlen, false, ⟨hw, by simp, fun _ => hfull⟩, ?_, rfl,
        fun _ c => laws.order c _ hlen, fun c hc => ?_⟩
      · simp [fillLeft, hfull]
      · have hbow : (if bo then lm.bowInterval c q.phrase else 1) = 1 := by
          cases bo with
          | true => simpa using laws.full (hbo rfl) c q.phrase hlen
          | false => rfl
        have hsplit : lm.sequenceProb c q.phrase = lm.sequenceProb c (q.phrase.take ctxlen) *
            lm.sequenceProb (q.phrase.take ctxlen) (q.phrase.drop ctxlen) := by
          rw [← (laws.order c _ hfull.ge).sequenceProb, ← lm.sequenceProb_append, take_append_drop]
        simp only [worth, hbow, hin, hsplit, Bool.false_eq_true, if_false, mul_one]
        ac_rfl
    · have htake : q.phrase.take ctxlen = q.phrase := take_of_length_le (by omega)
      have hdrop : q.phrase.drop ctxlen = [] := drop_eq_nil_of_le (by omega)
      rw [hdrop, lm.sequenceProb_nil, mul_one] at hin
      cases bo with
      | false => exact .inl ⟨rfl, by omega, hin, by simp [terminator, htake]⟩
      | true =>
        refine .inr ⟨q.phrase, true, ⟨hxs, fun _ => ⟨hbo rfl, by omega⟩, by simp⟩, by simp [htake], rfl,
          by simp, fun c _ => ?_⟩
        simp [hin]
  · -- the words after the longest known prefix are dropped, and scored now
    obtain ⟨rfl, hne⟩ := Classical.not_imp.1 hkeep
    have hlen : (q.phrase.take ctxlen).length ≤ ctxlen := length_take_le _ _
    obtain ⟨hdrop, hone⟩ := laws.drop rfl _ hw hlen hne
    have happ := lm.longestPrefix_append_drop (q.phrase.take ctxlen)
    generalize hv : lm.longestPrefix (q.phrase.take ctxlen) = v at hdrop happ hne
    rw [finishLeft_short hdone hhead hv hne]
    generalize hd : (q.phrase.take ctxlen).drop v.length = d at hdrop happ
    have hvlt : v.length < ctxlen := by
      have hdne : d ≠ [] := by
        rintro rfl
        exact hne (by simpa using happ)
      have h1 := congrArg List.length happ
      have h2 := length_pos_of_ne_nil hdne
      rw [length_append] at h1
      omega
    have hwv : lm.Words v ∧ lm.Words d := Words.of_append (happ ▸ hw)
    refine .inr ⟨v, true, ⟨hwv.1, fun _ => ⟨rfl, hvlt⟩, by simp⟩, by simp [terminator], rfl, fun _ c => ?_, fun c hc => ?_⟩
    · have := ((hone c).1).append (q.phrase.drop ctxlen)
      rwa [append_assoc, take_append_drop] at this
    have hxs' : q.phrase = v ++ (d ++ q.phrase.drop ctxlen) := by rw [← append_assoc, happ, take_append_drop]
    have hbow : (if bo then lm.bowInterval c q.phrase else 1) = 1 := by
      cases bo with
      | true => simpa using (hone c).2 (q.phrase.drop ctxlen)
      | false => rfl
    have hsplit : lm.sequenceProb c q.phrase = lm.sequenceProb c v * (lm.bowInterval c v *
        (lm.sequenceProb v d * lm.sequenceProb (q.phrase.take ctxlen) (q.phrase.drop ctxlen))) := by
      conv_lhs => rw [hxs', lm.sequenceProb_append]
      rw [hdrop c hc _ (hxs.sublist (drop_sublist _ _)), lm.sequenceProb_append v d, happ]
    simp only [worth, hbow, hin, hsplit, mul_one, if_true]
    ac_rfl

/-! ## The phrase of an item below the top -/

/-- The phrase after the words `z`: all of them still in the buffer, or the left state settled and the rest accounted
for. -/
inductive Inv (lm : NgramLM Id S) (ctxlen : Nat) (shortenLeft : Bool) : Phrase Id S → List Id → Prop
  | fresh {z left} : Inv lm ctxlen shortenLeft ⟨z, ctxlen, false, left, 1⟩ z
  | done {p z l bo} (hdone : p.leftDone = true) (hleft : p.left = fillLeft ctxlen l (terminator lm bo))
      (hl : LeftState lm ctxlen shortenLeft l bo) (hw : lm.Words p.phrase)
      (h : Scored lm shortenLeft lm.Ctx (worth lm l bo) p z) : Inv lm ctxlen shortenLeft p z

section
variable {p : Phrase Id S} {z : List Id}

theorem Inv.append (h : Inv lm ctxlen shortenLeft p z) (hw : lm.Words ws) :
    Inv lm ctxlen shortenLeft { p with phrase := p.phrase ++ ws } (z ++ ws) := by
  cases h with
  | fresh => exact .fresh
  | done hdone hleft hl hwp h => exact .done hdone hleft hl (hwp.append hw) (h.append ws)

variable (laws : lm.Laws ctxlen shortenLeft shortenRight)
include laws

/-- `append_child` keeps the invariant. -/
theorem Inv.child (h : Inv lm ctxlen shortenLeft p z)
    (hz : lm.Words z) {info : NgramInfo Id} {x : S} {y : List Id} (hy : lm.Words y)
    (hrep : Represents lm ctxlen shortenLeft info x y) (q : Phrase Id S)
    (hq : q = appendChild lm ctxlen shortenLeft p info) :
    Inv lm ctxlen shortenLeft { q with inside := q.inside * x } (z ++ y) := by
  cases hrep with
  | whole hlen =>
    rw [appendChild_whole hy hlen] at hq
    subst hq
    simpa using h.append hy
  | @gap l bo r _ _ hl hr hrep =>
    cases h with
    | done hdone hleft hl' hw h =>
      obtain ⟨hs, hd, hlf, hph⟩ := h.child laws (.inl hdone) (fun c hc => hc.append hz) hl hr hrep _ q hq
      exact .done hd ((hlf hdone).trans hleft) hl' (hph ▸ hr) hs
    | @fresh _ left =>
      rw [appendChild_gap hl hr] at hq
      -- the first child with a gap settles the left state
      obtain ⟨rfl, hlen, -⟩ | ⟨l', bo', hl', hleft, hdone, -, hin⟩ := finishLeft_open laws (hz.append hl.words)
        bo (fun hb => (hl.marked hb).1) (x := if bo then lm.bowInterval z l else 1)
        (q := scorePhrase lm ctxlen
          ⟨z ++ l, ctxlen, false, left, 1 * if bo then lm.bowInterval z l else 1⟩) rfl rfl
        (by simp [scorePhrase, scoreWords_eq laws])
      · have := hl.full rfl
        simp only [length_append] at hlen
        omega
      · subst hq
        refine .done hdone hleft hl' hr ⟨le_rfl, z ++ y, by simp, fun c hc => ?_⟩
        obtain ⟨hsame, hx⟩ := hrep (c ++ z) (hc.append hz)
        refine ⟨by simpa using hsame, ?_⟩
        have hbow : (if bo then lm.bowInterval (c ++ z) l else 1) =
            (if bo then lm.bowInterval z l else 1) * if bo then lm.bowInterval c (z ++ l) else 1 := by
          cases bo with
          | true => simpa using lm.bowInterval_append c z l
          | false => simp
        have hin := hin c hc
        rw [lm.sequenceProb_append c z y, ← hx]
        simp only [worth, hbow, lm.sequenceProb_append c z l] at hin ⊢
        rw [mul_right_comm, hin]
        ac_rfl

/-- `finish_right`: the right words are as good a history as the buffer. -/
theorem finishRight_spec (hw : lm.Words p.phrase) :
    ∃ r, finishRight lm ctxlen shortenRight p = replicate (ctxlen - r.length) lm.nullId ++ r ∧ lm.Words r ∧
      lm.Same shortenLeft p.phrase r := by
  have hend : ¬ p.phrase.getLast? = some lm.endId := fun h => (hw _ (mem_of_getLast? h)).ne_end rfl
  have hlast : lm.Same shortenLeft p.phrase (p.phrase.drop (p.phrase.length - ctxlen)) := by
    by_cases h : ctxlen ≤ p.phrase.length
    · have := laws.order (p.phrase.take (p.phrase.length - ctxlen)) (p.phrase.drop (p.phrase.length - ctxlen))
        (by rw [length_drop]; omega)
      rwa [take_append_drop] at this
    · rw [Nat.sub_eq_zero_of_le (by omega)]
      exact Same.refl _
  have hwl : lm.Words (p.phrase.drop (p.phrase.length - ctxlen)) := hw.sublist (drop_sublist _ _)
  cases hsr : shortenRight with
  | false => exact ⟨_, by simp [finishRight, hend], hwl, hlast⟩
  | true =>
    refine ⟨lm.longestSuffix (p.phrase.drop (p.phrase.length - ctxlen)), by simp [finishRight, hend],
      hwl.sublist (lm.longestSuffix_suffix _).sublist, hlast.trans ?_⟩
    exact laws.suffix hsr (p.phrase.drop (p.phrase.length - ctxlen)) (by rw [length_drop]; omega)

/-- `finish_last_phrase` of an item below the top. -/
theorem Inv.finish (h : Inv lm ctxlen shortenLeft p z)
    (hz : lm.Words z) : Represents lm ctxlen shortenLeft (finishLastPhrase lm ctxlen shortenLeft shortenRight p).1
      (finishLastPhrase lm ctxlen shortenLeft shortenRight p).2 z := by
  have hphrase : (usePhrase lm ctxlen shortenLeft p).phrase = p.phrase := by
    unfold usePhrase finishLeft
    dsimp only
    split_ifs <;> rfl
  cases h with
  | done hdone hleft hl hw h =>
    obtain ⟨hin, -, hlf⟩ := finishLeft_fixed lm ctxlen shortenLeft
      (q := scorePhrase lm ctxlen p) (.inl hdone) lm.nullId
    obtain ⟨r, hr, hwr, hsame⟩ := finishRight_spec (p := usePhrase lm ctxlen shortenLeft p) laws (hphrase ▸ hw)
    simp only [finishLastPhrase, hr]
    have hleft' : (usePhrase lm ctxlen shortenLeft p).left = fillLeft ctxlen _ (terminator lm _) :=
      (hlf hdone).trans hleft
    rw [hleft']
    refine .gap hl hwr fun c hc => ?_
    obtain ⟨hs, hx⟩ := h.score laws hc
    exact ⟨hs.trans (hphrase ▸ hsame), by rw [usePhrase, hin]; exact hx⟩
  | @fresh _ left =>
    obtain ⟨r, hr, hwr, hsame⟩ := finishRight_spec
      (p := usePhrase lm ctxlen shortenLeft (⟨z, ctxlen, false, left, 1⟩ : Phrase Id S)) laws (hphrase ▸ hz)
    rw [hphrase] at hsame
    simp only [finishLastPhrase, hr]
    obtain ⟨-, hlen, hin, hleft⟩ | ⟨l, bo, hl, hleft, -, hctx, hin⟩ := finishLeft_open laws hz false (by simp)
      (x := 1) (q := scorePhrase lm ctxlen ⟨z, ctxlen, false, left, 1⟩) rfl rfl (by simp [scorePhrase, scoreWords_eq laws])
    · rw [show (usePhrase lm ctxlen shortenLeft (⟨z, ctxlen, false, left, 1⟩ : Phrase Id S)).left = _ from hleft,
        show (usePhrase lm ctxlen shortenLeft (⟨z, ctxlen, false, left, 1⟩ : Phrase Id S)).inside = 1 from hin]
      exact .whole hlen
    · rw [show (usePhrase lm ctxlen shortenLeft (⟨z, ctxlen, false, left, 1⟩ : Phrase Id S)).left = _ from hleft]
      refine .gap hl hwr fun c hc => ⟨(hctx rfl c).trans hsame, (hin c hc).trans ?_⟩
      simp [worth]

end

/-! ## The toplevel phrase -/

/-- The phrase of the toplevel item after the words `z`: its left state is a start of sentence. -/
structure InvTop (lm : NgramLM Id S) (shortenLeft : Bool) (p : Phrase Id S) (z : List Id) : Prop where
  fixed : p.leftDone = true ∨ p.phrase.head? = some lm.startId
  scored : Scored lm shortenLeft (fun c => c = [lm.startId]) (fun _ => 1) p z

section
variable {p : Phrase Id S} {z : List Id}

theorem InvTop.append (h : InvTop lm shortenLeft p z) (ws : List Id) :
    InvTop lm shortenLeft { p with phrase := p.phrase ++ ws } (z ++ ws) :=
  ⟨h.fixed.imp id fun hhead => by simp [hhead], h.scored.append ws⟩

theorem InvTop.child (laws : lm.Laws ctxlen shortenLeft shortenRight) (h : InvTop lm shortenLeft p z)
    (hz : lm.Words z) {info : NgramInfo Id} {x : S} {y : List Id} (hy : lm.Words y)
    (hrep : Represents lm ctxlen shortenLeft info x y) (q : Phrase Id S)
    (hq : q = appendChild lm ctxlen shortenLeft p info) :
    InvTop lm shortenLeft { q with inside := q.inside * x } (z ++ y) := by
  cases hrep with
  | whole hlen =>
    rw [appendChild_whole hy hlen] at hq
    subst hq
    simpa using h.append y
  | gap hl hr hrep =>
    obtain ⟨hs, hd, -, -⟩ := h.scored.child laws h.fixed (by rintro _ rfl; exact ⟨z, rfl, hz⟩) hl hr hrep _ q hq
    exact ⟨.inl hd, hs⟩

/-- `finish_last_phrase` of the toplevel item. -/
theorem InvTop.finish (laws : lm.Laws ctxlen shortenLeft shortenRight) (h : InvTop lm shortenLeft p z) :
    (finishLastPhrase lm ctxlen shortenLeft shortenRight p).2 = lm.sequenceProb [lm.startId] z := by
  obtain ⟨hin, -, -⟩ := finishLeft_fixed lm ctxlen shortenLeft
    (q := scorePhrase lm ctxlen p) h.fixed lm.nullId
  have := (h.scored.score laws rfl).2
  rw [mul_one] at this
  rw [← this]
  exact hin

end

/-! ## The induction over the derivation -/

/-- An item whose lm string has been consumed with the invariant stands for its yield. -/
theorem represents_of_feed (laws : lm.Laws ctxlen shortenLeft shortenRight) {str : LmStr Id} (hw : lm.Words str.yield)
    (h : Inv lm ctxlen shortenLeft (feed lm ctxlen shortenLeft shortenRight str (.reset ctxlen)) ([] ++ str.yield))
    {d : LmDeriv Id} (hd : computeNgrams lm ctxlen shortenLeft shortenRight d =
      finishLastPhrase lm ctxlen shortenLeft shortenRight (feed lm ctxlen shortenLeft shortenRight str (.reset ctxlen))) :
    Represents lm ctxlen shortenLeft (computeNgrams lm ctxlen shortenLeft shortenRight d).1
      (computeNgrams lm ctxlen shortenLeft shortenRight d).2 str.yield := by
  rw [hd]
  exact h.finish laws hw

theorem inv_appendWord (p : Phrase Id S) (z : List Id) (w : Id) (hw : lm.IsWord w) (h : Inv lm ctxlen shortenLeft p z) :
    Inv lm ctxlen shortenLeft (appendWord lm p w) (z ++ [w]) := by
  rw [appendWord_word p hw.ne_start]
  exact h.append (by simpa [Words] using hw)

mutual

/-- The state of every item stands for its yield. -/
theorem computeNgrams_represents (laws : lm.Laws ctxlen shortenLeft shortenRight) : ∀ (d : LmDeriv Id),
    lm.Words d.yield → Represents lm ctxlen shortenLeft (computeNgrams lm ctxlen shortenLeft shortenRight d).1
      (computeNgrams lm ctxlen shortenLeft shortenRight d).2 d.yield
  | .node .nil, hw => represents_of_feed laws hw .fresh (by simp [computeNgrams])
  | .node (.word w rest), hw =>
    represents_of_feed laws hw (feed_inv laws (.word w rest) hw inv_appendWord
      (fun _ _ _ _ _ hz hy h hrep => h.child laws hz hy hrep _ rfl) (.reset ctxlen) [] (by simp [Words]) .fresh)
      (by simp [computeNgrams])
  | .node (.child kid .nil), hw => by
    -- the identity lm string: the child's state is the item's
    have hyield : (LmDeriv.node (.child kid .nil)).yield = kid.yield := by simp [LmDeriv.yield, LmStr.yield]
    rw [hyield] at hw ⊢
    simpa [computeNgrams] using computeNgrams_represents laws kid hw
  | .node (.child kid (.word w rest)), hw =>
    represents_of_feed laws hw (feed_inv laws (.child kid (.word w rest)) hw inv_appendWord
      (fun _ _ _ _ _ hz hy h hrep => h.child laws hz hy hrep _ rfl) (.reset ctxlen) [] (by simp [Words]) .fresh)
      (by simp [computeNgrams])
  | .node (.child kid (.child kid' rest)), hw =>
    represents_of_feed laws hw (feed_inv laws (.child kid (.child kid' rest)) hw inv_appendWord
      (fun _ _ _ _ _ hz hy h hrep => h.child laws hz hy hrep _ rfl) (.reset ctxlen) [] (by simp [Words]) .fresh)
      (by simp [computeNgrams])

/-- An invariant that `append_word` and `append_child` keep holds after the whole lm string. -/
theorem feed_inv (laws : lm.Laws ctxlen shortenLeft shortenRight) : ∀ (str : LmStr Id), lm.Words str.yield →
    ∀ {I : Phrase Id S → List Id → Prop},
    (∀ p z w, lm.IsWord w → I p z → I (appendWord lm p w) (z ++ [w])) →
    (∀ p z info x y, lm.Words z → lm.Words y → I p z → Represents lm ctxlen shortenLeft info x y →
      I { appendChild lm ctxlen shortenLeft p info with
        inside := (appendChild lm ctxlen shortenLeft p info).inside * x } (z ++ y)) →
    ∀ p z, lm.Words z → I p z → I (feed lm ctxlen shortenLeft shortenRight str p) (z ++ str.yield)
  | .nil, _, I, _, _, p, z, _, h => by simpa [feed, LmStr.yield] using h
  | .word w rest, hw, I, happ, hchild, p, z, hz, h => by
    have hw' : lm.IsWord w ∧ lm.Words rest.yield := by simpa [LmStr.yield, Words] using hw
    have := feed_inv laws rest hw'.2 happ hchild (appendWord lm p w) (z ++ [w])
      (hz.append (by simpa [Words] using hw'.1)) (happ p z w hw'.1 h)
    simpa [feed, LmStr.yield] using this
  | .child kid rest, hw, I, happ, hchild, p, z, hz, h => by
    obtain ⟨hwk, hwr⟩ : lm.Words kid.yield ∧ lm.Words rest.yield := Words.of_append (by simpa [LmStr.yield] using hw)
    have hrep := computeNgrams_represents laws kid hwk
    have := feed_inv laws rest hwr happ hchild _ (z ++ kid.yield) (hz.append hwk) (hchild p z _ _ _ hz hwk h hrep)
    simpa [feed, LmStr.yield] using this

end

/-- **The inside factors of a derivation multiply to the LM score of its yield.** Under the laws, the toplevel item
of any derivation over ordinary words has accumulated `sequence_prob` of the words and the end marker, given the start
marker. -/
theorem computeToplevel_inside (laws : lm.Laws ctxlen shortenLeft shortenRight) (d : LmDeriv Id)
    (hw : lm.Words d.yield) : (computeToplevel lm ctxlen shortenLeft shortenRight d).2 =
      lm.sequenceProb [lm.startId] (d.yield ++ [lm.endId]) := by
  obtain ⟨str⟩ := d
  have hstart : InvTop lm shortenLeft (appendWord lm (.reset ctxlen) lm.startId : Phrase Id S) [] := by
    refine ⟨.inr rfl, ⟨by simp [appendWord], [], by simp [appendWord, Phrase.reset], ?_⟩⟩
    rintro _ rfl
    exact ⟨by simpa [appendWord, Phrase.reset] using Same.refl _, by simp [appendWord, Phrase.reset]⟩
  have hfed := feed_inv laws str hw (I := InvTop lm shortenLeft)
    (fun p z w hw h => by rw [appendWord_word p hw.ne_start]; exact h.append [w])
    (fun _ _ _ _ _ hz hy h hrep => h.child laws hz hy hrep _ rfl) _ [] (by simp [Words]) hstart
  have hend := hfed.append [lm.endId]
  rw [← appendWord_word _ lm.start_ne_end.symm] at hend
  exact hend.finish laws

/-! ## Without shortening -/

variable {m : List Id}

theorem afterUnk_append_of_mem (c : List Id) (h : lm.unkId ∈ m) : lm.afterUnk (c ++ m) = lm.afterUnk m := by
  have hne : m.reverse.takeWhile (fun i => i ≠ lm.unkId) ≠ m.reverse := by
    intro he
    simpa using takeWhile_eq_self_iff.1 he lm.unkId (by simpa using h)
  simp only [afterUnk, reverse_append, takeWhile_append]
  have hlen : (m.reverse.takeWhile fun i => i ≠ lm.unkId).length ≠ m.reverse.length := fun hl =>
    hne ((List.takeWhile_prefix _).eq_of_length hl)
  rw [if_neg (by simpa using hlen)]

theorem afterUnk_append_of_notMem (c : List Id) (h : lm.unkId ∉ m) :
    lm.afterUnk (c ++ m) = lm.afterUnk c ++ m := by
  simp only [afterUnk, reverse_append]
  rw [takeWhile_append_of_pos, reverse_append, reverse_reverse]
  intro i hi
  have hne : i ≠ lm.unkId := by
    rintro rfl
    exact h (by simpa using hi)
  simpa using hne

variable {N : Nat}

/-- The unknown-word rules do not look further back than `open_prob` does. -/
theorem NgramLM.OfOrder.probUnmixed_append (hN : 1 ≤ N) (h : lm.OfOrder N) (c : List Id)
    (hm : N ≤ m.length) : lm.probUnmixed (c ++ m) = lm.probUnmixed m := by
  have hopen := h.openProb_append c hm
  have hne : m ≠ [] := by
    rintro rfl
    simp only [length_nil] at hm
    omega
  unfold probUnmixed
  by_cases hu : lm.unkId ∈ m
  · simp [hu, hopen, afterUnk_append_of_mem c hu]
  · rw [afterUnk_append_of_notMem c hu, h.openProb_append (lm.afterUnk c) hm, hopen]
    simp [hu, hne]

theorem NgramLM.OfOrder.sequenceProb_append_left (hN : 1 ≤ N) (h : lm.OfOrder N) (c : List Id)
    (hl : N ≤ l.length + 1) (ws : List Id) : lm.sequenceProb (c ++ l) ws = lm.sequenceProb l ws := by
  have hun : lm.sequenceProbUnmixed (c ++ l) ws = lm.sequenceProbUnmixed l ws := by
    induction ws generalizing l with
    | nil => rfl
    | cons w ws ih =>
      rw [sequenceProbUnmixed, sequenceProbUnmixed, append_assoc,
        h.probUnmixed_append hN c (by simpa using hl), ih (by simp only [length_append, length_singleton]; omega)]
  simp [sequenceProb, hun]

/-- With shortening off, being of order `N` is all that is needed. -/
theorem NgramLM.OfOrder.laws (hN : 1 ≤ N) (h : lm.OfOrder N) : lm.Laws (N - 1) false false where
  order c l hl zs := by
    refine ⟨fun ws => ?_, by simp⟩
    rw [append_assoc]
    exact h.sequenceProb_append_left hN c (by simp only [length_append]; omega) ws
  suffix := by simp
  full := by simp
  drop := by simp

/-- **Without shortening the LM score does not depend on the derivation.** For every order `N` and every LM of that
order, the inside factors of a derivation, built up to its toplevel item, multiply to `sequence_prob` of the sentence
it yields; so any two derivations of one yield score alike. -/
theorem computeToplevel_unshortened (N : Nat) (hN : 1 ≤ N) (lm : NgramLM Id S) (horder : lm.OfOrder N) (d : LmDeriv Id)
    (hw : lm.Words d.yield) :
    (computeToplevel lm (N - 1) false false d).2 = lm.sequenceProb [lm.startId] (d.yield ++ [lm.endId]) ∧
    ∀ d' : LmDeriv Id, d'.yield = d.yield →
      (computeToplevel lm (N - 1) false false d').2 = (computeToplevel lm (N - 1) false false d).2 := by
  have hlaws := horder.laws hN
  have hd := computeToplevel_inside hlaws d hw
  refine ⟨hd, fun d' he => ?_⟩
  rw [hd, computeToplevel_inside hlaws d' (he ▸ hw), he]

end

/-- A bigram LM on natural numbers: a word's score is its id plus that of the word before it, plus one. -/
def bigramSum : NgramLM Nat Nat where
  opt := ⟨true, false, 1, by simp⟩
  weigh := MonoidHom.id Nat
  openProb l := (l.drop (l.length - 2)).sum + 1
  findBow _ := none
  maxOrder := 2
  unkId := 4
  startId := 0
  endId := 1
  nullId := 2
  boId := 3
  start_ne_null := by decide
  start_ne_bo := by decide
  start_ne_end := by decide
  end_ne_null := by decide
  end_ne_bo := by decide
  null_ne_bo := by decide

/-- `5 [6 7] 8`, with the bracketed words below a child: the start marker is context only, so the four words and the
end marker score `6 * 12 * 14 * 16 * 10`. -/
theorem computeToplevel_unshortened_bigramSum :
    (computeToplevel bigramSum 1 false false
      (.node (.word 5 (.child (.node (.word 6 (.word 7 .nil))) (.word 8 .nil))))).2 = 6 * 12 * 14 * 16 * 10 := by
  refine ((computeToplevel_unshortened 2 (by decide) bigramSum (fun l => ?_) _ ?_).1).trans (by decide)
  · simp only [bigramSum, drop_drop, length_drop]
    congr 3
    omega
  · intro w hw
    have : w = 5 ∨ w = 6 ∨ w = 7 ∨ w = 8 := by simpa [LmDeriv.yield, LmStr.yield] using hw
    rcases this with rfl | rfl | rfl | rfl <;> exact ⟨by decide, by decide, by decide, by decide⟩

end Sbmt.Ngram
