import Sbmt.Ngram.Exact

/-!
# Shortened LM states of a backoff LM

With shortening on, `finish_left` drops the left words after the longest known prefix `v` and marks the state with
`bo_id`; the backoffs that the words before the item will owe for `v` are paid by `append_child`, through
`bow_interval` (`lm_phrase.ipp:396-431`). `finish_right` drops the right words before the longest known suffix.

A backoff LM is a table of n-grams with a probability and a backoff weight each (`lookup_ngram`,
`biglm/pagh/biglm.cpp:302`). Words dropped on the right are never missed. On the left, `bow_interval` pays the bare
backoffs, where `sequence_prob` has the first dropped word's probability, backoffs included, raised to `own_weight`
(and, in a closed LM, no backoffs at all if that word is unknown). `shorten_exact_iff` says what must hold of the LM
for the two to agree.
-/

namespace Sbmt.Ngram

open List Option

universe u

open NgramLM

/-! ## The LM as a table -/

/-- A backoff table: stored n-grams, with probability and backoff weight, closed under prefixes and suffixes. Unigrams
are indexed by word id, so every id has one (`lookup_qprob`, `biglm.cpp:178`). -/
structure BackoffTable (Id : Type u) (S : Type*) where
  order : Nat
  entry : List Id → Option (S × S)
  bounded : ∀ l, (entry l).isSome → l ≠ [] ∧ l.length ≤ order
  unigram : ∀ w, (entry [w]).isSome
  prefix_closed : ∀ l w, l ≠ [] → (entry (l ++ [w])).isSome → (entry l).isSome
  suffix_closed : ∀ w l, l ≠ [] → (entry (w :: l)).isSome → (entry l).isSome

namespace BackoffTable

variable {Id : Type u} {S : Type*} (T : BackoffTable Id S)

/-- `lookup_bow`: the backoff weight of a stored n-gram. -/
def bow (l : List Id) : Option S := (T.entry l).map Prod.snd

/-- A context that backs off to its tail at no cost, whatever follows: too long, or not stored. -/
def Dead (h : List Id) : Prop := h ≠ [] ∧ (T.order ≤ h.length ∨ T.entry h = none)

section
variable {T}

theorem entry_append_none {x : List Id} (hne : x ≠ []) (hx : T.entry x = none) : ∀ c, T.entry (c ++ x) = none
  | [] => hx
  | y :: c => by
    by_contra hsome
    have := T.suffix_closed y (c ++ x) (by simp [hne]) (isSome_iff_ne_none.2 hsome)
    simp [entry_append_none hne hx c] at this

variable {h : List Id}

theorem Dead.cons (hd : T.Dead h) (y : Id) : T.Dead (y :: h) := by
  obtain ⟨hne, hlen | hnone⟩ := hd
  · exact ⟨by simp, .inl (by simp only [length_cons]; omega)⟩
  · exact ⟨by simp, .inr (entry_append_none hne hnone [y])⟩

theorem Dead.concat (hd : T.Dead h) (z : Id) : T.Dead (h ++ [z]) := by
  obtain ⟨hne, hlen | hnone⟩ := hd
  · exact ⟨by simp, .inl (by simp only [length_append]; omega)⟩
  · refine ⟨by simp, .inr ?_⟩
    by_contra hsome
    have := T.prefix_closed h z hne (isSome_iff_ne_none.2 hsome)
    simp [hnone] at this

theorem Dead.append (hd : T.Dead h) (zs : List Id) : T.Dead (h ++ zs) := by
  induction zs generalizing h with
  | nil => simpa using hd
  | cons z zs ih => simpa using ih (hd.concat z)

theorem Dead.prepend (hd : T.Dead h) (c : List Id) : T.Dead (c ++ h) := by
  induction c with
  | nil => simpa using hd
  | cons y c ih => exact ih.cons y
end

variable [CommGroup S]

/-- `lookup_ngram` (`biglm.cpp:302`): the probability of the longest stored n-gram, times the backoffs of the
contexts given up on the way. -/
def lookupNgram : List Id → S
  | [] => 1
  | i :: rest =>
    match T.entry (i :: rest) with
    | some (p, _) => p
    | none => (T.bow (i :: rest).dropLast).getD 1 * lookupNgram rest

/-- `open_prob_len_raw` (`big_ngram_lm.hpp:57`): the last `order` words are looked up. -/
def openProb (l : List Id) : S := T.lookupNgram (l.drop (l.length - T.order))

variable {T}

/-- The n-gram over a dead context is not stored, and the context has no backoff. -/
theorem openProb_dead {y : Id} {l : List Id} (hd : T.Dead (y :: l)) (w : Id) :
    T.openProb (y :: l ++ [w]) = T.openProb (l ++ [w]) := by
  unfold openProb
  by_cases hlen : T.order ≤ (y :: l).length
  · have : (y :: l ++ [w]).length - T.order = ((l ++ [w]).length - T.order) + 1 := by
      simp only [length_append, length_cons, length_nil] at hlen ⊢
      omega
    rw [this, cons_append, drop_succ_cons]
  · have hnone := hd.2.resolve_left hlen
    have hnone' : T.entry (y :: l ++ [w]) = none := by
      by_contra hsome
      have := T.prefix_closed (y :: l) w (by simp) (isSome_iff_ne_none.2 hsome)
      simp [hnone] at this
    have h1 : (y :: l ++ [w]).length - T.order = 0 := by
      simp only [length_append, length_cons, length_nil] at hlen ⊢
      omega
    have h2 : (l ++ [w]).length - T.order = 0 := by
      simp only [length_append, length_cons, length_nil] at hlen ⊢
      omega
    rw [h1, h2, drop_zero, drop_zero, cons_append, lookupNgram, ← cons_append, hnone']
    have hdrop : (y :: l ++ [w]).dropLast = y :: l := dropLast_concat
    simp only [hdrop, bow, hnone, map_none, getD_none, one_mul]

end BackoffTable

/-- The words `ws`, then the rest of an lm string. -/
def LmStr.ofWords {Id : Type u} : List Id → LmStr Id → LmStr Id
  | [], rest => rest
  | w :: ws, rest => .word w (ofWords ws rest)

theorem LmStr.yield_ofWords {Id : Type u} : ∀ (ws : List Id) (rest : LmStr Id), (LmStr.ofWords ws rest).yield = ws ++ rest.yield
  | [], _ => rfl
  | w :: ws, rest => by simp [ofWords, yield, yield_ofWords ws rest]

/-- `<s> u [v z] </s>`, with `v z` below a child. -/
def shortened {Id : Type u} (u v : List Id) (z : Id) : LmDeriv Id :=
  .node (.ofWords u (.child (.node (.ofWords (v ++ [z]) .nil)) .nil))

theorem yield_shortened {Id : Type u} (u v : List Id) (z : Id) : (shortened u v z).yield = u ++ (v ++ [z]) := by
  simp [shortened, LmDeriv.yield, LmStr.yield_ofWords, LmStr.yield]

section
variable {Id : Type u} {S : Type*} [CommGroup S]

/-- The LM reads its probabilities and backoffs from the table (`big_ngram_lm`). -/
structure NgramLM.IsBackoff (lm : NgramLM Id S) (T : BackoffTable Id S) : Prop where
  openProb : ∀ l, lm.openProb l = T.openProb l
  findBow : ∀ l, lm.findBow l = T.bow l
  maxOrder : lm.maxOrder = T.order

variable {lm : NgramLM Id S} {T : BackoffTable Id S}

theorem NgramLM.IsBackoff.ofOrder (hT : lm.IsBackoff T) : lm.OfOrder T.order := by
  intro l
  rw [hT.openProb, hT.openProb, BackoffTable.openProb, BackoffTable.openProb, drop_drop, length_drop]
  congr 2
  omega

/-! ## The longest known prefix -/

variable {l : List Id}

/-- A shortened prefix is stored, and one word more is not. -/
theorem longestPrefixRaw_spec (hT : lm.IsBackoff T) (hl : l ≠ []) : ∀ k, 1 ≤ k → k ≤ l.length →
    ∃ j, 1 ≤ j ∧ j ≤ k ∧ lm.longestPrefixRaw l k = l.take j ∧ (T.entry (l.take j)).isSome ∧
      (j < k → T.entry (l.take (j + 1)) = none)
  | 1, _, _ => by
    obtain ⟨w, l, rfl⟩ := exists_cons_of_ne_nil hl
    have := T.unigram w
    exact ⟨1, le_rfl, le_rfl, by simp [longestPrefixRaw, hT.findBow, BackoffTable.bow, this], by simpa using this, by simp⟩
  | k + 2, _, hk => by
    by_cases hs : (T.entry (l.take (k + 2))).isSome
    · exact ⟨k + 2, by omega, le_rfl, by simp [longestPrefixRaw, hT.findBow, BackoffTable.bow, hs], hs, by simp⟩
    · obtain ⟨j, h1, hj, he, hsome, hnone⟩ := longestPrefixRaw_spec hT hl (k + 1) (by omega) (by omega)
      refine ⟨j, h1, by omega, ?_, hsome, fun hlt => ?_⟩
      · rw [longestPrefixRaw, hT.findBow, BackoffTable.bow, if_neg (by simpa using hs), he]
      · rcases Nat.lt_or_ge j (k + 1) with hlt' | hge
        · exact hnone hlt'
        · obtain rfl : j = k + 1 := by omega
          simpa using hs

/-- What `longest_prefix` leaves of a list it shortens. -/
theorem longestPrefix_spec (hT : lm.IsBackoff T) (h : lm.longestPrefix l ≠ l) :
    ∃ z d, l = lm.longestPrefix l ++ z :: d ∧ lm.longestPrefix l ≠ [] ∧ (T.entry (lm.longestPrefix l)).isSome ∧
      T.entry (lm.longestPrefix l ++ [z]) = none := by
  have hl : l ≠ [] := by
    rintro rfl
    exact h rfl
  have hpos := length_pos_of_ne_nil hl
  obtain ⟨j, h1, hj, he, hsome, hnone⟩ := longestPrefixRaw_spec hT hl l.length hpos le_rfl
  have hv : lm.longestPrefix l = l.take j := he
  rw [hv] at h ⊢
  have hlt : j < l.length := by
    rcases Nat.lt_or_ge j l.length with hlt | hge
    · exact hlt
    · exact absurd (take_of_length_le hge) h
  refine ⟨l[j], l.drop (j + 1), ?_, ?_, hsome, ?_⟩
  · rw [← drop_eq_getElem_cons hlt, take_append_drop]
  · intro hnil
    have := congrArg List.length hnil
    simp only [length_take, length_nil] at this
    omega
  · rw [← take_succ_eq_append_getElem hlt]
    exact hnone hlt

variable {z : Id} {v : List Id}

theorem longestPrefix_concat (hT : lm.IsBackoff T) (hv : v ≠ []) (hsome : (T.entry v).isSome)
    (hnone : T.entry (v ++ [z]) = none) : lm.longestPrefix (v ++ [z]) = v := by
  obtain ⟨k, hk⟩ : ∃ k, v.length = k + 1 := ⟨v.length - 1, by have := length_pos_of_ne_nil hv; omega⟩
  have htake : (v ++ [z]).take (k + 1) = v := by rw [← hk, take_left]
  have htake' : (v ++ [z]).take (k + 1 + 1) = v ++ [z] := take_of_length_le (by simp [hk])
  rw [longestPrefix, length_append, length_singleton, hk, longestPrefixRaw, htake', hT.findBow,
    BackoffTable.bow, hnone, longestPrefixRaw, htake, hT.findBow, BackoffTable.bow]
  simp [hsome]

/-! ## Histories that need not be kept -/

variable {x : List Id}

/-- Dead contexts pay no backoff. -/
theorem bowInterval_dead (hT : lm.IsBackoff T) {c : List Id} (hx : ∀ s, s <:+ c → s ≠ [] → T.Dead (s ++ x)) :
    lm.bowInterval c x = 1 := by
  have hsuf : lm.shortenHistory c x <:+ c := drop_suffix _ _
  have hlen : (lm.shortenHistory c x).length + x.length ≤ T.order - 1 ∨ lm.shortenHistory c x = [] := by
    unfold shortenHistory
    rw [hT.maxOrder, length_drop, drop_eq_nil_iff]
    omega
  unfold bowInterval
  generalize lm.shortenHistory c x = s at hlen hsuf
  induction s with
  | nil => rfl
  | cons y s ih =>
    have hlen' := hlen.resolve_right (by simp)
    simp only [length_cons] at hlen'
    have hnone : T.entry (y :: s ++ x) = none := by
      refine (hx (y :: s) hsuf (by simp)).2.resolve_left fun hle => ?_
      simp only [length_append, length_cons] at hle
      omega
    rw [bowLoop, hT.findBow, BackoffTable.bow, hnone, ih (.inl (by omega)) ((suffix_cons y s).trans hsuf)]
    simp

theorem bowInterval_full (hT : lm.IsBackoff T) (hx : T.order - 1 ≤ x.length) (c : List Id) :
    lm.bowInterval c x = 1 := by
  have : lm.shortenHistory c x = [] := by
    rw [shortenHistory, hT.maxOrder, drop_eq_nil_iff]
    omega
  rw [bowInterval, this]
  rfl

/-- Looking up an n-gram whose tail is not stored multiplies the backoffs of all longer contexts in. -/
theorem openProb_append_unstored (hT : lm.IsBackoff T) (hnone : T.entry (v ++ [z]) = none) : ∀ c,
    lm.openProb (c ++ (v ++ [z])) = lm.bowInterval c v * lm.openProb (v ++ [z])
  | [] => by simp [bowInterval, shortenHistory, bowLoop]
  | y :: c => by
    have ih := openProb_append_unstored hT hnone c
    have hsplit : lm.bowInterval (y :: c) v = lm.bowInterval c v * lm.bowInterval [y] (c ++ v) :=
      lm.bowInterval_append [y] c v
    rw [hsplit, mul_right_comm, ← ih]
    by_cases hlen : T.order ≤ (c ++ (v ++ [z])).length
    · -- the word is out of sight
      have hdrop : lm.openProb (y :: c ++ (v ++ [z])) = lm.openProb (c ++ (v ++ [z])) :=
        hT.ofOrder.openProb_append [y] hlen
      rw [hdrop, bowInterval_full hT, mul_one]
      simp only [length_append, length_singleton] at hlen ⊢
      omega
    · have hstep : lm.openProb (y :: (c ++ (v ++ [z]))) =
          (T.bow (y :: (c ++ v))).getD 1 * lm.openProb (c ++ (v ++ [z])) := by
        have hlen' : (y :: (c ++ (v ++ [z]))).length - T.order = 0 := by
          simp only [length_cons]
          omega
        rw [hT.openProb, hT.openProb, BackoffTable.openProb, BackoffTable.openProb, hlen',
          Nat.sub_eq_zero_of_le (by omega), drop_zero, drop_zero, BackoffTable.lookupNgram]
        have hentry : T.entry (y :: (c ++ (v ++ [z]))) = none :=
          BackoffTable.entry_append_none (by simp) hnone (y :: c)
        have hdrop : (y :: (c ++ (v ++ [z]))).dropLast = y :: (c ++ v) := by
          rw [← append_assoc, ← cons_append, dropLast_concat]
        rw [hentry, hdrop]
      have hbow : lm.bowInterval [y] (c ++ v) = (T.bow (y :: (c ++ v))).getD 1 := by
        have hshort : lm.shortenHistory [y] (c ++ v) = [y] := by
          have : [y].length + (c ++ v).length - (lm.maxOrder - 1) = 0 := by
            simp only [hT.maxOrder, length_append, length_singleton] at hlen ⊢
            omega
          rw [shortenHistory, this, drop_zero]
        rw [bowInterval, hshort]
        simp [bowLoop, hT.findBow]
      rw [hbow, mul_comm]
      exact hstep

variable [DecidableEq Id]

variable {y : Id}

section

variable (hT : lm.IsBackoff T)
include hT

theorem probUnmixed_dead (hd : T.Dead (y :: l)) (w : Id) :
    lm.probUnmixed (y :: l ++ [w]) = lm.probUnmixed (l ++ [w]) := by
  have hopen : lm.openProb (y :: l ++ [w]) = lm.openProb (l ++ [w]) := by
    rw [hT.openProb, hT.openProb]
    exact BackoffTable.openProb_dead hd w
  have hcons : y :: l ++ [w] = [y] ++ (l ++ [w]) := by simp
  rw [hcons] at hopen ⊢
  unfold probUnmixed
  by_cases hu : lm.unkId ∈ l ++ [w]
  · simp only [mem_append.2 (.inr hu), hu, hopen, afterUnk_append_of_mem [y] hu]
  · rw [afterUnk_append_of_notMem [y] hu, hopen]
    by_cases hy : lm.unkId = y
    · -- an unknown word cuts the history off right before `l`
      have hy' : lm.afterUnk [y] = [] := by simp [afterUnk, hy]
      simp [hy', hu]
    · have : lm.unkId ∉ [y] ++ (l ++ [w]) := by
        simp only [singleton_append, mem_cons, not_or]
        exact ⟨hy, hu⟩
      rw [if_neg fun h => this h.2, if_neg fun h => hu h.2]

theorem sequenceProb_dead (hd : T.Dead (y :: l)) (ws : List Id) :
    lm.sequenceProb (y :: l) ws = lm.sequenceProb l ws := by
  have hun : lm.sequenceProbUnmixed (y :: l) ws = lm.sequenceProbUnmixed l ws := by
    induction ws generalizing l with
    | nil => rfl
    | cons w ws ih =>
      rw [sequenceProbUnmixed, probUnmixed_dead hT hd]
      congr 1
      exact ih (hd.concat w)
  simp [sequenceProb, hun]

/-- The word before a dead context is never missed. -/
theorem same_dead_cons (hd : T.Dead (y :: l)) : lm.Same true (y :: l) l := fun zs => by
  refine ⟨fun ws => sequenceProb_dead hT (hd.append zs) ws, fun _ v => ?_⟩
  have hone : lm.bowInterval [y] (l ++ zs ++ v) = 1 := by
    refine bowInterval_dead hT fun s hs hne => ?_
    obtain rfl : s = [y] := by
      rcases suffix_cons_iff.1 hs with rfl | hs
      · rfl
      · exact absurd (suffix_nil.1 hs) hne
    simpa using hd.append (zs ++ v)
  have := lm.bowInterval_append [y] (l ++ zs) v
  rw [hone] at this
  simpa using this

/-- Whatever stands before a dead context is never missed. -/
theorem same_dead (hd : T.Dead x) : ∀ c, lm.Same true (c ++ x) x
  | [] => Same.refl x
  | _ :: c => (same_dead_cons hT ((hd.prepend c).cons _)).trans (same_dead hd c)

/-- Neither is what stands before `order - 1` words. -/
theorem same_long (hl : T.order - 1 ≤ l.length) : ∀ c, lm.Same true (c ++ l) l
  | [] => Same.refl l
  | y :: c => by
    refine (same_dead_cons hT (y := y) (l := c ++ l) ⟨by simp, .inl ?_⟩).trans (same_long hl c)
    simp only [length_cons, length_append]
    omega

theorem same_longestSuffix : ∀ l, lm.Same true l (lm.longestSuffix l)
  | [] => Same.refl _
  | y :: l => by
    unfold longestSuffix
    split
    · exact Same.refl _
    · rename_i hnone
      have hnone' : T.entry (y :: l) = none := by simpa [hT.findBow, BackoffTable.bow] using hnone
      exact (same_dead_cons hT ⟨by simp, .inr hnone'⟩).trans (same_longestSuffix l)

end

/-! ## What the words before a shortened state owe -/

/-- The backoffs in the probability of `z` after `c ++ v`, when `v ++ [z]` is not stored: those of the contexts
longer than `v`. A closed LM cuts the history at an unknown word, and gives an unknown `z` no probability of its own. -/
def charged (lm : NgramLM Id S) (c v : List Id) (z : Id) : S :=
  if lm.opt.openclassLm = true then lm.bowInterval c v
  else if lm.unkId ∈ v ++ [z] then 1
  else lm.bowInterval (lm.afterUnk c) v

/-- **What the LM charges.** The word after a shortened state scores what it scores after the state alone, times the
`own_weight`-th power of the backoffs. -/
theorem sequenceProb_charged (hT : lm.IsBackoff T) (hnone : T.entry (v ++ [z]) = none) (c : List Id) :
    lm.sequenceProb (c ++ v) [z] = lm.weigh (charged lm c v z) * lm.sequenceProb v [z] := by
  have hun : lm.probUnmixed (c ++ v ++ [z]) = charged lm c v z * lm.probUnmixed (v ++ [z]) := by
    have hopen := openProb_append_unstored hT hnone
    rw [append_assoc]
    unfold probUnmixed charged
    cases hcls : lm.opt.openclassLm with
    | true => simp [hopen]
    | false =>
      have hchk := lm.opt.closed_checks hcls
      by_cases hu : lm.unkId ∈ v ++ [z]
      · simp [hchk, hu, afterUnk_append_of_mem c hu]
      · by_cases huc : lm.unkId ∈ c
        · rw [afterUnk_append_of_notMem c hu]
          simp [hchk, hu, huc, hopen]
        · have hself : lm.afterUnk c = c := by
            have := afterUnk_append_of_notMem [] huc
            simpa [afterUnk] using this
          simp [hchk, hu, huc, hself, hopen]
  simp only [sequenceProb, sequenceProbUnmixed, hun, mul_one, map_mul, mul_assoc]

/-- `append_child` pays what the LM charges: wherever a left state can be shortened to `v` before the word `z`, the
bare backoffs of `bow_interval` are the `own_weight`-th power of those the LM charges for `z`. -/
def PaysBackoffs (lm : NgramLM Id S) (T : BackoffTable Id S) : Prop :=
  ∀ u v z, lm.Words u → lm.Words (v ++ [z]) → v ≠ [] → (T.entry v).isSome → T.entry (v ++ [z]) = none →
    v.length + 1 ≤ T.order - 1 → lm.weigh (charged lm (lm.startId :: u) v z) = lm.bowInterval (lm.startId :: u) v

/-- An open LM of weight one charges the bare backoffs. -/
theorem paysBackoffs_of_weigh_id (hopen : lm.opt.openclassLm = true) (hone : ∀ x, lm.weigh x = x) : PaysBackoffs lm T := by
  intro u v z _ _ _ _ _ _
  rw [hone, charged, if_pos hopen]

/-- If so, all the laws hold. -/
theorem laws_of_paysBackoffs (hT : lm.IsBackoff T) (h : PaysBackoffs lm T) : lm.Laws (T.order - 1) true true where
  order c l hl := same_long hT hl c
  suffix _ l _ := same_longestSuffix hT l
  full _ c l hl := bowInterval_full hT hl c
  drop _ l hw hlen hne := by
    obtain ⟨z, d, hl, hv, hsome, hnone⟩ := longestPrefix_spec hT hne
    generalize lm.longestPrefix l = v at hl hv hsome hnone
    have hdead : T.Dead (v ++ [z]) := ⟨by simp, .inr hnone⟩
    have hlz : l = v ++ [z] ++ d := by simpa using hl
    have hdrop : l.drop v.length = z :: d := by rw [hl]; simp
    have hwl : lm.Words (v ++ [z]) := (Words.of_append (hlz ▸ hw)).1
    refine ⟨fun c hc ws _ => ?_, fun c => ⟨?_, fun ws => ?_⟩⟩
    · have hscore : lm.sequenceProb (c ++ v) (z :: (d ++ ws)) =
          lm.weigh (charged lm c v z) * lm.sequenceProb v (z :: (d ++ ws)) := by
        rw [lm.sequenceProb_cons, lm.sequenceProb_cons v, sequenceProb_charged hT hnone, append_assoc,
          (same_dead hT hdead c).sequenceProb, mul_assoc]
      obtain ⟨u, rfl, hu⟩ := hc
      have hpay := h u v z hu hwl hv hsome hnone (by rw [hlz] at hlen; simp at hlen; omega)
      rw [hdrop, ← hpay]
      exact hscore
    · rw [hlz, ← append_assoc]
      exact (same_dead hT hdead c).append d
    · refine bowInterval_dead hT fun s _ _ => ?_
      rw [hlz, append_assoc]
      exact (hdead.append _).prepend s

/-! ## A derivation that shortens a state -/

theorem feed_ofWords {n : Nat} {sl sr : Bool} : ∀ {ws : List Id}, lm.Words ws → ∀ (rest : LmStr Id) (p : Phrase Id S),
    feed lm n sl sr (.ofWords ws rest) p = feed lm n sl sr rest { p with phrase := p.phrase ++ ws }
  | [], _, rest, p => by simp [LmStr.ofWords]
  | w :: ws, hw, rest, p => by
    have hw' : lm.IsWord w ∧ lm.Words ws := by simpa [Words] using hw
    rw [LmStr.ofWords, feed, appendWord_word p hw'.1.ne_start, feed_ofWords hw'.2]
    simp

section
variable {u v : List Id} {z : Id}

/-- The child's state is `v` and the backoff marker, and its inside score that of `z` after `v`. -/
theorem computeNgrams_shortened (hT : lm.IsBackoff T) (hw : lm.Words (v ++ [z])) (hv : v ≠ [])
    (hsome : (T.entry v).isSome) (hnone : T.entry (v ++ [z]) = none) (hlen : v.length + 1 ≤ T.order - 1) :
    computeNgrams lm (T.order - 1) true true (.node (.ofWords (v ++ [z]) .nil)) =
      (⟨fillLeft (T.order - 1) v lm.boId,
        replicate (T.order - 1 - (lm.longestSuffix (v ++ [z])).length) lm.nullId ++ lm.longestSuffix (v ++ [z])⟩,
        lm.sequenceProb v [z]) := by
  have hcompute : computeNgrams lm (T.order - 1) true true (.node (.ofWords (v ++ [z]) .nil)) =
      finishLastPhrase lm (T.order - 1) true true
        (feed lm (T.order - 1) true true (.ofWords (v ++ [z]) .nil) (.reset (T.order - 1))) := by
    obtain ⟨w, ws, he⟩ := exists_cons_of_ne_nil (l := v ++ [z]) (by simp)
    rw [he, LmStr.ofWords]
    simp [computeNgrams]
  have hlen' : (v ++ [z]).length ≤ T.order - 1 := by simpa using hlen
  have htake : (v ++ [z]).take (T.order - 1) = v ++ [z] := take_of_length_le hlen'
  have hdrop : (v ++ [z]).drop (T.order - 1) = [] := drop_eq_nil_of_le hlen'
  have huse : usePhrase lm (T.order - 1) true (⟨v ++ [z], T.order - 1, false, [], 1⟩ : Phrase Id S) =
      ⟨v ++ [z], T.order - 1, true, fillLeft (T.order - 1) v lm.boId, lm.sequenceProb v [z]⟩ := by
    have hhead : ¬ (v ++ [z]).head? = some lm.startId := fun h => (hw _ (mem_of_head? h)).ne_start rfl
    rw [usePhrase, finishLeft_short rfl hhead (v := v)]
    · simp [scorePhrase, htake, hdrop, scoreWords, max_eq_left hlen]
    · simp only [scorePhrase, htake]
      exact longestPrefix_concat hT hv hsome hnone
    · simp [scorePhrase, htake]
  have hend : ¬ (v ++ [z]).getLast? = some lm.endId := fun h => (hw _ (mem_of_getLast? h)).ne_end rfl
  rw [hcompute, feed_ofWords hw, feed, finishLastPhrase]
  simp only [Phrase.reset, nil_append, huse, finishRight, hend, if_false, if_true,
    Nat.sub_eq_zero_of_le hlen', drop_zero]

/-- The toplevel score of the shortened derivation: the backoffs of `v` are paid bare. -/
theorem computeToplevel_shortened (hT : lm.IsBackoff T) (hu : lm.Words u) (hw : lm.Words (v ++ [z])) (hv : v ≠ [])
    (hsome : (T.entry v).isSome) (hnone : T.entry (v ++ [z]) = none) (hlen : v.length + 1 ≤ T.order - 1) :
    (computeToplevel lm (T.order - 1) true true (shortened u v z)).2 =
      lm.sequenceProb [lm.startId] (u ++ v) * lm.bowInterval (lm.startId :: u) v * lm.sequenceProb v [z] *
        lm.sequenceProb (lm.startId :: u ++ (v ++ [z])) [lm.endId] := by
  have hlaws := hT.ofOrder.laws (by omega)
  have hl : LeftState lm (T.order - 1) true v true := ⟨(Words.of_append hw).1, fun _ => ⟨rfl, by omega⟩, by simp⟩
  have hr : lm.Words (lm.longestSuffix (v ++ [z])) := hw.sublist (lm.longestSuffix_suffix _).sublist
  have hsame : lm.sequenceProb (lm.startId :: u ++ (v ++ [z])) [lm.endId] =
      lm.sequenceProb (lm.longestSuffix (v ++ [z])) [lm.endId] :=
    ((same_dead hT ⟨by simp, .inr hnone⟩ _).trans (same_longestSuffix hT _)).sequenceProb _
  -- the phrase once the child's left words are in: `<s> u v`, scored, the backoffs of `v` paid
  obtain ⟨hin, hdone, -⟩ := finishLeft_fixed lm (T.order - 1) true
    (q := scorePhrase lm (T.order - 1)
      (⟨lm.startId :: u ++ v, 1, false, [], 1 * lm.bowInterval (lm.startId :: u) v⟩ : Phrase Id S)) (.inr rfl) lm.boId
  generalize hq : finishLeft lm (T.order - 1) true (scorePhrase lm (T.order - 1)
      (⟨lm.startId :: u ++ v, 1, false, [], 1 * lm.bowInterval (lm.startId :: u) v⟩ : Phrase Id S)) lm.boId = q at hin hdone
  have hchild := appendChild_gap hl hr (⟨lm.startId :: u, 1, false, [], 1⟩ : Phrase Id S)
    (T.order - 1 - (lm.longestSuffix (v ++ [z])).length)
  simp only [terminator, if_true, hq] at hchild
  have hfeed : feed lm (T.order - 1) true true (.ofWords u (.child (.node (.ofWords (v ++ [z]) .nil)) .nil))
      (appendWord lm (.reset (T.order - 1)) lm.startId) =
      { q with
        phrase := lm.longestSuffix (v ++ [z])
        ctxEnd := (lm.longestSuffix (v ++ [z])).length
        inside := q.inside * lm.sequenceProb v [z] } := by
    have hstart : (appendWord lm (.reset (T.order - 1)) lm.startId : Phrase Id S) = ⟨[lm.startId], 1, false, [], 1⟩ := by
      simp [appendWord, Phrase.reset]
    rw [feed_ofWords hu, hstart]
    simp only [feed, computeNgrams_shortened hT hw hv hsome hnone hlen, singleton_append, hchild]
  rw [shortened, computeToplevel, hfeed, appendWord_word _ lm.start_ne_end.symm]
  obtain ⟨hin', -, -⟩ := finishLeft_fixed lm (T.order - 1) true
    (q := scorePhrase lm (T.order - 1) { q with
        phrase := lm.longestSuffix (v ++ [z]) ++ [lm.endId]
        ctxEnd := (lm.longestSuffix (v ++ [z])).length
        inside := q.inside * lm.sequenceProb v [z] }) (.inl hdone) lm.nullId
  refine hin'.trans ?_
  simp only [scorePhrase, scoreWords_eq hlaws, take_left', drop_left', hin, hsame]
  simp only [cons_append, take_succ_cons, take_zero, drop_succ_cons, drop_zero]
  rw [one_mul, mul_comm (lm.bowInterval (lm.startId :: u) v)]

end

/-- **When shortening LM states is exact.** For every backoff LM with a prefix- and suffix-closed table and every
`own_weight`, the shortened run scores all derivations as the unshortened one does iff the bare backoffs that
`append_child` pays are always the weighted ones that the LM charges. -/
theorem shorten_exact_iff (lm : NgramLM Id S) (T : BackoffTable Id S) (hT : lm.IsBackoff T) :
    (∀ d : LmDeriv Id, lm.Words d.yield → (computeToplevel lm (T.order - 1) true true d).2 =
      (computeToplevel lm (T.order - 1) false false d).2) ↔ PaysBackoffs lm T := by
  have horder : 1 ≤ T.order := by simpa using (T.bounded _ (T.unigram lm.startId)).2
  have hlaws := hT.ofOrder.laws horder
  constructor
  · intro h u v z hu hw hv hsome hnone hlen
    have hyield := yield_shortened u v z
    have hd := h (shortened u v z) (hyield ▸ hu.append hw)
    rw [computeToplevel_shortened hT hu hw hv hsome hnone hlen,
      computeToplevel_inside hlaws _ (hyield ▸ hu.append hw), hyield] at hd
    have hsplit : lm.sequenceProb [lm.startId] (u ++ (v ++ [z]) ++ [lm.endId]) =
        lm.sequenceProb [lm.startId] (u ++ v) * (lm.weigh (charged lm (lm.startId :: u) v z) * lm.sequenceProb v [z]) *
          lm.sequenceProb (lm.startId :: u ++ (v ++ [z])) [lm.endId] := by
      rw [lm.sequenceProb_append, ← append_assoc u v, lm.sequenceProb_append, ← sequenceProb_charged hT hnone]
      simp
    rw [hsplit] at hd
    have hd' := mul_right_cancel hd
    rw [mul_assoc] at hd'
    exact (mul_right_cancel (mul_left_cancel hd')).symm
  · intro h d hw
    rw [computeToplevel_inside (laws_of_paysBackoffs hT h) d hw, computeToplevel_inside hlaws d hw]

end

/-- A trigram table over the natural numbers in log space: all unigrams, and one bigram `0 5`, whose backoff costs. -/
def trigramTable : BackoffTable Nat (Multiplicative Int) where
  order := 3
  entry
    | [_] => some (1, 1)
    | [0, 5] => some (1, Multiplicative.ofAdd (-1))
    | _ => none
  bounded l h := by
    split at h <;> simp_all
  unigram w := rfl
  prefix_closed l w hl h := by
    match l with
    | [] => exact absurd rfl hl
    | [_] => rfl
    | _ :: _ :: _ => simp at h
  suffix_closed w l hl h := by
    match l with
    | [] => exact absurd rfl hl
    | [_] => rfl
    | _ :: _ :: _ => simp at h

/-- The open-class LM over that table, with the given weight. -/
def trigramLm (weight : Nat) : NgramLM Nat (Multiplicative Int) :=
  { bigramSum with
    opt := ⟨true, false, 1, bigramSum.opt.closed_checks⟩
    weigh := powMonoidHom weight
    openProb := trigramTable.openProb
    findBow := trigramTable.bow
    maxOrder := 3
    unkId := 4
    startId := 0
    endId := 1
    nullId := 2
    boId := 3 }

/-- `5 6` are words of the trigram LM. -/
theorem words_trigram (weight : Nat) : (trigramLm weight).Words (shortened [] [5] 6).yield := by
  intro w hw
  have : w = 5 ∨ w = 6 := by simpa [yield_shortened] using hw
  rcases this with rfl | rfl
  · exact ⟨show 5 ≠ 2 by decide, show 5 ≠ 3 by decide, show 5 ≠ 0 by decide, show 5 ≠ 1 by decide⟩
  · exact ⟨show 6 ≠ 2 by decide, show 6 ≠ 3 by decide, show 6 ≠ 0 by decide, show 6 ≠ 1 by decide⟩

/-- With weight one, shortening is exact: `<s> [5 6] </s>` pays the backoff of `0 5` once, and owes it once. -/
theorem shorten_exact_iff_trigram :
    (computeToplevel (trigramLm 1) 2 true true (shortened [] [5] 6)).2 =
      (computeToplevel (trigramLm 1) 2 false false (shortened [] [5] 6)).2 :=
  (shorten_exact_iff (trigramLm 1) trigramTable ⟨fun _ => rfl, fun _ => rfl, rfl⟩).2
    (paysBackoffs_of_weigh_id rfl fun x => pow_one x) (shortened [] [5] 6) (words_trigram 1)

/-- With weight two it is not: `<s> [5 6] </s>` owes the backoff of `0 5` twice and pays it once. -/
theorem shorten_inexact_trigram : (trigramLm 2).IsBackoff trigramTable ∧
    (trigramLm 2).Words (shortened [] [5] 6).yield ∧
    (computeToplevel (trigramLm 2) 2 true true (shortened [] [5] 6)).2 = Multiplicative.ofAdd (-1) ∧
    (computeToplevel (trigramLm 2) 2 false false (shortened [] [5] 6)).2 = Multiplicative.ofAdd (-2) :=
  ⟨⟨fun _ => rfl, fun _ => rfl, rfl⟩, words_trigram 2, by decide, by decide⟩

end Sbmt.Ngram
