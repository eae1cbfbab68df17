import Mathlib
/-!
# Keeping the best, ties and all

`topN score n l` are the elements of `l` that fewer than `n` others are better than: the `n` best, and whatever is as
good as the last of these (`better_lt_iff`).  Leaving out of a list what is not among its best changes nothing
for the others (`topN_filter`), so a keeper that forgets such elements as it goes ends with the best of all it was
shown.  Taking the worst away until `n` are left comes to the same, if what is as good as the worst one left is
put back (`Split.topN_perm`).
-/

namespace Sbmt.Lib

open List

variable {α S : Type} [LinearOrder S] {score : α → S} {l l' : List α} {n : Nat} {x : S}

/-- How many are better than `x`. -/
def better (score : α → S) (l : List α) (x : S) : Nat := l.countP fun a => decide (x < score a)

def topN (score : α → S) (n : Nat) (l : List α) : List α := l.filter fun a => decide (better score l (score a) < n)

/-- The `n`th best score, if there are as many. -/
def nthBest (score : α → S) (n : Nat) (l : List α) : Option S := ((l.map score).insertionSort (· ≥ ·))[n - 1]?

theorem mem_topN {a : α} : a ∈ topN score n l ↔ a ∈ l ∧ better score l (score a) < n := by
  simp [topN]

theorem better_anti {y : S} (h : x ≤ y) : better score l y ≤ better score l x := by
  apply countP_mono_left
  intro a _ ha
  rw [decide_eq_true_eq] at ha ⊢
  exact h.trans_lt ha

theorem better_perm (h : l.Perm l') (x : S) : better score l x = better score l' x := h.countP_eq _

theorem topN_perm (h : l.Perm l') : (topN score n l).Perm (topN score n l') := by
  have hfun : (fun a => decide (better score l (score a) < n)) = fun a => decide (better score l' (score a) < n) := by
    funext a
    rw [better_perm h]
  rw [topN, hfun]
  exact h.filter _

theorem topN_map {β : Type} (g : β → α) (l : List β) : topN score n (l.map g) = (topN (score ∘ g) n l).map g := by
  have hbetter : ∀ x, better score (l.map g) x = better (score ∘ g) l x := fun x => countP_map
  rw [topN, filter_map]
  simp only [hbetter]
  rfl

theorem topN_eq_self (h : ∀ a ∈ l, better score l (score a) < n) : topN score n l = l :=
  filter_eq_self.mpr fun a ha => decide_eq_true (h a ha)

/-- An element is not better than itself. -/
theorem better_lt_length {a : α} (ha : a ∈ l) : better score l (score a) < l.length := by
  refine lt_of_le_of_ne countP_le_length fun heq => ?_
  have := countP_eq_length.mp heq a ha
  simp at this

/-! ## Forgetting what is not among the best -/

section

variable {P : α → Bool}

theorem better_filter (h : ∀ a ∈ l, x < score a → P a = true) : better score (l.filter P) x = better score l x := by
  rw [better, countP_filter]
  apply countP_congr
  intro a ha
  simp only [Bool.and_eq_true, decide_eq_true_eq]
  exact ⟨fun hx => hx.1, fun hx => ⟨hx, h a ha hx⟩⟩

theorem better_filter_lt_iff (h : ∀ a ∈ l, better score l (score a) < n → P a = true) :
    better score (l.filter P) x < n ↔ better score l x < n := by
  constructor
  · intro hx
    cases hbest : (l.filter fun a => decide (x < score a) && !P a).argmax score with
    | none =>
      -- nothing above `x` was forgotten
      rw [argmax_eq_none, filter_eq_nil_iff] at hbest
      rw [better_filter fun a ha hxa => ?_] at hx
      · omega
      · simpa [hxa] using hbest a ha
    | some d =>
      -- of what was forgotten above `x` take the best; it has `n` better ones, and they are still there
      obtain ⟨hd, hxd⟩ := mem_filter.mp (argmax_mem hbest)
      simp only [Bool.and_eq_true, decide_eq_true_eq, Bool.not_eq_true'] at hxd
      have hkept : better score (l.filter P) (score d) = better score l (score d) := by
        refine better_filter fun a ha hda => ?_
        by_contra hPa
        have hmem : a ∈ l.filter fun a => decide (x < score a) && !P a := by
          rw [mem_filter, Bool.and_eq_true, decide_eq_true_eq, Bool.not_eq_true', ← Bool.not_eq_true]
          exact ⟨ha, hxd.1.trans hda, hPa⟩
        exact absurd hda (le_of_mem_argmax hmem hbest).not_gt
      have hmany : n ≤ better score l (score d) := by
        by_contra hfew
        rw [h d hd (Nat.lt_of_not_le hfew)] at hxd
        cases hxd.2
      have : better score (l.filter P) (score d) ≤ better score (l.filter P) x := better_anti hxd.1.le
      omega
  · intro hx
    rw [better_filter fun a ha hxa => h a ha ((better_anti hxa.le).trans_lt hx)]
    exact hx

/-- **What is not among the best can be forgotten.** -/
theorem topN_filter (h : ∀ a ∈ l, better score l (score a) < n → P a = true) :
    topN score n (l.filter P) = topN score n l := by
  rw [topN, filter_filter]
  apply filter_congr
  intro a ha
  rw [decide_eq_decide.mpr (better_filter_lt_iff h)]
  by_cases hfew : better score l (score a) < n
  · rw [h a ha hfew, decide_eq_true hfew]
    rfl
  · rw [decide_eq_false hfew]
    rfl

theorem topN_topN : topN score n (topN score n l) = topN score n l :=
  topN_filter fun _ _ h => decide_eq_true h

end

/-! ## The `n`th best -/

theorem sorted_lt_iff : ∀ {m : Nat} {l : List S}, l.Pairwise (· ≥ ·) →
    ((l.countP fun y => decide (x < y)) ≤ m ↔ ∀ y ∈ l[m]?, y ≤ x)
  | _, [], _ => by simp
  | 0, y :: l, h => by
    rw [pairwise_cons] at h
    rw [Nat.le_zero, countP_eq_zero]
    simp only [mem_cons, forall_eq_or_imp, decide_eq_true_eq, not_lt, getElem?_cons_zero, Option.mem_def,
      Option.some.injEq, forall_eq']
    exact ⟨fun hall => hall.1, fun hy => ⟨hy, fun z hz => (h.1 z hz).trans hy⟩⟩
  | m + 1, y :: l, h => by
    rw [pairwise_cons] at h
    rw [countP_cons, getElem?_cons_succ, ← sorted_lt_iff h.2]
    by_cases hy : x < y
    · rw [if_pos (decide_eq_true hy)]
      exact Nat.succ_le_succ_iff
    · have hnone : l.countP (fun z => decide (x < z)) = 0 := by
        rw [countP_eq_zero]
        intro z hz
        rw [decide_eq_true_eq]
        exact ((h.1 z hz).trans (not_lt.mp hy)).not_gt
      rw [if_neg (by simpa using hy), hnone]
      exact iff_of_true (Nat.zero_le _) (Nat.zero_le _)

/-- Fewer than `n` are better than what is no worse than the `n`th best. -/
theorem better_lt_iff (hn : 1 ≤ n) : better score l x < n ↔ ∀ y ∈ nthBest score n l, y ≤ x := by
  have hperm : ((l.map score).insertionSort (· ≥ ·)).Perm (l.map score) := perm_insertionSort _ _
  rw [nthBest, ← sorted_lt_iff (pairwise_insertionSort (· ≥ ·) _), hperm.countP_eq, countP_map]
  show better score l x < n ↔ better score l x ≤ n - 1
  omega

/-! ## Taking the worst away -/

/-- A list in two parts, nothing in the one better than anything in the other. -/
structure Split (score : α → S) (l popped kept : List α) : Prop where
  perm : (popped ++ kept).Perm l
  le : ∀ p ∈ popped, ∀ a ∈ kept, score p ≤ score a

theorem Split.better_eq {popped kept : List α} (h : Split score l popped kept) (x : S) :
    better score l x = better score popped x + better score kept x := by
  rw [← better_perm h.perm, better, countP_append]
  rfl

theorem better_eq_zero (h : ∀ a ∈ l, score a ≤ x) : better score l x = 0 := by
  rw [better, countP_eq_zero]
  intro a ha
  rw [decide_eq_true_eq]
  exact (h a ha).not_gt

theorem better_eq_length (h : ∀ a ∈ l, x < score a) : better score l x = l.length :=
  countP_eq_length.mpr fun a ha => decide_eq_true (h a ha)

/-- **With `n` left, the best are these and what is as good as the worst of them.** -/
theorem Split.topN_perm {popped kept : List α} (h : Split score l popped kept) (hn : kept.length = n) {low : α}
    (hlow : low ∈ kept) (hleast : ∀ a ∈ kept, score low ≤ score a) :
    (topN score n l).Perm (popped.filter (fun p => decide (score p = score low)) ++ kept) := by
  have hkept : ∀ a ∈ kept, better score l (score a) < n := by
    intro a ha
    rw [h.better_eq, better_eq_zero fun p hp => h.le p hp a ha, Nat.zero_add, ← hn]
    exact better_lt_length ha
  have hpopped : ∀ p ∈ popped, better score l (score p) < n ↔ score p = score low := by
    intro p hp
    constructor
    · intro hfew
      refine le_antisymm (h.le p hp low hlow) (not_lt.mp fun hlt => ?_)
      have hall : better score kept (score p) = kept.length := better_eq_length fun a ha => hlt.trans_le (hleast a ha)
      rw [h.better_eq] at hfew
      omega
    · intro heq
      rw [heq]
      exact hkept low hlow
  refine (Lib.topN_perm h.perm).symm.trans ?_
  rw [topN, filter_append]
  refine Perm.append ?_ ?_
  · refine Perm.of_eq (filter_congr fun p hp => ?_)
    rw [better_perm h.perm]
    exact decide_eq_decide.mpr (hpopped p hp)
  · refine Perm.of_eq (filter_eq_self.mpr fun a ha => ?_)
    rw [better_perm h.perm]
    exact decide_eq_true (hkept a ha)

/-! ## Scores under keys -/

section

variable {K : Type} [DecidableEq K] {k : K} {s : S} {l l' : List (K × S)}

/-- The best of what is under a key, and of `s`. -/
def bestOf (k : K) (s : S) (l : List (K × S)) : S := ((l.filter (·.1 = k)).map Prod.snd).foldr max s

/-- `s` is shown under `k`. -/
def raiseKey (k : K) (s : S) (l : List (K × S)) : List (K × S) := (k, bestOf k s l) :: l.filter (·.1 ≠ k)

/-- Nothing is under two scores. -/
def Keyed (l : List (K × S)) : Prop := (l.map Prod.fst).Nodup

variable (h : Keyed l)
include h

section
omit [LinearOrder S] [DecidableEq K]

theorem Keyed.unique {a b : K × S} (ha : a ∈ l) (hb : b ∈ l) (hk : a.1 = b.1) : a = b :=
  inj_on_of_nodup_map h ha hb hk

theorem Keyed.perm (hp : l.Perm l') : Keyed l' := (hp.map Prod.fst).nodup_iff.mp h

theorem Keyed.filter (P : K × S → Bool) : Keyed (l.filter P) :=
  h.sublist (filter_sublist.map Prod.fst)

end

omit [LinearOrder S] in
theorem Keyed.raiseKey [LinearOrder S] : Keyed (raiseKey k s l) := by
  rw [Keyed, Lib.raiseKey, map_cons, nodup_cons]
  refine ⟨fun hk => ?_, h.filter _⟩
  obtain ⟨a, ha, rfl⟩ := mem_map.mp hk
  simpa using (mem_filter.mp ha).2

theorem bestOf_of_mem {old : S} (hold : (k, old) ∈ l) : bestOf k s l = max old s := by
  have hfilter : l.filter (·.1 = k) = [(k, old)] := by
    have hnodup : (l.filter (·.1 = k)).Nodup := (h.filter _).of_map _
    have hmem : ∀ a, a ∈ l.filter (·.1 = k) ↔ a ∈ [(k, old)] := by
      intro a
      rw [mem_filter, mem_singleton, decide_eq_true_eq]
      constructor
      · rintro ⟨ha, hk⟩
        exact h.unique ha hold hk
      · rintro rfl
        exact ⟨hold, rfl⟩
    exact perm_singleton.mp ((perm_ext_iff_of_nodup hnodup (nodup_singleton _)).mpr hmem)
  rw [bestOf, hfilter]
  rfl

omit h in
theorem bestOf_of_absent (h : ∀ old, (k, old) ∉ l) : bestOf k s l = s := by
  have hfilter : l.filter (·.1 = k) = [] := by
    rw [filter_eq_nil_iff]
    rintro ⟨k', old⟩ ha hk
    rw [decide_eq_true_eq] at hk
    cases hk
    exact h old ha
  rw [bestOf, hfilter]
  rfl

variable (k s l) in
omit h in
theorem le_bestOf : s ≤ bestOf k s l := by
  unfold bestOf
  induction (l.filter (·.1 = k)).map Prod.snd with
  | nil => exact le_rfl
  | cons x xs ih => exact ih.trans (le_max_right _ _)

omit h in
omit [LinearOrder S] in
theorem filter_ne_of_absent (h : ∀ old, (k, old) ∉ l) : l.filter (·.1 ≠ k) = l := by
  rw [filter_eq_self]
  rintro ⟨k', old⟩ ha
  rw [decide_eq_true_eq]
  rintro rfl
  exact h old ha

omit [LinearOrder S] in
theorem perm_cons_filter {old : S} (hold : (k, old) ∈ l) : ((k, old) :: l.filter (·.1 ≠ k)).Perm l := by
  refine (perm_ext_iff_of_nodup ?_ (h.of_map _)).mpr fun a => ?_
  · rw [nodup_cons]
    exact ⟨fun hmem => by simpa using (mem_filter.mp hmem).2, (h.filter _).of_map _⟩
  · rw [mem_cons, mem_filter, decide_eq_true_eq]
    constructor
    · rintro (rfl | ⟨ha, -⟩)
      · exact hold
      · exact ha
    · intro ha
      by_cases hk : a.1 = k
      · exact .inl (h.unique ha hold hk)
      · exact .inr ⟨ha, hk⟩

/-- A better score in the place of the old one. -/
theorem set_perm_raise {old : S} {i : Nat} (hold : l[i]? = some (k, old)) :
    (l.set i (k, max old s)).Perm (raiseKey k s l) := by
  obtain ⟨hi, hget⟩ := List.getElem?_eq_some_iff.mp hold
  have hmem : (k, old) ∈ l := mem_of_getElem? hold
  have hrest : (l.eraseIdx i).Perm (l.filter (·.1 ≠ k)) := by
    refine Perm.cons_inv (a := (k, old)) (Perm.trans ?_ (perm_cons_filter h hmem).symm)
    rw [← hget]
    exact getElem_cons_eraseIdx_perm hi
  rw [raiseKey, bestOf_of_mem h hmem]
  exact (set_perm_cons_eraseIdx hi _).trans (hrest.cons _)

/-- A score that is no news. -/
theorem raise_of_le {old : S} (hold : (k, old) ∈ l) (hs : s ≤ old) : (raiseKey k s l).Perm l := by
  rw [raiseKey, bestOf_of_mem h hold, max_eq_left hs]
  exact perm_cons_filter h hold

omit h in
omit [DecidableEq K] in
theorem better_cons (a : K × S) (l : List (K × S)) (x : S) :
    better Prod.snd (a :: l) x = better Prod.snd l x + if x < a.2 then 1 else 0 := by
  rw [better, better, countP_cons]
  simp only [decide_eq_true_eq]

/-- Showing a score leaves nothing with fewer better ones. -/
theorem better_le_raise (k : K) (s x : S) : better Prod.snd l x ≤ better Prod.snd (raiseKey k s l) x := by
  rw [raiseKey, better_cons]
  by_cases hex : ∃ old, (k, old) ∈ l
  · obtain ⟨old, hold⟩ := hex
    rw [← better_perm (perm_cons_filter h hold), better_cons, bestOf_of_mem h hold]
    refine Nat.add_le_add_left ?_ _
    by_cases hx : x < old
    · rw [if_pos hx, if_pos (hx.trans_le (le_max_left _ _))]
    · rw [if_neg hx]
      exact Nat.zero_le _
  · rw [filter_ne_of_absent fun old hold => hex ⟨old, hold⟩]
    exact Nat.le_add_right _ _

end

/-! ## A keeper that forgets as it goes -/

section

variable {K : Type} [DecidableEq K] {k : K} {s : S} {l kept : List (K × S)}

section

variable (hkept : kept.Perm (topN Prod.snd n l))
include hkept

omit [DecidableEq K]

/-- Among the best of `l` nothing was forgotten. -/
theorem better_kept_lt_iff (x : S) : better Prod.snd kept x < n ↔ better Prod.snd l x < n := by
  rw [better_perm hkept]
  exact better_filter_lt_iff fun a _ h => decide_eq_true h

theorem mem_kept {a : K × S} : a ∈ kept ↔ a ∈ l ∧ better Prod.snd l a.2 < n := by
  rw [hkept.mem_iff, mem_topN]

/-- What is kept and what is forgotten, once more. -/
theorem topN_kept : (topN Prod.snd n kept).Perm kept := by
  refine (topN_perm hkept).trans ?_
  rw [topN_topN]
  exact hkept.symm

end

variable (hl : Keyed l)
include hl

section

variable (hkept : kept.Perm (topN Prod.snd n l))
include hkept

/-- **A score that the kept ones leave room for**: showing it to them comes to the same as showing it to all. -/
theorem topN_raise (hroom : kept.length < n ∨ ∃ low ∈ kept, low.2 ≤ s) :
    (topN Prod.snd n (raiseKey k s kept)).Perm (topN Prod.snd n (raiseKey k s l)) := by
  have hkeyed : Keyed kept := (hl.filter _).perm hkept.symm
  -- a forgotten score under `k` is below `s`
  have hforgotten : ∀ old, (k, old) ∈ l → (k, old) ∉ kept → old ≤ s := by
    intro old hold hnot
    have hmany : ¬ better Prod.snd l old < n := fun hfew => hnot ((mem_kept hkept).mpr ⟨hold, hfew⟩)
    rcases hroom with hfew | ⟨low, hlow, hls⟩
    · exact absurd ((better_kept_lt_iff hkept old).mp (countP_le_length.trans_lt hfew)) hmany
    · refine le_trans (not_lt.mp fun hlt => hmany ?_) hls
      exact (better_anti hlt.le).trans_lt ((mem_kept hkept).mp hlow).2
  have hbest : bestOf k s kept = bestOf k s l := by
    by_cases hex : ∃ old, (k, old) ∈ l
    · obtain ⟨old, hold⟩ := hex
      by_cases hmem : (k, old) ∈ kept
      · rw [bestOf_of_mem hl hold, bestOf_of_mem hkeyed hmem]
      · rw [bestOf_of_mem hl hold, max_eq_right (hforgotten old hold hmem), bestOf_of_absent fun old' hold' => ?_]
        have heq := hl.unique ((mem_kept hkept).mp hold').1 hold rfl
        rw [heq] at hold'
        exact hmem hold'
    · rw [bestOf_of_absent fun old hold => hex ⟨old, hold⟩,
        bestOf_of_absent fun old hold => hex ⟨old, ((mem_kept hkept).mp hold).1⟩]
  have hraise : (raiseKey k s kept).Perm
      ((raiseKey k s l).filter fun a => decide (a.1 = k) || decide (better Prod.snd l a.2 < n)) := by
    rw [raiseKey, raiseKey, hbest, filter_cons_of_pos (by simp), filter_filter]
    refine ((hkept.filter _).trans (Perm.of_eq ?_)).cons _
    rw [topN, filter_filter]
    apply filter_congr
    intro a _
    by_cases hk : a.1 = k
    · simp [hk]
    · simp [hk]
  refine (topN_perm hraise).trans (Perm.of_eq (topN_filter fun a ha hfew => ?_))
  rw [Bool.or_eq_true, decide_eq_true_eq, decide_eq_true_eq]
  exact .inr ((better_le_raise hl k s a.2).trans_lt hfew)

/-- **A score worse than all of `n` kept ones** is not shown to them. -/
theorem topN_reject (hfull : n ≤ kept.length)
    (hworse : ∀ a ∈ kept, s < a.2) : kept.Perm (topN Prod.snd n (raiseKey k s l)) := by
  by_cases hex : ∃ old, (k, old) ∈ kept
  · obtain ⟨old, hold⟩ := hex
    have hraise := raise_of_le hl ((mem_kept hkept).mp hold).1 (hworse _ hold).le
    exact hkept.trans (topN_perm hraise.symm)
  · have hmany : n ≤ better Prod.snd (raiseKey k s l) (bestOf k s l) := by
      refine le_trans (not_lt.mp fun hfew => ?_) (better_le_raise hl k s _)
      by_cases hin : ∃ old, (k, old) ∈ l
      · obtain ⟨old, hold⟩ := hin
        rw [bestOf_of_mem hl hold] at hfew
        rcases le_total s old with hle | hle
        · rw [max_eq_left hle] at hfew
          exact hex ⟨old, (mem_kept hkept).mpr ⟨hold, hfew⟩⟩
        · rw [max_eq_right hle, ← better_kept_lt_iff hkept, better_eq_length hworse] at hfew
          omega
      · rw [bestOf_of_absent fun old hold => hin ⟨old, hold⟩, ← better_kept_lt_iff hkept, better_eq_length hworse] at hfew
        omega
    have hfilter : (topN Prod.snd n l).Perm
        ((raiseKey k s l).filter fun a => decide (a.1 ≠ k) && decide (better Prod.snd l a.2 < n)) := by
      rw [raiseKey, filter_cons_of_neg (by simp), filter_filter]
      refine Perm.of_eq (filter_congr fun a ha => ?_)
      by_cases hk : a.1 = k
      · have hnot : ¬ better Prod.snd l a.2 < n := fun hfew => hex ⟨a.2, (mem_kept hkept).mpr ⟨hk ▸ ha, hfew⟩⟩
        simp [hnot]
      · simp [hk]
    have hall : topN Prod.snd n ((raiseKey k s l).filter fun a => decide (a.1 ≠ k) && decide (better Prod.snd l a.2 < n)) =
        topN Prod.snd n (raiseKey k s l) := by
      refine topN_filter fun a ha hfew => ?_
      rw [Bool.and_eq_true, decide_eq_true_eq, decide_eq_true_eq]
      refine ⟨fun hk => ?_, (better_le_raise hl k s a.2).trans_lt hfew⟩
      have heq := hl.raiseKey.unique ha (b := (k, bestOf k s l)) mem_cons_self hk
      rw [heq] at hfew
      exact absurd hfew (not_lt.mpr hmany)
    rw [← hall]
    exact (topN_kept hkept).symm.trans (topN_perm (hkept.trans hfilter))

/-- **A score as good as the worst kept one**: none has to go. -/
theorem topN_tie {low : K × S} (hlow : low ∈ kept)
    (hleast : ∀ a ∈ kept, low.2 ≤ a.2) : (topN Prod.snd n (raiseKey k low.2 kept)).Perm (raiseKey k low.2 kept) := by
  have hkeyed : Keyed kept := (hl.filter _).perm hkept.symm
  have hfew : ∀ a ∈ kept, better Prod.snd kept a.2 < n :=
    fun a ha => (better_kept_lt_iff hkept a.2).mpr ((mem_kept hkept).mp ha).2
  by_cases hex : ∃ old, (k, old) ∈ kept
  · obtain ⟨old, hold⟩ := hex
    have hraise := raise_of_le hkeyed hold (hleast _ hold)
    exact (topN_perm hraise).trans ((topN_kept hkept).trans hraise.symm)
  · have habsent : ∀ old, (k, old) ∉ kept := fun old hold => hex ⟨old, hold⟩
    refine Perm.of_eq (topN_eq_self fun a ha => ?_)
    rw [raiseKey, bestOf_of_absent habsent, filter_ne_of_absent habsent] at ha ⊢
    have hle : low.2 ≤ a.2 := by
      rcases mem_cons.mp ha with rfl | ha
      · exact le_rfl
      · exact hleast a ha
    rw [better_cons, if_neg (not_lt.mpr hle)]
    rcases mem_cons.mp ha with rfl | ha
    · exact hfew low hlow
    · exact hfew a ha

end

/-! ## A threshold -/

/-- **A score that reaches the threshold**: showing it to the kept ones comes to the same as showing it to all, however the
threshold rises. -/
theorem filter_raise {t t' : S} (hkept : kept.Perm (l.filter fun a => decide (t ≤ a.2))) (ht : t ≤ s)
    (htt' : t ≤ t') : ((raiseKey k s kept).filter fun a => decide (t' ≤ a.2)).Perm
      ((raiseKey k s l).filter fun a => decide (t' ≤ a.2)) := by
  have hkeyed : Keyed kept := (hl.filter _).perm hkept.symm
  have hmem : ∀ a, a ∈ kept ↔ a ∈ l ∧ t ≤ a.2 := by
    intro a
    rw [hkept.mem_iff, mem_filter, decide_eq_true_eq]
  have hbest : bestOf k s kept = bestOf k s l := by
    by_cases hex : ∃ old, (k, old) ∈ l
    · obtain ⟨old, hold⟩ := hex
      by_cases hto : t ≤ old
      · rw [bestOf_of_mem hl hold, bestOf_of_mem hkeyed ((hmem _).mpr ⟨hold, hto⟩)]
      · rw [bestOf_of_mem hl hold, max_eq_right ((not_le.mp hto).le.trans ht), bestOf_of_absent fun old' hold' => ?_]
        have heq := hl.unique ((hmem _).mp hold').1 hold rfl
        rw [heq] at hold'
        exact hto ((hmem _).mp hold').2
    · rw [bestOf_of_absent fun old hold => hex ⟨old, hold⟩,
        bestOf_of_absent fun old hold => hex ⟨old, ((hmem _).mp hold).1⟩]
  rw [raiseKey, raiseKey, hbest, filter_cons, filter_cons]
  have hrest : ((kept.filter (·.1 ≠ k)).filter fun a => decide (t' ≤ a.2)).Perm
      ((l.filter (·.1 ≠ k)).filter fun a => decide (t' ≤ a.2)) := by
    refine ((hkept.filter _).filter _).trans (Perm.of_eq ?_)
    rw [filter_filter, filter_filter, filter_filter]
    apply filter_congr
    intro a _
    by_cases ha : t' ≤ a.2
    · simp [ha, htt'.trans ha]
    · simp [ha]
  split
  · exact hrest.cons _
  · exact hrest

/-- **A score below the threshold** is not shown to the kept ones. -/
theorem filter_reject {t : S} (hkept : kept.Perm (l.filter fun a => decide (t ≤ a.2))) (hs : s < t) :
    kept.Perm ((raiseKey k s l).filter fun a => decide (t ≤ a.2)) := by
  have hmem : ∀ a, a ∈ kept ↔ a ∈ l ∧ t ≤ a.2 := by
    intro a
    rw [hkept.mem_iff, mem_filter, decide_eq_true_eq]
  by_cases hex : ∃ old, (k, old) ∈ kept
  · obtain ⟨old, hold⟩ := hex
    have hraise := raise_of_le hl ((hmem _).mp hold).1 (hs.le.trans ((hmem _).mp hold).2)
    exact hkept.trans (hraise.symm.filter _)
  · have hlow : ¬ t ≤ bestOf k s l := by
      rw [not_le]
      by_cases hin : ∃ old, (k, old) ∈ l
      · obtain ⟨old, hold⟩ := hin
        rw [bestOf_of_mem hl hold]
        exact max_lt (not_le.mp fun hto => hex ⟨old, (hmem _).mpr ⟨hold, hto⟩⟩) hs
      · rwa [bestOf_of_absent fun old hold => hin ⟨old, hold⟩]
    refine hkept.trans (Perm.of_eq ?_)
    rw [raiseKey, filter_cons, if_neg (by simpa using hlow), filter_filter]
    apply filter_congr
    intro a ha
    by_cases hk : a.1 = k
    · have hnot : ¬ t ≤ a.2 := fun hto => hex ⟨a.2, (hmem _).mpr ⟨hk ▸ ha, hto⟩⟩
      simp [hnot]
    · simp [hk]

end

end Sbmt.Lib
