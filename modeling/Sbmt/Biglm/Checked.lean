import Sbmt.Biglm.Lookup
/-!
# When the checked lookup agrees with the plain one

The plain lookup takes the longest suffix of the query that is an n-gram of the model, and the backoff weights of the
contexts behind it.  The checked one asks for the parts of an n-gram it finds, and looks for them at the start of the query.
For the whole query, and the whole query without its last word, that is where they are (`Closed`); for a shorter suffix it
is not, and then the n-gram is taken or left by what other words do.

`Ends S g D`: an n-gram of `D` words is a suffix of the query, or of the query without its last word.  Down to the first
`D` at which that is so both loops do nothing (`loops_skip`); there the checks pass exactly if the parts are there, and if
they pass the loops go on alike (`checked_of_bowChked`).
-/

namespace Sbmt.Biglm

open List Option

variable {W : Type} (S : Set (List Nat))

/-- The n-grams of two words or more that are part of another one are in the model too. -/
def Closed : Prop :=
  ∀ g ∈ S, ∀ j i, 2 ≤ i → j + i ≤ g.length → (g.drop j).take i ∈ S

/-- Membership is exact: a check, and the lookups, find the n-grams of the model and no others. -/
structure Exact (lm : Lm W) (S : Set (List Nat)) : Prop where
  check : ∀ g j i, 2 ≤ i → i ≤ lm.order → j + i ≤ g.length → (lm.checkNgram g j i = true ↔ (g.drop j).take i ∈ S)
  prob : ∀ g o, 2 ≤ o → o ≤ lm.order → o ≤ g.length → ((lm.lookupQprob g o).isSome ↔ g.take o ∈ S)
  bow : ∀ g o, 2 ≤ o → o < lm.order → o ≤ g.length → ((lm.lookupQbow g o).isSome ↔ g.take o ∈ S)

/-- An n-gram of `D` words ends the query, or the query without its last word. -/
def Ends (g : List Nat) (D : Nat) : Prop :=
  (D ≤ g.length ∧ g.drop (g.length - D) ∈ S) ∨ (D + 1 ≤ g.length ∧ (g.drop (g.length - (D + 1))).take D ∈ S)

/-- Of the longest n-gram that ends the query, the first `D` words of the query have the parts. -/
def StartsAlike (g : List Nat) : Prop :=
  ∀ D, 3 ≤ D → Ends S g D → (∀ D' > D, ¬Ends S g D') → g.take (D - 1) ∈ S ∧ (g.drop 1).take (D - 1) ∈ S

/-! ## The checks of an n-gram -/

namespace Lm

variable {lm : Lm W} {g : List Nat} {o i : Nat} {s : Checks}

/-- Every n-gram of two to `k` words among the first `m` words is found. -/
def Parts (lm : Lm W) (g : List Nat) (m k : Nat) : Prop := ∀ i, 2 ≤ i → i ≤ k → ∀ j, j + i ≤ m → lm.checkNgram g j i = true

theorem startLoop_pass (j : Nat) (hpass : ∀ j', 1 ≤ j' → j' ≤ j → lm.checkNgram g j' i = true) :
    lm.startLoop g o i j s = s := by
  induction j with
  | zero => rfl
  | succ j ih =>
    unfold startLoop
    rw [if_pos (hpass (j + 1) (by omega) le_rfl)]
    exact ih fun j' h1 hj => hpass j' h1 (by omega)

/-- A failed check stays failed, and fails the loop. -/
theorem startLoop_fail (j : Nat) :
    (s.failedChk = true ∨ ∃ j', 1 ≤ j' ∧ j' ≤ j ∧ lm.checkNgram g j' i = false) →
    (lm.startLoop g o i j s).failedChk = true := by
  induction j with
  | zero =>
    rintro (h | ⟨j', h1, hj, _⟩)
    · exact h
    · omega
  | succ j ih =>
    intro h
    unfold startLoop
    by_cases hcheck : lm.checkNgram g (j + 1) i = true
    · rw [if_pos hcheck]
      apply ih
      rcases h with h | ⟨j', h1, hj, hfalse⟩
      · exact .inl h
      · rcases Nat.eq_or_lt_of_le hj with rfl | hlt
        · rw [hcheck] at hfalse
          cases hfalse
        · exact .inr ⟨j', h1, by omega, hfalse⟩
    · rw [if_neg hcheck]

/-- The bounds that the checks set leave a word. -/
theorem startLoop_frame (hi : 2 ≤ i) (j : Nat) (hj : j + i + 1 ≤ o) (hs : 1 ≤ s.nextProb) :
    1 ≤ (lm.startLoop g o i j s).nextProb ∧ (lm.startLoop g o i j s).bowChked = s.bowChked := by
  induction j with
  | zero => exact ⟨hs, rfl⟩
  | succ j ih =>
    unfold startLoop
    by_cases hcheck : lm.checkNgram g (j + 1) i = true
    · rw [if_pos hcheck]
      exact ih (by omega)
    · rw [if_neg hcheck]
      refine ⟨?_, rfl⟩
      dsimp only
      omega

variable {checks : Nat → Checks → Checks}

theorem checkLoop_pass (hfresh : s.failedChk = false) (i : Nat) (hpass : ∀ i', 2 ≤ i' → i' ≤ i → checks i' s = s) :
    checkLoop checks i s = s := by
  induction i with
  | zero => rfl
  | succ i ih =>
    unfold checkLoop
    by_cases h1 : i + 1 ≤ 1
    · rw [if_pos h1]
    · rw [if_neg h1, hpass (i + 1) (by omega) le_rfl]
      dsimp only
      rw [hfresh]
      exact ih fun i' h2 hi => hpass i' h2 (by omega)

theorem checkLoop_fail (hfresh : s.failedChk = false) (i : Nat)
    (hstep : ∀ i', 2 ≤ i' → i' ≤ i → checks i' s = s ∨ (checks i' s).failedChk = true) :
    (∃ i', 2 ≤ i' ∧ i' ≤ i ∧ (checks i' s).failedChk = true) → (checkLoop checks i s).failedChk = true := by
  induction i with
  | zero =>
    omega
  | succ i ih =>
    rintro ⟨i', h2, hi, hfail⟩
    unfold checkLoop
    rw [if_neg (by omega)]
    dsimp only
    rcases hstep (i + 1) (by omega) le_rfl with hsame | hfailed
    · rw [hsame, hfresh]
      apply ih fun i' h2 hi => hstep i' h2 (by omega)
      rcases Nat.eq_or_lt_of_le hi with rfl | hlt
      · rw [hsame, hfresh] at hfail
        cases hfail
      · exact ⟨i', h2, by omega, hfail⟩
    · rw [if_pos hfailed]
      exact hfailed

/-- What every check keeps, the loop keeps. -/
theorem checkLoop_keeps {P : Checks → Prop} (i : Nat) (hkeep : ∀ i', 2 ≤ i' → i' ≤ i → ∀ s, P s → P (checks i' s)) :
    ∀ {s}, P s → P (checkLoop checks i s) := by
  induction i with
  | zero => exact fun h => h
  | succ i ih =>
    intro s h
    unfold checkLoop
    by_cases h1 : i + 1 ≤ 1
    · rw [if_pos h1]
      exact h
    · rw [if_neg h1]
      have hnext := hkeep (i + 1) (by omega) le_rfl s h
      by_cases hfailed : (checks (i + 1) s).failedChk = true
      · rw [if_pos hfailed]
        exact hnext
      · rw [if_neg hfailed]
        exact ih (fun i' h2 hi => hkeep i' h2 (by omega)) hnext

/-- The checks for a probability find everything: all of it, or its end if a backoff weight was checked before. -/
theorem probChecks_pass (hlast : lm.checkNgram g (o - i) i = true)
    (hall : s.bowChked = false → ∀ j, j + i < o → lm.checkNgram g j i = true) (hi : i < o) :
    lm.probChecks g o i s = s := by
  unfold probChecks
  rw [hlast]
  cases hchked : s.bowChked with
  | true => rfl
  | false =>
    have hall := hall hchked
    simp only [hall 0 (by omega), Bool.not_true, Bool.not_false, Bool.false_eq_true, if_false, if_true]
    exact startLoop_pass (o - i - 1) fun j' _ hj => hall j' (by omega)

theorem probChecks_fail (hchked : s.bowChked = false) (hi : i < o)
    (hfail : ∃ j, j + i ≤ o ∧ lm.checkNgram g j i = false) : (lm.probChecks g o i s).failedChk = true := by
  obtain ⟨j, hj, hfalse⟩ := hfail
  unfold probChecks
  rw [hchked]
  by_cases hlast : lm.checkNgram g (o - i) i = true
  · rw [hlast]
    apply startLoop_fail
    rcases Nat.eq_zero_or_pos j with rfl | hpos
    · rw [hfalse]
      exact .inl rfl
    · refine .inr ⟨j, hpos, ?_, hfalse⟩
      have hne : j ≠ o - i := by
        rintro rfl
        rw [hlast] at hfalse
        cases hfalse
      omega
  · rw [Bool.eq_false_iff.mpr hlast]
    rfl

/-- Without a backoff weight before, the checks pass or fail. -/
theorem probChecks_or (hchked : s.bowChked = false) (hi : i < o) :
    lm.probChecks g o i s = s ∨ (lm.probChecks g o i s).failedChk = true := by
  by_cases hfail : ∃ j, j + i ≤ o ∧ lm.checkNgram g j i = false
  · exact .inr (probChecks_fail hchked hi hfail)
  · have hall : ∀ j, j + i ≤ o → lm.checkNgram g j i = true := fun j hj =>
      Bool.of_not_eq_false fun hfalse => hfail ⟨j, hj, hfalse⟩
    exact .inl (probChecks_pass (hall _ (by omega)) (fun _ j hj => hall j hj.le) hi)

theorem bowChecks_pass (hall : ∀ j, j + i < o → lm.checkNgram g j i = true) (hi : i < o) : lm.bowChecks g o i s = s := by
  unfold bowChecks
  rw [hall 0 (by omega)]
  exact startLoop_pass (o - 1 - i) fun j' _ hj => hall j' (by omega)

theorem bowChecks_fail (hfail : ∃ j, j + i < o ∧ lm.checkNgram g j i = false) :
    (lm.bowChecks g o i s).failedChk = true := by
  obtain ⟨j, hj, hfalse⟩ := hfail
  apply startLoop_fail
  rcases Nat.eq_zero_or_pos j with rfl | hpos
  · rw [hfalse]
    exact .inl rfl
  · exact .inr ⟨j, hpos, by omega, hfalse⟩

theorem bowChecks_or (hi : i < o) : lm.bowChecks g o i s = s ∨ (lm.bowChecks g o i s).failedChk = true := by
  by_cases hfail : ∃ j, j + i < o ∧ lm.checkNgram g j i = false
  · exact .inr (bowChecks_fail hfail)
  · exact .inl (bowChecks_pass (fun j hj => Bool.of_not_eq_false fun hfalse => hfail ⟨j, hj, hfalse⟩) hi)

theorem probChecks_frame (h2 : 2 ≤ i) (hi : i < o) (hs : 1 ≤ s.nextProb) : 1 ≤ (lm.probChecks g o i s).nextProb := by
  have hstart : ∀ s' : Checks, 1 ≤ s'.nextProb → 1 ≤ (lm.startLoop g o i (o - i - 1) s').nextProb := by
    intro s' hs'
    rcases Nat.eq_zero_or_pos (o - i - 1) with h0 | hpos
    · rw [h0]
      exact hs'
    · exact (startLoop_frame h2 _ (by omega) hs').1
  unfold probChecks
  by_cases hlast : lm.checkNgram g (o - i) i = true
  · rw [hlast]
    by_cases hchked : (!s.bowChked) = true
    · rw [if_pos hchked]
      apply hstart
      split_ifs
      · exact hs
      · exact hs
    · rw [if_neg hchked]
      exact hs
  · rw [Bool.eq_false_iff.mpr hlast]
    show 1 ≤ i - 1
    omega

theorem bowChecks_frame (h2 : 2 ≤ i) (hi : i + 1 < o) (hs : 1 ≤ s.nextProb) : 1 ≤ (lm.bowChecks g o i s).nextProb := by
  refine (startLoop_frame h2 (o - 1 - i) (by omega) ?_).1
  split_ifs
  · exact hs
  · exact hs

/-! ## A probability and a backoff weight -/

theorem probPart_none (h : lm.lookupQprob (g.drop (g.length - o)) o = none) : lm.probPart g o s = (none, s) := by
  unfold probPart
  rw [h]
  split_ifs <;> rfl

theorem probPart_pass {qp : Nat} (h : lm.lookupQprob (g.drop (g.length - o)) o = some qp) (ho : o ≤ s.nextProb)
    (hlast : ∀ i, 2 ≤ i → i < o → lm.checkNgram g (o - i) i = true)
    (hall : s.bowChked = false → ∀ i, 2 ≤ i → i < o → ∀ j, j + i < o → lm.checkNgram g j i = true) :
    lm.probPart g o s = (some qp, { s with failedChk := false }) := by
  have hloop : checkLoop (lm.probChecks g o) (o - 1) { s with failedChk := false } = { s with failedChk := false } :=
    checkLoop_pass rfl (o - 1) fun i h2 hi =>
      probChecks_pass (hlast i h2 (by omega)) (fun hchked => hall hchked i h2 (by omega)) (by omega)
  unfold probPart
  rw [h, if_pos ho]
  rw [hloop]
  rfl

theorem probPart_fail (hchked : s.bowChked = false)
    (hfail : ∃ i, 2 ≤ i ∧ i < o ∧ ∃ j, j + i ≤ o ∧ lm.checkNgram g j i = false) : (lm.probPart g o s).1 = none := by
  obtain ⟨i, h2, hi, hj⟩ := hfail
  unfold probPart
  by_cases ho : o ≤ s.nextProb
  · rw [if_pos ho]
    cases lm.lookupQprob (g.drop (g.length - o)) o with
    | none => rfl
    | some qp =>
      have hfailed : (checkLoop (lm.probChecks g o) (o - 1) { s with failedChk := false }).failedChk = true := by
        apply checkLoop_fail rfl
        · exact fun i' _ hi' => probChecks_or hchked (by omega)
        · exact ⟨i, h2, by omega, probChecks_fail hchked hi hj⟩
      dsimp only
      rw [hfailed]
      rfl
  · rw [if_neg ho]

variable (lm g o) in
theorem probPart_frame (hs : 1 ≤ s.nextProb) : 1 ≤ (lm.probPart g o s).2.nextProb := by
  have hloop : 1 ≤ (checkLoop (lm.probChecks g o) (o - 1) { s with failedChk := false }).nextProb :=
    checkLoop_keeps (P := fun s => 1 ≤ s.nextProb) (o - 1) (fun i h2 hi _ hs => probChecks_frame h2 (by omega) hs) hs
  unfold probPart
  by_cases ho : o ≤ s.nextProb
  · rw [if_pos ho]
    cases lm.lookupQprob (g.drop (g.length - o)) o with
    | none => exact hs
    | some qp =>
      dsimp only
      split_ifs
      · exact hloop
      · exact hloop
  · rw [if_neg ho]
    exact hs

theorem bowPart_none (h : lm.lookupQbow (g.drop (g.length - o)) (o - 1) = none) : lm.bowPart g o s = (none, s) := by
  unfold bowPart
  rw [h]
  split_ifs <;> rfl

theorem bowPart_pass {qb : Nat} (h : lm.lookupQbow (g.drop (g.length - o)) (o - 1) = some qb) (ho : o - 1 ≤ s.nextBow)
    (hall : s.bowChked = false → ∀ i, 2 ≤ i → i + 1 < o → ∀ j, j + i < o → lm.checkNgram g j i = true) :
    lm.bowPart g o s = (some qb, { s with failedChk := false, bowChked := true }) := by
  unfold bowPart
  rw [h, if_pos ho]
  cases hchked : s.bowChked with
  | true => rfl
  | false =>
    have hloop : checkLoop (lm.bowChecks g o) (o - 2) { s with failedChk := false, bowChked := false } =
        { s with failedChk := false, bowChked := false } :=
      checkLoop_pass rfl (o - 2) fun i h2 hi => bowChecks_pass (hall hchked i h2 (by omega)) (by omega)
    simp only [Bool.not_false, if_true, hloop]

theorem bowPart_fail (hchked : s.bowChked = false)
    (hfail : ∃ i, 2 ≤ i ∧ i + 1 < o ∧ ∃ j, j + i < o ∧ lm.checkNgram g j i = false) : (lm.bowPart g o s).1 = none := by
  obtain ⟨i, h2, hi, hj⟩ := hfail
  unfold bowPart
  by_cases ho : o - 1 ≤ s.nextBow
  · rw [if_pos ho]
    cases lm.lookupQbow (g.drop (g.length - o)) (o - 1) with
    | none => rfl
    | some qb =>
      have hfailed : (checkLoop (lm.bowChecks g o) (o - 2) { s with failedChk := false }).failedChk = true := by
        apply checkLoop_fail rfl
        · exact fun i' _ hi' => bowChecks_or (by omega)
        · exact ⟨i, h2, by omega, bowChecks_fail hj⟩
      rw [hchked] at hfailed
      simp [hchked, hfailed]
  · rw [if_neg ho]

variable (lm g o) in
theorem bowPart_frame (hs : 1 ≤ s.nextProb) : 1 ≤ (lm.bowPart g o s).2.nextProb := by
  have hloop : 1 ≤ (checkLoop (lm.bowChecks g o) (o - 2) { s with failedChk := false }).nextProb :=
    checkLoop_keeps (P := fun s => 1 ≤ s.nextProb) (o - 2) (fun i h2 hi _ hs => bowChecks_frame h2 (by omega) hs) hs
  unfold bowPart
  by_cases ho : o - 1 ≤ s.nextBow
  · rw [if_pos ho]
    cases lm.lookupQbow (g.drop (g.length - o)) (o - 1) with
    | none => exact hs
    | some qb =>
      dsimp only
      by_cases hchked : (!s.bowChked) = true
      · split_ifs
        · exact hloop
        · exact hloop
      · rw [if_neg hchked]
        exact hs
  · rw [if_neg ho]
    exact hs

end Lm

/-! ## What the lookups find -/

section Hits

variable {lm : Lm W} {S : Set (List Nat)} {g : List Nat} {o : Nat}

theorem Exact.prob_iff (h : Exact lm S) (hg : g.length ≤ lm.order) (h2 : 2 ≤ o) (ho : o ≤ g.length) :
    (lm.lookupQprob (g.drop (g.length - o)) o).isSome ↔ g.drop (g.length - o) ∈ S := by
  have hlength : (g.drop (g.length - o)).length = o := by
    rw [length_drop]
    omega
  rw [h.prob _ o h2 (by omega) hlength.ge, take_of_length_le hlength.le]

theorem Exact.bow_iff (h : Exact lm S) (hg : g.length ≤ lm.order) (h2 : 2 ≤ o) (ho : o + 1 ≤ g.length) :
    (lm.lookupQbow (g.drop (g.length - (o + 1))) o).isSome ↔ (g.drop (g.length - (o + 1))).take o ∈ S := by
  refine h.bow _ o h2 (by omega) ?_
  rw [length_drop]
  omega

theorem Exact.not_mem_of_prob (h : Exact lm S) (hg : g.length ≤ lm.order) (h2 : 2 ≤ o) (ho : o ≤ g.length)
    (hqp : lm.lookupQprob (g.drop (g.length - o)) o = none) : g.drop (g.length - o) ∉ S := by
  rw [← h.prob_iff hg h2 ho, hqp]
  exact Bool.false_ne_true

theorem Exact.not_mem_of_bow (h : Exact lm S) (hg : g.length ≤ lm.order) (h2 : 2 ≤ o) (ho : o + 1 ≤ g.length)
    (hqb : lm.lookupQbow (g.drop (g.length - (o + 1))) o = none) : (g.drop (g.length - (o + 1))).take o ∉ S := by
  rw [← h.bow_iff hg h2 ho, hqb]
  exact Bool.false_ne_true

theorem unkWord_eq_false (h2 : 2 ≤ o) : lm.unkWord g o = false := by
  unfold Lm.unkWord
  rw [show (o == 1) = false from beq_eq_false_iff_ne.mpr (by omega)]
  rfl

theorem unkWord_two (g : List Nat) (o : Nat) : ¬lm.unkWord g (o + 1 + 1) = true :=
  Bool.eq_false_iff.mp (unkWord_eq_false (by omega))

/-- A word alone is always found. -/
theorem lookupQprob_one (lm : Lm W) (g : List Nat) : (lm.lookupQprob g 1).isSome := rfl

theorem lookupQbow_one (lm : Lm W) (g : List Nat) : (lm.lookupQbow g 1).isSome := rfl

/-- No longer n-gram is left behind: the loops are at `o`. -/
structure Unended (S : Set (List Nat)) (g : List Nat) (o : Nat) : Prop where
  suffix : ∀ D, o < D → D ≤ g.length → g.drop (g.length - D) ∉ S
  context : ∀ D, o ≤ D → D + 1 ≤ g.length → (g.drop (g.length - (D + 1))).take D ∉ S

variable (S g) in
theorem unended_length : Unended S g g.length :=
  ⟨fun D h h' => absurd h' (by omega), fun D h h' => absurd h' (by omega)⟩

/-- The parts of the first `D` words, but for all of them, from the two that are a word shorter. -/
theorem parts_of_heads (h : Exact lm S) (hclosed : Closed S) (hg : g.length ≤ lm.order) {D : Nat} (hD : D ≤ g.length)
    (hheads : g.take (D - 1) ∈ S ∧ (g.drop 1).take (D - 1) ∈ S) {i j : Nat} (h2 : 2 ≤ i) (hi : i < D) (hj : j + i ≤ D) :
    lm.checkNgram g j i = true := by
  rw [h.check g j i h2 (by omega) (by omega)]
  rcases Nat.eq_zero_or_pos j with rfl | hpos
  · have hpart := hclosed _ hheads.1 0 i h2 (by rw [length_take]; omega)
    rwa [drop_zero, take_take, Nat.min_eq_left (by omega)] at hpart
  · have hpart := hclosed _ hheads.2 (j - 1) i h2 (by rw [length_take, length_drop]; omega)
    rwa [drop_take, drop_drop, take_take, Nat.min_eq_left (by omega),
      show 1 + (j - 1) = j by omega] at hpart

end Hits

/-! ## The loops -/

section Loops

variable [Add W] [Zero W] {impossible : W} {lm : Lm W} {S : Set (List Nat)} {g : List Nat}

variable (impossible) in
/-- Once a backoff weight has passed, both loops go on alike. -/
theorem checked_of_bowChked (o : Nat) : ∀ {bow : W} {s : Lm.Checks}, s.bowChked = true → o ≤ s.nextProb → o ≤ s.nextBow + 1 →
    (∀ i j, 2 ≤ i → 1 ≤ j → j + i ≤ o → lm.checkNgram g j i = true) →
    lm.checkedLoop impossible g o bow s = lm.lookupLoop impossible g o bow := by
  induction o with
  | zero => exact fun _ _ _ _ => rfl
  | succ o ih =>
    intro bow s hchked hprob hbow hparts
    unfold Lm.checkedLoop Lm.lookupLoop
    by_cases hunk : lm.unkWord g (o + 1) = true
    · rw [if_pos hunk, if_pos hunk]
    · rw [if_neg hunk, if_neg hunk]
      cases hqp : lm.lookupQprob (g.drop (g.length - (o + 1))) (o + 1) with
      | some qp =>
        rw [Lm.probPart_pass hqp hprob (fun i h2 hi => hparts i _ h2 (by omega) (by omega)) fun h => by
          rw [hchked] at h
          cases h]
      | none =>
        rw [Lm.probPart_none hqp]
        dsimp only
        cases hqb : lm.lookupQbow (g.drop (g.length - (o + 1))) o with
        | some qb =>
          rw [Lm.bowPart_pass hqb (by omega) fun h => by
            rw [hchked] at h
            cases h]
          exact ih rfl (show o ≤ s.nextProb by omega) (show o ≤ s.nextBow + 1 by omega) fun i j h2 h1 hj =>
            hparts i j h2 h1 (by omega)
        | none =>
          rw [Lm.bowPart_none hqb]
          exact ih hchked (by omega) (by omega) fun i j h2 h1 hj => hparts i j h2 h1 (by omega)

variable (impossible) in
/-- **If the query starts with the parts, the checked lookup is the plain one.** -/
theorem checked_of_startsAlike (hexact : Exact lm S) (hclosed : Closed S) (hg : g.length ≤ lm.order)
    (halike : StartsAlike S g) (o : Nat) : o ≤ g.length → Unended S g o → ∀ {bow : W} {s : Lm.Checks}, s.bowChked = false →
      o ≤ s.nextProb → o ≤ s.nextBow + 1 →
      lm.checkedLoop impossible g o bow s = lm.lookupLoop impossible g o bow := by
  induction o with
  | zero => exact fun _ _ _ _ _ _ _ => rfl
  | succ o ih =>
    intro ho hun bow s hchked hprob hbow
    unfold Lm.checkedLoop Lm.lookupLoop
    by_cases hunk : lm.unkWord g (o + 1) = true
    · rw [if_pos hunk, if_pos hunk]
    · rw [if_neg hunk, if_neg hunk]
      cases hqp : lm.lookupQprob (g.drop (g.length - (o + 1))) (o + 1) with
      | some qp =>
        -- The n-gram of `o + 1` words is the longest; what it is asked for is there.
        have hparts : ∀ i, 2 ≤ i → i < o + 1 → ∀ j, j + i ≤ o + 1 → lm.checkNgram g j i = true := by
          intro i h2 hi j hj
          have hmem := (hexact.prob_iff hg (by omega) ho).mp (by rw [hqp]; rfl)
          refine parts_of_heads hexact hclosed hg ho (halike (o + 1) (by omega) (.inl ⟨ho, hmem⟩) ?_) h2 hi hj
          rintro D' hD' (⟨hle, hin⟩ | ⟨hle, hin⟩)
          · exact hun.suffix D' hD' hle hin
          · exact hun.context D' hD'.le hle hin
        rw [Lm.probPart_pass hqp hprob (fun i h2 hi => hparts i h2 hi _ (by omega)) fun _ i h2 hi j hj =>
          hparts i h2 hi j hj.le]
      | none =>
        have hpos : 1 ≤ o := by
          by_contra h0
          obtain rfl : o = 0 := by omega
          have hone := lookupQprob_one lm (g.drop (g.length - (0 + 1)))
          rw [hqp] at hone
          cases hone
        have hsuffix : ∀ D, o < D → D ≤ g.length → g.drop (g.length - D) ∉ S := by
          intro D hD hle
          rcases Nat.eq_or_lt_of_le hD with rfl | hlt
          · exact hexact.not_mem_of_prob hg (by omega) ho hqp
          · exact hun.suffix D hlt hle
        rw [Lm.probPart_none hqp]
        dsimp only
        cases hqb : lm.lookupQbow (g.drop (g.length - (o + 1))) o with
        | some qb =>
          have hparts : ∀ i, 2 ≤ i → i < o → ∀ j, j + i ≤ o → lm.checkNgram g j i = true := by
            intro i h2 hi j hj
            have hmem := (hexact.bow_iff hg (by omega) ho).mp (by rw [hqb]; rfl)
            refine parts_of_heads hexact hclosed hg (by omega) (halike o (by omega) (.inr ⟨ho, hmem⟩) ?_) h2 hi hj
            rintro D' hD' (⟨hle, hin⟩ | ⟨hle, hin⟩)
            · exact hsuffix D' hD' hle hin
            · exact hun.context D' hD' hle hin
          rw [Lm.bowPart_pass hqb (by omega) fun _ i h2 hi j hj => hparts i h2 (by omega) j (by omega)]
          refine checked_of_bowChked impossible o rfl (show o ≤ s.nextProb by omega) (show o ≤ s.nextBow + 1 by omega) ?_
          exact fun i j h2 h1 hj => hparts i h2 (by omega) j hj
        | none =>
          rw [Lm.bowPart_none hqb]
          refine ih (by omega) ⟨hsuffix, fun D hD hle hin => ?_⟩ hchked (by omega) (by omega)
          rcases Nat.eq_or_lt_of_le hD with rfl | hlt
          · rcases Nat.eq_or_lt_of_le hpos with rfl | h2
            · have hone := lookupQbow_one lm (g.drop (g.length - (1 + 1)))
              rw [hqb] at hone
              cases hone
            · exact hexact.not_mem_of_bow hg h2 hle hqb hin
          · exact hun.context D hlt hle hin

variable (impossible) in
/-- Down to the longest n-gram both loops do nothing. -/
theorem loops_skip (hexact : Exact lm S) (hg : g.length ≤ lm.order) {m : Nat} (hm : 2 ≤ m) (hun : Unended S g m)
    (s : Lm.Checks) (bow : W) (d : Nat) : m + d ≤ g.length →
      lm.checkedLoop impossible g (m + d) bow s = lm.checkedLoop impossible g m bow s ∧
      lm.lookupLoop impossible g (m + d) bow = lm.lookupLoop impossible g m bow := by
  induction d with
  | zero => exact fun _ => ⟨rfl, rfl⟩
  | succ d ih =>
    intro ho
    have ho : m + d + 1 ≤ g.length := ho
    have hunk : ¬lm.unkWord g (m + d + 1) = true := Bool.eq_false_iff.mp (unkWord_eq_false (by omega))
    have hqp : lm.lookupQprob (g.drop (g.length - (m + d + 1))) (m + d + 1) = none := by
      rw [← not_isSome_iff_eq_none, hexact.prob_iff hg (by omega) ho]
      exact hun.suffix _ (by omega) ho
    have hqb : lm.lookupQbow (g.drop (g.length - (m + d + 1))) (m + d) = none := by
      rw [← not_isSome_iff_eq_none, hexact.bow_iff hg (by omega) ho]
      exact hun.context _ (by omega) ho
    have hchecked : lm.checkedLoop impossible g (m + d + 1) bow s = lm.checkedLoop impossible g (m + d) bow s := by
      conv_lhs => unfold Lm.checkedLoop
      rw [if_neg hunk, Lm.probPart_none hqp]
      dsimp only
      rw [Lm.bowPart_none hqb]
    have hplain : lm.lookupLoop impossible g (m + d + 1) bow = lm.lookupLoop impossible g (m + d) bow := by
      conv_lhs => unfold Lm.lookupLoop
      rw [if_neg hunk, hqp, hqb]
    obtain ⟨hchecked', hplain'⟩ := ih (by omega)
    exact ⟨hchecked.trans hchecked', hplain.trans hplain'⟩

end Loops

/-! ## Weights that tell the two apart -/

section Weights

/-- A word alone passes: there is nothing to check. -/
theorem probPart_one (lm : Lm W) (g : List Nat) (hs : 1 ≤ s.nextProb) : ∃ qp s', lm.probPart g 1 s = (some qp, s') := by
  obtain ⟨qp, hqp⟩ := isSome_iff_exists.mp (lookupQprob_one lm (g.drop (g.length - 1)))
  exact ⟨qp, _, Lm.probPart_pass hqp hs (fun i h2 hi => absurd hi (by omega)) fun _ i h2 hi => absurd hi (by omega)⟩

variable [AddZeroClass W] {impossible : W} {lm : Lm W} {S : Set (List Nat)} {g : List Nat}

/-- The weights that are left to be looked up are all zero. -/
structure Silent (lm : Lm W) (o : Nat) : Prop where
  prob : ∀ o' q, o' ≤ o → lm.decodeProb o' q = 0
  bow : ∀ o' q, o' < o → lm.decodeBow o' q = 0
  unk : lm.pUnk = 0

theorem Silent.mono {o o' : Nat} (h : Silent lm o) (hle : o' ≤ o) : Silent lm o' :=
  ⟨fun o'' q h'' => h.prob o'' q (h''.trans hle), fun o'' q h'' => h.bow o'' q (h''.trans_le hle), h.unk⟩

theorem lookupLoop_silent (o : Nat) : Silent lm (o + 1) → ∀ x, lm.lookupLoop impossible g (o + 1) x = x := by
  induction o with
  | zero =>
    intro h x
    unfold Lm.lookupLoop
    by_cases hunk : lm.unkWord g (0 + 1) = true
    · rw [if_pos hunk, h.unk, add_zero]
    · rw [if_neg hunk]
      obtain ⟨qp, hqp⟩ := isSome_iff_exists.mp (lookupQprob_one lm (g.drop (g.length - (0 + 1))))
      rw [hqp]
      exact (congrArg (x + ·) (h.prob _ qp le_rfl)).trans (add_zero x)
  | succ o ih =>
    intro h x
    unfold Lm.lookupLoop
    cases lm.lookupQprob (g.drop (g.length - (o + 1 + 1))) (o + 1 + 1) with
    | some qp => exact (congrArg (x + ·) (h.prob _ qp le_rfl)).trans (add_zero x)
    | none =>
      cases lm.lookupQbow (g.drop (g.length - (o + 1 + 1))) (o + 1) with
      | some qb =>
        dsimp only
        rw [h.bow _ qb (by omega), add_zero]
        exact ih (h.mono (by omega)) x
      | none => exact ih (h.mono (by omega)) x

variable {s : Lm.Checks}

/-- One turn: what passes gives the weight `y`, and so does the rest of the loop, which the turn leaves as it is. -/
theorem checkedLoop_turn {o : Nat} {x y : W} (hs : 1 ≤ s.nextProb)
    (hprob : ∀ qp ∈ (lm.probPart g (o + 1 + 1) s).1, x + lm.decodeProb (o + 1 + 1) qp = y)
    (hbow : ∀ qb ∈ (lm.bowPart g (o + 1 + 1) (lm.probPart g (o + 1 + 1) s).2).1, lm.decodeBow (o + 1) qb = 0)
    (hrest : ∀ s' : Lm.Checks, 1 ≤ s'.nextProb → lm.checkedLoop impossible g (o + 1) x s' = y) :
    lm.checkedLoop impossible g (o + 1 + 1) x s = y := by
  have hframe := Lm.probPart_frame lm g (o + 1 + 1) hs
  have hframe' := Lm.bowPart_frame lm g (o + 1 + 1) hframe
  unfold Lm.checkedLoop
  revert hprob hbow hframe'
  cases lm.probPart g (o + 1 + 1) s with
  | mk qp s1 =>
    intro hprob hbow hframe'
    cases qp with
    | some qp => exact hprob qp rfl
    | none =>
      dsimp only at hbow hframe' ⊢
      revert hbow hframe'
      cases lm.bowPart g (o + 1 + 1) s1 with
      | mk qb s2 =>
        intro hbow hframe'
        cases qb with
        | some qb =>
          dsimp only
          rw [hbow qb rfl, add_zero]
          exact hrest s2 hframe'
        | none => exact hrest s2 hframe'

theorem checkedLoop_silent (o : Nat) : Silent lm (o + 1) → ∀ x (s : Lm.Checks), 1 ≤ s.nextProb →
    lm.checkedLoop impossible g (o + 1) x s = x := by
  induction o with
  | zero =>
    intro h x s hs
    unfold Lm.checkedLoop
    by_cases hunk : lm.unkWord g (0 + 1) = true
    · rw [if_pos hunk, h.unk, add_zero]
    · rw [if_neg hunk]
      obtain ⟨qp, s', hpart⟩ := probPart_one lm g hs
      rw [hpart]
      exact (congrArg (x + ·) (h.prob _ qp le_rfl)).trans (add_zero x)
  | succ o ih =>
    intro h x s hs
    exact checkedLoop_turn hs (fun qp _ => (congrArg (x + ·) (h.prob _ qp le_rfl)).trans (add_zero x))
      (fun qb _ => h.bow _ qb (by omega)) fun s' hs' => ih (h.mono (by omega)) x s' hs'

variable (impossible) in
/-- A probability of the longest n-gram that fails its check is not found again. -/
theorem checkedLoop_prob_failed {D : Nat} (hD : 2 ≤ D) (h : Silent lm (D - 1))
    (hbow : ∀ q, lm.decodeBow (D - 1) q = 0) (hs : 1 ≤ s.nextProb) (hfail : (lm.probPart g D s).1 = none) :
    lm.checkedLoop impossible g D 0 s = 0 := by
  obtain ⟨o, rfl⟩ : ∃ o, D = o + 1 + 1 := ⟨D - 2, by omega⟩
  refine checkedLoop_turn hs (fun qp hqp => ?_) (fun qb _ => hbow qb) fun s' hs' => checkedLoop_silent o h 0 s' hs'
  rw [hfail] at hqp
  cases hqp

variable (impossible) in
/-- Nor is its backoff weight. -/
theorem checkedLoop_bow_failed {D : Nat} (hD : 1 ≤ D) (h : Silent lm D) (hs : 1 ≤ s.nextProb)
    (hprob : lm.lookupQprob (g.drop (g.length - (D + 1))) (D + 1) = none) (hfail : (lm.bowPart g (D + 1) s).1 = none) :
    lm.checkedLoop impossible g (D + 1) 0 s = 0 := by
  obtain ⟨o, rfl⟩ : ∃ o, D = o + 1 := ⟨D - 1, by omega⟩
  have hpart := Lm.probPart_none (s := s) hprob
  refine checkedLoop_turn hs (fun qp hqp => ?_) (fun qb hqb => ?_) fun s' hs' => checkedLoop_silent o h 0 s' hs'
  · rw [hpart] at hqp
    cases hqp
  · rw [hpart, hfail] at hqb
    cases hqb

/-- Quantizers that are empty but for one, which decodes a number as `c`. -/
def spike (D q : Nat) (c : W) : List (Quantizer W) :=
  replicate (D - 1) .empty ++ [.ofMeans (fun x _ => x) (replicate (q + 1) c)]

theorem spike_of_ne {D o q : Nat} {c : W} (hne : o - 1 ≠ D - 1) (q' : Nat) :
    ((spike D q c).getD (o - 1) .empty).decode q' = 0 := by
  have hempty : (spike D q c).getD (o - 1) .empty = .empty := by
    unfold spike
    rw [getD_eq_getElem?_getD]
    rcases Nat.lt_or_gt_of_ne hne with hlt | hgt
    · rw [getElem?_append_left (by rw [length_replicate]; exact hlt), getElem?_replicate, if_pos hlt]
      rfl
    · rw [getElem?_eq_none (by rw [length_append, length_replicate]; exact hgt)]
      rfl
  rw [hempty]
  rfl

theorem spike_self {D q : Nat} {c : W} : ((spike D q c).getD (D - 1) .empty).decode q = c := by
  have hself : (spike D q c).getD (D - 1) .empty = .ofMeans (fun x _ => x) (replicate (q + 1) c) := by
    unfold spike
    rw [getD_eq_getElem?_getD, getElem?_append_right (by rw [length_replicate]), length_replicate,
      Nat.sub_self]
    rfl
  have hmeans : (Quantizer.ofMeans (fun x _ => x) (replicate (q + 1) c)).means = replicate (q + 1) c := rfl
  rw [hself, Quantizer.decode, hmeans, getD_eq_getElem?_getD, getElem?_replicate, if_pos (Nat.lt_succ_self q)]
  rfl

omit [AddZeroClass W] in
/-- A part that is missing at the start of the query fails a check. -/
theorem exists_failed (hexact : Exact lm S) (hg : g.length ≤ lm.order) {D : Nat} (h3 : 3 ≤ D) (hD : D ≤ g.length)
    (hheads : ¬(g.take (D - 1) ∈ S ∧ (g.drop 1).take (D - 1) ∈ S)) :
    ∃ j, j + (D - 1) ≤ D ∧ lm.checkNgram g j (D - 1) = false := by
  by_contra hnone
  apply hheads
  have hall : ∀ j, j + (D - 1) ≤ D → (g.drop j).take (D - 1) ∈ S := fun j hj =>
    (hexact.check g j (D - 1) (by omega) (by omega) (by omega)).mp
      (Bool.of_not_eq_false fun hfalse => hnone ⟨j, hj, hfalse⟩)
  exact ⟨hall 0 (by omega), hall 1 (by omega)⟩

variable (impossible) in
/-- What the plain lookup makes of an n-gram, -/
theorem lookupLoop_suffix {D qp : Nat} {c : W} (hD : 2 ≤ D) (hqp : lm.lookupQprob (g.drop (g.length - D)) D = some qp)
    (hc : lm.decodeProb D qp = c) : lm.lookupLoop impossible g D 0 = c := by
  obtain ⟨o, rfl⟩ : ∃ o, D = o + 1 := ⟨D - 1, by omega⟩
  have hunk : ¬lm.unkWord g (o + 1) = true := Bool.eq_false_iff.mp (unkWord_eq_false hD)
  unfold Lm.lookupLoop
  rw [if_neg hunk, hqp]
  exact (congrArg (0 + ·) hc).trans (zero_add c)

variable (impossible) in
/-- and of a context. -/
theorem lookupLoop_context {D qb : Nat} {c : W} (h : Silent lm D) (hD : 1 ≤ D)
    (hqp : lm.lookupQprob (g.drop (g.length - (D + 1))) (D + 1) = none)
    (hqb : lm.lookupQbow (g.drop (g.length - (D + 1))) D = some qb) (hc : lm.decodeBow D qb = c) :
    lm.lookupLoop impossible g (D + 1) 0 = c := by
  obtain ⟨o, rfl⟩ : ∃ o, D = o + 1 := ⟨D - 1, by omega⟩
  unfold Lm.lookupLoop
  rw [if_neg (unkWord_two g o), hqp, hqb]
  dsimp only
  rw [hc, zero_add]
  exact lookupLoop_silent o h c

/-- If the checked loop loses a weight, the lookups differ. -/
theorem differ_of_loops (hexact : Exact lm S) (hg : g.length ≤ lm.order) {m : Nat} (hm : 2 ≤ m) (hle : m ≤ g.length)
    (hun : Unended S g m) {c : W} (hc : c ≠ 0) (hchecked : lm.checkedLoop impossible g m 0 ⟨g.length, g.length, false, false⟩ = 0)
    (hplain : lm.lookupLoop impossible g m 0 = c) : lm.lookupNgramChecked impossible g ≠ lm.lookupNgram impossible g := by
  intro heq
  have hskip := loops_skip impossible hexact hg hm hun ⟨g.length, g.length, false, false⟩ 0 (g.length - m) (by omega)
  rw [Nat.add_sub_cancel' hle] at hskip
  exact hc (hplain.symm.trans (hskip.2.symm.trans (heq.symm.trans (hskip.1.trans hchecked))))

/-- **The checked lookup agrees with the plain one, whatever the weights are, exactly if the query starts with the parts of
the longest n-gram that ends it.** -/
theorem lookupNgramChecked_iff [Nontrivial W] (hexact : Exact lm S) (hclosed : Closed S) (hg : g.length ≤ lm.order) :
    (∀ (pqs bqs : List (Quantizer W)) (pUnk : W),
      ({ lm with probQuantizer := pqs, bowQuantizer := bqs, pUnk } : Lm W).lookupNgramChecked impossible g =
        ({ lm with probQuantizer := pqs, bowQuantizer := bqs, pUnk } : Lm W).lookupNgram impossible g) ↔
      StartsAlike S g := by
  have hexact' : ∀ pqs bqs pUnk, Exact ({ lm with probQuantizer := pqs, bowQuantizer := bqs, pUnk } : Lm W) S :=
    fun _ _ _ => ⟨hexact.check, hexact.prob, hexact.bow⟩
  constructor
  · intro hagree D h3 hends hmax
    by_contra hheads
    obtain ⟨c, hc⟩ := exists_ne (0 : W)
    have hD : D ≤ g.length := by
      rcases hends with ⟨hle, -⟩ | ⟨hle, -⟩
      · exact hle
      · omega
    obtain ⟨j, hj, hfalse⟩ := exists_failed hexact hg h3 hD hheads
    by_cases hcontext : D + 1 ≤ g.length ∧ (g.drop (g.length - (D + 1))).take D ∈ S
    · -- The backoff weight of the context is lost.
      obtain ⟨hle, hin⟩ := hcontext
      obtain ⟨qb, hqb⟩ := isSome_iff_exists.mp ((hexact.bow_iff hg (by omega) hle).mpr hin)
      have hqp : lm.lookupQprob (g.drop (g.length - (D + 1))) (D + 1) = none := by
        rw [← not_isSome_iff_eq_none, hexact.prob_iff hg (by omega) hle]
        exact fun hmem => hmax (D + 1) (Nat.lt_succ_self D) (.inl ⟨hle, hmem⟩)
      have hun : Unended S g (D + 1) :=
        ⟨fun D' hD' hle' hmem => hmax D' (by omega) (.inl ⟨hle', hmem⟩),
          fun D' hD' hle' hmem => hmax D' (by omega) (.inr ⟨hle', hmem⟩)⟩
      have hsilent : Silent ({ lm with probQuantizer := [], bowQuantizer := spike D qb c, pUnk := 0 } : Lm W) D :=
        ⟨fun _ _ _ => rfl, fun o' q' ho' => spike_of_ne (by omega) q', rfl⟩
      exact differ_of_loops (hexact' [] (spike D qb c) 0) hg (by omega) hle hun hc
        (checkedLoop_bow_failed impossible (by omega) hsilent (show 1 ≤ g.length by omega) hqp
          (Lm.bowPart_fail rfl ⟨D - 1, by omega, by omega, j, by omega, hfalse⟩))
        (lookupLoop_context impossible hsilent (by omega) hqp hqb (spike_self (q := qb))) (hagree [] (spike D qb c) 0)
    · -- The probability is lost.
      have hin : g.drop (g.length - D) ∈ S := by
        rcases hends with ⟨-, hin⟩ | hctx
        · exact hin
        · exact absurd hctx hcontext
      obtain ⟨qp, hqp⟩ := isSome_iff_exists.mp ((hexact.prob_iff hg (by omega) hD).mpr hin)
      have hun : Unended S g D :=
        ⟨fun D' hD' hle' hmem => hmax D' hD' (.inl ⟨hle', hmem⟩), fun D' hD' hle' hmem => by
          rcases Nat.eq_or_lt_of_le hD' with rfl | hlt
          · exact hcontext ⟨hle', hmem⟩
          · exact hmax D' hlt (.inr ⟨hle', hmem⟩)⟩
      have hsilent : Silent ({ lm with probQuantizer := spike D qp c, bowQuantizer := [], pUnk := 0 } : Lm W) (D - 1) :=
        ⟨fun o' q' ho' => spike_of_ne (by omega) q', fun _ _ _ => rfl, rfl⟩
      exact differ_of_loops (hexact' (spike D qp c) [] 0) hg (by omega) hD hun hc
        (checkedLoop_prob_failed impossible (by omega) hsilent (fun _ => rfl) (show 1 ≤ g.length by omega)
          (Lm.probPart_fail rfl ⟨D - 1, by omega, by omega, j, hj, hfalse⟩))
        (lookupLoop_suffix impossible (by omega) hqp (spike_self (q := qp))) (hagree (spike D qp c) [] 0)
  · intro halike pqs bqs pUnk
    exact checked_of_startsAlike impossible (hexact' pqs bqs pUnk) hclosed hg halike g.length le_rfl
      (unended_length S g) rfl le_rfl (Nat.le_succ _)

end Weights

/-! ## A trigram behind an unknown bigram -/

/-- The n-grams `1 2 3`, `1 2` and `2 3`. -/
def oneTrigram : List (List Nat) := [[1, 2, 3], [1, 2], [2, 3]]

def oneTrigramLm : Lm Int where
  order := 4
  vocabMph := ⟨fun _ => 9, 10⟩
  ngramMph := [⟨fun g => if g = [1, 2] then 0 else if g = [2, 3] then 1 else 2, 2⟩,
    ⟨fun g => if g = [1, 2, 3] then 0 else 1, 1⟩, ⟨fun _ => 0, 0⟩]
  ngramHash := fun _ => 0
  probQuantizer := [.ofMeans (fun x _ => x) [-9], .ofMeans (fun x _ => x) [-5], .ofMeans (fun x _ => x) [-1], .empty]
  bowQuantizer := []
  checksumBits := 1
  probBits := 1
  bowBits := 1
  values := [.make 20, .make 6, .make 3, .make 0]
  overrideUnk := false
  pUnk := 0

theorem oneTrigram_search {t : List Nat} (h2 : 2 ≤ t.length) (h4 : t.length ≤ 4) (hout : t ∉ oneTrigram) :
    (oneTrigramLm.mph t.length).search t ≥ (oneTrigramLm.mph t.length).size := by
  simp only [oneTrigram, mem_cons, not_mem_nil, or_false, not_or] at hout
  obtain ⟨h123, h12, h23⟩ := hout
  rcases (show t.length = 2 ∨ t.length = 3 ∨ t.length = 4 by omega) with h | h | h
  · rw [h]
    show (if t = [1, 2] then 0 else if t = [2, 3] then 1 else 2) ≥ 2
    rw [if_neg h12, if_neg h23]
  · rw [h]
    show (if t = [1, 2, 3] then 0 else 1) ≥ 1
    rw [if_neg h123]
  · rw [h]
    exact Nat.zero_le _

theorem oneTrigram_slot (g : List Nat) {o : Nat} (h2 : 2 ≤ o) (ho : o ≤ 4) (hlength : o ≤ g.length) :
    (oneTrigramLm.slot g o).isSome ↔ g.take o ∈ oneTrigram := by
  have ht : (g.take o).length = o := by
    rw [length_take]
    omega
  unfold Lm.slot
  generalize g.take o = t at ht
  subst ht
  by_cases hmem : t ∈ oneTrigram
  · simp only [oneTrigram, mem_cons, not_mem_nil, or_false] at hmem
    rcases hmem with rfl | rfl | rfl <;> decide
  · rw [if_pos (oneTrigram_search h2 ho hmem)]
    simp [hmem]

theorem oneTrigram_exact : Exact oneTrigramLm {g | g ∈ oneTrigram} := by
  refine ⟨?_, ?_, ?_⟩
  · intro g j i h2 hi hlength
    have ht : ((g.drop j).take i).length = i := by
      rw [length_take, length_drop]
      omega
    unfold Lm.checkNgram
    generalize (g.drop j).take i = t at ht
    subst ht
    by_cases hmem : t ∈ oneTrigram
    · simp only [oneTrigram, mem_cons, not_mem_nil, or_false] at hmem
      rcases hmem with rfl | rfl | rfl <;> decide
    · rw [if_pos (oneTrigram_search h2 hi hmem)]
      simp [hmem]
  · intro g o h2 ho hlength
    rw [Lm.lookupQprob, if_neg (by omega), isSome_map]
    exact oneTrigram_slot g h2 ho hlength
  · intro g o h2 ho hlength
    rw [Lm.lookupQbow, if_neg (by omega), if_neg (by omega), isSome_map]
    exact oneTrigram_slot g h2 ho.le hlength

theorem oneTrigram_closed : Closed {g | g ∈ oneTrigram} := by
  have hall : ∀ g ∈ oneTrigram, ∀ j ≤ 3, ∀ i ≤ 3, 2 ≤ i → j + i ≤ g.length → (g.drop j).take i ∈ oneTrigram := by
    decide
  intro g hg j i h2 hle
  have hlength : g.length ≤ 3 := (show ∀ g ∈ oneTrigram, g.length ≤ 3 by decide) g hg
  exact hall g hg j (by omega) i (by omega) h2 hle

/-- Of `0 1 2 3` the plain lookup finds `1 2 3`; the checked one asks for `0 1`, and takes `2 3`. -/
theorem not_lookupNgramChecked_eq :
    Exact oneTrigramLm {g | g ∈ oneTrigram} ∧ Closed {g | g ∈ oneTrigram} ∧ [0, 1, 2, 3].length ≤ oneTrigramLm.order ∧
      oneTrigramLm.lookupNgramChecked (-99) [0, 1, 2, 3] ≠ oneTrigramLm.lookupNgram (-99) [0, 1, 2, 3] :=
  ⟨oneTrigram_exact, oneTrigram_closed, by decide, by decide⟩

/-- Of `1 2 3` the parts are where the checked lookup asks for them. -/
theorem lookupNgramChecked_iff_oneTrigram : StartsAlike {g | g ∈ oneTrigram} [1, 2, 3] ∧
    ∀ (pqs bqs : List (Quantizer Int)) (pUnk : Int),
      ({ oneTrigramLm with probQuantizer := pqs, bowQuantizer := bqs, pUnk } : Lm Int).lookupNgramChecked (-99) [1, 2, 3] =
        ({ oneTrigramLm with probQuantizer := pqs, bowQuantizer := bqs, pUnk } : Lm Int).lookupNgram (-99) [1, 2, 3] := by
  have halike : StartsAlike {g | g ∈ oneTrigram} [1, 2, 3] := by
    intro D h3 hends _
    obtain rfl : D = 3 := by
      rcases hends with ⟨hle, -⟩ | ⟨hle, -⟩
      · exact le_antisymm hle h3
      · exact absurd (show D + 1 ≤ 3 from hle) (by omega)
    exact ⟨show [1, 2] ∈ oneTrigram by decide, show [2, 3] ∈ oneTrigram by decide⟩
  exact ⟨halike, (lookupNgramChecked_iff oneTrigram_exact oneTrigram_closed (by decide)).2 halike⟩

end Sbmt.Biglm
