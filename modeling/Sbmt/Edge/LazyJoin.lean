import Sbmt.Xrs.LmString
/-!
# Sentences joined word by word (`sbmt_decoder/src/sentence_info.cpp:183-200`, `:329-457`)

| here | there |
| --- | --- |
| `joinSentence`, `joinSentence₁` | `join_sentence` of two sentences (`:331-350`) and of one (`:183-200`) |
| `LazyJoinSentenceIterator` | the class (`edge/sentence_info.hpp:318-351`); of each pair of positions, what is left between them |
| `settle` | what `init` (`:416-428`) does, and `increment` in the state `lm_active` once it has moved on |
| `increment`, `dereference`, `equal` | `:364-400`, `:444-452`, `:354-360` |
| `lazyJoinSentence`, `lazyJoinSentence₁` | the first and the last iterator (`:162-179`) |
| `collect` | `for (; itr != end; ++itr)` |

The last iterator stands at the end of all three sequences, and `equal` asks for all three.  A sentence whose variable
is not in the string is never moved through: the iterator then runs past the end of the string.
-/

namespace Sbmt.Edge

open Sbmt.Xrs List

variable {T : Type}

def joinSentence : List (LmToken T) → List T → List T → List T
  | [], _, _ => []
  | .index i :: lm, str0, str1 => (if i = 0 then str0 else str1) ++ joinSentence lm str0 str1
  | .token t :: lm, str0, str1 => t :: joinSentence lm str0 str1

def joinSentence₁ : List (LmToken T) → List T → List T
  | [], _ => []
  | .index _ :: lm, str => str ++ joinSentence₁ lm str
  | .token t :: lm, str => t :: joinSentence₁ lm str

/-- The indices of the variables, in order. -/
def lmIndices : List (LmToken T) → List Nat
  | [] => []
  | .index i :: lm => i :: lmIndices lm
  | .token _ :: lm => lmIndices lm

inductive JoinState where
  | sent0Active
  | sent1Active
  | lmActive
deriving DecidableEq

structure LazyJoinSentenceIterator (T : Type) where
  lmStr : List (LmToken T)
  sent0 : List T
  sent1 : List T
  s : JoinState

namespace LazyJoinSentenceIterator

/-- In the state `lm_active` at `lmStr`: on to a variable whose sentence has words left, to a word, or to the end. -/
def settle : List (LmToken T) → List T → List T → LazyJoinSentenceIterator T
  | [], sent0, sent1 => ⟨[], sent0, sent1, .lmActive⟩
  | .token t :: lm, sent0, sent1 => ⟨.token t :: lm, sent0, sent1, .lmActive⟩
  | .index i :: lm, sent0, sent1 =>
    if i = 0 then
      if sent0.isEmpty then settle lm sent0 sent1 else ⟨.index i :: lm, sent0, sent1, .sent0Active⟩
    else if i = 1 then
      if sent1.isEmpty then settle lm sent0 sent1 else ⟨.index i :: lm, sent0, sent1, .sent1Active⟩
    else ⟨.index i :: lm, sent0, sent1, .lmActive⟩

/-- `none`: past the end of a sequence. -/
def increment : LazyJoinSentenceIterator T → Option (LazyJoinSentenceIterator T)
  | ⟨lmStr, sent0, sent1, .lmActive⟩ =>
    match lmStr with
    | [] => none
    | _ :: lm => some (settle lm sent0 sent1)
  | ⟨lmStr, sent0, sent1, .sent0Active⟩ =>
    match sent0 with
    | [] => none
    | _ :: rest =>
      if rest.isEmpty then
        match lmStr with
        | [] => some ⟨[], rest, sent1, .lmActive⟩
        | _ :: lm => some (settle lm rest sent1)
      else some ⟨lmStr, rest, sent1, .sent0Active⟩
  | ⟨lmStr, sent0, sent1, .sent1Active⟩ =>
    match sent1 with
    | [] => none
    | _ :: rest =>
      if rest.isEmpty then
        match lmStr with
        | [] => some ⟨[], sent0, rest, .lmActive⟩
        | _ :: lm => some (settle lm sent0 rest)
      else some ⟨lmStr, sent0, rest, .sent1Active⟩

def dereference : LazyJoinSentenceIterator T → Option T
  | ⟨lmStr, _, _, .lmActive⟩ =>
    match lmStr with
    | .token t :: _ => some t
    | _ => none
  | ⟨_, sent0, _, .sent0Active⟩ => sent0.head?
  | ⟨_, _, sent1, .sent1Active⟩ => sent1.head?

/-- Two positions in one sequence are one when as much is left behind them. -/
def equal (a b : LazyJoinSentenceIterator T) : Bool :=
  a.lmStr.length == b.lmStr.length && a.sent0.length == b.sent0.length && a.sent1.length == b.sent1.length

/-- What is written on the way from `itr` to `last`, if that takes no more than `fuel` steps. -/
def collect (last : LazyJoinSentenceIterator T) : Nat → LazyJoinSentenceIterator T → Option (List T)
  | 0, itr => if itr.equal last then some [] else none
  | fuel + 1, itr =>
    if itr.equal last then some []
    else do
      let t ← itr.dereference
      let next ← itr.increment
      let out ← collect last fuel next
      pure (t :: out)

end LazyJoinSentenceIterator

open LazyJoinSentenceIterator

def lazyJoinSentence (lm : List (LmToken T)) (str0 str1 : List T) :
    LazyJoinSentenceIterator T × LazyJoinSentenceIterator T :=
  (settle lm str0 str1, settle [] [] [])

/-- `sent1` is at its end from the start. -/
def lazyJoinSentence₁ (lm : List (LmToken T)) (str : List T) :
    LazyJoinSentenceIterator T × LazyJoinSentenceIterator T :=
  (settle lm str [], settle [] [] [])

namespace LazyJoinSentenceIterator

/-- What the iterator has still to give: a sentence it is in will not come again. -/
def remaining : LazyJoinSentenceIterator T → List T
  | ⟨lmStr, sent0, sent1, .lmActive⟩ => joinSentence lmStr sent0 sent1
  | ⟨lmStr, sent0, sent1, .sent0Active⟩ => sent0 ++ joinSentence lmStr.tail [] sent1
  | ⟨lmStr, sent0, sent1, .sent1Active⟩ => sent1 ++ joinSentence lmStr.tail sent0 []

/-- Each variable is `x0` or `x1`, and comes once. -/
def Fit (lm : List (LmToken T)) : Prop := (lmIndices lm).Nodup ∧ ∀ i ∈ lmIndices lm, i < 2

/-- Where `increment` and `init` leave an iterator: at a word, in a sentence with words left, or at the end. -/
def Ready : LazyJoinSentenceIterator T → Prop
  | ⟨lmStr, _, _, .lmActive⟩ => lmStr = [] ∨ ∃ t lm, lmStr = .token t :: lm
  | ⟨lmStr, sent0, _, .sent0Active⟩ => sent0 ≠ [] ∧ ∃ lm, lmStr = .index 0 :: lm
  | ⟨lmStr, _, sent1, .sent1Active⟩ => sent1 ≠ [] ∧ ∃ lm, lmStr = .index 1 :: lm

/-- A sentence with words left has its variable ahead. -/
def Covered (lm : List (LmToken T)) (sent0 sent1 : List T) : Prop :=
  (sent0 = [] ∨ 0 ∈ lmIndices lm) ∧ (sent1 = [] ∨ 1 ∈ lmIndices lm)

instance (lm : List (LmToken T)) (sent0 sent1 : List T) : Decidable (Covered lm sent0 sent1) :=
  inferInstanceAs (Decidable ((sent0 = [] ∨ _) ∧ (sent1 = [] ∨ _)))

variable {lm : List (LmToken T)} {str0 str1 : List T} {i : Nat} {t : T} {itr : LazyJoinSentenceIterator T}

theorem Fit.token (h : Fit (.token t :: lm)) : Fit lm := h

theorem Fit.index (h : Fit (.index i :: lm)) : Fit lm :=
  ⟨(nodup_cons.mp h.1).2, fun j hj => h.2 j (mem_cons_of_mem i hj)⟩

theorem Fit.not_mem (h : Fit (.index i :: lm)) : i ∉ lmIndices lm := (nodup_cons.mp h.1).1

theorem Fit.lt_two (h : Fit (.index i :: lm)) : i < 2 := h.2 i mem_cons_self

/-! ## What is left is what comes out -/

/-- A variable that is not there may stand for anything. -/
theorem joinSentence_zero (h : 0 ∉ lmIndices lm) (s s' : List T) : joinSentence lm s str1 = joinSentence lm s' str1 := by
  induction lm with
  | nil => rfl
  | cons x lm ih =>
    cases x with
    | token t => rw [joinSentence, joinSentence, ih h]
    | index i =>
      obtain ⟨hi, hlm⟩ := not_or.mp (mem_cons.not.mp h)
      rw [joinSentence, joinSentence, if_neg fun h0 => hi h0.symm, if_neg fun h0 => hi h0.symm, ih hlm]

theorem joinSentence_one (hfit : Fit lm) (h : 1 ∉ lmIndices lm) (s s' : List T) :
    joinSentence lm str0 s = joinSentence lm str0 s' := by
  induction lm with
  | nil => rfl
  | cons x lm ih =>
    cases x with
    | token t => rw [joinSentence, joinSentence, ih hfit h]
    | index i =>
      obtain ⟨hi, hlm⟩ := not_or.mp (mem_cons.not.mp h)
      have h0 : i = 0 := by have := hfit.lt_two; omega
      rw [joinSentence, joinSentence, if_pos h0, if_pos h0, ih hfit.index hlm]

structure Settles (lm : List (LmToken T)) (str0 str1 : List T) (itr : LazyJoinSentenceIterator T) : Prop where
  ready : itr.Ready
  fit : Fit itr.lmStr
  remaining : itr.remaining = joinSentence lm str0 str1
  covered : Covered itr.lmStr itr.sent0 itr.sent1 ↔ Covered lm str0 str1

/-- `settle` passes by empty sentences only. -/
theorem settle_spec (hfit : Fit lm) (str0 str1 : List T) : Settles lm str0 str1 (settle lm str0 str1) := by
  induction lm with
  | nil => exact ⟨.inl rfl, hfit, rfl, Iff.rfl⟩
  | cons x lm ih =>
    cases x with
    | token t => exact ⟨.inr ⟨t, lm, rfl⟩, hfit, rfl, Iff.rfl⟩
    | index i =>
      have ih := ih hfit.index
      rw [settle]
      split_ifs with h0 hempty h1 hempty
      · subst h0
        obtain rfl := List.isEmpty_iff.mp hempty
        refine ⟨ih.ready, ih.fit, ih.remaining, ih.covered.trans ?_⟩
        simp [Covered, lmIndices]
      · subst h0
        have hne : str0 ≠ [] := fun h => hempty (List.isEmpty_iff.mpr h)
        exact ⟨⟨hne, lm, rfl⟩, hfit, congrArg (str0 ++ ·) (joinSentence_zero hfit.not_mem [] str0), Iff.rfl⟩
      · subst h1
        obtain rfl := List.isEmpty_iff.mp hempty
        refine ⟨ih.ready, ih.fit, ih.remaining, ih.covered.trans ?_⟩
        simp [Covered, lmIndices]
      · subst h1
        have hne : str1 ≠ [] := fun h => hempty (List.isEmpty_iff.mpr h)
        exact ⟨⟨hne, lm, rfl⟩, hfit, congrArg (str1 ++ ·) (joinSentence_one hfit.index hfit.not_mem [] str1), Iff.rfl⟩
      · have := hfit.lt_two
        omega

/-- One step: the first of what is left comes out, the rest is left. -/
theorem increment_spec (hready : itr.Ready) (hfit : Fit itr.lmStr) (hlm : itr.lmStr ≠ []) :
    ∃ t next, itr.dereference = some t ∧ itr.increment = some next ∧ next.Ready ∧ Fit next.lmStr ∧
      itr.remaining = t :: next.remaining ∧
      (Covered next.lmStr next.sent0 next.sent1 ↔ Covered itr.lmStr itr.sent0 itr.sent1) := by
  obtain ⟨lmStr, sent0, sent1, s⟩ := itr
  cases s with
  | lmActive =>
    rcases hready with rfl | ⟨t, lm, rfl⟩
    · exact absurd rfl hlm
    · have h := settle_spec hfit.token sent0 sent1
      exact ⟨t, _, rfl, rfl, h.ready, h.fit, by rw [h.remaining]; rfl, h.covered⟩
  | sent0Active =>
    obtain ⟨hne, lm, rfl⟩ := hready
    cases sent0 with
    | nil => exact absurd rfl hne
    | cons t rest =>
      cases rest with
      | nil =>
        have h := settle_spec hfit.index [] sent1
        refine ⟨t, _, rfl, rfl, h.ready, h.fit, by rw [h.remaining]; rfl, h.covered.trans ?_⟩
        simp [Covered, lmIndices]
      | cons u rest =>
        refine ⟨t, _, rfl, rfl, ⟨cons_ne_nil u rest, lm, rfl⟩, hfit, rfl, ?_⟩
        simp [Covered, lmIndices]
  | sent1Active =>
    obtain ⟨hne, lm, rfl⟩ := hready
    cases sent1 with
    | nil => exact absurd rfl hne
    | cons t rest =>
      cases rest with
      | nil =>
        have h := settle_spec hfit.index sent0 []
        refine ⟨t, _, rfl, rfl, h.ready, h.fit, by rw [h.remaining]; rfl, h.covered.trans ?_⟩
        simp [Covered, lmIndices]
      | cons u rest =>
        refine ⟨t, _, rfl, rfl, ⟨cons_ne_nil u rest, lm, rfl⟩, hfit, rfl, ?_⟩
        simp [Covered, lmIndices]

/-- At the end of the string there is nothing to give and nowhere to go. -/
theorem stuck (hready : itr.Ready) (hlm : itr.lmStr = []) :
    itr.remaining = [] ∧ itr.dereference = none := by
  obtain ⟨lmStr, sent0, sent1, s⟩ := itr
  obtain rfl := hlm
  cases s with
  | lmActive => exact ⟨rfl, rfl⟩
  | sent0Active => obtain ⟨_, _, h⟩ := hready; cases h
  | sent1Active => obtain ⟨_, _, h⟩ := hready; cases h

theorem equal_last : itr.equal (settle [] [] []) = true ↔ itr.lmStr = [] ∧ itr.sent0 = [] ∧ itr.sent1 = [] := by
  simp [equal, settle, and_assoc]

theorem collect_end (hready : itr.Ready) (hlm : itr.lmStr = []) (fuel : Nat) (out : List T) :
    collect (settle [] [] []) fuel itr = some out ↔
      Covered itr.lmStr itr.sent0 itr.sent1 ∧ itr.remaining.length ≤ fuel ∧ out = itr.remaining := by
  obtain ⟨hremaining, hderef⟩ := stuck hready hlm
  have hcov : Covered itr.lmStr itr.sent0 itr.sent1 ↔ itr.equal (settle [] [] []) = true := by
    rw [equal_last, hlm]
    simp [Covered, lmIndices]
  have hstop : ∀ n, collect (settle [] [] []) n itr = if itr.equal (settle [] [] []) then some [] else none := by
    intro n
    cases n with
    | zero => rfl
    | succ n => rw [collect, hderef]; rfl
  rw [hcov, hremaining, hstop]
  split_ifs with h
  · have hlen : ([] : List T).length ≤ fuel := Nat.zero_le fuel
    rw [Option.some.injEq]
    exact ⟨fun hout => ⟨h, hlen, hout.symm⟩, fun hout => hout.2.2.symm⟩
  · constructor
    · intro hnone
      cases hnone
    · rintro ⟨heq, -⟩
      exact absurd heq h

/-- The loop gives what is left if no sentence lacks its variable; else no number of steps ends it. -/
theorem collect_eq_some (hready : itr.Ready) (hfit : Fit itr.lmStr) (fuel : Nat) (out : List T) :
    collect (settle [] [] []) fuel itr = some out ↔
      Covered itr.lmStr itr.sent0 itr.sent1 ∧ itr.remaining.length ≤ fuel ∧ out = itr.remaining := by
  induction fuel generalizing itr out with
  | zero =>
    by_cases hlm : itr.lmStr = []
    · exact collect_end hready hlm 0 out
    · obtain ⟨t, next, _, _, _, _, hremaining, _⟩ := increment_spec hready hfit hlm
      have hne : ¬ itr.equal (settle [] [] []) = true := fun h => hlm (equal_last.mp h).1
      rw [collect, if_neg hne, hremaining]
      simp
  | succ fuel ih =>
    by_cases hlm : itr.lmStr = []
    · exact collect_end hready hlm (fuel + 1) out
    · obtain ⟨t, next, hderef, hnext, hready', hfit', hremaining, hcov⟩ := increment_spec hready hfit hlm
      have hne : ¬ itr.equal (settle [] [] []) = true := fun h => hlm (equal_last.mp h).1
      have hstep : collect (settle [] [] []) (fuel + 1) itr = (collect (settle [] [] []) fuel next).map (t :: ·) := by
        rw [collect, if_neg hne, hderef, hnext]
        cases hrest : collect (settle [] [] []) fuel next <;> simp [hrest]
      rw [hstep, hremaining, ← hcov, length_cons, Nat.add_le_add_iff_right, Option.map_eq_some_iff]
      constructor
      · rintro ⟨rest, hrest, rfl⟩
        obtain ⟨hc, hlen, rfl⟩ := (ih hready' hfit' rest).mp hrest
        exact ⟨hc, hlen, rfl⟩
      · rintro ⟨hc, hlen, rfl⟩
        exact ⟨next.remaining, (ih hready' hfit' _).mpr ⟨hc, hlen, rfl⟩, rfl⟩

end LazyJoinSentenceIterator

variable {lm : List (LmToken T)} {str0 str1 str : List T}

theorem collect_lazyJoinSentence (hfit : Fit lm) :
    (∃ fuel, collect (lazyJoinSentence lm str0 str1).2 fuel (lazyJoinSentence lm str0 str1).1 =
        some (joinSentence lm str0 str1)) ↔ Covered lm str0 str1 := by
  have h := settle_spec hfit str0 str1
  constructor
  · rintro ⟨fuel, hfuel⟩
    exact h.covered.mp ((collect_eq_some h.ready h.fit fuel _).mp hfuel).1
  · intro hc
    exact ⟨_, (collect_eq_some h.ready h.fit _ _).mpr ⟨h.covered.mpr hc, le_rfl, h.remaining.symm⟩⟩

theorem joinSentence₁_eq (h : ∀ i ∈ lmIndices lm, i = 0) : joinSentence₁ lm str = joinSentence lm str [] := by
  induction lm with
  | nil => rfl
  | cons x lm ih =>
    cases x with
    | token t => rw [joinSentence₁, joinSentence, ih h]
    | index i =>
      rw [joinSentence₁, joinSentence, if_pos (h i mem_cons_self), ih fun j hj => h j (mem_cons_of_mem i hj)]

/-- **The iteration ends with the tokens of `join_sentence` exactly when each nonempty sentence has its variable in the
string**: for two sentences, and for one. -/
theorem lazyJoinSentence_iff (hnodup : (lmIndices lm).Nodup) (htwo : ∀ i ∈ lmIndices lm, i < 2) (str0 str1 : List T) :
    ((∃ fuel, collect (lazyJoinSentence lm str0 str1).2 fuel (lazyJoinSentence lm str0 str1).1 =
        some (joinSentence lm str0 str1)) ↔
      (str0 ≠ [] → 0 ∈ lmIndices lm) ∧ (str1 ≠ [] → 1 ∈ lmIndices lm)) ∧
    ((∀ i ∈ lmIndices lm, i = 0) →
      ((∃ fuel, collect (lazyJoinSentence₁ lm str0).2 fuel (lazyJoinSentence₁ lm str0).1 =
          some (joinSentence₁ lm str0)) ↔
        (str0 ≠ [] → 0 ∈ lmIndices lm))) := by
  have hcov : ∀ s0 s1 : List T, Covered lm s0 s1 ↔
      (s0 ≠ [] → 0 ∈ lmIndices lm) ∧ (s1 ≠ [] → 1 ∈ lmIndices lm) := by
    intro s0 s1
    rw [Covered, Classical.or_iff_not_imp_left, Classical.or_iff_not_imp_left]
  refine ⟨(collect_lazyJoinSentence ⟨hnodup, htwo⟩).trans (hcov str0 str1), fun hzero => ?_⟩
  rw [joinSentence₁_eq hzero]
  refine (collect_lazyJoinSentence ⟨hnodup, htwo⟩).trans ((hcov str0 []).trans ?_)
  simp

/-- `"foo" x0` joined with `"a b"` is `"foo a b"`. -/
theorem lazyJoinSentence_iff_used :
    ∃ fuel, collect (lazyJoinSentence [.token 9, .index 0] [1, 2] []).2 fuel
      (lazyJoinSentence [.token 9, .index 0] [1, 2] []).1 = some [9, 1, 2] :=
  (@lazyJoinSentence_iff Nat [.token 9, .index 0] (by decide) (by decide) [1, 2] []).1.mpr
    ⟨fun _ => mem_cons_self, fun h => absurd rfl h⟩

/-- `"foo" x0` with a second sentence that the string does not use: `join_sentence` leaves it out, the iteration runs
past the end of the string. -/
theorem not_lazyJoinSentence :
    ¬ ∃ fuel, collect (lazyJoinSentence [.token 9, .index 0] [1] [2]).2 fuel
      (lazyJoinSentence [.token 9, .index 0] [1] [2]).1 = some (joinSentence [.token 9, .index 0] [1] [2]) := by
  intro h
  have hc := (collect_lazyJoinSentence ⟨by decide, by decide⟩).mp h
  exact absurd hc (by decide)

end Sbmt.Edge
