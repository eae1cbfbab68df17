import Sbmt.Lib.Phrase

/-!
# Formatted input from a stream

The state of a `std::istream` over a text: what is left of the text, `eofbit` and `failbit`.  Every extraction first
makes a sentry, which skips white space and fails on a stream that is not good; `peek` makes one that does not skip.
`reading t` is the good stream before `t`, and each extraction has a lemma about what it does there.
-/

namespace Sbmt.Lib

open Phrase

structure Istream where
  rest : Text
  eof : Bool
  fail : Bool
deriving DecidableEq

namespace Istream

def reading (t : Text) : Istream := ⟨t, false, false⟩

/-- The end of the text has been seen. -/
def ended : Istream := ⟨[], true, false⟩

section Operations

variable (s : Istream)

def good : Bool := !s.eof && !s.fail

/-- What a sentry leaves of a stream that is not good. -/
def failed : Istream := { s with fail := true }

/-- `in.peek()`, `none` for `EOF`. -/
def peek : Option Char × Istream :=
  if s.good then
    match s.rest with
    | [] => (none, { s with eof := true })
    | c :: _ => (some c, s)
  else (none, s.failed)

/-- `in >> ws`. -/
def ws : Istream :=
  if s.good then
    match s.rest.dropWhile isSpace with
    | [] => { s with rest := [], eof := true }
    | c :: t => { s with rest := c :: t }
  else s.failed

/-- The sentry of an extraction. -/
def sentry : Istream :=
  if s.good then
    match s.rest.dropWhile isSpace with
    | [] => { rest := [], eof := true, fail := true }
    | c :: t => { s with rest := c :: t }
  else s.failed

/-- `in >> ch`, which leaves `ch` as it is when it fails. -/
def getChar (ch : Char) : Char × Istream :=
  if s.sentry.good then
    match s.sentry.rest with
    | [] => (ch, { s.sentry with eof := true, fail := true })
    | c :: t => (c, { s.sentry with rest := t })
  else (ch, s.sentry)

/-- `in >> word` for a string; an extraction that stops at the end of the text sets `eofbit`. -/
def getWord (word : Text) : Text × Istream :=
  if s.sentry.good then
    match s.sentry.rest.dropWhile (!isSpace ·) with
    | [] => (s.sentry.rest, { s.sentry with rest := [], eof := true })
    | c :: t => (s.sentry.rest.takeWhile (!isSpace ·), { s.sentry with rest := c :: t })
  else (word, s.sentry)

end Operations

/-! ## Numbers -/

/-- What a 32 bit `int` can hold. -/
def InInt (i : Int) : Prop := -2 ^ 31 ≤ i ∧ i < 2 ^ 31

instance (i : Int) : Decidable (InInt i) := inferInstanceAs (Decidable (_ ∧ _))

def showInt (i : Int) : Text := if i < 0 then '-' :: showNat i.natAbs else showNat i.natAbs

/-- The sign and the digits in front. -/
def scanInt (t : Text) : Option Int × Text :=
  let digits := if t.head? = some '-' ∨ t.head? = some '+' then t.tail else t
  ((readNat digits).map fun r => if t.head? = some '-' then -(r.1 : Int) else r.1, digits.dropWhile Char.isDigit)

/-- `in >> i` for an `int`, whose value nobody may use when there are no digits or they make too large a number. -/
def getInt (s : Istream) (i : Int) : Int × Istream :=
  if s.sentry.good then
    let (value, rest) := scanInt s.sentry.rest
    match value.filter (fun i => InInt i) with
    | some j => (j, { rest := rest, eof := rest.isEmpty, fail := false })
    | none => (0, { rest := rest, eof := rest.isEmpty, fail := true })
  else (i, s.sentry)

/-! ## On a good stream -/

variable {t r : Text} {c : Char} {s : Istream} {i : Int}

@[simp] theorem good_reading : (reading t).good = true := rfl

@[simp] theorem rest_reading : (reading t).rest = t := rfl

@[simp] theorem eof_reading : (reading t).eof = false := rfl

@[simp] theorem fail_reading : (reading t).fail = false := rfl

@[simp] theorem mk_eq_reading : (⟨t, false, false⟩ : Istream) = reading t := rfl

@[simp] theorem good_ended : ended.good = false := rfl

@[simp] theorem eof_ended : ended.eof = true := rfl

@[simp] theorem peek_nil : (reading []).peek = (none, ended) := rfl

@[simp] theorem peek_cons : (reading (c :: t)).peek = (some c, reading (c :: t)) := rfl

theorem peek_of_not_good (h : s.good = false) : s.peek = (none, s.failed) := by simp [peek, h]

@[simp] theorem good_failed : s.failed.good = false := by simp [good, failed]

@[simp] theorem eof_failed : s.failed.eof = s.eof := rfl

/-- The stream when white space has been skipped: at its end if nothing is left. -/
def skipped (t : Text) : Istream := if t = [] then ended else reading t

@[simp] theorem skipped_nil : skipped [] = ended := rfl

@[simp] theorem skipped_cons : skipped (c :: t) = reading (c :: t) := rfl

theorem ws_reading (t : Text) : (reading t).ws = skipped (t.dropWhile isSpace) := by
  unfold ws
  cases h : t.dropWhile isSpace with
  | nil => simp [h, ended]
  | cons c r => simp [h]

theorem sentry_reading (h : t.dropWhile isSpace = c :: r) : (reading t).sentry = reading (c :: r) := by
  simp [sentry, h]

theorem sentry_exhausted (h : t.dropWhile isSpace = []) : (reading t).sentry = ended.failed := by
  simp [sentry, h, ended, failed]

theorem sentry_failed (h : s.good = false) : s.sentry = s.failed := by simp [sentry, h]

theorem getChar_reading {ch : Char} (h : t.dropWhile isSpace = c :: r) : (reading t).getChar ch = (c, reading r) := by
  simp [getChar, sentry_reading h]

theorem getChar_exhausted {ch : Char} (h : t.dropWhile isSpace = []) :
    (reading t).getChar ch = (ch, ended.failed) := by
  simp [getChar, sentry_exhausted h]

theorem getChar_failed {ch : Char} (h : s.good = false) : s.getChar ch = (ch, s.failed) := by
  simp [getChar, sentry_failed h]

theorem getWord_reading {word : Text} (h : (t.dropWhile isSpace).dropWhile (!isSpace ·) = c :: r) :
    (reading t).getWord word = ((t.dropWhile isSpace).takeWhile (!isSpace ·), reading (c :: r)) := by
  cases ht : t.dropWhile isSpace with
  | nil =>
    rw [ht] at h
    cases h
  | cons d u =>
    rw [ht] at h
    simp [getWord, sentry_reading ht, h]

/-- A word that the text ends with leaves a stream at its end. -/
theorem getWord_exhausted {word : Text} (h : (t.dropWhile isSpace).dropWhile (!isSpace ·) = []) :
    ((reading t).getWord word).2.eof = true := by
  cases ht : t.dropWhile isSpace with
  | nil => simp [getWord, sentry_exhausted ht]
  | cons d u =>
    rw [ht] at h
    simp [getWord, sentry_reading ht, h]

/-- A number that something follows. -/
def ReadsInt (t : Text) (i : Int) (r : Text) : Prop := scanInt (t.dropWhile isSpace) = (some i, r) ∧ InInt i ∧ r ≠ []

theorem getInt_reading {j : Int} (h : ReadsInt t i r) : (reading t).getInt j = (i, reading r) := by
  obtain ⟨hscan, hi, hr⟩ := h
  cases ht : t.dropWhile isSpace with
  | nil =>
    rw [ht] at hscan
    simp [scanInt, readNat] at hscan
  | cons d u =>
    rw [ht] at hscan
    have hfilter : (some i).filter (fun i => decide (InInt i)) = some i := by simp [hi]
    have hmore : r.isEmpty = false := List.isEmpty_eq_false_iff.2 hr
    simp [getInt, sentry_reading ht, hscan, hfilter, hmore]

/-- Anything else leaves a stream that is not good. -/
theorem good_getInt {j : Int} (h : ∀ i r, ¬ ReadsInt t i r) : ((reading t).getInt j).2.good = false := by
  cases ht : t.dropWhile isSpace with
  | nil => simp [getInt, sentry_exhausted ht]
  | cons d u =>
    cases hscan : scanInt (d :: u) with
    | mk value r =>
      have hno : ∀ i, value = some i → InInt i → r = [] := by
        rintro i rfl hi
        by_contra hr
        exact h i r ⟨by rw [ht, hscan], hi, hr⟩
      simp only [getInt, sentry_reading ht, good_reading, if_true, rest_reading, hscan]
      cases hvalue : value.filter fun i => InInt i with
      | none => simp [good]
      | some i =>
        obtain ⟨rfl, hi⟩ := Option.filter_eq_some_iff.1 hvalue
        simp [good, hno i rfl (of_decide_eq_true hi)]

theorem isSpace_of_isDigit (h : c.isDigit = true) : isSpace c = false := by
  by_contra hs
  simp only [isSpace, Bool.or_eq_true, decide_eq_true_eq, Bool.not_eq_false] at hs
  rcases hs with ((((rfl | rfl) | rfl) | rfl) | rfl) | rfl <;> exact absurd h (by decide)

/-- **What has been printed is read back**, if no further digit follows. -/
theorem readsInt_showInt (hi : InInt i) (hr : r ≠ []) (hdigit : ∀ c ∈ r.head?, c.isDigit = false) :
    ReadsInt (showInt i ++ r) i r := by
  obtain ⟨c, w, hw, hc⟩ := exists_showNat i.natAbs
  have hread := readNat_showNat i.natAbs hdigit
  have hdrop : (showNat i.natAbs ++ r).dropWhile Char.isDigit = r :=
    (takeWhile_run (fun c hc => isDigit_of_mem_showNat hc) hdigit).2
  refine ⟨?_, hi, hr⟩
  by_cases hneg : i < 0
  · have hshow : (showInt i ++ r).dropWhile isSpace = '-' :: (showNat i.natAbs ++ r) := by
      rw [showInt, if_pos hneg]
      rfl
    simp [hshow, scanInt, hread, hdrop, abs_of_neg hneg]
  · have hshow : (showInt i ++ r).dropWhile isSpace = showNat i.natAbs ++ r := by
      rw [showInt, if_neg hneg, hw, List.cons_append, List.dropWhile_cons_of_neg (by simp [isSpace_of_isDigit hc])]
    have hminus : c ≠ '-' := by rintro rfl; exact absurd hc (by decide)
    have hplus : c ≠ '+' := by rintro rfl; exact absurd hc (by decide)
    have hdigits : scanInt (showNat i.natAbs ++ r) = (some i, r) := by
      have hhead : (showNat i.natAbs ++ r).head? = some c := by rw [hw]; rfl
      simp [scanInt, hhead, hminus, hplus, hread, hdrop, abs_of_nonneg (not_lt.1 hneg)]
    rw [hshow, hdigits]

end Istream

end Sbmt.Lib
