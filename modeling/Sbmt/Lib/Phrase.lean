import Mathlib
/-!
# Reading a text by rules with actions

A rule is run on a state at a place in a text.  It matches, and leaves the rest of the text, or it does not; the
actions that fired stay in the state either way, also where another alternative is tried afterwards.  Alternatives are
ordered: the first that matches is taken and never given up.  A repetition takes what it can and gives the text
back from where its last try began, but not the state.
-/

namespace Sbmt.Lib.Phrase

open Option

abbrev Text := List Char

/-! ## Rules -/

section Rules

abbrev Rule (σ : Type) := σ → Text → σ × Option Text

variable {σ : Type} {p q : Rule σ} {s s' : σ} {t t' : Text}

def orElse (p q : Rule σ) : Rule σ := fun s t =>
  match p s t with
  | (s', some t') => (s', some t')
  | (s', none) => q s' t

def andThen (p q : Rule σ) : Rule σ := fun s t =>
  match p s t with
  | (s', some t') => q s' t'
  | (s', none) => (s', none)

/-- A rule without actions. -/
def recognize (f : Text → Option Text) : Rule σ := fun s t => (s, f t)

/-- A token, and the action that is given its value. -/
def token {α : Type} (f : Text → Option (α × Text)) (act : α → σ → σ) : Rule σ := fun s t =>
  match f t with
  | some (a, t') => (act a s, some t')
  | none => (s, none)

/-- An action alone. -/
def perform (act : σ → σ) : Rule σ := fun s t => (act s, some t)

def star (p : Rule σ) : Nat → σ → Text → σ × Text
  | 0, s, t => (s, t)
  | n + 1, s, t =>
    match p s t with
    | (s', some t') => star p n s' t'
    | (s', none) => (s', t)

/-- Each match that is repeated takes at least one character, so the length of the text bounds their number. -/
def many (p : Rule σ) : Rule σ := fun s t =>
  let r := star p t.length s t
  (r.1, some r.2)

def plus (p : Rule σ) : Rule σ := andThen p (many p)

theorem orElse_some (h : p s t = (s', some t')) : orElse p q s t = (s', some t') := by
  simp [orElse, h]

theorem orElse_none (h : p s t = (s', none)) : orElse p q s t = q s' t := by
  simp [orElse, h]

theorem andThen_some (h : p s t = (s', some t')) : andThen p q s t = q s' t' := by
  simp [andThen, h]

theorem andThen_none (h : p s t = (s', none)) : andThen p q s t = (s', none) := by
  simp [andThen, h]

theorem orElse_inv {r : Option Text} (h : orElse p q s t = (s', r)) :
    (∃ t', r = some t' ∧ p s t = (s', some t')) ∨ ∃ s1, p s t = (s1, none) ∧ q s1 t = (s', r) := by
  unfold orElse at h
  split at h
  · rename_i s1 t1 hp
    obtain ⟨rfl, rfl⟩ := Prod.mk.inj h
    exact Or.inl ⟨t1, rfl, hp⟩
  · rename_i s1 hp
    exact Or.inr ⟨s1, hp, h⟩

theorem andThen_inv (h : andThen p q s t = (s', some t')) :
    ∃ s1 t1, p s t = (s1, some t1) ∧ q s1 t1 = (s', some t') := by
  unfold andThen at h
  split at h
  · rename_i s1 t1 hp
    exact ⟨s1, t1, hp, h⟩
  · exact absurd (Prod.mk.inj h).2 (by simp)

variable {α : Type} {f : Text → Option (α × Text)} {act : α → σ → σ}

theorem token_inv {r : Option Text}
    (h : token f act s t = (s', r)) : (∃ a t', f t = some (a, t') ∧ r = some t' ∧ s' = act a s) ∨
      (f t = none ∧ r = none ∧ s' = s) := by
  unfold token at h
  split at h
  · rename_i a t1 hf
    obtain ⟨rfl, rfl⟩ := Prod.mk.inj h
    exact Or.inl ⟨a, t1, hf, rfl, rfl⟩
  · rename_i hf
    obtain ⟨rfl, rfl⟩ := Prod.mk.inj h
    exact Or.inr ⟨hf, rfl, rfl⟩

theorem token_inv_some
    (h : token f act s t = (s', some t')) : ∃ a, f t = some (a, t') ∧ s' = act a s := by
  rcases token_inv h with ⟨a, t1, hf, ht, hs⟩ | ⟨-, hnone, -⟩
  · obtain rfl := Option.some.inj ht
    exact ⟨a, hf, hs⟩
  · exact absurd hnone (by simp)

theorem token_some {a : α} (h : f t = some (a, t')) :
    token f act s t = (act a s, some t') := by
  simp [token, h]

theorem token_none (h : f t = none) : token f act s t = (s, none) := by
  simp [token, h]

theorem andThen_snd_none (h : (p s t).2 = none) : (andThen p q s t).2 = none := by
  unfold andThen
  split
  · rename_i heq
    rw [heq] at h
    exact absurd h (by simp)
  · rfl

variable {n : Nat}

theorem star_some (h : p s t = (s', some t')) : star p (n + 1) s t = star p n s' t' := by
  simp [star, h]

theorem star_none (h : p s t = (s', none)) : star p (n + 1) s t = (s', t) := by
  simp [star, h]

/-- A repetition that stops at once, and leaves the state alone, may have any number of tries left. -/
theorem star_stop (h : p s t = (s, none)) : star p n s t = (s, t) := by
  cases n with
  | zero => rfl
  | succ n => exact star_none h

end Rules

/-! ## Tokens -/

/-- `isspace`. -/
def isSpace (c : Char) : Bool := c = ' ' || c = '\t' || c = '\n' || c = '\x0b' || c = '\x0c' || c = '\r'

/-- The characters `w`, and what follows them. -/
def lit : Text → Text → Option Text
  | [], t => some t
  | _ :: _, [] => none
  | c :: w, d :: t => if c = d then lit w t else none

theorem lit_cons_cons (c d : Char) (w t : Text) : lit (c :: w) (d :: t) = if c = d then lit w t else none := rfl

variable {t : Text}

theorem lit_eq_some {w r : Text} : lit w t = some r ↔ t = w ++ r := by
  induction w generalizing t with
  | nil => simp [lit]
  | cons c w ih =>
    cases t with
    | nil => simp [lit]
    | cons d t =>
      by_cases h : c = d
      · simp [lit, h, ih]
      · have h' : ¬ d = c := fun e => h e.symm
        simp [lit, h, h']

@[simp] theorem lit_append (w t : Text) : lit w (w ++ t) = some t := lit_eq_some.mpr rfl

theorem lit_cons_ne {c d : Char} (h : d ≠ c) (w t : Text) : lit (c :: w) (d :: t) = none := by
  have h' : ¬ c = d := fun e => h e.symm
  simp [lit, h']

/-- What follows a text cannot complete a literal that it has no character of. -/
theorem lit_append_stop (w u : Text) (ht : ∀ c ∈ t.head?, c ∉ w) : lit w (u ++ t) = (lit w u).map (· ++ t) := by
  induction w generalizing u with
  | nil => rfl
  | cons c w ih =>
    cases u with
    | nil =>
      cases t with
      | nil => rfl
      | cons d t =>
        have hd : d ≠ c := fun h => ht d rfl (h ▸ List.mem_cons_self)
        rw [List.nil_append, lit_cons_ne hd]
        rfl
    | cons d u =>
      rw [List.cons_append, lit_cons_cons, lit_cons_cons]
      split_ifs
      · exact ih u fun e he h => ht e he (List.mem_cons_of_mem c h)
      · rfl

/-- What follows a text that is long enough does not matter for a literal. -/
theorem lit_append_of_length_le {w u : Text} (h : w.length ≤ u.length) (t : Text) :
    lit w (u ++ t) = (lit w u).map (· ++ t) := by
  induction w generalizing u with
  | nil => rfl
  | cons c w ih =>
    cases u with
    | nil => exact absurd h (by simp)
    | cons d u =>
      rw [List.cons_append, lit_cons_cons, lit_cons_cons]
      split_ifs
      · exact ih (by simpa using h)
      · rfl

/-! ## Runs

The longest run of characters that satisfy `p` does not depend on what follows a text, if that does not begin with one. -/

section Runs

variable {p : Char → Bool} {w t r : Text}

theorem takeWhile_append_stop (w : Text) (ht : ∀ c ∈ t.head?, p c = false) :
    (w ++ t).takeWhile p = w.takeWhile p ∧ (w ++ t).dropWhile p = w.dropWhile p ++ t := by
  induction w with
  | nil =>
    cases t with
    | nil => simp
    | cons c t =>
      have hc : p c = false := ht c rfl
      simp [hc]
  | cons c w ih =>
    cases hc : p c with
    | true => simp [hc, ih]
    | false => simp [hc]

theorem takeWhile_run (hw : ∀ c ∈ w, p c = true) (ht : ∀ c ∈ t.head?, p c = false) :
    (w ++ t).takeWhile p = w ∧ (w ++ t).dropWhile p = t := by
  obtain ⟨h1, h2⟩ := takeWhile_append_stop w ht
  rw [h1, h2, List.takeWhile_eq_self_iff.mpr hw, List.dropWhile_eq_nil_iff.mpr hw]
  exact ⟨rfl, rfl⟩

/-- `+p`: the longest run, of at least one character. -/
def run (p : Char → Bool) (t : Text) : Option (Text × Text) :=
  if t.takeWhile p = [] then none else some (t.takeWhile p, t.dropWhile p)

theorem run_append (w : Text) (ht : ∀ c ∈ t.head?, p c = false) :
    run p (w ++ t) = (run p w).map fun x => (x.1, x.2 ++ t) := by
  obtain ⟨h1, h2⟩ := takeWhile_append_stop w ht
  unfold run
  rw [h1, h2]
  split_ifs <;> rfl

theorem run_of_forall (hne : w ≠ []) (hw : ∀ c ∈ w, p c = true) (ht : ∀ c ∈ t.head?, p c = false) :
    run p (w ++ t) = some (w, t) := by
  obtain ⟨h1, h2⟩ := takeWhile_run hw ht
  rw [run, h1, h2, if_neg hne]

theorem run_eq_some (h : run p t = some (w, r)) :
    t = w ++ r ∧ w ≠ [] ∧ (∀ c ∈ w, p c = true) ∧ ∀ c ∈ r.head?, p c = false := by
  unfold run at h
  split_ifs at h with hne
  obtain ⟨rfl, rfl⟩ := h
  refine ⟨List.takeWhile_append_dropWhile.symm, hne, fun c hc => List.mem_takeWhile_imp hc, ?_⟩
  intro c hc
  have hstop := List.head?_dropWhile_not p t
  rw [mem_def.mp hc] at hstop
  exact hstop

end Runs

/-! ## Numbers -/

def showNat (n : Nat) : Text := Nat.toDigits 10 n

/-- The digits in front, as the number they write. -/
def readNat (t : Text) : Option (Nat × Text) :=
  if t.takeWhile Char.isDigit = [] then none
  else some (Nat.ofDigitChars 10 (t.takeWhile Char.isDigit) 0, t.dropWhile Char.isDigit)

/-- A number that the reader's type can hold. -/
def readBelow (bound : Nat) (t : Text) : Option (Nat × Text) :=
  (readNat t).bind fun r => if r.1 < bound then some r else none

variable {n : Nat}

theorem isDigit_of_mem_showNat {c : Char} (h : c ∈ showNat n) : c.isDigit = true :=
  Nat.isDigit_of_mem_toDigits (by decide) (by decide) h

theorem showNat_ne_nil (n : Nat) : showNat n ≠ [] := Nat.toDigits_ne_nil

theorem exists_showNat (n : Nat) : ∃ c w, showNat n = c :: w ∧ c.isDigit = true := by
  cases h : showNat n with
  | nil => exact absurd h (showNat_ne_nil n)
  | cons c w =>
    refine ⟨c, w, rfl, ?_⟩
    apply isDigit_of_mem_showNat (n := n)
    simp [h]

theorem readNat_append (w : Text) (ht : ∀ c ∈ t.head?, c.isDigit = false) :
    readNat (w ++ t) = (readNat w).map fun x => (x.1, x.2 ++ t) := by
  obtain ⟨h1, h2⟩ := takeWhile_append_stop w ht
  unfold readNat
  rw [h1, h2]
  split_ifs <;> rfl

variable {bound : Nat}

theorem readBelow_append (w : Text) (ht : ∀ c ∈ t.head?, c.isDigit = false) :
    readBelow bound (w ++ t) = (readBelow bound w).map fun x => (x.1, x.2 ++ t) := by
  rw [readBelow, readBelow, readNat_append w ht]
  cases readNat w with
  | none => rfl
  | some r =>
    simp only [map_some, bind_some]
    split_ifs <;> rfl

theorem readBelow_eq_some {r : Text} (h : readBelow bound t = some (n, r)) : n < bound ∧ r <:+ t := by
  unfold readBelow readNat at h
  split_ifs at h with hne
  · exact absurd h (by simp)
  · rw [bind_some] at h
    split_ifs at h with hn
    obtain ⟨rfl, rfl⟩ := h
    exact ⟨hn, List.dropWhile_suffix _⟩

theorem readNat_showNat (n : Nat) (ht : ∀ c ∈ t.head?, c.isDigit = false) : readNat (showNat n ++ t) = some (n, t) := by
  obtain ⟨h1, h2⟩ := takeWhile_run (fun c hc => isDigit_of_mem_showNat hc) ht
  unfold readNat
  rw [h1, h2, if_neg (showNat_ne_nil n)]
  have : Nat.ofDigitChars 10 (showNat n) 0 = n := Nat.ofDigitChars_ten_toDigits
  rw [this]

theorem showNat_injective {m : Nat} (h : showNat m = showNat n) : m = n := by
  have hm := readNat_showNat m (t := []) (by simp)
  rw [h, readNat_showNat n (by simp)] at hm
  simpa using hm.symm

theorem readBelow_showNat (hn : n < bound) (ht : ∀ c ∈ t.head?, c.isDigit = false) :
    readBelow bound (showNat n ++ t) = some (n, t) := by
  simp [readBelow, readNat_showNat n ht, hn]

end Sbmt.Lib.Phrase
