import Sbmt.Gusc.LatticeText
/-!
# Lattices read back (`gusc/lib/ast.cpp`, `gusc/gusc/lattice/grammar.hpp`)

What each rule of the grammar makes of what the printer wrote for it, from the quoted strings up to the lattice: it
takes all of it if no string in it has a byte that is printed as `\a` or `\v`, and otherwise stops before the
delimiter that has to follow, which nothing after that makes up for.
-/

namespace Sbmt.Gusc.LatticeText

open Sbmt.Lib.Phrase List

variable {E : CEscape}

/-! ## Blanks and delimiters -/

/-- A character that begins a token. -/
def Solid (c : Char) : Prop := isSpace c = false ∧ c ≠ '#' ∧ c ≠ '/'

instance (c : Char) : Decidable (Solid c) := inferInstanceAs (Decidable (_ ∧ _))

@[simp] theorem skip_blank (t : Text) : skip (' ' :: t) = skip t := by
  simp [skip, skipLoop, skipOne, isSpace]

variable {c : Char}

theorem skip_solid (h : Solid c) (t : Text) : skip (c :: t) = c :: t := by
  obtain ⟨hspace, hhash, hslash⟩ := h
  simp [skip, skipLoop, skipOne, hspace, hhash, hslash]

theorem solid_of_isAlphanum (h : c.isAlphanum = true) : Solid c := by
  refine ⟨?_, ?_, ?_⟩
  · by_contra hspace
    rw [Bool.not_eq_false] at hspace
    simp only [isSpace, Bool.or_eq_true, decide_eq_true_eq] at hspace
    rcases hspace with ((((rfl | rfl) | rfl) | rfl) | rfl) | rfl <;> revert h <;> decide
  · rintro rfl
    revert h
    decide
  · rintro rfl
    revert h
    decide

theorem solid_of_isAlpha (h : c.isAlpha = true) : Solid c :=
  solid_of_isAlphanum (by simp [Char.isAlphanum, h])

theorem solid_of_isDigit (h : c.isDigit = true) : Solid c :=
  solid_of_isAlphanum (by simp [Char.isAlphanum, h])

@[simp] theorem chP_blank (c : Char) (t : Text) : chP c (' ' :: t) = chP c t := by
  simp [chP]

theorem chP_self (h : Solid c) (t : Text) : chP c (c :: t) = some t := by
  rw [chP, skip_solid h]
  exact lit_append [c] t

variable {t r : Text}

/-- The next token is not the delimiter. -/
theorem chP_ne {d : Char} (ht : skip t = d :: r) (h : d ≠ c) : chP c t = none := by
  rw [chP, ht]
  exact lit_cons_ne h _ _

/-! ## Strings -/

/-- No byte that the printer writes as `\a` or `\v`. -/
def CleanText (s : Text) : Prop := '\x07' ∉ s ∧ '\x0b' ∉ s

instance (s : Text) : Decidable (CleanText s) := inferInstanceAs (Decidable (_ ∧ _))

variable {s : Text}

theorem cleanText_cons : CleanText (c :: s) ↔ (c ≠ '\x07' ∧ c ≠ '\x0b') ∧ CleanText s := by
  simp only [CleanText, mem_cons, not_or]
  constructor
  · rintro ⟨⟨h1, h2⟩, h3, h4⟩
    exact ⟨⟨Ne.symm h1, Ne.symm h3⟩, h2, h4⟩
  · rintro ⟨⟨h1, h3⟩, h2, h4⟩
    exact ⟨⟨Ne.symm h1, h2⟩, Ne.symm h3, h4⟩

theorem parse_escapeChar (h : c ≠ '\x07' ∧ c ≠ '\x0b') (t : Text) : E.parse (escapeChar c ++ t) = some (c, t) := by
  unfold escapeChar
  split_ifs with h1 h2 h3 h4 h5 h6 h7 h8 h9
  · subst h1; exact E.parse_simple 'n' _ t rfl
  · subst h2; exact E.parse_simple 't' _ t rfl
  · exact absurd h3 h.2
  · subst h4; exact E.parse_simple 'b' _ t rfl
  · subst h5; exact E.parse_simple 'r' _ t rfl
  · subst h6; exact E.parse_simple 'f' _ t rfl
  · exact absurd h7 h.1
  · subst h8; exact E.parse_simple '\\' _ t rfl
  · subst h9; exact E.parse_simple '"' _ t rfl
  · exact E.parse_plain c t h8

/-- The two escapes that the reader does not know. -/
theorem parse_escapeChar_unclean (h : ¬ (c ≠ '\x07' ∧ c ≠ '\x0b')) (t : Text) :
    E.parse (escapeChar c ++ t) = none ∧ ∃ r, escapeChar c ++ t = '\\' :: r := by
  have hc : c = '\x07' ∨ c = '\x0b' := by
    by_contra hne
    rw [not_or] at hne
    exact h hne
  rcases hc with rfl | rfl
  · exact ⟨E.parse_unknown 'a' t rfl rfl, _, rfl⟩
  · exact ⟨E.parse_unknown 'v' t rfl rfl, _, rfl⟩

theorem head?_escapeChar (c : Char) (t : Text) : (escapeChar c ++ t).head? ≠ some '"' := by
  by_cases h : c = '"'
  · subst h
    simp [escapeChar]
  · unfold escapeChar
    split_ifs <;> simp [h]

theorem escapeC_cons (c : Char) (s : Text) : escapeC (c :: s) = escapeChar c ++ escapeC s := by
  simp [escapeC]

theorem length_le_escapeC (s : Text) : s.length ≤ (escapeC s).length := by
  induction s with
  | nil => simp
  | cons c s ih =>
    have hc : 1 ≤ (escapeChar c).length := by
      unfold escapeChar
      split_ifs <;> simp
    rw [escapeC_cons, length_append, length_cons]
    omega

theorem cstrLoop_print (h : CleanText s) (rest : Text) : ∀ (n : Nat) (val : Text), s.length < n →
    cstrLoop E n val (escapeC s ++ '"' :: rest) = (val ++ s ++ ['"'], '"' :: rest) := by
  induction s with
  | nil =>
    intro n val hn
    obtain ⟨n, rfl⟩ := Nat.exists_eq_succ_of_ne_zero (by omega : n ≠ 0)
    have hq : E.parse ('"' :: rest) = some ('"', rest) := E.parse_plain _ _ (by decide)
    simp [cstrLoop, escapeC, hq]
  | cons c s ih =>
    intro n val hn
    obtain ⟨n, rfl⟩ := Nat.exists_eq_succ_of_ne_zero (by omega : n ≠ 0)
    obtain ⟨hc, hs⟩ := cleanText_cons.mp h
    have hn' : s.length < n := by
      rw [length_cons] at hn
      omega
    rw [escapeC_cons, append_assoc]
    simp only [cstrLoop, parse_escapeChar hc, if_neg (head?_escapeChar c _)]
    rw [ih hs n _ hn']
    simp

theorem cstrLoop_stuck (h : ¬ CleanText s) (rest : Text) : ∀ (n : Nat) (val : Text), s.length < n →
    ∃ r, (cstrLoop E n val (escapeC s ++ rest)).2 = '\\' :: r := by
  induction s with
  | nil => exact absurd ⟨not_mem_nil, not_mem_nil⟩ h
  | cons c s ih =>
    intro n val hn
    obtain ⟨n, rfl⟩ := Nat.exists_eq_succ_of_ne_zero (by omega : n ≠ 0)
    rw [escapeC_cons, append_assoc]
    by_cases hc : c ≠ '\x07' ∧ c ≠ '\x0b'
    · have hs : ¬ CleanText s := fun hs => h (cleanText_cons.mpr ⟨hc, hs⟩)
      simp only [cstrLoop, parse_escapeChar hc, if_neg (head?_escapeChar c _)]
      rw [length_cons] at hn
      exact ih hs n _ (by omega)
    · obtain ⟨hnone, r, hr⟩ := parse_escapeChar_unclean (E := E) hc (escapeC s ++ rest)
      refine ⟨r, ?_⟩
      simp only [cstrLoop, hnone]
      exact hr

/-- **What is quoted is read back** unless it has one of the two bytes, and is then no string at all. -/
theorem cstr_quoted (s rest : Text) :
    cstr E (quoted s ++ rest) = if CleanText s then some (s, rest) else none := by
  have htext : quoted s ++ rest = ['"'] ++ (escapeC s ++ '"' :: rest) := by simp [quoted]
  have hlen : s.length < (escapeC s ++ '"' :: rest).length := by
    have := length_le_escapeC s
    rw [length_append, length_cons]
    omega
  rw [cstr, htext, lit_append, Option.bind_some]
  by_cases h : CleanText s
  · simp only [cstrLoop_print h rest _ _ hlen, if_pos h]
    rw [show '"' :: rest = ['"'] ++ rest from rfl, lit_append]
    simp
  · obtain ⟨r, hr⟩ := cstrLoop_stuck (E := E) h ('"' :: rest) _ [] hlen
    simp only [hr, if_neg h]
    rfl

theorem cstr_ne (h : c ≠ '"') (t : Text) : cstr E (c :: t) = none := by
  rw [cstr, lit_cons_ne h]
  rfl

/-! ## Properties and labels -/

def KeyValuePair.WellFormed (p : KeyValuePair) : Prop :=
  ∃ c w, p.key = c :: w ∧ c.isAlpha = true ∧ ∀ d ∈ w, isFeatChar d = true

theorem skip_pair {p : KeyValuePair} (hp : p.WellFormed) (rest : Text) :
    ∃ c w, c.isAlpha = true ∧ printKeyValuePair p ++ rest = c :: w ∧
      skip (printKeyValuePair p ++ rest) = printKeyValuePair p ++ rest := by
  obtain ⟨c, w, hkey, hc, -⟩ := hp
  refine ⟨c, w ++ ('=' :: quoted p.value ++ rest), hc, ?_, ?_⟩
  · simp [printKeyValuePair, hkey]
  · rw [printKeyValuePair, hkey]
    exact skip_solid (solid_of_isAlpha hc) _

theorem feat_print {p : KeyValuePair} (hp : p.WellFormed) (rest : Text) :
    feat E (printKeyValuePair p ++ rest) = if CleanText p.value then some (p, rest) else none := by
  obtain ⟨-, -, -, -, hskip⟩ := skip_pair hp rest
  obtain ⟨c, w, hkey, hc, hw⟩ := hp
  have htext : printKeyValuePair p ++ rest = c :: (w ++ '=' :: (quoted p.value ++ rest)) := by
    simp [printKeyValuePair, hkey]
  have hstop : ∀ d ∈ ('=' :: (quoted p.value ++ rest)).head?, isFeatChar d = false := by
    intro d hd
    rw [head?_cons, Option.mem_some_iff] at hd
    subst hd
    decide
  obtain ⟨htake, hdrop⟩ := takeWhile_run hw hstop
  have hname : featname (printKeyValuePair p ++ rest) = some (p.key, '=' :: (quoted p.value ++ rest)) := by
    rw [htext, featname, if_pos hc, htake, hdrop, hkey]
  have heq : lit ['='] ('=' :: (quoted p.value ++ rest)) = some (quoted p.value ++ rest) := lit_append ['='] _
  rw [feat, hskip, hname]
  simp only [Option.bind_some, heq, cstr_quoted]
  split_ifs <;> rfl

theorem feat_blank (t : Text) : feat E (' ' :: t) = feat E t := by
  rw [feat, skip_blank, feat]

/-- What does not begin with a letter is no property. -/
theorem feat_none (ht : skip t = c :: r) (h : c.isAlpha = false) : feat E t = none := by
  rw [feat, ht]
  simp [featname, h]

/-- All properties, a blank before each. -/
def blankPairs (ps : List KeyValuePair) : Text := ps.flatMap fun p => ' ' :: printKeyValuePair p

theorem blankPairs_cons (p : KeyValuePair) (ps : List KeyValuePair) (rest : Text) :
    blankPairs (p :: ps) ++ rest = ' ' :: (printKeyValuePair p ++ (blankPairs ps ++ rest)) := by
  simp [blankPairs]

variable {ps : List KeyValuePair}

theorem blank_printProperties (h : ps ≠ []) : ' ' :: printProperties ps = blankPairs ps := by
  cases ps with
  | nil => exact absurd rfl h
  | cons p ps => simp [printProperties, blankPairs]

theorem length_le_blankPairs (ps : List KeyValuePair) : ps.length ≤ (blankPairs ps).length := by
  induction ps with
  | nil => simp
  | cons p ps ih =>
    have := blankPairs_cons p ps []
    rw [append_nil] at this
    rw [this]
    simp only [length_cons, length_append, append_nil]
    omega

section Features

variable {ps : List KeyValuePair} {rest : Text}

theorem featsLoop_print (hwf : ∀ p ∈ ps, p.WellFormed) (hclean : ∀ p ∈ ps, CleanText p.value)
    (hrest : feat E rest = none) : ∀ n, ps.length ≤ n → featsLoop E n (blankPairs ps ++ rest) = (ps, rest) := by
  induction ps with
  | nil =>
    intro n _
    cases n with
    | zero => rfl
    | succ n => simp [featsLoop, blankPairs, hrest]
  | cons p ps ih =>
    intro n hn
    obtain ⟨n, rfl⟩ := Nat.exists_eq_succ_of_ne_zero (Nat.ne_zero_of_lt hn)
    have hp : feat E (blankPairs (p :: ps) ++ rest) = some (p, blankPairs ps ++ rest) := by
      rw [blankPairs_cons, feat_blank, feat_print (hwf p mem_cons_self),
        if_pos (hclean p mem_cons_self)]
    have ih := ih (fun q hq => hwf q (mem_cons_of_mem p hq)) (fun q hq => hclean q (mem_cons_of_mem p hq)) n
      (by rw [length_cons] at hn; omega)
    simp only [featsLoop, hp, ih]

/-- At a property that is not read, the next token is its name. -/
theorem featsLoop_stuck (hwf : ∀ p ∈ ps, p.WellFormed) (hunclean : ¬ ∀ p ∈ ps, CleanText p.value) :
    ∀ n, ps.length ≤ n → ∃ c r, c.isAlpha = true ∧ skip (featsLoop E n (blankPairs ps ++ rest)).2 = c :: r := by
  induction ps with
  | nil => exact absurd (by simp) hunclean
  | cons p ps ih =>
    intro n hn
    obtain ⟨n, rfl⟩ := Nat.exists_eq_succ_of_ne_zero (Nat.ne_zero_of_lt hn)
    have hp := hwf p mem_cons_self
    by_cases hclean : CleanText p.value
    · have hfeat : feat E (blankPairs (p :: ps) ++ rest) = some (p, blankPairs ps ++ rest) := by
        rw [blankPairs_cons, feat_blank, feat_print hp, if_pos hclean]
      simp only [featsLoop, hfeat]
      apply ih (fun q hq => hwf q (mem_cons_of_mem p hq))
      · intro hall
        apply hunclean
        intro q hq
        rcases mem_cons.mp hq with rfl | hq
        · exact hclean
        · exact hall q hq
      · rw [length_cons] at hn
        omega
    · have hfeat : feat E (blankPairs (p :: ps) ++ rest) = none := by
        rw [blankPairs_cons, feat_blank, feat_print hp, if_neg hclean]
      obtain ⟨c, w, hc, htext, hskip⟩ := skip_pair hp (blankPairs ps ++ rest)
      refine ⟨c, w, hc, ?_⟩
      simp only [featsLoop, hfeat]
      rw [blankPairs_cons, skip_blank, hskip, htext]

variable {d : Char} {r : Text}

theorem feats_print (rest : Text) (hwf : ∀ p ∈ ps, p.WellFormed) (hclean : ∀ p ∈ ps, CleanText p.value) (hrest : skip rest = d :: r)
    (hd : d.isAlpha = false) :
    ∃ t, feats E (' ' :: (printProperties ps ++ rest)) = (ps, t) ∧ skip t = skip rest := by
  have hnone : feat E rest = none := feat_none hrest hd
  by_cases hps : ps = []
  · subst hps
    have hblank : feat E (' ' :: rest) = none := by rw [feat_blank, hnone]
    simp [feats, featsLoop, printProperties, hblank]
  · refine ⟨rest, ?_, rfl⟩
    rw [← cons_append, blank_printProperties hps]
    apply featsLoop_print hwf hclean hnone
    have := length_le_blankPairs ps
    rw [length_append]
    omega

theorem feats_stuck (rest : Text) (hwf : ∀ p ∈ ps, p.WellFormed) (hunclean : ¬ ∀ p ∈ ps, CleanText p.value) :
    ∃ c w, c.isAlpha = true ∧ skip (feats E (' ' :: (printProperties ps ++ rest))).2 = c :: w := by
  have hps : ps ≠ [] := by
    rintro rfl
    exact hunclean (by simp)
  rw [← cons_append, blank_printProperties hps]
  apply featsLoop_stuck hwf hunclean
  have := length_le_blankPairs ps
  rw [length_append]
  omega

/-- The first token of properties that something not a letter follows is a letter or that. -/
theorem skip_printProperties (hwf : ∀ p ∈ ps, p.WellFormed) (hrest : skip rest = d :: r) :
    ∃ c w, skip (printProperties ps ++ rest) = c :: w ∧ (c.isAlpha = true ∨ c = d) := by
  cases ps with
  | nil => exact ⟨d, r, hrest, Or.inr rfl⟩
  | cons p ps =>
    obtain ⟨c, w, hc, htext, hskip⟩ :=
      skip_pair (hwf p mem_cons_self) (ps.flatMap (fun q => ' ' :: printKeyValuePair q) ++ rest)
    refine ⟨c, w, ?_, Or.inl hc⟩
    rw [printProperties, append_assoc, hskip, htext]

end Features

section Labels

variable {label : Text} {ps : List KeyValuePair} {rest : Text}

theorem optUfeat_print (hwf : ∀ p ∈ ps, p.WellFormed) (hlabel : CleanText label) :
    optUfeat E (' ' :: (printLabel label ++ (printProperties ps ++ ';' :: rest))) =
      (label, ' ' :: (printProperties ps ++ ';' :: rest)) := by
  by_cases h : label = []
  · subst h
    have hrest : skip (';' :: rest) = ';' :: rest := skip_solid (by decide) rest
    obtain ⟨c, w, htext, hc⟩ := skip_printProperties hwf hrest
    have hne : c ≠ '"' := by
      rintro rfl
      rcases hc with hc | hc <;> revert hc <;> decide
    simp only [optUfeat, printLabel, skip_blank, htext, cstr_ne hne, if_true, nil_append]
  · have htext : printLabel label ++ (printProperties ps ++ ';' :: rest) =
        quoted label ++ ' ' :: (printProperties ps ++ ';' :: rest) := by
      simp [printLabel, h]
    have hskip : skip (quoted label ++ ' ' :: (printProperties ps ++ ';' :: rest)) = quoted label ++ _ :=
      skip_solid (by decide) _
    simp only [optUfeat, htext, skip_blank, hskip, cstr_quoted, if_pos hlabel]

/-- A label that is not read is left where it is, and so is what follows it. -/
theorem tail_stuck_label (hlabel : ¬ CleanText label) :
    chP ';' (feats E (optUfeat E (' ' :: (printLabel label ++ rest))).2).2 = none := by
  have h : label ≠ [] := by
    rintro rfl
    exact hlabel ⟨not_mem_nil, not_mem_nil⟩
  have htext : printLabel label ++ rest = quoted label ++ ' ' :: rest := by
    simp [printLabel, h]
  have hskip : skip (' ' :: (quoted label ++ ' ' :: rest)) = quoted label ++ ' ' :: rest := by
    rw [skip_blank]
    exact skip_solid (by decide) _
  have hlbl : optUfeat E (' ' :: (printLabel label ++ rest)) = ([], ' ' :: (quoted label ++ ' ' :: rest)) := by
    simp only [optUfeat, htext, hskip, cstr_quoted, if_neg hlabel]
  rw [hlbl]
  exact chP_ne hskip (by decide)

/-- What follows the ids of a vertex or an edge: all of it is read, or the `';'` is not found. -/
theorem tail_print (rest : Text) (hwf : ∀ p ∈ ps, p.WellFormed) (hlabel : CleanText label) (hprops : ∀ p ∈ ps, CleanText p.value) :
    ∃ t, optUfeat E (' ' :: (printLabel label ++ (printProperties ps ++ ';' :: rest))) = (label, t) ∧
      (feats E t).1 = ps ∧ chP ';' (feats E t).2 = some rest := by
  obtain ⟨t, ht, hskip⟩ := feats_print (E := E) (';' :: rest) hwf hprops (skip_solid (by decide) rest) (by decide)
  refine ⟨_, optUfeat_print hwf hlabel, ?_, ?_⟩
  · rw [ht]
  · rw [ht, chP, hskip]
    exact chP_self (by decide) rest

theorem tail_stuck (hwf : ∀ p ∈ ps, p.WellFormed) (h : ¬ (CleanText label ∧ ∀ p ∈ ps, CleanText p.value)) :
    chP ';' (feats E (optUfeat E (' ' :: (printLabel label ++ (printProperties ps ++ ';' :: rest)))).2).2 = none := by
  by_cases hlabel : CleanText label
  · rw [optUfeat_print hwf hlabel]
    obtain ⟨c, w, hc, hskip⟩ := feats_stuck (E := E) (';' :: rest) hwf fun hprops => h ⟨hlabel, hprops⟩
    apply chP_ne hskip
    rintro rfl
    revert hc
    decide
  · exact tail_stuck_label hlabel

end Labels

/-! ## Ids -/

theorem skip_showNat (n : Nat) (t : Text) : skip (showNat n ++ t) = showNat n ++ t := by
  obtain ⟨c, w, hn, hc⟩ := exists_showNat n
  rw [hn]
  exact skip_solid (solid_of_isDigit hc) _

variable {n : Nat}

theorem uintP_print (hn : n < 2 ^ 32) (hc : c.isDigit = false) (t : Text) :
    uintP (showNat n ++ c :: t) = some (n, c :: t) := by
  rw [uintP, skip_showNat]
  apply readBelow_showNat hn
  intro d hd
  rw [head?_cons, Option.mem_some_iff] at hd
  rw [← hd, hc]

theorem vtxid_print (hn : n < 2 ^ 32) (t : Text) : vtxid (' ' :: '[' :: (showNat n ++ ']' :: t)) = some (n, t) := by
  rw [vtxid, chP_blank, chP_self (by decide), Option.bind_some, uintP_print hn (by decide), Option.bind_some,
    chP_self (by decide), Option.map_some]

variable {span : Nat × Nat}

theorem vtxidPair_print (h1 : span.1 < 2 ^ 32) (h2 : span.2 < 2 ^ 32) (t : Text) :
    vtxidPair (' ' :: (printVertexPair span ++ t)) = some (span, t) := by
  have htext : printVertexPair span ++ t = '[' :: (showNat span.1 ++ ',' :: (showNat span.2 ++ ']' :: t)) := by
    simp [printVertexPair]
  rw [htext, vtxidPair, chP_blank, chP_self (by decide), Option.bind_some, uintP_print h1 (by decide),
    Option.bind_some, chP_self (by decide), Option.bind_some, uintP_print h2 (by decide), Option.bind_some,
    chP_self (by decide), Option.map_some]

/-- The alternative of the vertices fails on an edge behind its first id. -/
theorem vtxid_printVertexPair (h1 : span.1 < 2 ^ 32) (t : Text) :
    vtxid (' ' :: (printVertexPair span ++ t)) = none := by
  have htext : printVertexPair span ++ t = '[' :: (showNat span.1 ++ ',' :: (showNat span.2 ++ ']' :: t)) := by
    simp [printVertexPair]
  rw [htext, vtxid, chP_blank, chP_self (by decide), Option.bind_some, uintP_print h1 (by decide), Option.bind_some,
    chP_ne (skip_solid (by decide) _) (by decide), Option.map_none]

theorem vtxid_ne (ht : skip t = c :: r) (h : c ≠ '[') : vtxid t = none := by
  rw [vtxid, chP_ne ht h, Option.bind_none]

theorem vtxidPair_ne (ht : skip t = c :: r) (h : c ≠ '[') : vtxidPair t = none := by
  rw [vtxidPair, chP_ne ht h, Option.bind_none]

/-! ## The place of a line -/

/-- Every step of the place leads into a block. -/
def OpenAt : Path → List Line → Prop
  | [], _ => True
  | i :: path, lines => ∃ props inner, lines[i]? = some (.block props inner) ∧ OpenAt path inner

theorem insertAt_cons {i : Nat} {lines inner : List Line} {props : List KeyValuePair}
    (h : lines[i]? = some (.block props inner)) (path : Path) (l : Line) :
    insertAt (i :: path) l lines = lines.set i (.block props (insertAt path l inner)) := by
  rw [insertAt, modify_eq_set_getElem?, h]
  rfl

theorem getElem?_set_block {i : Nat} {lines : List Line} {b : Line} (h : lines[i]? = some b) (b' : Line) :
    (lines.set i b')[i]? = some b' := by
  obtain ⟨hi, -⟩ := List.getElem?_eq_some_iff.mp h
  simp [hi]

theorem OpenAt.insertAt (l : Line) : ∀ {path : Path} {lines : List Line}, OpenAt path lines →
    OpenAt path (insertAt path l lines)
  | [], _, _ => trivial
  | i :: path, lines, ⟨props, inner, hi, h⟩ => by
    rw [insertAt_cons hi]
    exact ⟨props, _, getElem?_set_block hi _, OpenAt.insertAt l h⟩

/-- A block that was just put in is open. -/
theorem OpenAt.block (props : List KeyValuePair) (inner : List Line) : ∀ {path : Path} {lines : List Line},
    OpenAt path lines →
      OpenAt (path ++ [(linesAt path lines).length]) (LatticeText.insertAt path (.block props inner) lines)
  | [], lines, _ => ⟨props, inner, by simp [linesAt, LatticeText.insertAt], trivial⟩
  | i :: path, lines, ⟨ps, ls, hi, h⟩ => by
    rw [insertAt_cons hi]
    simp only [cons_append, linesAt, hi]
    exact ⟨ps, _, getElem?_set_block hi _, OpenAt.block props inner h⟩

/-- A line put into the block that was put in last. -/
theorem insertAt_block (props : List KeyValuePair) (inner : List Line) (l : Line) : ∀ {path : Path} {lines : List Line},
    OpenAt path lines →
      insertAt (path ++ [(linesAt path lines).length]) l (insertAt path (.block props inner) lines) =
        insertAt path (.block props (inner ++ [l])) lines
  | [], lines, _ => by
    have hlast : (lines ++ [Line.block props inner])[lines.length]? = some (.block props inner) := by simp
    rw [linesAt, insertAt, nil_append, insertAt_cons hlast]
    simp [insertAt]
  | i :: path, lines, ⟨ps, ls, hi, h⟩ => by
    have hlines : linesAt (i :: path) lines = linesAt path ls := by simp only [linesAt, hi]
    rw [insertAt_cons hi, insertAt_cons hi, hlines, cons_append, insertAt_cons (getElem?_set_block hi _),
      insertAt_block props inner l h, set_set]

namespace Construct

/-- The iterator on top of the stack is on a block. -/
def Valid (c : Construct) : Prop := OpenAt c.top c.ast.lines

variable {c : Construct}

theorem Valid.insertLine (h : c.Valid) (l : Line) : (c.insertLine l).Valid := OpenAt.insertAt l h

theorem Valid.beginBlock (h : c.Valid) (props : List KeyValuePair) : (c.beginBlock props).Valid :=
  OpenAt.block props [] h

/-- The state in which a block is open that has been filled with `inner`. -/
def opened (c : Construct) (props : List KeyValuePair) (inner : List Line) : Construct :=
  { c.insertLine (.block props inner) with
    blockstack := (c.top ++ [(linesAt c.top c.ast.lines).length]) :: c.blockstack }

theorem opened_insertLine (h : c.Valid) (props : List KeyValuePair) (inner : List Line) (l : Line) :
    (c.opened props inner).insertLine l = c.opened props (inner ++ [l]) := by
  have := insertAt_block props inner l h
  simp only [opened, Construct.insertLine, top, headD_cons] at this ⊢
  rw [this]

theorem opened_insertLines (h : c.Valid) (props : List KeyValuePair) (ls : List Line) :
    ∀ inner, ls.foldl insertLine (c.opened props inner) = c.opened props (inner ++ ls) := by
  induction ls with
  | nil => simp
  | cons l ls ih =>
    intro inner
    rw [foldl_cons, opened_insertLine h, ih]
    simp

/-- A block is one line of what it stands in. -/
theorem endBlock_insertLines (h : c.Valid) (props : List KeyValuePair) (ls : List Line) :
    (ls.foldl insertLine (c.beginBlock props)).endBlock = c.insertLine (.block props ls) :=
  congrArg endBlock (opened_insertLines h props ls [])

end Construct

/-! ## Statements -/

/-- The text of a statement is taken with its `';'` if `ok`, and the statement fails otherwise. -/
def Reads (p : Rule Construct) (txt : Text) (ok : Prop) (c c' : Construct) : Prop :=
  ∀ rest, (ok → stmt p c (' ' :: (txt ++ ';' :: rest)) = (c', some rest)) ∧
    (¬ ok → (stmt p c (' ' :: (txt ++ ';' :: rest))).2 = none)

section Items

variable {ι : Type} {p : Rule Construct} {txt : ι → Text} {ok : ι → Prop} {f : Construct → ι → Construct}
  {items : List ι} {c : Construct} {rest : Text}

/-- Statements, a blank before each. -/
def itemsText (txt : ι → Text) (items : List ι) : Text := items.flatMap fun i => ' ' :: (txt i ++ [';'])

theorem itemsText_cons (txt : ι → Text) (i : ι) (items : List ι) (rest : Text) :
    itemsText txt (i :: items) ++ rest = ' ' :: (txt i ++ ';' :: (itemsText txt items ++ rest)) := by
  simp [itemsText]

theorem length_le_itemsText (items : List ι) : items.length ≤ (itemsText txt items).length := by
  induction items with
  | nil => simp
  | cons i items ih =>
    have := itemsText_cons txt i items []
    rw [append_nil] at this
    rw [this]
    simp only [length_cons, length_append]
    omega

/-- The repetition ends before the first statement that is not read. -/
theorem star_stuck (rest : Text) (hread : ∀ i ∈ items, ∀ c : Construct, c.Valid → (f c i).Valid ∧ Reads p (txt i) (ok i) c (f c i))
    (hok : ¬ ∀ i ∈ items, ok i) : ∀ (n : Nat) (c : Construct), items.length ≤ n → c.Valid →
      ∃ i r, (star (stmt p) n c (itemsText txt items ++ rest)).2 = ' ' :: (txt i ++ r) := by
  induction items with
  | nil => exact absurd (by simp) hok
  | cons i items ih =>
    intro n c hn hc
    obtain ⟨n, rfl⟩ := Nat.exists_eq_succ_of_ne_zero (Nat.ne_zero_of_lt hn)
    obtain ⟨hvalid, hreads⟩ := hread i mem_cons_self c hc
    rw [itemsText_cons]
    by_cases hi : ok i
    · rw [star_some ((hreads _).1 hi)]
      apply ih (fun j hj => hread j (mem_cons_of_mem i hj)) _ n _ _ hvalid
      · intro hall
        apply hok
        intro j hj
        rcases mem_cons.mp hj with rfl | hj
        · exact hi
        · exact hall j hj
      · rw [length_cons] at hn
        omega
    · have hnone := (hreads (itemsText txt items ++ rest)).2 hi
      obtain ⟨c', hc'⟩ : ∃ c', stmt p c (' ' :: (txt i ++ ';' :: (itemsText txt items ++ rest))) = (c', none) :=
        ⟨_, Prod.ext rfl hnone⟩
      refine ⟨i, ';' :: (itemsText txt items ++ rest), ?_⟩
      rw [star_none hc']

variable (hread : ∀ i ∈ items, ∀ c : Construct, c.Valid → (f c i).Valid ∧ Reads p (txt i) (ok i) c (f c i))
include hread

theorem star_print (hstop : ∀ c, stmt p c (' ' :: '}' :: rest) = (c, none)) (hok : ∀ i ∈ items, ok i) :
    ∀ (n : Nat) (c : Construct), items.length ≤ n → c.Valid →
      star (stmt p) n c (itemsText txt items ++ ' ' :: '}' :: rest) = (items.foldl f c, ' ' :: '}' :: rest) := by
  induction items with
  | nil => exact fun n c _ _ => star_stop (hstop c)
  | cons i items ih =>
    intro n c hn hc
    obtain ⟨n, rfl⟩ := Nat.exists_eq_succ_of_ne_zero (Nat.ne_zero_of_lt hn)
    obtain ⟨hvalid, hreads⟩ := hread i mem_cons_self c hc
    rw [itemsText_cons, star_some ((hreads _).1 (hok i mem_cons_self))]
    apply ih (fun j hj => hread j (mem_cons_of_mem i hj)) (fun j hj => hok j (mem_cons_of_mem i hj)) n _ _ hvalid
    rw [length_cons] at hn
    omega

/-- The statements between the braces, up to the closing one. -/
theorem body_print
    (hstop : ∀ c, stmt p c (' ' :: '}' :: rest) = (c, none)) (hitems : items ≠ []) (hok : ∀ i ∈ items, ok i)
    (hc : c.Valid) : body p c (itemsText txt items ++ ' ' :: '}' :: rest) = (items.foldl f c, some rest) := by
  cases items with
  | nil => exact absurd rfl hitems
  | cons i items =>
    obtain ⟨hvalid, hreads⟩ := hread i mem_cons_self c hc
    have hstar := star_print (fun j hj => hread j (mem_cons_of_mem i hj)) hstop
      (fun j hj => hok j (mem_cons_of_mem i hj)) (itemsText txt items ++ ' ' :: '}' :: rest).length (f c i)
      (by rw [length_append]; exact (length_le_itemsText items).trans (Nat.le_add_right _ _)) hvalid
    have hplus : plus (stmt p) c (itemsText txt (i :: items) ++ ' ' :: '}' :: rest) =
        ((i :: items).foldl f c, some (' ' :: '}' :: rest)) := by
      rw [itemsText_cons, plus, andThen_some ((hreads _).1 (hok i mem_cons_self))]
      simp only [many, hstar, foldl_cons]
    have hclose : chP '}' (' ' :: '}' :: rest) = some rest := by
      rw [chP_blank, chP_self (by decide)]
    rw [body, andThen_some hplus, recognize, hclose]

theorem body_stuck (hhead : ∀ i r, chP '}' (txt i ++ r) = none) (hok : ¬ ∀ i ∈ items, ok i) (hc : c.Valid) :
    (body p c (itemsText txt items ++ rest)).2 = none := by
  cases items with
  | nil => exact absurd (by simp) hok
  | cons i items =>
    obtain ⟨hvalid, hreads⟩ := hread i mem_cons_self c hc
    rw [itemsText_cons]
    by_cases hi : ok i
    · have hrest : ¬ ∀ j ∈ items, ok j := by
        intro hall
        apply hok
        intro j hj
        rcases mem_cons.mp hj with rfl | hj
        · exact hi
        · exact hall j hj
      obtain ⟨j, r, hstar⟩ := star_stuck rest (fun j hj => hread j (mem_cons_of_mem i hj)) hrest
        (itemsText txt items ++ rest).length (f c i)
        (by rw [length_append]; exact (length_le_itemsText items).trans (Nat.le_add_right _ _)) hvalid
      have hplus : plus (stmt p) c (' ' :: (txt i ++ ';' :: (itemsText txt items ++ rest))) =
          ((star (stmt p) (itemsText txt items ++ rest).length (f c i) (itemsText txt items ++ rest)).1,
            some (' ' :: (txt j ++ r))) := by
        rw [plus, andThen_some ((hreads _).1 hi), many]
        simp only [hstar]
      rw [body, andThen_some hplus, recognize]
      simp [hhead]
    · exact andThen_snd_none (andThen_snd_none ((hreads _).2 hi))

end Items

/-! ## Lines -/

def VertexInfo.WellFormed (v : VertexInfo) : Prop := v.id < 2 ^ 32 ∧ ∀ p ∈ v.props, p.WellFormed

def VertexInfo.Clean (v : VertexInfo) : Prop := CleanText v.label ∧ ∀ p ∈ v.props, CleanText p.value

/-- Keys are feature names, ids fit an `unsigned`, and no block is empty. -/
def Line.WellFormed : Line → Prop
  | .edge span _ props => (span.1 < 2 ^ 32 ∧ span.2 < 2 ^ 32) ∧ ∀ p ∈ props, p.WellFormed
  | .block props lines => (∀ p ∈ props, p.WellFormed) ∧ lines ≠ [] ∧ ∀ l ∈ lines, l.WellFormed

def Line.Clean : Line → Prop
  | .edge _ label props => CleanText label ∧ ∀ p ∈ props, CleanText p.value
  | .block props lines => (∀ p ∈ props, CleanText p.value) ∧ ∀ l ∈ lines, l.Clean

theorem vtx_reads {v : VertexInfo} (hv : v.WellFormed) (n : Nat) (c : Construct) :
    Reads (vtxEdgeBlock E n) (printVertexInfo v) v.Clean c (c.newVertex v.id v.label v.props) := by
  intro rest
  have htext : ' ' :: (printVertexInfo v ++ ';' :: rest) =
      ' ' :: '[' :: (showNat v.id ++ ']' :: ' ' :: (printLabel v.label ++ (printProperties v.props ++ ';' :: rest))) := by
    simp [printVertexInfo]
  set tail := ' ' :: (printLabel v.label ++ (printProperties v.props ++ ';' :: rest)) with htail
  have hvtx : ∀ lbl fs, optUfeat E tail = lbl → feats E lbl.2 = fs →
      vtxEdgeBlock E n c (' ' :: (printVertexInfo v ++ ';' :: rest)) = (c.newVertex v.id lbl.1 fs.1, some fs.2) := by
    rintro lbl fs rfl rfl
    rw [htext]
    apply orElse_some
    rw [vtx, vtxid_print hv.1]
  constructor
  · rintro ⟨hlabel, hprops⟩
    obtain ⟨t, hlbl, hfs, hsemi⟩ := tail_print (E := E) rest hv.2 hlabel hprops
    rw [stmt, andThen_some (hvtx _ _ hlbl rfl), recognize, hsemi, hfs]
  · intro hunclean
    rw [stmt, andThen_some (hvtx _ _ rfl rfl)]
    exact tail_stuck hv.2 hunclean

theorem edge_reads {label : Text} {props : List KeyValuePair}
    (hwf : (Line.edge span label props).WellFormed) (n : Nat) (c : Construct) :
    Reads (edgeBlock E n) (printLine (.edge span label props)) (Line.edge span label props).Clean c
      (c.insertLine (.edge span label props)) := by
  intro rest
  rw [Line.WellFormed] at hwf
  have htext : ' ' :: (printLine (.edge span label props) ++ ';' :: rest) =
      ' ' :: (printVertexPair span ++ ' ' :: (printLabel label ++ (printProperties props ++ ';' :: rest))) := by
    simp [printLine]
  set tail := ' ' :: (printLabel label ++ (printProperties props ++ ';' :: rest)) with htail
  have hedge : ∀ lbl fs, optUfeat E tail = lbl → feats E lbl.2 = fs →
      edgeBlock E n c (' ' :: (printLine (.edge span label props) ++ ';' :: rest)) =
        (c.newEdge span lbl.1 fs.1, some fs.2) := by
    rintro lbl fs rfl rfl
    rw [htext]
    apply orElse_some
    rw [edge, vtxidPair_print hwf.1.1 hwf.1.2]
  rw [Line.Clean]
  constructor
  · rintro ⟨hlabel, hprops⟩
    obtain ⟨t, hlbl, hfs, hsemi⟩ := tail_print (E := E) rest hwf.2 hlabel hprops
    rw [stmt, andThen_some (hedge _ _ hlbl rfl), recognize, hsemi, hfs]
    rfl
  · intro hunclean
    rw [stmt, andThen_some (hedge _ _ rfl rfl)]
    exact tail_stuck hwf.2 hunclean

variable {act : Construct → List KeyValuePair → Construct}

/-- The head of a block or lattice. -/
theorem opening_print {word : Text}
    (hwf : ∀ p ∈ ps, p.WellFormed) (hprops : ∀ p ∈ ps, CleanText p.value) {rest : Text} (c : Construct)
    (ht : skip t = word ++ ' ' :: (printProperties ps ++ ' ' :: '{' :: rest)) :
    opening E word act c t = (act c ps, some rest) := by
  have hbrace : skip (' ' :: '{' :: rest) = '{' :: rest := by
    rw [skip_blank, skip_solid (by decide)]
  obtain ⟨t', hfeats, hskip⟩ := feats_print (E := E) _ hwf hprops hbrace (by decide)
  have hopen : chP '{' t' = some rest := by
    rw [chP, hskip]
    exact lit_append ['{'] rest
  simp only [opening, ht, lit_append, hfeats, hopen]

theorem opening_stuck {word : Text}
    (hwf : ∀ p ∈ ps, p.WellFormed) (hprops : ¬ ∀ p ∈ ps, CleanText p.value) {rest : Text} (c : Construct)
    (ht : skip t = word ++ ' ' :: (printProperties ps ++ rest)) : opening E word act c t = (c, none) := by
  obtain ⟨d, w, hd, hskip⟩ := feats_stuck (E := E) rest hwf hprops
  have hopen : chP '{' (feats E (' ' :: (printProperties ps ++ rest))).2 = none := by
    apply chP_ne hskip
    rintro rfl
    revert hd
    decide
  simp only [opening, ht, lit_append, hopen]

theorem blank_printLines (ls : List Line) (rest : Text) :
    ' ' :: (printLines ls ++ rest) = itemsText printLine ls ++ ' ' :: rest := by
  induction ls with
  | nil => rfl
  | cons l ls ih =>
    rw [itemsText_cons, ← ih]
    simp [printLines]

theorem length_printLine_le {l : Line} {ls : List Line} (h : l ∈ ls) :
    (printLine l).length ≤ (printLines ls).length := by
  induction ls with
  | nil => exact absurd h not_mem_nil
  | cons l' ls ih =>
    rw [printLines, length_append, length_append]
    rcases mem_cons.mp h with rfl | h
    · omega
    · have := ih h
      omega

/-- A line begins with a bracket or a letter. -/
theorem skip_printLine (l : Line) (rest : Text) :
    ∃ c w, skip (printLine l ++ rest) = c :: w ∧ (c = '[' ∨ c = 'b') := by
  cases l with
  | edge span label props =>
    exact ⟨_, _, skip_solid (c := '[') (by decide) _, Or.inl rfl⟩
  | block props lines =>
    exact ⟨_, _, skip_solid (c := 'b') (by decide) _, Or.inr rfl⟩

theorem chP_close_printLine (l : Line) (rest : Text) : chP '}' (printLine l ++ rest) = none := by
  obtain ⟨c, w, hskip, hc⟩ := skip_printLine l rest
  apply chP_ne hskip
  rcases hc with rfl | rfl <;> decide

/-- At the closing brace no statement begins. -/
theorem edgeBlock_close (n : Nat) (c : Construct) (rest : Text) :
    edgeBlock E n c (' ' :: '}' :: rest) = (c, none) := by
  have hskip : skip (' ' :: '}' :: rest) = '}' :: rest := by
    rw [skip_blank, skip_solid (by decide)]
  have hedge : edge E c (' ' :: '}' :: rest) = (c, none) := by
    rw [edge, vtxidPair_ne hskip (by decide)]
  rw [edgeBlock, orElse_none hedge]
  cases n with
  | zero => rfl
  | succ n =>
    apply andThen_none
    apply andThen_none
    have hword : lit "block".toList ('}' :: rest) = none := lit_cons_ne (by decide) "lock".toList rest
    simp only [opening, hskip, hword]

theorem block_succ (n : Nat) : block E (n + 1) =
    andThen (andThen (opening E "block".toList Construct.beginBlock) (body (edgeBlock E n)))
      fun c t => (c.endBlock, some t) := rfl

/-- **A line is read back**, whatever blocks are nested in it, or its statement fails. -/
theorem line_reads : ∀ (l : Line), l.WellFormed → ∀ (n : Nat), (printLine l).length ≤ n → ∀ (c : Construct), c.Valid →
    Reads (edgeBlock E n) (printLine l) l.Clean c (c.insertLine l)
  | .edge span label props, hwf, n, _, c, _ => edge_reads hwf n c
  | .block props lines, hwf, n, hn, c, hc => by
    intro rest
    rw [Line.WellFormed] at hwf
    obtain ⟨hkeys, hne, hlines⟩ := hwf
    have hlen : (printLines lines).length < n := by
      rw [printLine] at hn
      simp only [length_append] at hn
      have : "block ".toList.length = 6 := by decide
      omega
    obtain ⟨n, rfl⟩ := Nat.exists_eq_succ_of_ne_zero (by omega : n ≠ 0)
    have hread : ∀ l ∈ lines, ∀ c : Construct, c.Valid →
        (c.insertLine l).Valid ∧ Reads (edgeBlock E n) (printLine l) l.Clean c (c.insertLine l) := by
      intro l hl c hc
      have := length_printLine_le hl
      exact ⟨hc.insertLine l, line_reads l (hlines l hl) n (by omega) c hc⟩
    -- the text, the head and the braces apart
    have htext : ' ' :: (printLine (.block props lines) ++ ';' :: rest) =
        ' ' :: ("block".toList ++ ' ' :: (printProperties props ++ ' ' :: '{' ::
          (itemsText printLine lines ++ ' ' :: '}' :: ' ' :: ';' :: rest))) := by
      rw [← blank_printLines]
      simp [printLine]
    set t := ' ' :: (printLine (.block props lines) ++ ';' :: rest) with ht
    have hskip : skip t = "block".toList ++ ' ' :: (printProperties props ++ ' ' :: '{' ::
        (itemsText printLine lines ++ ' ' :: '}' :: ' ' :: ';' :: rest)) := by
      rw [htext, skip_blank]
      exact skip_solid (by decide) _
    have hedge : edge E c t = (c, none) := by
      rw [edge, vtxidPair_ne hskip (by decide)]
    rw [Line.Clean, stmt]
    constructor
    · rintro ⟨hprops, hclean⟩
      have hbody := body_print hread (fun c => andThen_none (edgeBlock_close n c (' ' :: ';' :: rest))) hne hclean
        (hc.beginBlock props)
      have hblock : edgeBlock E (n + 1) c t = (c.insertLine (.block props lines), some (' ' :: ';' :: rest)) := by
        rw [edgeBlock, orElse_none hedge, block_succ, andThen_some
          ((andThen_some (opening_print hkeys hprops c hskip)).trans hbody),
          Construct.endBlock_insertLines hc]
      rw [andThen_some hblock, recognize, chP_blank, chP_self (by decide)]
    · intro hunclean
      apply andThen_snd_none
      rw [edgeBlock, orElse_none hedge]
      apply andThen_snd_none
      by_cases hprops : ∀ p ∈ props, CleanText p.value
      · rw [andThen_some (opening_print hkeys hprops c hskip)]
        exact body_stuck hread chP_close_printLine (fun hclean => hunclean ⟨hprops, hclean⟩) (hc.beginBlock props)
      · rw [andThen_none (opening_stuck hkeys hprops c hskip)]
termination_by l => sizeOf l
decreasing_by
  have := sizeOf_lt_of_mem hl
  simp only [Line.block.sizeOf_spec]
  omega

/-! ## The lattice -/

/-- Keys are feature names, ids fit an `unsigned`, and neither the lattice nor a block is without lines. -/
def LatticeAst.WellFormed (lat : LatticeAst) : Prop :=
  (∀ p ∈ lat.props, p.WellFormed) ∧ (∀ v ∈ lat.vertices, v.WellFormed) ∧ lat.lines ≠ [] ∧
    ∀ l ∈ lat.lines, l.WellFormed

/-- No label and no property value has byte 7 or byte 11. -/
def LatticeAst.Clean (lat : LatticeAst) : Prop :=
  (∀ p ∈ lat.props, CleanText p.value) ∧ (∀ v ∈ lat.vertices, v.Clean) ∧ ∀ l ∈ lat.lines, l.Clean

/-- What stands between the braces of a lattice. -/
abbrev Item := VertexInfo ⊕ Line

namespace Item

def text : Item → Text := Sum.elim printVertexInfo printLine

def WellFormed : Item → Prop := Sum.elim VertexInfo.WellFormed Line.WellFormed

def Clean : Item → Prop := Sum.elim VertexInfo.Clean Line.Clean

def insert (c : Construct) : Item → Construct :=
  Sum.elim (fun v => c.newVertex v.id v.label v.props) c.insertLine

end Item

def LatticeAst.items (lat : LatticeAst) : List Item := lat.vertices.map Sum.inl ++ lat.lines.map Sum.inr

section

variable (lat : LatticeAst)

theorem LatticeAst.forall_items {P : Item → Prop} :
    (∀ i ∈ lat.items, P i) ↔ (∀ v ∈ lat.vertices, P (.inl v)) ∧ ∀ l ∈ lat.lines, P (.inr l) := by
  simp only [items, mem_append, mem_map, or_imp, forall_and, forall_exists_index, and_imp,
    forall_apply_eq_imp_iff₂]

theorem itemsText_append {ι : Type} {txt : ι → Text} (is js : List ι) :
    itemsText txt (is ++ js) = itemsText txt is ++ itemsText txt js := flatMap_append

theorem itemsText_map {ι κ : Type} {txt : κ → Text} (g : ι → κ) (is : List ι) :
    itemsText txt (is.map g) = itemsText (txt ∘ g) is := by
  simp [itemsText, flatMap_map]

theorem blank_printVertexInfos (vs : List VertexInfo) (rest : Text) :
    ' ' :: (printVertexInfos vs ++ rest) = itemsText printVertexInfo vs ++ ' ' :: rest := by
  induction vs with
  | nil => rfl
  | cons v vs ih =>
    rw [itemsText_cons, ← ih]
    simp [printVertexInfos]

theorem print_eq : print lat = "lattice".toList ++ ' ' :: (printProperties lat.props ++ ' ' :: '{' ::
      (itemsText Item.text lat.items ++ ' ' :: '}' :: [' '])) := by
  have hitems : itemsText Item.text lat.items = itemsText printVertexInfo lat.vertices ++ itemsText printLine lat.lines := by
    rw [LatticeAst.items, itemsText_append, itemsText_map, itemsText_map]
    rfl
  have hbody : itemsText Item.text lat.items ++ ' ' :: '}' :: [' '] =
      ' ' :: (printVertexInfos lat.vertices ++ (printLines lat.lines ++ "\x7d ".toList)) := by
    have hclose : "\x7d ".toList = ['}', ' '] := by decide
    rw [hitems, append_assoc, ← blank_printLines, ← blank_printVertexInfos, hclose]
  have hword : "lattice ".toList = "lattice".toList ++ [' '] := by decide
  have hbrace : " \x7b ".toList = [' ', '{', ' '] := by decide
  rw [hbody]
  unfold print
  rw [hword, hbrace]
  simp only [append_assoc, cons_append, nil_append]

theorem foldl_newVertex (vs : List VertexInfo) : ∀ c : Construct,
    (vs.map Sum.inl).foldl Item.insert c = { c with ast := { c.ast with vertices := c.ast.vertices ++ vs } } := by
  induction vs with
  | nil => simp
  | cons v vs ih =>
    intro c
    rw [map_cons, foldl_cons, ih]
    simp [Item.insert, Construct.newVertex]

theorem foldl_insertLine (ls : List Line) : ∀ c : Construct, c.blockstack = [] →
    (ls.map Sum.inr).foldl Item.insert c = { c with ast := { c.ast with lines := c.ast.lines ++ ls } } := by
  induction ls with
  | nil => simp
  | cons l ls ih =>
    intro c hc
    rw [map_cons, foldl_cons, ih (Item.insert c (.inr l)) hc]
    simp [Item.insert, Construct.insertLine, Construct.top, hc, insertAt]

/-- The actions build the lattice that was printed. -/
theorem foldl_items : (lat.items.foldl Item.insert (Construct.empty.properties lat.props)).ast = lat := by
  rw [LatticeAst.items, foldl_append, foldl_newVertex, foldl_insertLine _ _ rfl]
  simp [Construct.empty, Construct.properties]

theorem skip_printVertexInfo (v : VertexInfo) (rest : Text) :
    ∃ w, skip (printVertexInfo v ++ rest) = '[' :: w := by
  exact ⟨_, skip_solid (c := '[') (by decide) _⟩

theorem chP_close_item (i : Item) (rest : Text) : chP '}' (i.text ++ rest) = none := by
  cases i with
  | inl v =>
    obtain ⟨w, hskip⟩ := skip_printVertexInfo v rest
    exact chP_ne hskip (by decide)
  | inr l => exact chP_close_printLine l rest

/-- No line is taken for a vertex. -/
theorem vtx_printLine {l : Line} (hl : l.WellFormed) (c : Construct) (rest : Text) :
    vtx E c (' ' :: (printLine l ++ rest)) = (c, none) := by
  have hnone : vtxid (' ' :: (printLine l ++ rest)) = none := by
    cases l with
    | edge span label props =>
      rw [Line.WellFormed] at hl
      rw [printLine, append_assoc]
      exact vtxid_printVertexPair hl.1.1 _
    | block props lines =>
      apply vtxid_ne _ (by decide : 'b' ≠ '[')
      · exact ("block ".toList ++ (printProperties props ++ (" \x7b ".toList ++ (printLines lines ++ "\x7d ".toList))) ++ rest).tail
      · rw [skip_blank]
        exact skip_solid (by decide) _
  rw [vtx, hnone]

theorem item_reads {i : Item} (hi : i.WellFormed) (hn : i.text.length ≤ n) {c : Construct} (hc : c.Valid) :
    (Item.insert c i).Valid ∧ Reads (vtxEdgeBlock E n) i.text i.Clean c (Item.insert c i) := by
  cases i with
  | inl v => exact ⟨hc, vtx_reads hi n c⟩
  | inr l =>
    refine ⟨hc.insertLine l, fun rest => ?_⟩
    have hstmt : stmt (vtxEdgeBlock E n) c (' ' :: (printLine l ++ ';' :: rest)) =
        stmt (edgeBlock E n) c (' ' :: (printLine l ++ ';' :: rest)) := by
      rw [stmt, stmt, andThen, andThen, vtxEdgeBlock, orElse_none (vtx_printLine hi c _)]
    have hreads := line_reads (E := E) l hi n hn c hc rest
    rw [← hstmt] at hreads
    exact hreads

theorem length_text_le {i : Item} {items : List Item} (h : i ∈ items) :
    i.text.length ≤ (itemsText Item.text items).length := by
  induction items with
  | nil => exact absurd h not_mem_nil
  | cons j items ih =>
    have htext := itemsText_cons Item.text j items []
    rw [append_nil] at htext
    rw [htext]
    simp only [length_cons, length_append]
    rcases mem_cons.mp h with rfl | h
    · omega
    · have := ih h
      omega

theorem vtxEdgeBlock_close (n : Nat) (c : Construct) (rest : Text) :
    vtxEdgeBlock E n c (' ' :: '}' :: rest) = (c, none) := by
  have hskip : skip (' ' :: '}' :: rest) = '}' :: rest := by
    rw [skip_blank, skip_solid (by decide)]
  have hvtx : vtx E c (' ' :: '}' :: rest) = (c, none) := by
    rw [vtx, vtxid_ne hskip (by decide)]
  rw [vtxEdgeBlock, orElse_none hvtx, edgeBlock_close]

theorem skip_print : skip (print lat) = "lattice".toList ++ ' ' :: (printProperties lat.props ++ ' ' :: '{' ::
    (itemsText Item.text lat.items ++ ' ' :: '}' :: [' '])) := by
  rw [print_eq]
  exact skip_solid (by decide) _

theorem length_items_le : (itemsText Item.text lat.items).length ≤ (print lat).length := by
  rw [print_eq]
  simp only [length_append, length_cons]
  omega

end

section Lattice

variable {lat : LatticeAst} (hwf : lat.WellFormed)
include hwf

theorem items_read (hn : (itemsText Item.text lat.items).length ≤ n) :
    ∀ i ∈ lat.items, ∀ c : Construct, c.Valid →
      (Item.insert c i).Valid ∧ Reads (vtxEdgeBlock E n) i.text i.Clean c (Item.insert c i) := by
  intro i hi c hc
  have hitem : i.WellFormed := lat.forall_items.mpr ⟨hwf.2.1, hwf.2.2.2⟩ i hi
  exact item_reads hitem ((length_text_le hi).trans hn) hc

theorem items_ne_nil : lat.items ≠ [] := by
  intro h
  rw [LatticeAst.items, append_eq_nil_iff, map_eq_nil_iff, map_eq_nil_iff] at h
  exact hwf.2.2.1 h.2

theorem getlattice_of_clean (hclean : lat.Clean) : getlattice E (print lat) = some lat := by
  have hbody := body_print (items_read (E := E) hwf (length_items_le lat))
    (fun c => andThen_none (vtxEdgeBlock_close _ c [' '])) (items_ne_nil hwf) (lat.forall_items.mpr hclean.2)
    (c := Construct.empty.properties lat.props) trivial
  have hlat : LatticeText.lat E (print lat).length Construct.empty (print lat) =
      (lat.items.foldl Item.insert (Construct.empty.properties lat.props), some [' ']) := by
    rw [LatticeText.lat, andThen_some (opening_print hwf.1 hclean.1 Construct.empty (skip_print lat)), hbody]
  rw [getlattice, hlat]
  simp only [foldl_items]

theorem getlattice_of_not_clean (hclean : ¬ lat.Clean) : getlattice E (print lat) = none := by
  have hlat : (LatticeText.lat E (print lat).length Construct.empty (print lat)).2 = none := by
    rw [LatticeText.lat]
    by_cases hprops : ∀ p ∈ lat.props, CleanText p.value
    · rw [andThen_some (opening_print hwf.1 hprops Construct.empty (skip_print lat))]
      apply body_stuck (items_read (E := E) hwf (length_items_le lat)) chP_close_item
      · exact fun hitems => hclean ⟨hprops, lat.forall_items.mp hitems⟩
      · trivial
    · rw [andThen_none (opening_stuck hwf.1 hprops Construct.empty (skip_print lat))]
  unfold getlattice
  split
  · rename_i heq
    rw [heq] at hlat
    exact absurd hlat (by simp)
  · rfl

end Lattice

/-- **A lattice is read back from its text** exactly if no label and no property value in it has byte 7 or byte 11.
The printer writes these as `\a` and `\v`, as its own `unescape_c` would read them, but the grammar's
escapes are those of `c_escape_ch_p`, and nothing is read then. -/
theorem getlattice_print (E : CEscape) (lat : LatticeAst) (hwf : lat.WellFormed) :
    getlattice E (print lat) = some lat ↔ lat.Clean := by
  constructor
  · intro h
    by_contra hclean
    rw [getlattice_of_not_clean hwf hclean] at h
    exact absurd h (by simp)
  · exact getlattice_of_clean hwf

/-- Properties with a quote and a line break, a vertex, and a block in a block. -/
theorem getlattice_print_nested :
    getlattice cEscapeChP (print ⟨[⟨['k'], ['"', '\n']⟩], [⟨3, ['v', ' '], []⟩],
      [.edge (0, 1) ['\\', 'n'] [⟨['k', '-'], []⟩], .block [⟨['p'], ['q']⟩] [.block [] [.edge (1, 2) [] []]]]⟩) =
      some ⟨[⟨['k'], ['"', '\n']⟩], [⟨3, ['v', ' '], []⟩],
        [.edge (0, 1) ['\\', 'n'] [⟨['k', '-'], []⟩], .block [⟨['p'], ['q']⟩] [.block [] [.edge (1, 2) [] []]]]⟩ :=
  (getlattice_print cEscapeChP _ (by
    refine ⟨?_, ?_, by simp, ?_⟩
    all_goals simp [VertexInfo.WellFormed, Line.WellFormed, KeyValuePair.WellFormed]
    all_goals decide)).mpr (by
    refine ⟨?_, ?_, ?_⟩
    all_goals simp [VertexInfo.Clean, Line.Clean]
    all_goals decide)

/-- An edge whose label is the one byte 7. -/
theorem not_getlattice_print :
    ¬ ∀ lat : LatticeAst, lat.WellFormed → getlattice cEscapeChP (print lat) = some lat := by
  intro h
  have hwf : LatticeAst.WellFormed ⟨[], [], [.edge (0, 1) ['\x07'] []]⟩ := by
    refine ⟨by simp, by simp, by simp, ?_⟩
    simp [Line.WellFormed]
  have hnone : (getlattice cEscapeChP (print ⟨[], [], [.edge (0, 1) ['\x07'] []]⟩)).isSome = false := by
    decide
  rw [h _ hwf] at hnone
  exact absurd hnone (by simp)

end Sbmt.Gusc.LatticeText
