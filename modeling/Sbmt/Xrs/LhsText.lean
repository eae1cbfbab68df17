import Sbmt.Xrs.RuleText
/-!
# The left-hand side of a rule, read twice (`xrsparse/xrsparse/xrs_grammar_.hpp:526-572`)

What the reader of a left-hand side has matched is a `Tree`, and its actions are those of the tree, one after another
(`effectRoot`).  The printer's text of the tree is matched again, with the same actions (`lhsRoot_sound`): where a
first child's label begins with a quote mark, the reader took it for a label because no quote mark follows in
the whole line, and then none follows in the printed one either.
-/

namespace Sbmt.Xrs

open Sbmt.Lib.Phrase List

/-! ## Tokens -/

/-- What follows does not make a token longer. -/
def Stops (p : Char → Bool) (t : Text) : Prop := ∀ c ∈ t.head?, p c = false

variable {c : Char}

theorem stops_cons {p : Char → Bool} (h : p c = false) (t : Text) : Stops p (c :: t) := by
  intro d hd
  rw [head?_cons, Option.mem_some_iff] at hd
  rw [← hd, h]

theorem isSpace_of_isGraph (h : isGraph c = true) : isSpace c = false := by
  by_contra hspace
  rw [Bool.not_eq_false] at hspace
  simp only [isSpace, Bool.or_eq_true, decide_eq_true_eq] at hspace
  rcases hspace with ((((rfl | rfl) | rfl) | rfl) | rfl) | rfl <;> revert h <;> decide

theorem isGraph_of_isNt (h : isNt c = true) : isGraph c = true := by
  simp only [isNt, Bool.and_eq_true] at h
  exact h.1.1

theorem isNt_of_isDigit (h : c.isDigit = true) : isNt c = true := by
  obtain ⟨hlo, hhi⟩ := Char.isDigit_iff_toNat.mp h
  simp only [isNt, isGraph, Bool.and_eq_true, decide_eq_true_eq]
  have hcodes : '('.toNat = 40 ∧ ')'.toNat = 41 ∧ '0'.toNat = 48 ∧ '9'.toNat = 57 := by decide
  refine ⟨⟨⟨?_, ?_⟩, ?_⟩, ?_⟩
  · omega
  · omega
  · rintro rfl
    omega
  · rintro rfl
    omega

@[simp] theorem skip_blank (t : Text) : skip (' ' :: t) = skip t := by
  simp [skip, isSpace]

theorem skip_solid (h : isSpace c = false) (t : Text) : skip (c :: t) = c :: t := by
  simp [skip, h]

theorem skip_suffix (t : Text) : skip t <:+ t := dropWhile_suffix _

variable {w : Text}

theorem skip_append_of_isGraph (hne : w ≠ []) (hw : ∀ c ∈ w, isGraph c = true) (t : Text) : skip (w ++ t) = w ++ t := by
  cases w with
  | nil => exact absurd rfl hne
  | cons c w => exact skip_solid (isSpace_of_isGraph (hw c mem_cons_self)) _

variable {t r : Text}

theorem chP_eq_some {u : Unit} : chP c t = some (u, r) ↔ skip t = c :: r := by
  constructor
  · intro h
    simp only [chP, Option.map_eq_some_iff] at h
    obtain ⟨r', hlit, hr⟩ := h
    obtain ⟨-, rfl⟩ := Prod.mk.inj hr
    exact lit_eq_some.mp hlit
  · intro h
    rw [chP, h]
    simp [lit]

theorem nt_eq_some (h : nt t = some (w, r)) :
    skip t = w ++ r ∧ w ≠ [] ∧ (∀ c ∈ w, isNt c = true) ∧ Stops isNt r := run_eq_some h

theorem nt_print (hne : w ≠ []) (hw : ∀ c ∈ w, isNt c = true) (ht : Stops isNt t) : nt (w ++ t) = some (w, t) := by
  rw [nt, skip_append_of_isGraph hne fun c hc => isGraph_of_isNt (hw c hc)]
  exact run_of_forall hne hw ht

theorem nt_blank (t : Text) : nt (' ' :: t) = nt t := by
  rw [nt, skip_blank, nt]

theorem indexedNt_blank (t : Text) : indexedNt (' ' :: t) = indexedNt t := by
  rw [indexedNt, skip_blank, indexedNt]

/-- Whether a label begins with an index is a matter of the label alone. -/
theorem indexedNt_append (hne : w ≠ []) (hw : ∀ c ∈ w, isNt c = true) (ht : Stops isNt t) :
    indexedNt (w ++ t) = (indexedNt w).map fun x => (x.1, x.2 ++ t) := by
  have hgraph : ∀ c ∈ w, isGraph c = true := fun c hc => isGraph_of_isNt (hw c hc)
  have hdigit : ∀ c ∈ t.head?, c.isDigit = false := by
    intro c hc
    by_contra h
    rw [Bool.not_eq_false] at h
    have := ht c hc
    rw [isNt_of_isDigit h] at this
    exact absurd this (by simp)
  have hne_of : ∀ d, isNt d = true → ∀ c ∈ t.head?, c ∉ [d] := by
    intro d hd c hc hcd
    rw [mem_singleton] at hcd
    have := ht c hc
    rw [hcd, hd] at this
    exact absurd this (by simp)
  have hskip : skip w = w := by
    have := skip_append_of_isGraph hne hgraph []
    rwa [append_nil] at this
  rw [indexedNt, indexedNt, skip_append_of_isGraph hne hgraph, hskip, xIndex, xIndex,
    lit_append_stop ['x'] w (hne_of 'x' (by decide))]
  cases lit ['x'] w with
  | none => rfl
  | some w1 =>
    simp only [Option.map_some, Option.bind_some]
    rw [readBelow_append w1 hdigit]
    cases readBelow (2 ^ 32) w1 with
    | none => rfl
    | some i =>
      simp only [Option.map_some, Option.bind_some]
      rw [lit_append_stop [':'] i.2 (hne_of ':' (by decide))]
      cases lit [':'] i.2 with
      | none => rfl
      | some w2 =>
        simp only [Option.map_some, Option.bind_some]
        rw [run_append w2 ht]
        cases run isNt w2 <;> rfl

theorem indexedNt_eq_some {i : Nat} {l : Text} (h : indexedNt t = some ((i, l), r)) :
    i < 2 ^ 32 ∧ l ≠ [] ∧ (∀ c ∈ l, isNt c = true) ∧ l ++ r <:+ t := by
  simp only [indexedNt, xIndex, Option.bind_eq_some_iff, Option.map_eq_some_iff] at h
  obtain ⟨⟨i', t1⟩, ⟨t0, hx, hi⟩, t2, hcolon, ⟨l', r'⟩, hl, heq⟩ := h
  obtain ⟨hpair, rfl⟩ := Prod.mk.inj heq
  obtain ⟨rfl, rfl⟩ := Prod.mk.inj hpair
  obtain ⟨hbound, hsuffix⟩ := readBelow_eq_some hi
  obtain ⟨rfl, hne, hall, -⟩ := run_eq_some hl
  refine ⟨hbound, hne, hall, ?_⟩
  have hlabel : l' ++ r' <:+ t1 := ⟨[':'], (lit_eq_some.mp hcolon).symm⟩
  have hindex : t0 <:+ skip t := ⟨['x'], (lit_eq_some.mp hx).symm⟩
  exact ((hlabel.trans hsuffix).trans hindex).trans (skip_suffix t)

theorem indexedNt_print {i : Nat} (hi : i < 2 ^ 32) {l : Text} (hne : l ≠ []) (hl : ∀ c ∈ l, isNt c = true)
    (ht : Stops isNt t) : indexedNt ('x' :: (showNat i ++ ':' :: (l ++ t))) = some ((i, l), t) := by
  have hx : lit ['x'] ('x' :: (showNat i ++ ':' :: (l ++ t))) = some (showNat i ++ ':' :: (l ++ t)) := lit_append ['x'] _
  have hcolon : lit [':'] (':' :: (l ++ t)) = some (l ++ t) := lit_append [':'] _
  have hread : readBelow (2 ^ 32) (showNat i ++ ':' :: (l ++ t)) = some (i, ':' :: (l ++ t)) :=
    readBelow_showNat hi (stops_cons (by decide) _)
  rw [indexedNt, skip_solid (by decide), xIndex, hx]
  simp only [Option.bind_some, hread, hcolon, run_of_forall hne hl ht, Option.map_some]

/-! ## Words -/

/-- A word that a rule can have: a quote mark with or without `@`, or anything without quote marks. -/
def IsWord (w : Text) : Prop := w ∈ [['"'], ['"', '@'], ['@', '"'], ['@', '"', '@']] ∨ '"' ∉ w

theorem plainWord_eq_some (h : plainWord t = some (w, r)) : t = quoted w ++ r ∧ '"' ∉ w := by
  simp only [plainWord, Option.bind_eq_some_iff, Option.map_eq_some_iff] at h
  obtain ⟨t1, hopen, r', hclose, heq⟩ := h
  obtain ⟨rfl, rfl⟩ := Prod.mk.inj heq
  have hopen := lit_eq_some.mp hopen
  have hclose := lit_eq_some.mp hclose
  have hsplit : t1 = t1.takeWhile (· ≠ '"') ++ t1.dropWhile (· ≠ '"') := takeWhile_append_dropWhile.symm
  constructor
  · rw [hopen, quoted]
    conv_lhs => rw [hsplit, hclose]
    simp
  · intro hmem
    have := mem_takeWhile_imp hmem
    simp at this

theorem quotedWord_eq_some (h : quotedWord t = some (w, r)) : t = quoted w ++ r ∧ IsWord w := by
  unfold quotedWord at h
  -- the four marks that are words of their own
  iterate 4
    split at h
    · rename_i t' hlit
      obtain ⟨rfl, rfl⟩ := Prod.mk.inj (Option.some.inj h)
      exact ⟨lit_eq_some.mp hlit, Or.inl (by simp)⟩
  obtain ⟨ht, hw⟩ := plainWord_eq_some h
  exact ⟨ht, Or.inr hw⟩

/-- A word is read back before anything that is not a quote mark or an `@`. -/
theorem quotedWord_print (hw : IsWord w) (ht : ∀ c ∈ t.head?, c ≠ '"' ∧ c ≠ '@') :
    quotedWord (quoted w ++ t) = some (w, t) := by
  rcases hw with hw | hw
  · simp only [mem_cons, not_mem_nil, or_false] at hw
    rcases hw with rfl | rfl | rfl | rfl <;> simp [quotedWord, quoted, lit]
  · have hplain : plainWord (quoted w ++ t) = some (w, t) := by
      have hmem : ∀ c ∈ w, decide (c ≠ '"') = true := by
        rintro c hc
        rw [decide_eq_true_eq]
        rintro rfl
        exact hw hc
      obtain ⟨htake, hdrop⟩ := takeWhile_run (t := '"' :: t) hmem (stops_cons (by decide) t)
      have hopen : lit ['"'] (quoted w ++ t) = some (w ++ '"' :: t) := by simp [quoted, lit]
      have hclose : lit ['"'] ('"' :: t) = some t := lit_append ['"'] t
      simp only [plainWord, hopen, Option.bind_some, htake, hdrop, hclose, Option.map_some]
    have h1 : lit ['"', '"', '"'] (quoted w ++ t) = none := by
      rcases w with _ | ⟨c, w⟩
      · rcases t with _ | ⟨d, t⟩
        · rfl
        · have := (ht d rfl).1
          simp [quoted, lit, Ne.symm this]
      · have : '"' ≠ c := fun h => hw (h ▸ mem_cons_self)
        simp [quoted, lit, this]
    have h2 : lit ['"', '"', '@', '"'] (quoted w ++ t) = none := by
      rcases w with _ | ⟨c, w⟩
      · rcases t with _ | ⟨d, t⟩
        · rfl
        · have := (ht d rfl).2
          simp [quoted, lit, Ne.symm this]
      · have : '"' ≠ c := fun h => hw (h ▸ mem_cons_self)
        simp [quoted, lit, this]
    have h3 : lit ['"', '@', '"', '"'] (quoted w ++ t) = none := by
      rcases w with _ | ⟨c, _ | ⟨d, w⟩⟩
      · simp [quoted, lit]
      · rcases t with _ | ⟨e, t⟩
        · simp [quoted, lit]
        · have := (ht e rfl).1
          simp [quoted, lit, Ne.symm this]
      · have : '"' ≠ d := fun h => hw (h ▸ by simp)
        simp [quoted, lit, this]
    have h4 : lit ['"', '@', '"', '@', '"'] (quoted w ++ t) = none := by
      rcases w with _ | ⟨c, _ | ⟨d, w⟩⟩
      · simp [quoted, lit]
      · rcases t with _ | ⟨e, t⟩
        · simp [quoted, lit]
        · have := (ht e rfl).2
          simp [quoted, lit, Ne.symm this]
      · have : '"' ≠ d := fun h => hw (h ▸ by simp)
        simp [quoted, lit, this]
    simp only [quotedWord, h1, h2, h3, h4, hplain]

/-- A quote mark begins a word if and only if another one follows, however far away. -/
theorem quotedWord_quote (t : Text) : quotedWord ('"' :: t) = none ↔ '"' ∉ t := by
  constructor
  · intro h hmem
    have hplain : (plainWord ('"' :: t)).isSome = true := by
      have hopen : lit ['"'] ('"' :: t) = some t := lit_append ['"'] t
      have hdrop : ∃ r, t.dropWhile (· ≠ '"') = '"' :: r := by
        cases hd : t.dropWhile (· ≠ '"') with
        | nil =>
          have := dropWhile_eq_nil_iff.mp hd '"' hmem
          simp at this
        | cons c r =>
          have hstop := head?_dropWhile_not (fun c => decide (c ≠ '"')) t
          rw [hd] at hstop
          simp only [head?_cons, decide_eq_false_iff_not, not_not] at hstop
          exact ⟨r, by rw [hstop]⟩
      obtain ⟨r, hr⟩ := hdrop
      have hclose : lit ['"'] ('"' :: r) = some r := lit_append ['"'] r
      simp only [plainWord, hopen, Option.bind_some, hr, hclose, Option.map_some, Option.isSome_some]
    unfold quotedWord at h
    split at h
    · exact absurd h (by simp)
    split at h
    · exact absurd h (by simp)
    split at h
    · exact absurd h (by simp)
    split at h
    · exact absurd h (by simp)
    · rw [h] at hplain
      exact absurd hplain (by simp)
  · intro hmem
    cases h : quotedWord ('"' :: t) with
    | none => rfl
    | some r =>
      obtain ⟨ht, -⟩ := quotedWord_eq_some (w := r.1) (r := r.2) h
      have : t = r.1 ++ '"' :: r.2 := by simpa [quoted] using ht
      exact absurd (this ▸ by simp) hmem

theorem quotedWord_ne (h : c ≠ '"') (t : Text) : quotedWord (c :: t) = none := by
  cases hw : quotedWord (c :: t) with
  | none => rfl
  | some r =>
    obtain ⟨ht, -⟩ := quotedWord_eq_some (w := r.1) (r := r.2) hw
    exact absurd (List.cons.inj ht).1 h

/-! ## Trees -/

/-- A left-hand side, or a child in one: a variable, a label over a word, or a label over children. -/
inductive Tree where
  | var (index : Nat) (label : Text)
  | lex (label word : Text)
  | node (label : Text) (first : Tree) (rest : List Tree)

mutual

def printTree : Tree → Text
  | .var i l => 'x' :: (showNat i ++ ':' :: l)
  | .lex l w => l ++ '(' :: (quoted w ++ [')'])
  | .node l k ks => l ++ '(' :: (printTree k ++ (printMore ks ++ [')']))

def printMore : List Tree → Text
  | [] => []
  | k :: ks => ' ' :: (printTree k ++ printMore ks)

end

mutual

/-- The actions of `lhs_seq_item`. -/
def effect : Tree → LhsState → LhsState
  | .var i l, s => s.pushVar (i, l)
  | .lex l w, s => ((s.openRoot l).openSeq.pushWord w).closeRoot.takeRoot
  | .node l k ks, s => (effectMore ks (effect k (s.openRoot l).openSeq).setBack).closeRoot.takeRoot

/-- The actions of the children after the first. -/
def effectMore : List Tree → LhsState → LhsState
  | [], s => s
  | k :: ks, s => effectMore ks (effect k s).link

end

/-- The actions of `lhs_root`. -/
def effectRoot : Tree → LhsState → LhsState
  | .var _ _, s => s
  | .lex l w, s => ((s.openRoot l).openSeq.pushWord w).closeRoot
  | .node l k ks, s => (effectMore ks (effect k (s.openRoot l).openSeq).setBack).closeRoot

namespace Tree

def IsRoot : Tree → Prop
  | .var _ _ => False
  | .lex _ _ => True
  | .node _ _ _ => True

def label : Tree → Text
  | .var _ l => l
  | .lex l _ => l
  | .node l _ _ => l

/-- What is printed behind the label. -/
def body : Tree → Text
  | .var _ _ => []
  | .lex _ w => '(' :: (quoted w ++ [')'])
  | .node _ k ks => '(' :: (printTree k ++ (printMore ks ++ [')']))

theorem IsRoot.print_eq {T : Tree} (h : T.IsRoot) : printTree T = T.label ++ T.body := by
  cases T with
  | var i l => exact absurd h id
  | lex l w => rw [printTree, label, body]
  | node l k ks => rw [printTree, label, body]

theorem IsRoot.effect_eq {T : Tree} (h : T.IsRoot) (s : LhsState) : effect T s = (effectRoot T s).takeRoot := by
  cases T with
  | var i l => exact absurd h id
  | lex l w => rfl
  | node l k ks => rw [effect, effectRoot]

end Tree

/-- What `lhs_root` has read: the tree, which it reads again from the printer's text. -/
structure RootRead (s : LhsState) (t : Text) (s' : LhsState) (t' : Text) (T : Tree) (u : Text) : Prop where
  isRoot : T.IsRoot
  effect : s' = effectRoot T s
  label : skip t = T.label ++ u
  label_ne : T.label ≠ []
  label_nt : ∀ c ∈ T.label, isNt c = true
  stops : Stops isNt u
  suffix : t' <:+ u
  quote : '"' ∈ T.body → '"' ∈ u
  reread : ∀ m s₀ after, (printTree T).length ≤ m → ('"' ∈ after → '"' ∈ t') →
    lhsRoot m s₀ (printTree T ++ after) = (effectRoot T s₀, some after)

/-- The same of `lhs_seq_item`. -/
structure ItemRead (s : LhsState) (t : Text) (s' : LhsState) (t' : Text) (T : Tree) : Prop where
  effect : s' = effect T s
  suffix : t' <:+ t
  quote : '"' ∈ printTree T → '"' ∈ t
  noWord : word t = none → ∀ after, ('"' ∈ after → '"' ∈ t') → word (printTree T ++ after) = none
  reread : ∀ m s₀ after, (printTree T).length ≤ m → ('"' ∈ after → '"' ∈ t') → Stops isNt after →
    lhsSeqItem (lhsRoot m) s₀ (printTree T ++ after) = (Xrs.effect T s₀, some after)

/-- The same of the children after the first, up to the closing parenthesis. -/
structure MoreRead (s : LhsState) (t : Text) (s' : LhsState) (t' : Text) (ks : List Tree) : Prop where
  effect : s' = effectMore ks s
  suffix : t' <:+ t
  quote : '"' ∈ printMore ks → '"' ∈ t
  reread : ∀ m j s₀ after, (printMore ks).length ≤ m → ks.length ≤ j → ('"' ∈ after → '"' ∈ t') →
    star (andThen (lhsSeqItem (lhsRoot m)) (perform LhsState.link)) j s₀ (printMore ks ++ ')' :: after) =
      (effectMore ks s₀, ')' :: after)

section Reading

variable {n : Nat} {s s' : LhsState} {t t' : Text}

theorem not_quote_showNat {i : Nat} : '"' ∉ showNat i := by
  intro h
  have := isDigit_of_mem_showNat h
  revert this
  decide

theorem word_blank (t : Text) : word (' ' :: t) = word t := by
  rw [word, skip_blank, word]

variable (n s t) in
theorem lhsRoot_blank : lhsRoot n s (' ' :: t) = lhsRoot n s t := by
  cases n with
  | zero => rfl
  | succ n => simp only [lhsRoot, andThen, token, nt_blank]

variable (n s t) in
theorem lhsSeqItem_blank :
    lhsSeqItem (lhsRoot n) s (' ' :: t) = lhsSeqItem (lhsRoot n) s t := by
  simp only [lhsSeqItem, orElse, token, indexedNt_blank, andThen, lhsRoot_blank]

/-- At the closing parenthesis no child begins, and nothing happens. -/
theorem lhsSeqItem_close {r : Text} (ht : skip t = ')' :: r) :
    lhsSeqItem (lhsRoot n) s t = (s, none) := by
  have hnt : nt t = none := by
    rw [nt, ht, run]
    simp [isNt]
  have hindexed : indexedNt t = none := by
    rw [indexedNt, ht]
    rfl
  have hroot : lhsRoot n s t = (s, none) := by
    cases n with
    | zero => rfl
    | succ n => exact andThen_none (token_none hnt)
  rw [lhsSeqItem, orElse_none (token_none hindexed), andThen_none hroot]

theorem item_read (hroot : ∀ {s t s' t'}, lhsRoot n s t = (s', some t') → ∃ T u, RootRead s t s' t' T u)
    (h : lhsSeqItem (lhsRoot n) s t = (s', some t')) : ∃ T, ItemRead s t s' t' T := by
  rcases orElse_inv h with ⟨t1, ht1, hvar⟩ | ⟨s1, hnot, hroot'⟩
  · -- a variable
    obtain rfl := Option.some.inj ht1
    obtain ⟨⟨i, l⟩, hindexed, rfl⟩ := token_inv_some hvar
    obtain ⟨hi, hne, hl, hsuffix⟩ := indexedNt_eq_some hindexed
    refine ⟨.var i l, rfl, (suffix_append l t').trans hsuffix, ?_, ?_, ?_⟩
    · intro hq
      rw [printTree] at hq
      have hql : '"' ∈ l := by
        simpa [not_quote_showNat] using hq
      exact hsuffix.mem (mem_append_left _ hql)
    · intro _ after _
      exact quotedWord_ne (by decide) _
    · intro m s0 after _ _ hafter
      apply orElse_some
      rw [printTree, cons_append, append_assoc]
      exact token_some (indexedNt_print hi hne hl hafter)
  · -- a root, whose label does not begin with an index
    obtain ⟨hnone, rfl⟩ : indexedNt t = none ∧ s1 = s := by
      rcases token_inv hnot with ⟨_, _, _, hsome, _⟩ | ⟨hnone, -, hs⟩
      · exact absurd hsome (by simp)
      · exact ⟨hnone, hs⟩
    obtain ⟨s2, t2, hread, htake⟩ := andThen_inv hroot'
    obtain ⟨rfl, ht2⟩ := Prod.mk.inj htake
    obtain rfl := Option.some.inj ht2
    obtain ⟨T, u, hT⟩ := hroot hread
    have hu : u <:+ t := ((suffix_append T.label u).trans (hT.label ▸ suffix_refl _)).trans (skip_suffix t)
    have hlabel : indexedNt T.label = none := by
      have hskip : indexedNt t = indexedNt (skip t) := by
        rw [indexedNt, indexedNt, skip, skip, dropWhile_idempotent]
      rw [hskip, hT.label, indexedNt_append hT.label_ne hT.label_nt hT.stops, Option.map_eq_none_iff] at hnone
      exact hnone
    refine ⟨T, ?_, hT.suffix.trans hu, ?_, ?_, ?_⟩
    · rw [hT.isRoot.effect_eq, hT.effect]
    · intro hq
      rw [hT.isRoot.print_eq, mem_append] at hq
      rcases hq with hq | hq
      · apply (skip_suffix t).mem
        rw [hT.label]
        exact mem_append_left _ hq
      · exact hu.mem (hT.quote hq)
    · intro hword after hafter
      obtain ⟨c, w, hcw⟩ := exists_cons_of_ne_nil hT.label_ne
      have hc : isSpace c = false := isSpace_of_isGraph (isGraph_of_isNt (hT.label_nt c (hcw ▸ mem_cons_self)))
      rw [word, hT.isRoot.print_eq, hcw, cons_append, cons_append, skip_solid hc]
      by_cases hquote : c = '"'
      · -- no quote mark follows where the label was read, so none follows where it is printed
        subst hquote
        rw [word, hT.label, hcw, cons_append, quotedWord_quote] at hword
        rw [quotedWord_quote]
        intro hmem
        apply hword
        rw [append_assoc, mem_append, mem_append] at hmem
        rw [mem_append]
        rcases hmem with hmem | hmem | hmem
        · exact Or.inl hmem
        · exact Or.inr (hT.quote hmem)
        · exact Or.inr (hT.suffix.mem (hafter hmem))
      · exact quotedWord_ne hquote _
    · intro m s0 after hm hafter _
      have hnone : indexedNt (printTree T ++ after) = none := by
        have hbody : Stops isNt (T.body ++ after) := by
          cases T with
          | var i l => exact absurd hT.isRoot id
          | lex l w => exact stops_cons (by decide) _
          | node l k ks => exact stops_cons (by decide) _
        rw [hT.isRoot.print_eq, append_assoc, indexedNt_append hT.label_ne hT.label_nt hbody, hlabel]
        rfl
      rw [lhsSeqItem, orElse_none (token_none hnone), andThen_some (hT.reread m s0 after hm hafter), perform,
        hT.isRoot.effect_eq]

theorem stops_printMore (ks : List Tree) (after : Text) : Stops isNt (printMore ks ++ ')' :: after) := by
  cases ks with
  | nil => exact stops_cons (by decide) _
  | cons k ks =>
    exact stops_cons (by decide) _

theorem more_read (hroot : ∀ {s t s' t'}, lhsRoot n s t = (s', some t') → ∃ T u, RootRead s t s' t' T u) :
    ∀ {j : Nat} {s : LhsState} {t : Text} {s' : LhsState} {t' r : Text},
      star (andThen (lhsSeqItem (lhsRoot n)) (perform LhsState.link)) j s t = (s', t') → skip t' = ')' :: r →
        ∃ ks, MoreRead s t s' t' ks
  | 0, s, t, s', t', r, h, _ => by
    obtain ⟨rfl, rfl⟩ := Prod.mk.inj h
    refine ⟨[], rfl, suffix_refl _, fun hq => absurd hq not_mem_nil, ?_⟩
    intro m j s0 after _ _ _
    exact star_stop (andThen_none (lhsSeqItem_close (skip_solid (by decide) after)))
  | j + 1, s, t, s', t', r, h, hclose => by
    rcases hitem : andThen (lhsSeqItem (lhsRoot n)) (perform LhsState.link) s t with ⟨s1, _ | t1⟩
    · -- the repetition ends here, at the parenthesis
      rw [star_none hitem] at h
      obtain ⟨rfl, rfl⟩ := Prod.mk.inj h
      rw [andThen_none (lhsSeqItem_close hclose)] at hitem
      obtain ⟨rfl, -⟩ := Prod.mk.inj hitem
      refine ⟨[], rfl, suffix_refl _, fun hq => absurd hq not_mem_nil, ?_⟩
      intro m j s0 after _ _ _
      exact star_stop (andThen_none (lhsSeqItem_close (skip_solid (by decide) after)))
    · rw [star_some hitem] at h
      obtain ⟨s2, t2, hread, hlink⟩ := andThen_inv hitem
      obtain ⟨rfl, ht2⟩ := Prod.mk.inj hlink
      rw [ht2] at hread
      obtain ⟨k, hk⟩ := item_read hroot hread
      obtain ⟨ks, hks⟩ := more_read hroot h hclose
      refine ⟨k :: ks, ?_, hks.suffix.trans hk.suffix, ?_, ?_⟩
      · rw [effectMore, hks.effect, hk.effect]
      · intro hq
        rw [printMore, mem_cons, mem_append] at hq
        rcases hq with hq | hq | hq
        · exact absurd hq (by decide)
        · exact hk.quote hq
        · exact hk.suffix.mem (hks.quote hq)
      · intro m j s0 after hm hj hafter
        obtain ⟨j, rfl⟩ := Nat.exists_eq_succ_of_ne_zero (Nat.ne_zero_of_lt hj)
        rw [printMore, length_cons, length_append] at hm
        rw [length_cons] at hj
        have hafter' : '"' ∈ printMore ks ++ ')' :: after → '"' ∈ t1 := by
          intro hq
          rw [mem_append, mem_cons] at hq
          rcases hq with hq | hq | hq
          · exact hks.quote hq
          · exact absurd hq (by decide)
          · exact hks.suffix.mem (hafter hq)
        have hstep : andThen (lhsSeqItem (lhsRoot m)) (perform LhsState.link) s0
            (' ' :: (printTree k ++ (printMore ks ++ ')' :: after))) =
              ((effect k s0).link, some (printMore ks ++ ')' :: after)) := by
          have hitem' := hk.reread m s0 (printMore ks ++ ')' :: after) (by omega) hafter' (stops_printMore ks after)
          rw [← lhsSeqItem_blank] at hitem'
          rw [andThen_some hitem']
          rfl
        rw [printMore, cons_append, append_assoc, star_some hstep]
        exact hks.reread m j _ after (by omega) (by omega) hafter

theorem length_le_printMore (ks : List Tree) : ks.length ≤ (printMore ks).length := by
  induction ks with
  | nil => simp
  | cons k ks ih =>
    rw [printMore, length_cons, length_cons, length_append]
    omega

/-- **What a left-hand side was read as is what its printed text is read as**, if that is followed by a quote mark only
where the original was. -/
theorem lhsRoot_read : ∀ {n : Nat} {s : LhsState} {t : Text} {s' : LhsState} {t' : Text},
    lhsRoot n s t = (s', some t') → ∃ T u, RootRead s t s' t' T u
  | 0, s, t, s', t', h => by
    exact absurd (Prod.mk.inj h).2 (by simp)
  | n + 1, s, t, s', t', h => by
    obtain ⟨s1, t1, hnt, h⟩ := andThen_inv h
    obtain ⟨l, hl, rfl⟩ := token_inv_some hnt
    obtain ⟨s2, t2, hparen, h⟩ := andThen_inv h
    obtain ⟨_, hopen', rfl⟩ := token_inv_some hparen
    obtain ⟨s3, t3, hseq, h⟩ := andThen_inv h
    obtain ⟨_, hclose', rfl⟩ := token_inv_some h
    obtain ⟨hlabel, hne, hlnt, hstops⟩ := nt_eq_some hl
    have hopen := chP_eq_some.mp hopen'
    have hclose := chP_eq_some.mp hclose'
    have ht2 : t2 <:+ t1 := (suffix_cons '(' t2).trans (hopen ▸ skip_suffix t1)
    have ht' : t' <:+ t3 := (suffix_cons ')' t').trans (hclose ▸ skip_suffix t3)
    -- the label and the opening parenthesis, read again
    have hhead : ∀ (rest : Rule LhsState) s0 after,
        andThen (token nt LhsState.openRoot) (andThen (token (chP '(') fun _ => LhsState.openSeq) rest) s0
          (l ++ '(' :: after) = rest (s0.openRoot l).openSeq after := by
      intro rest s0 after
      rw [andThen_some (token_some (nt_print hne hlnt (stops_cons (by decide) after))),
        andThen_some (token_some (a := ()) (chP_eq_some.mpr (skip_solid (by decide) after)))]
    have hend : ∀ s0 after, token (chP ')') (fun _ => LhsState.closeRoot) s0 (')' :: after) =
        (s0.closeRoot, some after) := by
      intro s0 after
      have hparen : chP ')' (')' :: after) = some ((), after) := chP_eq_some.mpr (skip_solid (by decide) after)
      simp only [token, hparen]
    rcases orElse_inv hseq with ⟨t4, ht4, hword⟩ | ⟨s4, hnoword, hitems⟩
    · -- over a word
      obtain rfl := Option.some.inj ht4
      obtain ⟨w, hw, rfl⟩ := token_inv_some hword
      obtain ⟨htext, hIsWord⟩ := quotedWord_eq_some hw
      have ht3 : t3 <:+ t2 := (suffix_append (quoted w) t3).trans (htext ▸ skip_suffix t2)
      refine ⟨.lex l w, t1, trivial, rfl, hlabel, hne, hlnt, hstops, (ht'.trans ht3).trans ht2, ?_, ?_⟩
      · intro _
        apply ht2.mem
        apply (skip_suffix t2).mem
        rw [htext]
        exact mem_cons_self
      · intro m s0 after hm _
        rw [printTree, length_append, length_cons] at hm
        obtain ⟨m, rfl⟩ := Nat.exists_eq_succ_of_ne_zero (by omega : m ≠ 0)
        have hreread : word (quoted w ++ ')' :: after) = some (w, ')' :: after) := by
          apply quotedWord_print hIsWord
          intro c hc
          rw [head?_cons, Option.mem_some_iff] at hc
          subst hc
          decide
        have htext' : printTree (.lex l w) ++ after = l ++ '(' :: (quoted w ++ ')' :: after) := by
          simp [printTree]
        have hseq' : lhsSeq (lhsSeqItem (lhsRoot m)) (s0.openRoot l).openSeq (quoted w ++ ')' :: after) =
            ((s0.openRoot l).openSeq.pushWord w, some (')' :: after)) := orElse_some (token_some hreread)
        rw [htext', lhsRoot, hhead, andThen_some hseq']
        rfl
    · -- over children
      obtain ⟨hnone, rfl⟩ : word t2 = none ∧ s4 = (s.openRoot l).openSeq := by
        rcases token_inv hnoword with ⟨_, _, _, hsome, _⟩ | ⟨hnone, -, hs⟩
        · exact absurd hsome (by simp)
        · exact ⟨hnone, hs⟩
      obtain ⟨s5, t5, hfirst, hmany⟩ := andThen_inv hitems
      obtain ⟨s6, t6, hitem, hset⟩ := andThen_inv hfirst
      obtain ⟨rfl, ht6⟩ := Prod.mk.inj hset
      rw [ht6] at hitem
      obtain ⟨hs3, ht3⟩ := Prod.mk.inj hmany
      have ht3 := Option.some.inj ht3
      obtain ⟨k, hk⟩ := item_read lhsRoot_read hitem
      obtain ⟨ks, hks⟩ := more_read lhsRoot_read (Prod.ext hs3 ht3) hclose
      refine ⟨.node l k ks, t1, trivial, ?_, hlabel, hne, hlnt, hstops,
        ((ht'.trans hks.suffix).trans hk.suffix).trans ht2, ?_, ?_⟩
      · rw [effectRoot, hks.effect, hk.effect]
      · intro hq
        apply ht2.mem
        rw [Tree.body, mem_cons, mem_append, mem_append] at hq
        rcases hq with hq | hq | hq | hq
        · exact absurd hq (by decide)
        · exact hk.quote hq
        · exact hk.suffix.mem (hks.quote hq)
        · exact absurd hq (by decide)
      · intro m s0 after hm hafter
        rw [printTree, length_append, length_cons, length_append, length_append] at hm
        obtain ⟨m, rfl⟩ := Nat.exists_eq_succ_of_ne_zero (by omega : m ≠ 0)
        have hlen := length_le_printMore ks
        have hafter3 : '"' ∈ after → '"' ∈ t3 := fun hq => ht'.mem (hafter hq)
        have hafter5 : '"' ∈ printMore ks ++ ')' :: after → '"' ∈ t5 := by
          intro hq
          rw [mem_append, mem_cons] at hq
          rcases hq with hq | hq | hq
          · exact hks.quote hq
          · exact absurd hq (by decide)
          · exact hks.suffix.mem (hafter3 hq)
        have htext' : printTree (.node l k ks) ++ after =
            l ++ '(' :: (printTree k ++ (printMore ks ++ ')' :: after)) := by
          simp [printTree]
        have hitem' := hk.reread m (s0.openRoot l).openSeq (printMore ks ++ ')' :: after) (by omega) hafter5
          (stops_printMore ks after)
        have hfirst' : andThen (lhsSeqItem (lhsRoot m)) (perform LhsState.setBack) (s0.openRoot l).openSeq
            (printTree k ++ (printMore ks ++ ')' :: after)) =
              ((effect k (s0.openRoot l).openSeq).setBack, some (printMore ks ++ ')' :: after)) := by
          rw [andThen_some hitem']
          rfl
        have hstar := hks.reread m (printMore ks ++ ')' :: after).length
          (effect k (s0.openRoot l).openSeq).setBack after (by omega)
          (by rw [length_append]; omega) hafter3
        have hmany' : many (andThen (lhsSeqItem (lhsRoot m)) (perform LhsState.link))
            (effect k (s0.openRoot l).openSeq).setBack (printMore ks ++ ')' :: after) =
              (effectMore ks (effect k (s0.openRoot l).openSeq).setBack, some (')' :: after)) := by
          rw [many, hstar]
        have hseq' : lhsSeq (lhsSeqItem (lhsRoot m)) (s0.openRoot l).openSeq
            (printTree k ++ (printMore ks ++ ')' :: after)) =
              (effectMore ks (effect k (s0.openRoot l).openSeq).setBack, some (')' :: after)) := by
          rw [lhsSeq, orElse_none (token_none (hk.noWord hnone _ hafter5)), andThen_some hfirst', hmany']
        rw [htext', lhsRoot, hhead, andThen_some hseq', hend, effectRoot]

end Reading

end Sbmt.Xrs
