import Sbmt.Xrs.LhsLinks
/-!
# A rule read, printed and read again (`xrsparse/src/xrs.cpp`, `xrsparse/xrsparse/xrs_grammar_.hpp`)

Words, indices, and features without floating point numbers are printed as the text they were read from.  A feature
value that begins with three braces was taken for a plain string because none close them in the whole line, and
none do in the printed one.  What does not come back is an id of 0 (`parseXrs_print`): it is not printed, and a
line without an id leaves the field of the new rule as it was.
-/

namespace Sbmt.Xrs

open Sbmt.Lib.Phrase List

variable {D : Type} {R : Reals D}

/-! ## The right-hand side -/

/-- A word or index that can have been read. -/
def RhsNode.Read : RhsNode → Prop
  | .index i => i < 2 ^ 32
  | .word w => IsWord w

/-- Nodes, a blank before each. -/
def blankNodes (nds : List RhsNode) : Text := nds.flatMap fun nd => ' ' :: printRhsNode nd

theorem blankNodes_cons (nd : RhsNode) (nds : List RhsNode) (t : Text) :
    blankNodes (nd :: nds) ++ t = ' ' :: (printRhsNode nd ++ (blankNodes nds ++ t)) := by
  simp [blankNodes]

theorem length_le_blankNodes (nds : List RhsNode) : nds.length ≤ (blankNodes nds).length := by
  induction nds with
  | nil => simp
  | cons nd nds ih =>
    have := blankNodes_cons nd nds []
    rw [append_nil, append_nil] at this
    rw [this, length_cons, length_cons, length_append]
    omega

variable {t t' : Text}

theorem rhsItem_read {nd : RhsNode} (h : rhsItem t = some (nd, t')) :
    nd.Read ∧ t' <:+ t ∧ ('"' ∈ printRhsNode nd → '"' ∈ t) := by
  unfold rhsItem at h
  split at h
  · rename_i w t1 hword
    obtain ⟨rfl, rfl⟩ := Prod.mk.inj (Option.some.inj h)
    obtain ⟨htext, hw⟩ := quotedWord_eq_some hword
    refine ⟨hw, ?_, fun _ => ?_⟩
    · exact (suffix_append (quoted w) t1).trans (htext ▸ skip_suffix t)
    · apply (skip_suffix t).mem
      rw [htext]
      exact mem_cons_self
  · simp only [xIndex, Option.map_eq_some_iff, Option.bind_eq_some_iff] at h
    obtain ⟨⟨i, t1⟩, ⟨t0, hx, hi⟩, heq⟩ := h
    obtain ⟨rfl, rfl⟩ := Prod.mk.inj heq
    obtain ⟨hbound, hsuffix⟩ := readBelow_eq_some hi
    refine ⟨hbound, ?_, fun hq => ?_⟩
    · have hindex : t0 <:+ skip t := ⟨['x'], (lit_eq_some.mp hx).symm⟩
      exact (hsuffix.trans hindex).trans (skip_suffix t)
    · rw [printRhsNode, mem_cons] at hq
      rcases hq with hq | hq
      · exact absurd hq (by decide)
      · exact absurd hq not_quote_showNat

theorem rhsItem_blank (t : Text) : rhsItem (' ' :: t) = rhsItem t := by
  rw [rhsItem, word_blank, skip_blank, rhsItem]

theorem rhsItem_print {nd : RhsNode} (h : nd.Read) (t : Text) :
    rhsItem (printRhsNode nd ++ ' ' :: t) = some (nd, ' ' :: t) := by
  cases nd with
  | word w =>
    have hword : word (quoted w ++ ' ' :: t) = some (w, ' ' :: t) := by
      apply quotedWord_print h
      intro c hc
      rw [head?_cons, Option.mem_some_iff] at hc
      subst hc
      decide
    simp only [rhsItem, printRhsNode, hword]
  | index i =>
    have hskip : skip ('x' :: (showNat i ++ ' ' :: t)) = 'x' :: (showNat i ++ ' ' :: t) := skip_solid (by decide) _
    have hword : word ('x' :: (showNat i ++ ' ' :: t)) = none := by
      exact quotedWord_ne (by decide) _
    have hx : lit ['x'] ('x' :: (showNat i ++ ' ' :: t)) = some (showNat i ++ ' ' :: t) := lit_append ['x'] _
    have hread : readBelow (2 ^ 32) (showNat i ++ ' ' :: t) = some (i, ' ' :: t) :=
      readBelow_showNat h (stops_cons (by decide) t)
    simp only [rhsItem, printRhsNode, cons_append, hword, hskip, xIndex, hx, Option.bind_some, hread, Option.map_some]

/-- What the repetition has read: nodes that can be read again. -/
theorem rhsItems_read : ∀ {j : Nat} {l l' : List RhsNode} {t t' : Text},
    star (token rhsItem fun nd rhs => rhs ++ [nd]) j l t = (l', t') →
      ∃ nds, l' = l ++ nds ∧ (∀ nd ∈ nds, nd.Read) ∧ t' <:+ t ∧ ('"' ∈ blankNodes nds → '"' ∈ t)
  | 0, l, l', t, t', h => by
    obtain ⟨rfl, rfl⟩ := Prod.mk.inj h
    exact ⟨[], by simp, by simp, suffix_refl _, fun hq => absurd hq not_mem_nil⟩
  | j + 1, l, l', t, t', h => by
    cases hitem : rhsItem t with
    | none =>
      rw [star_none (token_none hitem)] at h
      obtain ⟨rfl, rfl⟩ := Prod.mk.inj h
      exact ⟨[], by simp, by simp, suffix_refl _, fun hq => absurd hq not_mem_nil⟩
    | some r =>
      obtain ⟨nd, t1⟩ := r
      rw [star_some (token_some hitem)] at h
      obtain ⟨hread, hsuffix, hquote⟩ := rhsItem_read hitem
      obtain ⟨nds, rfl, hreads, hsuffix', hquote'⟩ := rhsItems_read h
      refine ⟨nd :: nds, by simp, ?_, hsuffix'.trans hsuffix, fun hq => ?_⟩
      · intro x hx
        rcases mem_cons.mp hx with rfl | hx
        · exact hread
        · exact hreads x hx
      · have hcons := blankNodes_cons nd nds []
        rw [append_nil, append_nil] at hcons
        rw [hcons, mem_cons, mem_append] at hq
        rcases hq with hq | hq | hq
        · exact absurd hq (by decide)
        · exact hquote hq
        · exact hsuffix.mem (hquote' hq)

theorem rhsItems_print {nds : List RhsNode} (h : ∀ nd ∈ nds, nd.Read) (ht : rhsItem (' ' :: t) = none) :
    ∀ (j : Nat) (l : List RhsNode), nds.length ≤ j →
      star (token rhsItem fun nd rhs => rhs ++ [nd]) j l (blankNodes nds ++ ' ' :: t) = (l ++ nds, ' ' :: t) := by
  induction nds with
  | nil =>
    intro j l _
    rw [append_nil]
    exact star_stop (token_none ht)
  | cons nd nds ih =>
    intro j l hj
    obtain ⟨j, rfl⟩ := Nat.exists_eq_succ_of_ne_zero (Nat.ne_zero_of_lt hj)
    have hmore : ∃ u, blankNodes nds ++ ' ' :: t = ' ' :: u := by
      cases nds with
      | nil => exact ⟨t, rfl⟩
      | cons nd' nds => exact ⟨_, blankNodes_cons nd' nds _⟩
    obtain ⟨u, hu⟩ := hmore
    have hitem : rhsItem (' ' :: (printRhsNode nd ++ (blankNodes nds ++ ' ' :: t))) =
        some (nd, blankNodes nds ++ ' ' :: t) := by
      rw [hu]
      exact rhsItem_print (h nd mem_cons_self) u
    rw [blankNodes_cons, star_some (token_some hitem),
      ih (fun x hx => h x (mem_cons_of_mem nd hx)) j _ (by rw [length_cons] at hj; omega)]
    simp

/-! ## Values -/

/-- At the end, or before a blank. -/
def BlankOrEnd (t : Text) : Prop := ∀ c ∈ t.head?, c = ' '

theorem untilClose_cons (c : Char) (t : Text) : untilClose (c :: t) =
    match lit closes (c :: t) with
    | some r => some ([], r)
    | none => (untilClose t).map fun r => (c :: r.1, r.2) := rfl

variable {s : Text}

theorem untilClose_eq_some {r : Text} (h : untilClose t = some (s, r)) :
    t = s ++ (closes ++ r) ∧ ∀ t', untilClose (s ++ (closes ++ t')) = some (s, t') := by
  induction t generalizing s with
  | nil => exact absurd h (by simp [untilClose])
  | cons c t ih =>
    unfold untilClose at h
    split at h
    · rename_i r' hlit
      obtain ⟨rfl, rfl⟩ := Prod.mk.inj (Option.some.inj h)
      refine ⟨by rw [nil_append]; exact lit_eq_some.mp hlit, fun t' => ?_⟩
      simp [untilClose, closes, lit]
    · rename_i hlit
      rw [Option.map_eq_some_iff] at h
      obtain ⟨⟨s', r'⟩, htail, heq⟩ := h
      obtain ⟨rfl, rfl⟩ := Prod.mk.inj heq
      obtain ⟨rfl, hagain⟩ := ih htail
      refine ⟨rfl, fun t' => ?_⟩
      -- the first three characters are the same as before
      have hlen : closes.length ≤ (c :: (s' ++ closes)).length := by
        rw [length_cons, length_append]
        omega
      have hassoc : ∀ u, c :: (s' ++ (closes ++ u)) = (c :: (s' ++ closes)) ++ u := by simp
      have hnone : lit closes (c :: (s' ++ (closes ++ t'))) = none := by
        rw [hassoc, lit_append_of_length_le hlen] at hlit ⊢
        rw [Option.map_eq_none_iff] at hlit ⊢
        exact hlit
      rw [cons_append, untilClose_cons, hnone]
      simp only [hagain, Option.map_some]

theorem untilClose_eq_none : untilClose t = none ↔ ¬ closes <:+: t := by
  induction t with
  | nil =>
    simp [untilClose, closes]
  | cons c t ih =>
    rw [infix_cons_iff, not_or, ← ih, untilClose_cons]
    cases hlit : lit closes (c :: t) with
    | some r =>
      have hfront : closes <+: c :: t := ⟨r, (lit_eq_some.mp hlit).symm⟩
      simp [hfront]
    | none =>
      have hfront : ¬ closes <+: c :: t := by
        rintro ⟨r, hr⟩
        rw [lit_eq_some.mpr hr.symm] at hlit
        exact absurd hlit (by simp)
      simp [hfront]

/-- The closing braces do not reach over a character that is none of them. -/
theorem closes_append_of_head {u : Text} (ht : '}' ∉ t.head?) (h : closes <:+: u ++ t) :
    closes <:+: u ∨ closes <:+: t := by
  rcases infix_append_iff_ne_nil.mp h with h | h | ⟨l1, l2, -, hne, heq, -, hfront⟩
  · exact Or.inl h
  · exact Or.inr h
  · obtain ⟨d, l2, rfl⟩ := exists_cons_of_ne_nil hne
    have hd : d ∈ closes := by
      rw [heq]
      simp
    obtain ⟨r, hr⟩ := hfront
    have hbrace : d = '}' := by simpa [closes] using hd
    exact absurd (by rw [← hr, hbrace]; rfl) ht

theorem closes_append {u : Text} (ht : BlankOrEnd t) (h : closes <:+: u ++ t) : closes <:+: u ∨ closes <:+: t :=
  closes_append_of_head (fun hbrace => absurd (ht _ hbrace) (by decide)) h

theorem score_isSome {w : Text} (hw : ∀ c ∈ w, isSpace c = false) (ht : ∀ c ∈ t.head?, isSpace c = true) :
    (score R (w ++ t)).isSome = (score R w).isSome := by
  have hlit : ∀ l : Text, (∀ c ∈ l, isSpace c = false) →
      ((lit l (w ++ t)).bind R.realP).isSome = ((lit l w).bind R.realP).isSome := by
    intro l hl
    have hstop : ∀ c ∈ t.head?, c ∉ l := by
      intro c hc hmem
      have := ht c hc
      rw [hl c hmem] at this
      exact absurd this (by simp)
    rw [lit_append_stop l w hstop]
    cases hw' : lit l w with
    | none => rfl
    | some u =>
      have hu : ∀ c ∈ u, isSpace c = false := fun c hc => hw c (by rw [lit_eq_some.mp hw']; simp [hc])
      exact R.realP_local u t hu ht
  have hcases : ∀ u, (score R u).isSome = (((lit ['e', '^'] u).bind R.realP).isSome ||
      (((lit ['1', '0', '^'] u).bind R.realP).isSome || (R.realP u).isSome)) := by
    intro u
    unfold score
    cases (lit ['e', '^'] u).bind R.realP <;> cases (lit ['1', '0', '^'] u).bind R.realP <;> simp
  rw [hcases, hcases, hlit _ (by simp [isSpace]), hlit _ (by simp [isSpace]), R.realP_local w t hw ht]

/-- What `readInt` reads does not reach over a blank. -/
theorem readInt_append {w : Text} (hne : w ≠ []) (ht : ∀ c ∈ t.head?, c.isDigit = false) :
    readInt (w ++ t) = (readInt w).map fun x => (x.1, x.2 ++ t) := by
  obtain ⟨c, w, rfl⟩ := exists_cons_of_ne_nil hne
  rw [cons_append, readInt, readInt]
  by_cases hminus : c = '-'
  · rw [if_pos hminus, if_pos hminus, readBelow_append w ht]
    cases readBelow (2 ^ 63 + 1) w <;> rfl
  · rw [if_neg hminus, if_neg hminus]
    have hplus : (if c = '+' then w ++ t else c :: (w ++ t)) = (if c = '+' then w else c :: w) ++ t := by
      split_ifs <;> rfl
    rw [hplus, readBelow_append _ ht]
    cases readBelow (2 ^ 63) (if c = '+' then w else c :: w) <;> rfl

namespace BlankOrEnd

variable {t : Text} (h : BlankOrEnd t)
include h

theorem isSpace_head : ∀ c ∈ t.head?, isSpace c = true := by
  intro c hc
  rw [h c hc]
  rfl

theorem isDigit_head : ∀ c ∈ t.head?, c.isDigit = false := by
  intro c hc
  rw [h c hc]
  rfl

end BlankOrEnd

/-- The text of a value that is not a number. -/
def strText (compound : Bool) (s : Text) : Text := if compound then opens ++ (s ++ closes) else s

theorem printFeature_str {k : Text} (hk : k ≠ []) (b : Bool) (s : Text) :
    printFeature R ⟨k, .str b s⟩ = k ++ '=' :: strText b s := by
  cases b <;> simp [printFeature, hk, strText]

/-- What `fvalue` has read, if it is not a number: its text, which is read again. -/
structure ValueRead (R : Reals D) (v : Text) (b : Bool) (s t' : Text) : Prop where
  text : v = strText b s ++ t'
  reread : ∀ after, BlankOrEnd after → (closes <:+: after → closes <:+: t') →
    fvalue R (strText b s ++ after) = some (.str b s, after)
  noInt : readInt v = none → ∀ after, BlankOrEnd after → readInt (strText b s ++ after) = none

variable {v : Text}

theorem compound_read (h : compoundStr v = some (s, t')) : ValueRead R v true s t' := by
  obtain ⟨u, hopen, hclose⟩ := Option.bind_eq_some_iff.mp h
  obtain ⟨hu, hagain⟩ := untilClose_eq_some hclose
  have htext : ∀ after, strText true s ++ after = opens ++ (s ++ (closes ++ after)) := by
    simp [strText]
  refine ⟨?_, ?_, ?_⟩
  · rw [htext, ← hu]
    exact lit_eq_some.mp hopen
  · intro after _ _
    have hread : compoundStr (opens ++ (s ++ (closes ++ after))) = some (s, after) := by
      rw [compoundStr, lit_append, Option.bind_some, hagain]
    rw [htext, fvalue, hread]
  · intro _ after _
    rfl

theorem simple_read (hcompound : compoundStr v = none) (hscore : score R v = none)
    (h : simpleStr v = some (s, t')) : ValueRead R v false s t' := by
  obtain ⟨rfl, hne, hs, ht'⟩ := run_eq_some h
  have hspace : ∀ c ∈ s, isSpace c = false := fun c hc => by simpa using hs c hc
  have hstop : ∀ c ∈ t'.head?, isSpace c = true := fun c hc => by simpa using ht' c hc
  refine ⟨rfl, ?_, ?_⟩
  · intro after hafter hcloses
    have hopens : ∀ {u : Text}, (∀ c ∈ u.head?, isSpace c = true) → ∀ c ∈ u.head?, c ∉ opens := by
      intro u hu c hc hmem
      have := hu c hc
      simp only [opens, mem_cons, not_mem_nil, or_false, or_self] at hmem
      rw [hmem] at this
      exact absurd this (by decide)
    have hcompound' : compoundStr (s ++ after) = none := by
      rw [compoundStr, lit_append_stop opens s (hopens hstop)] at hcompound
      rw [compoundStr, lit_append_stop opens s (hopens hafter.isSpace_head)]
      cases hlit : lit opens s with
      | none => rfl
      | some u =>
        -- the braces are not closed in what follows
        rw [hlit] at hcompound
        simp only [Option.map_some, Option.bind_some, untilClose_eq_none] at hcompound ⊢
        intro hinfix
        apply hcompound
        rcases closes_append hafter hinfix with hinfix | hinfix
        · exact infix_append_of_infix_left hinfix
        · exact infix_append_of_infix_right (hcloses hinfix)
    have hscore' : score R (s ++ after) = none := by
      have hnone := congrArg Option.isSome hscore
      rw [score_isSome hspace hstop] at hnone
      rw [← Option.not_isSome_iff_eq_none, score_isSome hspace hafter.isSpace_head, hnone]
      simp
    have hsimple : simpleStr (s ++ after) = some (s, after) := by
      apply run_of_forall hne hs
      intro c hc
      rw [hafter.isSpace_head c hc]
      rfl
    show fvalue R (s ++ after) = _
    simp only [fvalue, hcompound', hscore', hsimple, Option.map_some]
  · intro hnone after hafter
    have hdigit : ∀ c ∈ t'.head?, c.isDigit = false := by
      intro c hc
      by_contra hd
      rw [Bool.not_eq_false] at hd
      have := isSpace_of_isGraph (isGraph_of_isNt (isNt_of_isDigit hd))
      rw [hstop c hc] at this
      exact absurd this (by simp)
    rw [readInt_append hne hdigit, Option.map_eq_none_iff] at hnone
    show readInt (s ++ after) = none
    rw [readInt_append hne hafter.isDigit_head, hnone]
    rfl

theorem fvalue_read {b : Bool} (h : fvalue R v = some (.str b s, t')) : ValueRead R v b s t' := by
  unfold fvalue at h
  split at h
  · rename_i r hcompound
    obtain ⟨hvalue, rfl⟩ := Prod.mk.inj (Option.some.inj h)
    obtain ⟨rfl, rfl⟩ := FeatureValue.str.inj hvalue
    exact compound_read hcompound
  · rename_i hcompound
    split at h
    · exact absurd (Prod.mk.inj (Option.some.inj h)).1 (by simp)
    · rename_i hscore
      rw [Option.map_eq_some_iff] at h
      obtain ⟨⟨s', t1⟩, hsimple, heq⟩ := h
      obtain ⟨hvalue, rfl⟩ := Prod.mk.inj heq
      obtain ⟨rfl, rfl⟩ := FeatureValue.str.inj hvalue
      exact simple_read hcompound hscore hsimple

/-! ## Features -/

/-- A feature that is not a floating point number. -/
def Feature.IsStr (f : Feature D) : Prop := ∃ b s, f.value = .str b s

/-- A key is followed by the first `'='`. -/
theorem key_of_lit {k r : Text} (hk : '=' ∉ k) (h : lit ['i', 'd', '='] (k ++ '=' :: v) = some r) :
    k = ['i', 'd'] ∧ v = r := by
  have heq := lit_eq_some.mp h
  have hstop : ∀ w : Text, '=' ∉ w → ∀ u : Text, (w ++ '=' :: u).takeWhile (· ≠ '=') = w := by
    intro w hw u
    apply (takeWhile_run _ (stops_cons (by decide) u)).1
    rintro c hc
    rw [decide_eq_true_eq]
    rintro rfl
    exact hw hc
  have hkey : k = ['i', 'd'] := by
    rw [← hstop k hk v, heq]
    exact hstop ['i', 'd'] (by decide) r
  subst hkey
  simpa using heq

/-- What `feat` has read, if it is not a number. -/
structure FeatRead (R : Reals D) (t : Text) (f : Feature D) (t' : Text) : Prop where
  text : skip t = printFeature R f ++ t'
  reread : ∀ after, BlankOrEnd after → (closes <:+: after → closes <:+: t') →
    idField (printFeature R f ++ after) = none ∧ feat R (printFeature R f ++ after) = some (f, after)

theorem feat_read {f : Feature D} (h : feat R t = some (f, t')) (hf : f.IsStr)
    (hid : idField t = none) : FeatRead R t f t' := by
  simp only [feat, Option.bind_eq_some_iff, Option.map_eq_some_iff] at h
  obtain ⟨⟨k, u⟩, hkey, v, hequals, ⟨val, t1⟩, hvalue, heq⟩ := h
  obtain ⟨rfl, rfl⟩ := Prod.mk.inj heq
  obtain ⟨b, s, hbs⟩ := hf
  subst hbs
  obtain ⟨hskip, hne, hk, -⟩ := run_eq_some hkey
  have hu : u = '=' :: v := lit_eq_some.mp hequals
  have hread := fvalue_read hvalue
  have hnot : '=' ∉ k := by
    intro hmem
    have := hk '=' hmem
    revert this
    decide
  have hgraph : ∀ c ∈ k, isGraph c = true := by
    intro c hc
    have := hk c hc
    simp only [isKey, Bool.and_eq_true] at this
    exact this.1.1.1
  have hprint : ∀ after, printFeature R ⟨k, .str b s⟩ ++ after = k ++ '=' :: (strText b s ++ after) := by
    simp [printFeature_str hne]
  have htext : skip t = k ++ '=' :: v := by rw [hskip, hu]
  refine ⟨?_, fun after hafter hcloses => ⟨?_, ?_⟩⟩
  · rw [hprint, htext, ← hread.text]
  · rw [hprint, idField, skip_append_of_isGraph hne hgraph]
    cases hlit : lit ['i', 'd', '='] (k ++ '=' :: (strText b s ++ after)) with
    | none => rfl
    | some r =>
      -- the key is `id`, and what follows it was no number
      obtain ⟨rfl, rfl⟩ := key_of_lit hnot hlit
      rw [idField, htext] at hid
      exact hread.noInt hid after hafter
  · have hkey' : run isKey (k ++ '=' :: (strText b s ++ after)) = some (k, '=' :: (strText b s ++ after)) :=
      run_of_forall hne hk (stops_cons (by decide) _)
    have hequals' : lit ['='] ('=' :: (strText b s ++ after)) = some (strText b s ++ after) := lit_append ['='] _
    rw [hprint, feat, skip_append_of_isGraph hne hgraph, hkey']
    simp only [Option.bind_some, hequals', hread.reread after hafter hcloses, Option.map_some]

/-- Features, a blank before each. -/
def blankFeatures (R : Reals D) (fs : List (Feature D)) : Text := fs.flatMap fun f => ' ' :: printFeature R f

theorem blankFeatures_cons (f : Feature D) (fs : List (Feature D)) :
    blankFeatures R (f :: fs) = ' ' :: (printFeature R f ++ blankFeatures R fs) := by
  simp [blankFeatures]

theorem blankOrEnd_blankFeatures (fs : List (Feature D)) : BlankOrEnd (blankFeatures R fs) := by
  cases fs with
  | nil => exact fun c hc => absurd hc (by simp [blankFeatures])
  | cons f fs =>
    rw [blankFeatures_cons]
    intro c hc
    rw [head?_cons, Option.mem_some_iff] at hc
    exact hc.symm

theorem length_le_blankFeatures (fs : List (Feature D)) : fs.length ≤ (blankFeatures R fs).length := by
  induction fs with
  | nil => simp
  | cons f fs ih =>
    rw [blankFeatures_cons, length_cons, length_cons, length_append]
    omega

theorem idField_blank (t : Text) : idField (' ' :: t) = idField t := by
  rw [idField, skip_blank, idField]

theorem feat_blank (t : Text) : feat R (' ' :: t) = feat R t := by
  rw [feat, skip_blank, feat]

theorem field_nil (s : FeatState D) : field R s [] = (s, none) := rfl

theorem idField_suffix {v : Int64} (h : idField t = some (v, t')) : t' <:+ t := by
  obtain ⟨u, hlit, hint⟩ := Option.bind_eq_some_iff.mp h
  have hu : u <:+ t := by
    have hsuffix : u <:+ skip t := ⟨['i', 'd', '='], (lit_eq_some.mp hlit).symm⟩
    exact hsuffix.trans (skip_suffix t)
  refine List.IsSuffix.trans ?_ hu
  cases u with
  | nil => exact absurd hint (by simp [readInt])
  | cons c u =>
    rw [readInt] at hint
    by_cases hminus : c = '-'
    · rw [if_pos hminus] at hint
      obtain ⟨⟨n, r⟩, hread, heq⟩ := Option.map_eq_some_iff.mp hint
      obtain ⟨-, rfl⟩ := Prod.mk.inj heq
      exact (readBelow_eq_some hread).2.trans (suffix_cons c u)
    · rw [if_neg hminus] at hint
      obtain ⟨⟨n, r⟩, hread, heq⟩ := Option.map_eq_some_iff.mp hint
      obtain ⟨-, rfl⟩ := Prod.mk.inj heq
      have hsuffix := (readBelow_eq_some hread).2
      split_ifs at hsuffix with hplus
      · exact hsuffix.trans (suffix_cons c u)
      · exact hsuffix

/-- What the repetition has read: the features that were appended, which are read again to the end of the text. -/
structure FeatsRead (R : Reals D) (t : Text) (fs : List (Feature D)) : Prop where
  closed : closes <:+: blankFeatures R fs → closes <:+: t
  quote : '"' ∈ blankFeatures R fs → '"' ∈ t
  reread : ∀ (j : Nat) (s : FeatState D), fs.length ≤ j →
    star (field R) j s (blankFeatures R fs) = (⟨s.id, s.features ++ fs⟩, [])

theorem featsRead_nil (t : Text) : FeatsRead R t [] := by
  refine ⟨fun h => absurd h ?_, fun h => absurd h not_mem_nil, fun j s _ => ?_⟩
  · show ¬ closes <:+: []
    decide
  · rw [append_nil]
    exact star_stop (field_nil s)

theorem featsRead_cons {f : Feature D} {fs : List (Feature D)} (hf : FeatRead R t f t')
    (hfs : FeatsRead R t' fs) : FeatsRead R t (f :: fs) := by
  have hsuffix : t' <:+ t := (suffix_append (printFeature R f) t').trans (hf.text ▸ skip_suffix t)
  have hprint : printFeature R f <:+: t := by
    have hfront : printFeature R f <+: skip t := hf.text ▸ prefix_append _ _
    exact hfront.isInfix.trans (skip_suffix t).isInfix
  refine ⟨fun h => ?_, fun h => ?_, fun j s hj => ?_⟩
  · rw [blankFeatures_cons, infix_cons_iff] at h
    rcases h with ⟨r, hr⟩ | h
    · exact absurd (List.cons.inj hr).1 (by decide)
    · rcases closes_append (blankOrEnd_blankFeatures fs) h with h | h
      · exact h.trans hprint
      · exact (hfs.closed h).trans hsuffix.isInfix
  · rw [blankFeatures_cons, mem_cons, mem_append] at h
    rcases h with h | h | h
    · exact absurd h (by decide)
    · exact hprint.mem h
    · exact hsuffix.mem (hfs.quote h)
  · obtain ⟨j, rfl⟩ := Nat.exists_eq_succ_of_ne_zero (Nat.ne_zero_of_lt hj)
    obtain ⟨hid, hfeat⟩ := hf.reread (blankFeatures R fs) (blankOrEnd_blankFeatures fs) hfs.closed
    have hfield : field R s (' ' :: (printFeature R f ++ blankFeatures R fs)) =
        (⟨s.id, s.features ++ [f]⟩, some (blankFeatures R fs)) := by
      rw [← idField_blank] at hid
      rw [← feat_blank] at hfeat
      rw [field, orElse_none (token_none hid), token_some hfeat]
    rw [blankFeatures_cons, star_some hfield, hfs.reread j _ (by rw [length_cons] at hj; omega)]
    simp

theorem fields_read : ∀ {j : Nat} {s s' : FeatState D} {t t' : Text}, star (field R) j s t = (s', t') →
    (∀ f ∈ s'.features, f.IsStr) → ∃ fs, s'.features = s.features ++ fs ∧ FeatsRead R t fs
  | 0, s, s', t, t', h, _ => by
    obtain ⟨rfl, rfl⟩ := Prod.mk.inj h
    exact ⟨[], by simp, featsRead_nil t⟩
  | j + 1, s, s', t, t', h, hstr => by
    rcases hfield : field R s t with ⟨s1, _ | t1⟩
    · rw [star_none hfield] at h
      obtain ⟨rfl, rfl⟩ := Prod.mk.inj h
      rcases orElse_inv hfield with ⟨_, hsome, _⟩ | ⟨s2, hid, hfeat⟩
      · exact absurd hsome (by simp)
      · have hs2 : s2 = s := by
          rcases token_inv hid with ⟨_, _, _, hsome, _⟩ | ⟨-, -, hs⟩
          · exact absurd hsome (by simp)
          · exact hs
        have hs1 : s1 = s2 := by
          rcases token_inv hfeat with ⟨_, _, _, hsome, _⟩ | ⟨-, -, hs⟩
          · exact absurd hsome (by simp)
          · exact hs
        rw [hs1, hs2]
        exact ⟨[], by simp, featsRead_nil t⟩
    · rw [star_some hfield] at h
      obtain ⟨fs, hfeatures, hfs⟩ := fields_read h hstr
      rcases orElse_inv hfield with ⟨t2, ht2, hid⟩ | ⟨s2, hid, hfeat⟩
      · -- an id
        obtain rfl := Option.some.inj ht2
        obtain ⟨v, hv, rfl⟩ := token_inv_some hid
        have hsuffix := idField_suffix hv
        exact ⟨fs, hfeatures, fun hc => (hfs.closed hc).trans hsuffix.isInfix, fun hq => hsuffix.mem (hfs.quote hq),
          hfs.reread⟩
      · obtain ⟨hnone, rfl⟩ : idField t = none ∧ s2 = s := by
          rcases token_inv hid with ⟨_, _, _, hsome, _⟩ | ⟨hnone, -, hs⟩
          · exact absurd hsome (by simp)
          · exact ⟨hnone, hs⟩
        obtain ⟨f, hf, rfl⟩ := token_inv_some hfeat
        have hmem : f ∈ s'.features := by
          rw [hfeatures]
          simp
        refine ⟨f :: fs, ?_, featsRead_cons (feat_read hf (hstr f hmem) hnone) hfs⟩
        rw [hfeatures]
        simp

/-! ## The id -/

theorem readInt_showInt (id : Int64) (ht : BlankOrEnd t) : readInt (showInt id.toInt ++ t) = some (id, t) := by
  have hlo := id.le_toInt
  have hhi := id.toInt_lt
  by_cases hneg : id.toInt < 0
  · have hread : readBelow (2 ^ 63 + 1) (showNat id.toInt.natAbs ++ t) = some (id.toInt.natAbs, t) :=
      readBelow_showNat (by omega) ht.isDigit_head
    have habs : -((id.toInt.natAbs : Nat) : Int) = id.toInt := by omega
    rw [showInt, if_pos hneg, cons_append, readInt, if_pos rfl, hread, Option.map_some, habs, Int64.ofInt_toInt]
  · have hread : readBelow (2 ^ 63) (showNat id.toInt.natAbs ++ t) = some (id.toInt.natAbs, t) :=
      readBelow_showNat (by omega) ht.isDigit_head
    have habs : ((id.toInt.natAbs : Nat) : Int) = id.toInt := by omega
    obtain ⟨c, w, hcw, hc⟩ := exists_showNat id.toInt.natAbs
    have hminus : c ≠ '-' := by
      rintro rfl
      exact absurd hc (by decide)
    have hplus : c ≠ '+' := by
      rintro rfl
      exact absurd hc (by decide)
    rw [showInt, if_neg hneg]
    rw [hcw, cons_append] at hread ⊢
    rw [readInt, if_neg hminus, if_neg hplus, hread, Option.map_some, habs, Int64.ofInt_toInt]

theorem not_quote_printId (id : Int64) : '"' ∉ printId id := by
  unfold printId showInt
  split_ifs
  · exact not_mem_nil
  · simp [not_quote_showNat]
  · simp [not_quote_showNat]

/-- The id is read back if it was printed, and is left alone otherwise. -/
theorem fields_print {fs : List (Feature D)} (hfs : FeatsRead R t fs) (id memory : Int64) :
    many (field R) ⟨memory, []⟩ (printId id ++ blankFeatures R fs) =
      (⟨if id = 0 then memory else id, fs⟩, some []) := by
  have hlen := length_le_blankFeatures (R := R) fs
  by_cases hid : id = 0
  · have hstar := hfs.reread (blankFeatures R fs).length ⟨memory, []⟩ hlen
    rw [printId, if_pos hid, if_pos hid, nil_append, many, hstar, nil_append]
  · have hread : idField (printId id ++ blankFeatures R fs) = some (id, blankFeatures R fs) := by
      have hskip : skip (['i', 'd', '='] ++ (showInt id.toInt ++ blankFeatures R fs)) =
          ['i', 'd', '='] ++ (showInt id.toInt ++ blankFeatures R fs) := skip_solid (by decide) _
      have htext : printId id ++ blankFeatures R fs =
          ' ' :: (['i', 'd', '='] ++ (showInt id.toInt ++ blankFeatures R fs)) := by
        simp [printId, hid]
      rw [htext, idField, skip_blank, hskip, lit_append, Option.bind_some,
        readInt_showInt id (blankOrEnd_blankFeatures fs)]
    have hfield : field R ⟨memory, []⟩ (printId id ++ blankFeatures R fs) =
        (⟨id, []⟩, some (blankFeatures R fs)) := orElse_some (token_some hread)
    have hlength : (printId id ++ blankFeatures R fs).length = (blankFeatures R fs).length + ((printId id).length - 1) + 1 := by
      have : 0 < (printId id).length := by
        rw [printId, if_neg hid]
        simp
      rw [length_append]
      omega
    rw [if_neg hid, many, hlength, star_some hfield, hfs.reread _ _ (by omega), nil_append]

/-! ## The rule -/

theorem blank_joined {α : Type} (f : α → Text) {as : List α} (h : as ≠ []) :
    ' ' :: joined (as.map f) = as.flatMap fun a => ' ' :: f a := by
  cases as with
  | nil => exact absurd rfl h
  | cons a as => simp [joined, flatMap_map]

/-- The text of a rule from its `###` on. -/
abbrev printFields (R : Reals D) (rd : RuleData D) : Text :=
  ['#', '#', '#'] ++ (printId rd.id ++ blankFeatures R rd.features)

/-- What follows the left-hand side. -/
def printTail (R : Reals D) (rd : RuleData D) : Text :=
  [' ', '-', '>'] ++ (' ' :: (joined (rd.rhs.map printRhsNode) ++ ' ' :: printFields R rd))

theorem print_eq (rd : RuleData D) : print R rd = printPos rd.lhs rd.lhs.length 0 ++ printTail R rd := by
  have hfeatures : (if rd.features = [] then [] else ' ' :: joined (rd.features.map (printFeature R))) =
      blankFeatures R rd.features := by
    split_ifs with h
    · rw [h]
      rfl
    · exact blank_joined _ h
  simp [print, printTail, hfeatures]

theorem rhsItems_print_joined {rhs : List RhsNode} (h : ∀ nd ∈ rhs, nd.Read) (hskip : skip t = t)
    (ht : rhsItem t = none) :
    ∃ r, rhsItems [] (' ' :: (joined (rhs.map printRhsNode) ++ ' ' :: t)) = (rhs, some r) ∧ skip r = t := by
  by_cases hrhs : rhs = []
  · subst hrhs
    have hnone : rhsItem (' ' :: ' ' :: t) = none := by rw [rhsItem_blank, rhsItem_blank, ht]
    refine ⟨' ' :: ' ' :: t, ?_, by rw [skip_blank, skip_blank, hskip]⟩
    show many _ [] (' ' :: ' ' :: t) = _
    rw [many, star_stop (token_none hnone)]
  · have htext : ' ' :: (joined (rhs.map printRhsNode) ++ ' ' :: t) = blankNodes rhs ++ ' ' :: t := by
      rw [← cons_append, blank_joined _ hrhs]
      rfl
    have hlen : rhs.length ≤ (blankNodes rhs ++ ' ' :: t).length := by
      have := length_le_blankNodes rhs
      rw [length_append]
      omega
    have hnone : rhsItem (' ' :: t) = none := by rw [rhsItem_blank, ht]
    refine ⟨' ' :: t, ?_, by rw [skip_blank, hskip]⟩
    rw [htext, rhsItems, many, rhsItems_print h hnone _ _ hlen, nil_append]

theorem mem_blankNodes_of_joined {c : Char} {rhs : List RhsNode} (h : c ∈ joined (rhs.map printRhsNode)) :
    c ∈ blankNodes rhs := by
  have hrhs : rhs ≠ [] := by
    rintro rfl
    exact absurd h not_mem_nil
  have htext : ' ' :: joined (rhs.map printRhsNode) = blankNodes rhs := blank_joined _ hrhs
  rw [← htext]
  exact mem_cons_of_mem _ h

/-- A rule without floating point features. -/
def RuleData.NoReals (rd : RuleData D) : Prop := ∀ f ∈ rd.features, f.IsStr

/-- What is read from the text of a rule that was read: the rule, its id apart if that is 0. -/
theorem parseXrs_print_eq {memory : Int64} {line : Text} {rd : RuleData D} (h : parseXrs R memory line = some rd)
    (hreals : rd.NoReals) (memory' : Int64) :
    parseXrs R memory' (print R rd) = some { rd with id := if rd.id = 0 then memory' else rd.id } := by
  unfold parseXrs at h
  split at h
  · exact absurd h (by simp)
  rename_i s t hlhs
  simp only [Option.bind_eq_some_iff] at h
  obtain ⟨t1, harrow, t2', ⟨t2, hrhs, hhash⟩, t3, hfs, hend⟩ := h
  split_ifs at hend with hfull
  obtain rfl := Option.some.inj hend
  -- the three parts, as they were read
  obtain ⟨T, u, hT⟩ := lhsRoot_read hlhs
  obtain ⟨rhs, hrhs_eq, hread, hsuffix, hquote⟩ := rhsItems_read (Prod.ext rfl rfl :
    star (token rhsItem fun nd rhs => rhs ++ [nd]) t1.length [] t1 = ((rhsItems [] t1).1, _))
  obtain ⟨fs, hfs_eq, hfeats⟩ := fields_read (Prod.ext rfl rfl :
    star (field R) t2'.length ⟨memory, []⟩ t2' = ((many (field R) ⟨memory, []⟩ t2').1, _)) hreals
  obtain rfl := Option.some.inj hrhs
  have ht1 : t1 <:+ t := by
    have hsuffix : t1 <:+ skip t := ⟨['-', '>'], (lit_eq_some.mp harrow).symm⟩
    exact hsuffix.trans (skip_suffix t)
  have ht2' : t2' <:+ t := by
    have hhash' : t2' <:+ skip _ := ⟨['#', '#', '#'], (lit_eq_some.mp hhash).symm⟩
    exact ((hhash'.trans (skip_suffix _)).trans hsuffix).trans ht1
  -- and the printed text
  set rd : RuleData D := ⟨s.lhs, (rhsItems [] t1).1, (many (field R) ⟨memory, []⟩ t2').1.features,
    (many (field R) ⟨memory, []⟩ t2').1.id⟩ with hrd
  have hlhs_eq : rd.lhs = flat 0 0 T := by
    show s.lhs = _
    rw [hT.effect, effectRoot_lhs hT.isRoot]
    rfl
  have hprint : print R rd = printTree T ++ printTail R rd := by
    rw [print_eq, hlhs_eq, printPos_root]
  have htail : '"' ∈ printTail R rd → '"' ∈ t := by
    intro hq
    rw [printTail, printFields, show rd.features = fs from hfs_eq] at hq
    simp only [mem_append, mem_cons, not_mem_nil, or_false] at hq
    rcases hq with (hq | hq | hq) | hq | hq | hq | (hq | hq | hq) | hq | hq
    any_goals (exfalso; revert hq; decide)
    · rw [show rd.rhs = rhs from hrhs_eq] at hq
      exact ht1.mem (hquote (mem_blankNodes_of_joined hq))
    · exact absurd hq (not_quote_printId _)
    · exact ht2'.mem (hfeats.quote hq)
  have hlhs' : lhsRoot (print R rd).length LhsState.empty (print R rd) =
      (effectRoot T LhsState.empty, some (printTail R rd)) := by
    rw [hprint]
    exact hT.reread _ _ _ (by rw [length_append]; omega) htail
  have harrow' : lit ['-', '>'] (skip (printTail R rd)) =
      some (' ' :: (joined (rd.rhs.map printRhsNode) ++ ' ' :: printFields R rd)) := by
    have hskip : skip (printTail R rd) =
        ['-', '>'] ++ (' ' :: (joined (rd.rhs.map printRhsNode) ++ ' ' :: printFields R rd)) := by
      show skip (' ' :: '-' :: _) = _
      rfl
    rw [hskip, lit_append]
  have hhash_skip : skip (printFields R rd) = printFields R rd := skip_solid (by decide) _
  have hhash_none : rhsItem (printFields R rd) = none := by
    have hword : word (printFields R rd) = none := by
      exact quotedWord_ne (by decide) _
    rfl
  have hread' : ∀ nd ∈ rd.rhs, nd.Read := by
    rw [show rd.rhs = rhs from hrhs_eq]
    exact hread
  obtain ⟨r, hrhs', hskip⟩ := rhsItems_print_joined hread' hhash_skip hhash_none
  have hfeats' := fields_print hfeats rd.id memory'
  rw [← show rd.features = fs from hfs_eq] at hfeats'
  have hvars : sameVars (effectRoot T LhsState.empty).lhs rd.rhs = true := by
    rw [← hT.effect]
    exact hfull.2
  have hnil : skip [] = [] := rfl
  unfold parseXrs
  rw [hlhs']
  simp only [harrow', Option.bind_some, hrhs', hskip, lit_append, hfeats', hnil, hvars, and_self, if_true]
  rw [← hT.effect]

/-- **A rule without floating point features is read back from its text** exactly if its id is not 0, or the field of the
new rule happens to be 0 before it is read.  The printer leaves out an id of 0, and the reader does not set the
field of a line without one. -/
theorem parseXrs_print (R : Reals D) {memory : Int64} {line : Text} {rd : RuleData D}
    (h : parseXrs R memory line = some rd) (hreals : rd.NoReals) (memory' : Int64) :
    parseXrs R memory' (print R rd) = some rd ↔ rd.id ≠ 0 ∨ memory' = 0 := by
  rw [parseXrs_print_eq h hreals memory', Option.some.injEq]
  constructor
  · intro heq
    by_cases hid : rd.id = 0
    · right
      have := congrArg RuleData.id heq
      simp only [if_pos hid] at this
      rw [this, hid]
    · exact Or.inl hid
  · rintro (hid | rfl)
    · rw [if_neg hid]
    · split_ifs with hid
      · rw [← hid]
      · rfl

theorem readNat_local (w t : Text) (_ : ∀ c ∈ w, isSpace c = false) (ht : ∀ c ∈ t.head?, isSpace c = true) :
    (readNat (w ++ t)).isSome = (readNat w).isSome := by
  have hdigit : ∀ c ∈ t.head?, c.isDigit = false := by
    intro c hc
    by_contra hd
    rw [Bool.not_eq_false] at hd
    have := isSpace_of_isGraph (isGraph_of_isNt (isNt_of_isDigit hd))
    rw [ht c hc] at this
    exact absurd this (by simp)
  rw [readNat_append w hdigit, Option.isSome_map]

/-- Numbers of digits alone. -/
def Reals.digits : Reals Nat where
  realP := readNat
  divNeglog10 := id
  neg := id
  shown := showNat
  realP_local := readNat_local

/-- Quote marks in words, a child that begins with `x`, and values with braces. -/
theorem parseXrs_print_quotes : ∃ rd, parseXrs Reals.digits 0
    "S( x0:NP x (\"@\"\")) -> \"\"\" x0 \"\" ###  k=\x7b\x7b\x7ba b\x7d\x7d\x7dl=\x7b\x7b\x7bc id=7".toList = some rd ∧
      (parseXrs Reals.digits 3 (print Reals.digits rd) = some rd ↔ rd.id ≠ 0 ∨ (3 : Int64) = 0) := by
  have h : parseXrs Reals.digits 0
      "S( x0:NP x (\"@\"\")) -> \"\"\" x0 \"\" ###  k=\x7b\x7b\x7ba b\x7d\x7d\x7dl=\x7b\x7b\x7bc id=7".toList =
        some ⟨[⟨false, true, ['S'], 0, 0⟩, ⟨true, false, ['N', 'P'], 0, 2⟩, ⟨false, true, ['x'], 0, 0⟩,
          ⟨false, false, ['@', '"'], 0, 0⟩], [.word ['"'], .index 0, .word []],
          [⟨['k'], .str true ['a', ' ', 'b']⟩, ⟨['l'], .str false (opens ++ ['c'])⟩], 7⟩ := by
    decide +kernel
  refine ⟨_, h, parseXrs_print Reals.digits h ?_ 3⟩
  intro f hf
  simp only [mem_cons, not_mem_nil, or_false] at hf
  rcases hf with rfl | rfl <;> exact ⟨_, _, rfl⟩

/-- A rule with the id 0, read back where 1 was in memory. -/
theorem not_parseXrs_print : ¬ ∀ (memory memory' : Int64) (line : Text) (rd : RuleData Nat),
    parseXrs Reals.digits memory line = some rd → rd.NoReals →
      parseXrs Reals.digits memory' (print Reals.digits rd) = some rd := by
  intro h
  have hread : parseXrs Reals.digits 0 "X(x0:Y) -> x0 ### id=0".toList =
      some ⟨[⟨false, true, ['X'], 0, 0⟩, ⟨true, false, ['Y'], 0, 0⟩], [.index 0], [], 0⟩ := by
    decide +kernel
  have hagain := h 0 1 _ _ hread fun f hf => absurd hf not_mem_nil
  revert hagain
  decide

end Sbmt.Xrs
