import Sbmt.Xrs.RuleRoundTrip
/-!
# The features of a brf rule, and of an xrs rule (`xrsparse/xrsparse/xrs_grammar_.hpp`)

| here | there |
| --- | --- |
| `scr`, `brfValue`, `brfFeat`, `brfFeatures` | `scr`, `fvalue`, `feat`, `features` of `brf_grammar` (`xrs_grammar_.hpp:261-290`) |
| `xrsFeatures` | `feats` of `xrs_grammar` (`:436-463`), with the rules of `RuleText.lean` |
| `Accepted` | the text of the features is the rest of the line, which is read to its end (`:540-549`, `:586-591`) |

The two read one syntax in two ways.  `xrs_grammar` takes `id=` with an integer as the rule's id, and `brf_grammar` lists
it with the features.  In `brf_grammar` a number counts only up to a blank or the end, and is part of a string otherwise;
`xrs_grammar` reads the number and goes on behind it.
-/

namespace Sbmt.Xrs

open Sbmt.Lib.Phrase List

/-- `real_p` takes no blank. -/
structure RealParser (D : Type) extends Reals D where
  realP_word : ∀ t d r, realP t = some (d, r) → ∃ w, t = w ++ r ∧ ∀ c ∈ w, isSpace c = false

section

variable {D : Type} (R : Reals D) (t : Text)

/-- A number, and the blank behind it. -/
def scr : Option (D × Text) :=
  (score R t).bind fun r =>
    match r.2 with
    | [] => some (r.1, [])
    | c :: t => if isSpace c then some (r.1, t) else none

def brfValue : Option (FeatureValue D × Text) :=
  match compoundStr t with
  | some r => some (.str true r.1, r.2)
  | none =>
    match scr R t with
    | some r => some (.number r.1, r.2)
    | none => (simpleStr t).map fun r => (.str true r.1, r.2)

def brfFeat : Option (Feature D × Text) :=
  (run isKey (skip t)).bind fun k => (lit ['='] k.2).bind fun t => (brfValue R t).map fun v => (⟨k.1, v.1⟩, v.2)

def brfFeatures : List (Feature D) × Option Text := many (token (brfFeat R) fun f fs => fs ++ [f]) [] t

def xrsFeatures (memory : Int64) (t : Text) : FeatState D × Option Text := many (field R) ⟨memory, []⟩ t

/-- Nothing is left but blanks. -/
def Accepted (rest : Option Text) : Prop := rest.map skip = some []

/-! ## What both read -/

/-- A number or a string; a string in braces is one like any other. -/
def FeatureValue.content : FeatureValue D → D ⊕ Text
  | .number v => .inl v
  | .str _ s => .inr s

def Feature.content (f : Feature D) : Text × (D ⊕ Text) := (f.key, f.value.content)

/-- A feature, and the id that `xrs_grammar` sees in its place. -/
def brfField : Option ((Feature D × Option Int64) × Text) :=
  (brfFeat R t).map fun r => ((r.1, (idField t).map Prod.fst), r.2)

def brfFields : List (Feature D × Option Int64) × Option Text :=
  many (token (brfField R) fun f fs => fs ++ [f]) [] t

/-- At a blank, or at the end. -/
def Ends : Prop := ∀ c ∈ t.head?, isSpace c = true

/-- Behind an integer id, and behind a number that is a value, the field ends. -/
def FieldEnds : Prop :=
  (∀ x ∈ idField t, Ends x.2) ∧
  (idField t = none → ∀ k ∈ run isKey (skip t), ∀ v ∈ lit ['='] k.2, compoundStr v = none → ∀ x ∈ score R v, Ends x.2)

/-- So it does in every field that is read. -/
def FieldsEnd : Nat → Text → Prop
  | 0, _ => True
  | n + 1, t => FieldEnds R t ∧ ∀ x ∈ brfFeat R t, FieldsEnd n x.2

instance : Decidable (Accepted o) := inferInstanceAs (Decidable (o.map skip = some []))

instance : Decidable (Ends t) :=
  decidable_of_iff (t.head?.all isSpace = true) (Option.all_eq_true isSpace t.head?)

instance : Decidable (FieldEnds R t) :=
  inferInstanceAs (Decidable ((∀ x ∈ idField t, Ends x.2) ∧ (idField t = none →
    ∀ k ∈ run isKey (skip t), ∀ v ∈ lit ['='] k.2, compoundStr v = none → ∀ x ∈ score R v, Ends x.2)))

instance decidableFieldsEnd : ∀ n t, Decidable (FieldsEnd R n t)
  | 0, _ => .isTrue trivial
  | n + 1, t =>
    have (x : Feature D × Text) : Decidable (FieldsEnd R n x.2) := decidableFieldsEnd n x.2
    inferInstanceAs (Decidable (FieldEnds R t ∧ ∀ x ∈ brfFeat R t, FieldsEnd R n x.2))

end

section

variable {D : Type} {R : Reals D} {t t' u v w r r' : Text}

theorem skip_cons_space {c : Char} (hc : isSpace c = true) (t : Text) : skip (c :: t) = skip t := by
  simp [skip, hc]

/-- One blank more or less is skipped. -/
theorem scr_of_ends {n : D} (hscore : score R v = some (n, r)) (hr : Ends r) :
    ∃ r', scr R v = some (n, r') ∧ skip r' = skip r := by
  cases r with
  | nil => exact ⟨[], by rw [scr, hscore]; rfl, rfl⟩
  | cons c r =>
    have hc : isSpace c = true := hr c rfl
    refine ⟨r, ?_, (skip_cons_space hc r).symm⟩
    rw [scr, hscore]
    exact if_pos hc

/-- The values are the same, and what is left of the text but for a blank. -/
theorem brfValue_of_ends (h : compoundStr v = none → ∀ x ∈ score R v, Ends x.2) :
    (brfValue R v).map (fun x => (x.1.content, skip x.2)) = (fvalue R v).map fun x => (x.1.content, skip x.2) := by
  unfold brfValue fvalue
  rcases hcompound : compoundStr v with _ | ⟨s, r⟩
  · rcases hscore : score R v with _ | ⟨n, r⟩
    · have hscr : scr R v = none := by rw [scr, hscore]; rfl
      rw [hscr, Option.map_map, Option.map_map]
      rfl
    · obtain ⟨r', hscr, hskip⟩ := scr_of_ends hscore (h hcompound (n, r) hscore)
      rw [hscr]
      simp only [Option.map_some, hskip]
  · rfl

theorem brfFeat_of_ends (h : ∀ k ∈ run isKey (skip t), ∀ v ∈ lit ['='] k.2, compoundStr v = none →
    ∀ x ∈ score R v, Ends x.2) :
    (brfFeat R t).map (fun x => (x.1.content, skip x.2)) = (feat R t).map fun x => (x.1.content, skip x.2) := by
  unfold brfFeat feat
  rcases hkey : run isKey (skip t) with _ | k
  · rfl
  · rcases hlit : lit ['='] k.2 with _ | v
    · simp [hlit]
    · have hvalue := brfValue_of_ends (h k hkey v hlit)
      simp only [Option.bind_some, hlit, Option.map_map]
      have hwith := congrArg (Option.map fun x : (D ⊕ Text) × Text => ((k.1, x.1), x.2)) hvalue
      rw [Option.map_map, Option.map_map] at hwith
      exact hwith

theorem readBelow_word {bound n : Nat} (h : readBelow bound t = some (n, r)) :
    ∃ w, t = w ++ r ∧ w ≠ [] ∧ ∀ c ∈ w, c.isDigit = true := by
  unfold readBelow readNat at h
  split_ifs at h with hne
  · exact absurd h (by simp)
  · rw [Option.bind_some] at h
    split_ifs at h
    cases h
    exact ⟨_, takeWhile_append_dropWhile.symm, hne, fun c hc => mem_takeWhile_imp hc⟩

/-- The characters of an integer. -/
theorem readInt_word {id : Int64} (h : readInt v = some (id, r)) :
    ∃ w, v = w ++ r ∧ w ≠ [] ∧ ∀ c ∈ w, c.isDigit = true ∨ c = '-' ∨ c = '+' := by
  cases v with
  | nil => cases h
  | cons c v =>
    rw [readInt] at h
    by_cases hminus : c = '-'
    · rw [if_pos hminus] at h
      obtain ⟨⟨n, r'⟩, hread, heq⟩ := Option.map_eq_some_iff.mp h
      cases heq
      obtain ⟨w, hw, _, hdigits⟩ := readBelow_word hread
      refine ⟨c :: w, by rw [hw]; rfl, cons_ne_nil _ _, fun d hd => ?_⟩
      rcases mem_cons.mp hd with rfl | hd
      · exact .inr (.inl hminus)
      · exact .inl (hdigits d hd)
    · rw [if_neg hminus] at h
      obtain ⟨⟨n, r'⟩, hread, heq⟩ := Option.map_eq_some_iff.mp h
      cases heq
      obtain ⟨w, hw, hne, hdigits⟩ := readBelow_word hread
      by_cases hplus : c = '+'
      · rw [if_pos hplus] at hw
        refine ⟨c :: w, by rw [hw]; rfl, cons_ne_nil _ _, fun d hd => ?_⟩
        rcases mem_cons.mp hd with rfl | hd
        · exact .inr (.inr hplus)
        · exact .inl (hdigits d hd)
      · rw [if_neg hplus] at hw
        exact ⟨w, hw, hne, fun d hd => .inl (hdigits d hd)⟩

theorem isSpace_of_int {c : Char} (h : c.isDigit = true ∨ c = '-' ∨ c = '+') : isSpace c = false := by
  refine Bool.eq_false_iff.mpr fun hc => ?_
  simp only [isSpace, Bool.or_eq_true, decide_eq_true_eq] at hc
  rcases hc with ((((rfl | rfl) | rfl) | rfl) | rfl) | rfl <;> revert h <;> decide

theorem score_word (R : RealParser D) {n : D} (h : score R.toReals v = some (n, r)) :
    ∃ w, v = w ++ r ∧ ∀ c ∈ w, isSpace c = false := by
  have hlit : ∀ {l : Text} {x : D × Text}, (∀ c ∈ l, isSpace c = false) → (lit l v).bind R.realP = some x →
      ∃ w, v = w ++ x.2 ∧ ∀ c ∈ w, isSpace c = false := by
    intro l x hl hx
    obtain ⟨u, hu, hreal⟩ := Option.bind_eq_some_iff.mp hx
    obtain ⟨w, hw, hspace⟩ := R.realP_word u x.1 x.2 hreal
    refine ⟨l ++ w, by rw [lit_eq_some.mp hu, hw, append_assoc], fun c hc => ?_⟩
    exact (mem_append.mp hc).elim (hl c) (hspace c)
  unfold score at h
  split at h
  · rename_i x hx
    cases h
    exact hlit (by simp [isSpace]) hx
  · split at h
    · rename_i x hx
      cases h
      exact hlit (by simp [isSpace]) hx
    · exact R.realP_word v n r h

/-- The stretch up to the blank is one. -/
theorem eq_of_ends (hw : ∀ c ∈ w, isSpace c = false) (hu : ∀ c ∈ u, isSpace c = false) (hr : Ends r) (hr' : Ends r')
    (h : w ++ r = u ++ r') : r = r' := by
  have hdrop : ∀ {w r : Text}, (∀ c ∈ w, isSpace c = false) → Ends r → (w ++ r).dropWhile (fun c => !isSpace c) = r := by
    intro w r hw hr
    exact (takeWhile_run (fun c hc => by rw [hw c hc]; rfl) fun c hc => by rw [hr c hc]; rfl).2
  rw [← hdrop hw hr, h, hdrop hu hr']

/-- Where `xrs_grammar` reads the id, `brf_grammar` reads a feature of the same extent. -/
theorem brfFeat_id (R : RealParser D) {id : Int64} (hid : idField t = some (id, r)) (hr : Ends r) :
    ∃ f r', brfFeat R.toReals t = some (f, r') ∧ skip r' = skip r := by
  obtain ⟨v, hv, hint⟩ := Option.bind_eq_some_iff.mp hid
  obtain ⟨w, rfl, hne, hchars⟩ := readInt_word hint
  have hspace : ∀ c ∈ w, isSpace c = false := fun c hc => isSpace_of_int (hchars c hc)
  have hkey : run isKey (skip t) = some (['i', 'd'], '=' :: (w ++ r)) := by
    rw [lit_eq_some.mp hv]
    exact run_of_forall (p := isKey) (w := ['i', 'd']) (t := '=' :: (w ++ r)) (cons_ne_nil _ _)
      (by simp [isKey, isGraph]) (by simp [isKey])
  have hcompound : compoundStr (w ++ r) = none := by
    obtain ⟨c, w, rfl⟩ := exists_cons_of_ne_nil hne
    have hc : c ≠ '{' := by
      rintro rfl
      exact absurd (hchars _ mem_cons_self) (by decide)
    rw [compoundStr, opens, cons_append, lit_cons_ne hc]
    rfl
  have hvalue : ∃ x r', brfValue R.toReals (w ++ r) = some (x, r') ∧ skip r' = skip r := by
    unfold brfValue
    rw [hcompound]
    rcases hscr : scr R.toReals (w ++ r) with _ | ⟨n, r'⟩
    · have hsimple : simpleStr (w ++ r) = some (w, r) :=
        run_of_forall hne (fun c hc => by rw [hspace c hc]; rfl) fun c hc => by rw [hr c hc]; rfl
      exact ⟨.str true w, r, by rw [hsimple]; rfl, rfl⟩
    · refine ⟨.number n, r', rfl, ?_⟩
      obtain ⟨⟨n', u⟩, hscore, hguard⟩ := Option.bind_eq_some_iff.mp hscr
      obtain ⟨w', hw', hspace'⟩ := score_word R hscore
      cases u with
      | nil =>
        cases hguard
        rw [eq_of_ends hspace hspace' hr (fun c hc => by cases hc) hw']
      | cons c u =>
        dsimp only at hguard
        split_ifs at hguard with hc
        cases hguard
        have hends : Ends (c :: r') := fun d hd => by cases hd; exact hc
        rw [eq_of_ends hspace hspace' hr hends hw', skip_cons_space hc]
  obtain ⟨x, r', hx, hskip⟩ := hvalue
  refine ⟨⟨['i', 'd'], x⟩, r', ?_, hskip⟩
  have hlit : lit ['='] ('=' :: (w ++ r)) = some (w ++ r) := rfl
  rw [brfFeat, hkey, Option.bind_some]
  rw [hlit, Option.bind_some, hx]
  rfl

/-! ## The lists -/

theorem field_congr (h : skip t = skip t') (s : FeatState D) : field R s t = field R s t' := by
  simp only [field, orElse, token, idField, feat, h]

/-- One field.  Neither reads one; or it is an id to one, and a feature to the other; or the same feature to both. -/
theorem field_of_ends (R : RealParser D) (h : FieldEnds R.toReals t) (s : FeatState D) :
    (brfFeat R.toReals t = none ∧ field R.toReals s t = (s, none)) ∨
    ∃ f r r', brfFeat R.toReals t = some (f, r) ∧ skip r' = skip r ∧
      ((∃ id, idField t = some (id, r') ∧ field R.toReals s t = ({ s with id := id }, some r')) ∨
        idField t = none ∧ ∃ f', f'.content = f.content ∧
          field R.toReals s t = ({ s with features := s.features ++ [f'] }, some r')) := by
  rcases hid : idField t with _ | ⟨id, r⟩
  · have hfield : field R.toReals s t = token (feat R.toReals) (fun f s => { s with features := s.features ++ [f] }) s t :=
      orElse_none (token_none hid)
    have hsame := brfFeat_of_ends (h.2 hid)
    rcases hfeat : feat R.toReals t with _ | ⟨f', r'⟩
    · rw [hfeat, Option.map_none, Option.map_eq_none_iff] at hsame
      exact .inl ⟨hsame, hfield.trans (token_none hfeat)⟩
    · rw [hfeat] at hsame
      obtain ⟨⟨f, r⟩, hbrf, heq⟩ := Option.map_eq_some_iff.mp hsame
      obtain ⟨hcontent, hskip⟩ := Prod.mk.inj heq
      exact .inr ⟨f, r, r', hbrf, hskip.symm, .inr ⟨rfl, f', hcontent.symm, hfield.trans (token_some hfeat)⟩⟩
  · obtain ⟨f, r', hbrf, hskip⟩ := brfFeat_id R hid (h.1 (id, r) hid)
    have hfield : field R.toReals s t = ({ s with id := id }, some r) := orElse_some (token_some hid)
    exact .inr ⟨f, r', r, hbrf, hskip.symm, .inl ⟨id, rfl, hfield⟩⟩

/-- The state of `xrs_grammar` after the fields `l`. -/
structure After (memory : Int64) (l : List (Feature D × Option Int64)) (s : FeatState D) : Prop where
  features : s.features.map Feature.content = (l.filter fun f => f.2 = none).map fun f => f.1.content
  id : s.id = ((l.filterMap Prod.snd).getLast?).getD memory

theorem fields_of_ends (R : RealParser D) {memory : Int64} {n : Nat} {l : List (Feature D × Option Int64)} {s : FeatState D}
    (h : FieldsEnd R.toReals n t) (hskip : skip t' = skip t) (hs : After memory l s) :
    let x := star (field R.toReals) n s t'
    let b := star (token (brfField R.toReals) fun f fs => fs ++ [f]) n l t
    skip x.2 = skip b.2 ∧ After memory b.1 x.1 := by
  induction n generalizing s l t t' with
  | zero => exact ⟨hskip, hs⟩
  | succ n ih =>
    obtain ⟨hends, hrest⟩ := h
    rcases field_of_ends R hends s with ⟨hbrf, hfield⟩ | ⟨f, r, r', hbrf, hskip', hcases⟩
    · have hbrf : brfField R.toReals t = none := by rw [brfField, hbrf]; rfl
      rw [← field_congr hskip] at hfield
      rw [star_none hfield, star_none (token_none hbrf)]
      exact ⟨hskip, hs⟩
    · have hread : brfField R.toReals t = some ((f, (idField t).map Prod.fst), r) := by rw [brfField, hbrf]; rfl
      rcases hcases with ⟨id, hid, hfield⟩ | ⟨hid, f', hcontent, hfield⟩
      · rw [← field_congr hskip] at hfield
        rw [star_some hfield, star_some (token_some hread)]
        refine ih (hrest (f, r) hbrf) hskip' ⟨?_, ?_⟩
        · simp [hid, hs.features]
        · simp [hid]
      · rw [← field_congr hskip] at hfield
        rw [star_some hfield, star_some (token_some hread)]
        refine ih (hrest (f, r) hbrf) hskip' ⟨?_, ?_⟩
        · simp [hid, hs.features, hcontent]
        · simp [hid, hs.id]

/-- The list of `brf_grammar` is that of the fields. -/
theorem star_brfFeat (n : Nat) (l : List (Feature D × Option Int64)) (t : Text) :
    star (token (brfFeat R) fun f fs => fs ++ [f]) n (l.map Prod.fst) t =
      ((star (token (brfField R) fun f fs => fs ++ [f]) n l t).1.map Prod.fst,
        (star (token (brfField R) fun f fs => fs ++ [f]) n l t).2) := by
  induction n generalizing l t with
  | zero => rfl
  | succ n ih =>
    rcases hbrf : brfFeat R t with _ | ⟨f, r⟩
    · have hread : brfField R t = none := by rw [brfField, hbrf]; rfl
      rw [star_none (token_none hbrf), star_none (token_none hread)]
    · have hread : brfField R t = some ((f, (idField t).map Prod.fst), r) := by rw [brfField, hbrf]; rfl
      rw [star_some (token_some hbrf), star_some (token_some hread), ← ih, map_append]
      rfl

/-- **The two grammars accept the same lists of features, with the same keys and values**, except that `xrs_grammar` takes
the fields `id=` with an integer out of the list, and the last of them is the rule's id.  In these lists an id, and a number
that is a value, ends its field. -/
theorem features_agree (R : RealParser D) (memory : Int64) (t : Text) (h : FieldsEnd R.toReals t.length t) :
    let b := brfFeatures R.toReals t
    let x := xrsFeatures R.toReals memory t
    let fields := (brfFields R.toReals t).1
    (Accepted b.2 ↔ Accepted x.2) ∧ b.1 = fields.map Prod.fst ∧
      x.1.features.map Feature.content = ((fields.filter fun f => f.2 = none).map fun f => f.1.content) ∧
      x.1.id = ((fields.filterMap Prod.snd).getLast?).getD memory := by
  intro b x fields
  obtain ⟨hskip, hafter⟩ := fields_of_ends R (l := []) (s := ⟨memory, []⟩) h rfl ⟨rfl, rfl⟩
  have hbrf := star_brfFeat (R := R.toReals) t.length [] t
  refine ⟨?_, congrArg Prod.fst hbrf, hafter.features, hafter.id⟩
  have hrest : b.2 = some (star (token (brfField R.toReals) fun f fs => fs ++ [f]) t.length [] t).2 :=
    congrArg (fun r : List (Feature D) × Text => some r.2) hbrf
  have hrest' : x.2 = some (star (field R.toReals) t.length ⟨memory, []⟩ t).2 := rfl
  rw [hrest, hrest', Accepted, Accepted, Option.map_some, Option.map_some, hskip]

end

/-- Numbers of digits alone. -/
def RealParser.digits : RealParser Nat :=
  { Reals.digits with
    realP_word := fun t n r h => by
      have hread : readBelow (n + 1) t = some (n, r) := by
        show (readNat t).bind _ = _
        rw [show readNat t = some (n, r) from h, Option.bind_some, if_pos (Nat.lt_succ_self n)]
      obtain ⟨w, hw, _, hdigits⟩ := readBelow_word hread
      exact ⟨w, hw, fun c hc => isSpace_of_int (.inl (hdigits c hc))⟩ }

/-- An id, a string in braces, a number and a string with a number in it. -/
theorem features_agree_id :
    let t := "id=7 a=\x7b\x7b\x7bx y\x7d\x7d\x7d b=5 c=x5".toList
    (xrsFeatures Reals.digits 0 t).1.features.map Feature.content =
      [("a".toList, .inr "x y".toList), ("b".toList, .inl 5), ("c".toList, .inr "x5".toList)] ∧
      (xrsFeatures Reals.digits 0 t).1.id = 7 := by
  intro t
  obtain ⟨_, _, hfeatures, hid⟩ := features_agree RealParser.digits 0 t (by decide)
  exact ⟨hfeatures.trans (by decide), hid.trans (by decide)⟩

/-- The id is not a feature to `xrs_grammar`; and behind the number 5 it does not find a field. -/
theorem not_features_agree :
    ¬ ((Accepted (brfFeatures Reals.digits "id=7".toList).2 ↔ Accepted (xrsFeatures Reals.digits 0 "id=7".toList).2) ∧
      (brfFeatures Reals.digits "id=7".toList).1.map Feature.content =
        (xrsFeatures Reals.digits 0 "id=7".toList).1.features.map Feature.content) ∧
    ¬ ((Accepted (brfFeatures Reals.digits "a=5x".toList).2 ↔ Accepted (xrsFeatures Reals.digits 0 "a=5x".toList).2) ∧
      (brfFeatures Reals.digits "a=5x".toList).1.map Feature.content =
        (xrsFeatures Reals.digits 0 "a=5x".toList).1.features.map Feature.content) := by
  decide

end Sbmt.Xrs
