import Sbmt.Lib.Phrase

/-!
# Word alignments and their stoplist (`ghkm/xrs-extract/c++-src/Alignment.C:53-161`)

| here | there |
| --- | --- |
| `WordAlignment` | `Alignment` (`Alignment.h:37-105`); a set of words is a list without repetition, in order |
| `words` | the words that `>>` gives until the text ends |
| `atoi` | `atoi`; `none` for a number that no `int` holds, where its behaviour is undefined |
| `addLinks` | the loop over the alignment line (`:131-161`); `none` is an access before the start of a table |
| `WordAlignment.make` | the constructor (`:94-161`) |
| `deleteLink`, `deleteBadAlignments` | `delete_badalignments` (`:53-88`); the stoplist is a multimap from source to target words, `none` its assertion |

The loop over a word's links runs over those it had when it began.  Messages are left out.
-/

namespace Sbmt.Ghkm

open Sbmt.Lib Sbmt.Lib.Phrase List

structure WordAlignment where
  sourceToTarget : List (List Nat)
  targetToSource : List (List Nat)
  sourceWords : List Text
  targetWords : List Text
  bad : Bool
  nbAlignments : Int
deriving DecidableEq

/-- The pairs of words that are not to be linked. -/
abbrev Stoplist := List (Text × Text)

def words (t : Text) : List Text := (t.splitOnP isSpace).filter fun w => !w.isEmpty

def setInsert (x : Nat) (l : List Nat) : List Nat := if x ∈ l then l else l.orderedInsert (· ≤ ·) x

def setErase (x : Nat) (l : List Nat) : List Nat := l.filter fun y => decide (y ≠ x)

/-- The number in front, 0 if there is none. -/
def digitsValue (t : Text) : Nat := ((readNat t).map Prod.fst).getD 0

def atoi (t : Text) : Option Int :=
  let n : Int :=
    match t.dropWhile isSpace with
    | '-' :: t => -(digitsValue t : Int)
    | '+' :: t => digitsValue t
    | t => digitsValue t
  if -2 ^ 31 ≤ n ∧ n < 2 ^ 31 then some n else none

/-- The text up to the first `-`, and what follows it. -/
def splitDash (t : Text) : Option (Text × Text) :=
  match t.dropWhile fun c => decide (c ≠ '-') with
  | [] => none
  | _ :: r => some (t.takeWhile fun c => decide (c ≠ '-'), r)

/-- What `c_str` gives of a word. -/
def cStr (w : Text) : Text := w.takeWhile fun c => decide (c ≠ '\x00')

namespace WordAlignment

variable (a : WordAlignment)

def sourceTo (s : Nat) : List Nat := a.sourceToTarget.getD s []

def targetTo (t : Nat) : List Nat := a.targetToSource.getD t []

def getSourceWord (s : Nat) : Text := a.sourceWords.getD s []

def getTargetWord (t : Nat) : Text := a.targetWords.getD t []

def addLink (si ti : Nat) : WordAlignment :=
  { a with
    sourceToTarget := a.sourceToTarget.modify si (setInsert ti)
    targetToSource := a.targetToSource.modify ti (setInsert si)
    nbAlignments := a.nbAlignments + 1 }

def addLinks : List Text → WordAlignment → Option WordAlignment
  | [], a => some a
  | temp :: temps, a =>
    match splitDash temp with
    | none => some a
    | some (s, t) =>
      (atoi s).bind fun si => (atoi t).bind fun ti =>
        if si ≥ a.sourceToTarget.length then some { a with bad := true }
        else if ti ≥ a.targetToSource.length then some { a with bad := true }
        else if si < 0 ∨ ti < 0 then none
        else addLinks temps (a.addLink si.toNat ti.toNat)

def make (alignStr eStr cStr : Text) : Option WordAlignment :=
  let sourceWords := words eStr
  let targetWords := words cStr
  addLinks (words alignStr) ⟨replicate sourceWords.length [], replicate targetWords.length [], sourceWords,
    targetWords, false, 0⟩

/-- A link found on the stoplist. -/
def eraseLink (i j : Nat) (a : WordAlignment) : WordAlignment :=
  { a with
    sourceToTarget := a.sourceToTarget.modify i (setErase j)
    targetToSource := a.targetToSource.modify j (setErase i)
    nbAlignments := a.nbAlignments - 1 }

variable (badalign : Stoplist)

def deleteLink (i : Nat) (a : WordAlignment) (j : Nat) : WordAlignment :=
  if (a.targetTo j).length ≥ 1 then
    (badalign.filter fun p => decide (p.1 = cStr (a.getSourceWord i))).foldl
      (fun a it => if a.getTargetWord j = it.2 then a.eraseLink i j else a) a
  else a

def deleteBadAlignments : Option WordAlignment :=
  let a := (range a.sourceToTarget.length).foldl (fun a i => (a.sourceTo i).foldl (deleteLink badalign i) a) a
  if a.nbAlignments ≥ 0 then some (if a.nbAlignments = 0 then { a with bad := true } else a) else none

/-- `t` is linked to `s` in both tables. -/
def links : Finset (Nat × Nat) :=
  ((range a.sourceToTarget.length).flatMap fun s => (a.sourceTo s).map fun t => (s, t)).toFinset

/-- The two tables are inverse to each other, and the counter counts the links. -/
structure Consistent (a : WordAlignment) : Prop where
  inverse : ∀ s t, t ∈ a.sourceTo s ↔ s ∈ a.targetTo t
  count : a.nbAlignments = a.links.card

/-- What the constructor and `delete_badalignments` are to do. -/
def Right (made : Option WordAlignment) : Prop :=
  ∃ a, made = some a ∧ a.Consistent ∧ ∃ a', a.deleteBadAlignments badalign = some a' ∧ a'.Consistent ∧
    (∀ s t, (s, t) ∈ a'.links ↔ (s, t) ∈ a.links ∧ (a.getSourceWord s, a.getTargetWord t) ∉ badalign) ∧
    (a'.links = ∅ → a'.bad = true)

end WordAlignment

/-- The links of an alignment line, as far as it is read, and whether one is beyond the sentences. -/
def readLinks (n m : Nat) : List Text → Option (List (Nat × Nat) × Bool)
  | [] => some ([], false)
  | temp :: temps =>
    match splitDash temp with
    | none => some ([], false)
    | some (s, t) =>
      (atoi s).bind fun si => (atoi t).bind fun ti =>
        if si ≥ n ∨ ti ≥ m then some ([], true)
        else if si < 0 ∨ ti < 0 then none
        else (readLinks n m temps).map fun o => ((si.toNat, ti.toNat) :: o.1, o.2)

/-- How many entries of the stoplist are found for a link. -/
def stops (badalign : Stoplist) (e f : Text) : Nat := badalign.count (cStr e, f)

namespace WordAlignment

variable {a a' : WordAlignment} {L : Finset (Nat × Nat)} {badalign : Stoplist}

/-! ## The tables -/

theorem getD_modify {f : List Nat → List Nat} {l : List (List Nat)} {i : Nat} (hf : i < l.length ∨ f [] = []) (j : Nat) :
    (l.modify i f).getD j [] = if i = j then f (l.getD j []) else l.getD j [] := by
  rw [getD_eq_getElem?_getD, getElem?_modify, getD_eq_getElem?_getD]
  by_cases hij : i = j
  · subst hij
    rw [if_pos rfl]
    cases hl : l[i]? with
    | none =>
      rcases hf with hlt | hnil
      · exact absurd (List.getElem?_eq_none_iff.1 hl) (Nat.not_le_of_lt hlt)
      · exact hnil.symm
    | some row => exact if_pos rfl
  · rw [if_neg hij]
    cases l[j]? with
    | none => rfl
    | some row => exact if_neg hij

theorem mem_setInsert {x y : Nat} {l : List Nat} : y ∈ setInsert x l ↔ y = x ∨ y ∈ l := by
  unfold setInsert
  split
  · rename_i hx
    constructor
    · exact .inr
    · rintro (rfl | hy)
      · exact hx
      · exact hy
  · exact mem_orderedInsert _

theorem setInsert_nodup {x : Nat} {l : List Nat} (h : l.Nodup) : (setInsert x l).Nodup := by
  unfold setInsert
  split
  · exact h
  · rename_i hx
    exact (perm_orderedInsert _ x l).nodup_iff.2 (nodup_cons.2 ⟨hx, h⟩)

theorem mem_setErase {x y : Nat} {l : List Nat} : y ∈ setErase x l ↔ y ∈ l ∧ y ≠ x := by
  rw [setErase, mem_filter, decide_eq_true_eq]

/-- The links of both tables. -/
structure Tables (a : WordAlignment) (L : Finset (Nat × Nat)) : Prop where
  source : ∀ s t, t ∈ a.sourceTo s ↔ (s, t) ∈ L
  target : ∀ s t, s ∈ a.targetTo t ↔ (s, t) ∈ L
  nodup : ∀ s, (a.sourceTo s).Nodup

theorem Tables.links_eq (h : a.Tables L) : a.links = L := by
  ext ⟨s, t⟩
  rw [links, mem_toFinset, mem_flatMap, ← h.source]
  constructor
  · rintro ⟨s', -, hmem⟩
    obtain ⟨t', ht', heq⟩ := mem_map.1 hmem
    obtain ⟨rfl, rfl⟩ := Prod.mk.inj heq
    exact ht'
  · intro ht
    refine ⟨s, mem_range.2 ?_, mem_map.2 ⟨t, ht, rfl⟩⟩
    by_contra hge
    rw [sourceTo, getD_eq_default _ _ (Nat.le_of_not_lt hge)] at ht
    cases ht

theorem Tables.consistent_iff (h : a.Tables L) : a.Consistent ↔ a.nbAlignments = L.card := by
  constructor
  · intro hc
    rw [hc.count, h.links_eq]
  · intro hc
    refine ⟨fun s t => (h.source s t).trans (h.target s t).symm, ?_⟩
    rw [hc, h.links_eq]

theorem Tables.addLink (h : a.Tables L) {si ti : Nat} (hs : si < a.sourceToTarget.length)
    (ht : ti < a.targetToSource.length) : (a.addLink si ti).Tables (insert (si, ti) L) := by
  refine ⟨fun s t => ?_, fun s t => ?_, fun s => ?_⟩
  · show t ∈ (a.sourceToTarget.modify si (setInsert ti)).getD s [] ↔ _
    rw [getD_modify (.inl hs), Finset.mem_insert, Prod.mk.injEq]
    split
    · rename_i heq
      subst heq
      rw [mem_setInsert]
      exact or_congr (and_iff_right rfl).symm (h.source _ _)
    · rename_i hne
      rw [or_iff_right fun heq => hne heq.1.symm]
      exact h.source s t
  · show s ∈ (a.targetToSource.modify ti (setInsert si)).getD t [] ↔ _
    rw [getD_modify (.inl ht), Finset.mem_insert, Prod.mk.injEq]
    split
    · rename_i heq
      subst heq
      rw [mem_setInsert]
      exact or_congr (and_iff_left rfl).symm (h.target _ _)
    · rename_i hne
      rw [or_iff_right fun heq => hne heq.2.symm]
      exact h.target s t
  · show ((a.sourceToTarget.modify si (setInsert ti)).getD s []).Nodup
    rw [getD_modify (.inl hs)]
    split
    · exact setInsert_nodup (h.nodup s)
    · exact h.nodup s

theorem Tables.eraseLink (h : a.Tables L) (i j : Nat) : (a.eraseLink i j).Tables (L.erase (i, j)) := by
  have hnil : ∀ x, setErase x [] = [] := fun x => rfl
  refine ⟨fun s t => ?_, fun s t => ?_, fun s => ?_⟩
  · show t ∈ (a.sourceToTarget.modify i (setErase j)).getD s [] ↔ _
    rw [getD_modify (.inr (hnil j)), Finset.mem_erase, Ne, Prod.mk.injEq]
    split
    · rename_i heq
      subst heq
      rw [mem_setErase, and_comm]
      exact and_congr (not_congr (and_iff_right rfl).symm) (h.source _ _)
    · rename_i hne
      rw [and_iff_right fun heq => hne heq.1.symm]
      exact h.source s t
  · show s ∈ (a.targetToSource.modify j (setErase i)).getD t [] ↔ _
    rw [getD_modify (.inr (hnil i)), Finset.mem_erase, Ne, Prod.mk.injEq]
    split
    · rename_i heq
      subst heq
      rw [mem_setErase, and_comm]
      exact and_congr (not_congr (and_iff_left rfl).symm) (h.target _ _)
    · rename_i hne
      rw [and_iff_right fun heq => hne heq.2.symm]
      exact h.target s t
  · show ((a.sourceToTarget.modify i (setErase j)).getD s []).Nodup
    rw [getD_modify (.inr (hnil j))]
    split
    · exact (h.nodup s).filter _
    · exact h.nodup s

/-- Sizes and words are the same. -/
structure Same (a a' : WordAlignment) : Prop where
  sourceLength : a'.sourceToTarget.length = a.sourceToTarget.length
  targetLength : a'.targetToSource.length = a.targetToSource.length
  sourceWords : a'.sourceWords = a.sourceWords
  targetWords : a'.targetWords = a.targetWords

theorem Same.refl (a : WordAlignment) : Same a a := ⟨rfl, rfl, rfl, rfl⟩

theorem Same.trans {a'' : WordAlignment} (h : Same a a') (h' : Same a' a'') : Same a a'' :=
  ⟨h'.sourceLength.trans h.sourceLength, h'.targetLength.trans h.targetLength, h'.sourceWords.trans h.sourceWords,
    h'.targetWords.trans h.targetWords⟩

theorem Same.getSourceWord (h : Same a a') (s : Nat) : a'.getSourceWord s = a.getSourceWord s := by
  rw [WordAlignment.getSourceWord, h.sourceWords]
  rfl

theorem Same.getTargetWord (h : Same a a') (t : Nat) : a'.getTargetWord t = a.getTargetWord t := by
  rw [WordAlignment.getTargetWord, h.targetWords]
  rfl

theorem same_addLink (a : WordAlignment) (si ti : Nat) : Same a (a.addLink si ti) :=
  ⟨List.length_modify .., List.length_modify .., rfl, rfl⟩

theorem same_eraseLink (a : WordAlignment) (i j : Nat) : Same a (a.eraseLink i j) :=
  ⟨List.length_modify .., List.length_modify .., rfl, rfl⟩

/-! ## The constructor -/

theorem readLinks_lt {n m : Nat} {b : Bool} : ∀ {temps : List Text} {ls : List (Nat × Nat)},
    readLinks n m temps = some (ls, b) → ∀ p ∈ ls, p.1 < n ∧ p.2 < m
  | [], ls, h, p, hp => by
    cases h
    cases hp
  | temp :: temps, ls, h, p, hp => by
    rw [readLinks] at h
    split at h
    · cases h
      cases hp
    · obtain ⟨si, -, h⟩ := Option.bind_eq_some_iff.1 h
      obtain ⟨ti, -, h⟩ := Option.bind_eq_some_iff.1 h
      split at h
      · cases h
        cases hp
      · split at h
        · cases h
        · obtain ⟨⟨ls', b'⟩, hread, heq⟩ := Option.map_eq_some_iff.1 h
          obtain ⟨rfl, rfl⟩ := Prod.mk.inj heq
          rcases mem_cons.1 hp with rfl | hp
          · omega
          · exact readLinks_lt hread p hp

theorem addLinks_eq : ∀ (temps : List Text) (a : WordAlignment), addLinks temps a =
    (readLinks a.sourceToTarget.length a.targetToSource.length temps).map fun o =>
      let a' := o.1.foldl (fun a p => a.addLink p.1 p.2) a
      if o.2 then { a' with bad := true } else a'
  | [], a => rfl
  | temp :: temps, a => by
    rw [addLinks, readLinks]
    cases splitDash temp with
    | none => rfl
    | some st =>
      dsimp only
      cases atoi st.1 with
      | none => rfl
      | some si =>
        cases atoi st.2 with
        | none => rfl
        | some ti =>
          rw [Option.bind_some, Option.bind_some, Option.bind_some, Option.bind_some]
          by_cases hs : si ≥ a.sourceToTarget.length
          · rw [if_pos hs, if_pos (.inl hs)]
            rfl
          · rw [if_neg hs]
            by_cases ht : ti ≥ a.targetToSource.length
            · rw [if_pos ht, if_pos (.inr ht)]
              rfl
            · rw [if_neg ht, if_neg (not_or.2 ⟨hs, ht⟩)]
              by_cases hneg : si < 0 ∨ ti < 0
              · rw [if_pos hneg, if_pos hneg]
                rfl
              · have hsame := same_addLink a si.toNat ti.toNat
                rw [if_neg hneg, if_neg hneg, addLinks_eq temps, hsame.sourceLength, hsame.targetLength, Option.map_map]
                rfl

theorem Tables.addAll : ∀ (ls : List (Nat × Nat)) {a : WordAlignment} {L : Finset (Nat × Nat)}, a.Tables L →
    (∀ p ∈ ls, p.1 < a.sourceToTarget.length ∧ p.2 < a.targetToSource.length) →
    let a' := ls.foldl (fun a p => a.addLink p.1 p.2) a
    a'.Tables (L ∪ ls.toFinset) ∧ a'.nbAlignments = a.nbAlignments + ls.length ∧ Same a a'
  | [], a, L, h, _ => by
    refine ⟨?_, (add_zero _).symm, .refl a⟩
    rw [toFinset_nil, Finset.union_empty]
    exact h
  | p :: ls, a, L, h, hls => by
    have hp := hls p mem_cons_self
    have hsame := same_addLink a p.1 p.2
    obtain ⟨htables, hcount, hsame'⟩ := Tables.addAll ls (h.addLink hp.1 hp.2) fun q hq => by
      rw [hsame.sourceLength, hsame.targetLength]
      exact hls q (mem_cons_of_mem p hq)
    rw [foldl_cons]
    refine ⟨?_, ?_, hsame.trans hsame'⟩
    · rw [toFinset_cons, Finset.union_insert, ← Finset.insert_union]
      exact htables
    · rw [hcount, length_cons]
      show a.nbAlignments + 1 + (ls.length : Int) = _
      push_cast
      ring

/-! ## The stoplist -/

/-- How many entries are found for the link `p`. -/
def stopsOf (badalign : Stoplist) (a : WordAlignment) (p : Nat × Nat) : Nat :=
  stops badalign (a.getSourceWord p.1) (a.getTargetWord p.2)

theorem Same.stopsOf (h : Same a a') (p : Nat × Nat) : stopsOf badalign a' p = stopsOf badalign a p := by
  rw [WordAlignment.stopsOf, h.getSourceWord, h.getTargetWord]
  rfl

theorem Tables.eraseEntries {i j : Nat} : ∀ (l : Stoplist) {a : WordAlignment} {L : Finset (Nat × Nat)}, a.Tables L →
    let a' := l.foldl (fun a it => if a.getTargetWord j = it.2 then a.eraseLink i j else a) a
    let k := l.countP fun it => decide (a.getTargetWord j = it.2)
    a'.Tables (if k = 0 then L else L.erase (i, j)) ∧ a'.nbAlignments = a.nbAlignments - k ∧ Same a a'
  | [], a, L, h => ⟨h, (sub_zero _).symm, .refl a⟩
  | it :: l, a, L, h => by
    rw [foldl_cons]
    by_cases hit : a.getTargetWord j = it.2
    · have hsame := same_eraseLink a i j
      obtain ⟨htables, hcount, hsame'⟩ := Tables.eraseEntries l (h.eraseLink i j)
      rw [if_pos hit, countP_cons_of_pos (by rw [decide_eq_true hit])]
      simp only [hsame.getTargetWord] at htables hcount
      refine ⟨?_, ?_, hsame.trans hsame'⟩
      · split at htables
        · exact htables
        · rw [Finset.erase_idem] at htables
          exact htables
      · rw [hcount]
        show a.nbAlignments - 1 - _ = _
        push_cast
        ring
    · rw [if_neg hit, countP_cons_of_neg (by rw [decide_eq_false hit]; exact Bool.false_ne_true)]
      exact Tables.eraseEntries l h

theorem countP_stops (e f : Text) :
    (badalign.filter fun p => decide (p.1 = cStr e)).countP (fun it => decide (f = it.2)) = stops badalign e f := by
  rw [countP_filter]
  refine countP_congr fun p _ => ?_
  rw [Bool.and_eq_true, decide_eq_true_eq, decide_eq_true_eq, beq_iff_eq, Prod.ext_iff]
  constructor
  · exact fun h => ⟨h.2, h.1.symm⟩
  · exact fun h => ⟨h.2.symm, h.1⟩

variable (badalign) in
theorem Tables.deleteLink (h : a.Tables L) {i j : Nat} (hij : (i, j) ∈ L) :
    (a.deleteLink badalign i j).Tables (if stopsOf badalign a (i, j) = 0 then L else L.erase (i, j)) ∧
      (a.deleteLink badalign i j).nbAlignments = a.nbAlignments - stopsOf badalign a (i, j) ∧
      Same a (a.deleteLink badalign i j) := by
  have hlen : (a.targetTo j).length ≥ 1 := length_pos_of_mem ((h.target i j).2 hij)
  have herase := h.eraseEntries (i := i) (j := j) (badalign.filter fun p => decide (p.1 = cStr (a.getSourceWord i)))
  dsimp only at herase
  rw [countP_stops] at herase
  rw [WordAlignment.deleteLink, if_pos hlen]
  exact herase

/-- The links that are left when those in `P` have been looked at. -/
def leftOf (badalign : Stoplist) (a : WordAlignment) (L : Finset (Nat × Nat)) (P : Nat × Nat → Prop) [DecidablePred P] :
    Finset (Nat × Nat) :=
  L.filter fun p => P p → stopsOf badalign a p = 0

variable (badalign) in
theorem Tables.deleteRow {i : Nat} : ∀ (js : List Nat) {a : WordAlignment} {L : Finset (Nat × Nat)}, a.Tables L → js.Nodup →
    (∀ j ∈ js, (i, j) ∈ L) →
    let a' := js.foldl (WordAlignment.deleteLink badalign i) a
    a'.Tables (leftOf badalign a L fun p => p.1 = i ∧ p.2 ∈ js) ∧
      a'.nbAlignments = a.nbAlignments - (js.map fun j => stopsOf badalign a (i, j)).sum ∧ Same a a'
  | [], a, L, h, _, _ => by
    refine ⟨?_, (sub_zero _).symm, .refl a⟩
    rw [leftOf, Finset.filter_true_of_mem fun p _ hp => absurd hp.2 not_mem_nil]
    exact h
  | j :: js, a, L, h, hnodup, hjs => by
    obtain ⟨hj, hnodup⟩ := nodup_cons.1 hnodup
    obtain ⟨htables, hcount, hsame⟩ := h.deleteLink badalign (hjs j mem_cons_self)
    have hrest : ∀ j' ∈ js, (i, j') ∈ (if stopsOf badalign a (i, j) = 0 then L else L.erase (i, j)) := by
      intro j' hj'
      have hmem := hjs j' (mem_cons_of_mem j hj')
      split
      · exact hmem
      · refine Finset.mem_erase.2 ⟨fun heq => hj ?_, hmem⟩
        rw [← (Prod.mk.inj heq).2]
        exact hj'
    obtain ⟨htables', hcount', hsame'⟩ := Tables.deleteRow js htables hnodup hrest
    rw [foldl_cons]
    refine ⟨?_, ?_, hsame.trans hsame'⟩
    · convert htables' using 1
      ext ⟨s, t⟩
      simp only [leftOf, Finset.mem_filter, hsame.stopsOf, mem_cons]
      by_cases hst : s = i ∧ t = j
      · obtain ⟨rfl, rfl⟩ := hst
        by_cases hzero : stopsOf badalign a (s, t) = 0
        · rw [if_pos hzero]
          simp [hzero]
        · rw [if_neg hzero]
          simp [hzero]
      · have hmem : (s, t) ∈ (if stopsOf badalign a (i, j) = 0 then L else L.erase (i, j)) ↔ (s, t) ∈ L := by
          split
          · exact Iff.rfl
          · rw [Finset.mem_erase, Ne, Prod.mk.injEq]
            exact and_iff_right hst
        rw [hmem]
        refine and_congr_right fun _ => imp_congr_left (and_congr_right fun hs => ?_)
        exact or_iff_right fun ht => hst ⟨hs, ht⟩
    · rw [hcount', hcount, map_cons, sum_cons]
      simp only [hsame.stopsOf]
      push_cast
      ring

variable (badalign) in
theorem Tables.deleteRows (h : a.Tables L) : ∀ k : Nat,
    let a' := (range k).foldl (fun a i => (a.sourceTo i).foldl (WordAlignment.deleteLink badalign i) a) a
    a'.Tables (leftOf badalign a L fun p => p.1 < k) ∧
      a'.nbAlignments = a.nbAlignments - ∑ p ∈ L.filter (fun p => p.1 < k), stopsOf badalign a p ∧ Same a a'
  | 0 => by
    refine ⟨?_, ?_, .refl a⟩
    · rw [leftOf, Finset.filter_true_of_mem fun p _ hp => absurd hp (Nat.not_lt_zero _)]
      exact h
    · rw [Finset.filter_false_of_mem fun p _ => Nat.not_lt_zero _, Finset.sum_empty]
      exact (sub_zero _).symm
  | k + 1 => by
    obtain ⟨htables, hcount, hsame⟩ := Tables.deleteRows h k
    rw [range_succ, foldl_append, foldl_cons, foldl_nil]
    generalize (range k).foldl (fun a i => (a.sourceTo i).foldl (WordAlignment.deleteLink badalign i) a) a = a1 at *
    have hrow : ∀ j, j ∈ a1.sourceTo k ↔ (k, j) ∈ L := by
      intro j
      rw [htables.source, leftOf, Finset.mem_filter]
      exact and_iff_left fun hlt => absurd hlt (Nat.lt_irrefl k)
    obtain ⟨htables', hcount', hsame'⟩ := htables.deleteRow badalign (i := k) (a1.sourceTo k)
      (htables.nodup k) fun j hj => (htables.source k j).1 hj
    refine ⟨?_, ?_, hsame.trans hsame'⟩
    · convert htables' using 1
      ext ⟨s, t⟩
      simp only [leftOf, Finset.mem_filter, hsame.stopsOf, hrow, Nat.lt_succ_iff_lt_or_eq]
      constructor
      · rintro ⟨hmem, hzero⟩
        exact ⟨⟨hmem, fun hs => hzero (.inl hs)⟩, fun hs => hzero (.inr hs.1)⟩
      · rintro ⟨⟨hmem, hbefore⟩, hat⟩
        refine ⟨hmem, fun hs => ?_⟩
        rcases hs with hs | rfl
        · exact hbefore hs
        · exact hat ⟨rfl, hmem⟩
    · rw [hcount', hcount]
      simp only [hsame.stopsOf]
      -- the row, as a part of all links
      have hsplit : L.filter (fun p => p.1 < k + 1) =
          L.filter (fun p => p.1 < k) ∪ (a1.sourceTo k).toFinset.image fun j => (k, j) := by
        ext ⟨s, t⟩
        simp only [Finset.mem_union, Finset.mem_filter, Finset.mem_image, mem_toFinset, hrow, Prod.mk.injEq,
          Nat.lt_succ_iff_lt_or_eq]
        constructor
        · rintro ⟨hmem, hs | rfl⟩
          · exact .inl ⟨hmem, hs⟩
          · exact .inr ⟨t, hmem, rfl, rfl⟩
        · rintro (⟨hmem, hs⟩ | ⟨j, hmem, rfl, rfl⟩)
          · exact ⟨hmem, .inl hs⟩
          · exact ⟨hmem, .inr rfl⟩
      have hdisj : Disjoint (L.filter fun p => p.1 < k) ((a1.sourceTo k).toFinset.image fun j => (k, j)) := by
        rw [Finset.disjoint_left]
        rintro p hp hp'
        obtain ⟨j, -, rfl⟩ := Finset.mem_image.1 hp'
        exact Nat.lt_irrefl k (Finset.mem_filter.1 hp).2
      rw [hsplit, Finset.sum_union hdisj, Finset.sum_image fun j _ j' _ heq => (Prod.mk.inj heq).2,
        sum_toFinset _ (htables.nodup k)]
      push_cast
      ring

variable (badalign) in
/-- All links that have an entry are deleted, and as many are counted as there are entries. -/
theorem Tables.deleteAll (h : a.Tables L) :
    let a' := (range a.sourceToTarget.length).foldl
      (fun a i => (a.sourceTo i).foldl (WordAlignment.deleteLink badalign i) a) a
    a'.Tables (L.filter fun p => stopsOf badalign a p = 0) ∧
      a'.nbAlignments = a.nbAlignments - ∑ p ∈ L, stopsOf badalign a p ∧ Same a a' := by
  have hlt : ∀ p ∈ L, p.1 < a.sourceToTarget.length := by
    rintro ⟨s, t⟩ hp
    by_contra hge
    rw [← h.source, sourceTo, getD_eq_default _ _ (Nat.le_of_not_lt hge)] at hp
    cases hp
  obtain ⟨htables, hcount, hsame⟩ := h.deleteRows badalign a.sourceToTarget.length
  refine ⟨?_, ?_, hsame⟩
  · convert htables using 1
    exact Finset.filter_congr fun p hp => (imp_iff_right (hlt p hp)).symm
  · rw [hcount, Finset.filter_true_of_mem hlt]

/-! ## When counter and tables agree -/

/-- Deleting keeps to the stoplist and the counter exactly if each link has one entry where its words are on it, else
none. -/
theorem Tables.delete_right_iff (h : a.Tables L) (hcount : a.nbAlignments = L.card) :
    (∃ a', a.deleteBadAlignments badalign = some a' ∧ a'.Consistent ∧
      (∀ s t, (s, t) ∈ a'.links ↔ (s, t) ∈ a.links ∧ (a.getSourceWord s, a.getTargetWord t) ∉ badalign) ∧
      (a'.links = ∅ → a'.bad = true)) ↔
    ∀ p ∈ L, stopsOf badalign a p = if (a.getSourceWord p.1, a.getTargetWord p.2) ∈ badalign then 1 else 0 := by
  obtain ⟨htables, hnb, -⟩ := h.deleteAll badalign
  unfold deleteBadAlignments
  dsimp only
  generalize (range a.sourceToTarget.length).foldl
    (fun a i => (a.sourceTo i).foldl (WordAlignment.deleteLink badalign i) a) a = a1 at *
  -- the final `bad` is neither in the tables nor in the counter
  have hbad : ∀ a' : WordAlignment, (if a1.nbAlignments = 0 then { a1 with bad := true } else a1) = a' →
      a'.Tables (L.filter fun p => stopsOf badalign a p = 0) ∧ a'.nbAlignments = a1.nbAlignments := by
    rintro a' rfl
    split
    · exact ⟨⟨htables.source, htables.target, htables.nodup⟩, rfl⟩
    · exact ⟨htables, rfl⟩
  have hcard := Finset.card_filter_add_card_filter_not (s := L) (p := fun p => stopsOf badalign a p = 0)
  have hnot : (L.filter fun p => ¬ stopsOf badalign a p = 0).card =
      ∑ p ∈ L, if stopsOf badalign a p = 0 then 0 else 1 := by
    rw [Finset.card_filter]
    refine Finset.sum_congr rfl fun p _ => ?_
    by_cases hzero : stopsOf badalign a p = 0
    · rw [if_neg (not_not.2 hzero), if_pos hzero]
    · rw [if_pos hzero, if_neg hzero]
  have hle : ∀ p ∈ L, (if stopsOf badalign a p = 0 then 0 else 1) ≤ stopsOf badalign a p := by
    intro p _
    split
    · exact Nat.zero_le _
    · omega
  constructor
  · rintro ⟨a', hrun, hcons, hlinks, -⟩ p hp
    split at hrun
    · obtain ⟨htables', hnb'⟩ := hbad a' (Option.some.inj hrun)
      have hfew := htables'.consistent_iff.1 hcons
      have hsum : (∑ p ∈ L, if stopsOf badalign a p = 0 then 0 else 1) = ∑ p ∈ L, stopsOf badalign a p := by
        omega
      have hone := (Finset.sum_eq_sum_iff_of_le hle).1 hsum p hp
      have hmem := hlinks p.1 p.2
      rw [htables'.links_eq, h.links_eq, Finset.mem_filter, and_congr_right_iff] at hmem
      have hiff : stopsOf badalign a p = 0 ↔ (a.getSourceWord p.1, a.getTargetWord p.2) ∉ badalign := hmem hp
      rw [← hone]
      by_cases hzero : stopsOf badalign a p = 0
      · rw [if_pos hzero, if_neg (hiff.1 hzero)]
      · rw [if_neg hzero, if_pos (not_not.1 fun hno => hzero (hiff.2 hno))]
    · cases hrun
  · intro hone
    have hzero : ∀ p ∈ L, stopsOf badalign a p = 0 ↔ (a.getSourceWord p.1, a.getTargetWord p.2) ∉ badalign := by
      intro p hp
      rw [hone p hp]
      split
      · rename_i hon
        exact iff_of_false one_ne_zero (not_not.2 hon)
      · rename_i hoff
        exact iff_of_true rfl hoff
    have hsum : (∑ p ∈ L, if stopsOf badalign a p = 0 then 0 else 1) = ∑ p ∈ L, stopsOf badalign a p := by
      refine Finset.sum_congr rfl fun p hp => ?_
      have hp1 := hone p hp
      split
      · rename_i hz
        exact hz.symm
      · rename_i hz
        split at hp1
        · exact hp1.symm
        · exact absurd hp1 hz
    have hfew : a1.nbAlignments = (L.filter fun p => stopsOf badalign a p = 0).card := by
      omega
    refine ⟨_, if_pos (by rw [hfew]; exact Int.natCast_nonneg _), ?_, ?_, ?_⟩
    · obtain ⟨htables', hnb'⟩ := hbad _ rfl
      exact htables'.consistent_iff.2 (hnb'.trans hfew)
    · intro s t
      obtain ⟨htables', -⟩ := hbad _ rfl
      rw [htables'.links_eq, h.links_eq, Finset.mem_filter]
      exact and_congr_right fun hp => hzero (s, t) hp
    · intro hempty
      obtain ⟨htables', -⟩ := hbad _ rfl
      rw [htables'.links_eq] at hempty
      have hnone : a1.nbAlignments = 0 := by rw [hfew, hempty, Finset.card_empty, Nat.cast_zero]
      rw [if_pos hnone]

/-- What a line says of two sentences, read without an access outside of the tables: each link once, and each link whose
words are on the stoplist found once there, the others not at all. -/
def LinkedOnce (badalign : Stoplist) (alignStr eStr cStr : Text) : Prop :=
  ∃ ls b, readLinks (words eStr).length (words cStr).length (words alignStr) = some (ls, b) ∧ ls.Nodup ∧
    ∀ p ∈ ls, stops badalign ((words eStr).getD p.1 []) ((words cStr).getD p.2 []) =
      if ((words eStr).getD p.1 [], (words cStr).getD p.2 []) ∈ badalign then 1 else 0

/-- **Tables and counter agree after the constructor and after the deletion, and just the links on the stoplist are
deleted, exactly if no link of the line is repeated and none is on the stoplist twice.** -/
theorem make_right_iff (badalign : Stoplist) (alignStr eStr cStr : Text) :
    Right badalign (make alignStr eStr cStr) ↔ LinkedOnce badalign alignStr eStr cStr := by
  unfold make LinkedOnce Right
  rw [addLinks_eq, length_replicate, length_replicate]
  cases hread : readLinks (words eStr).length (words cStr).length (words alignStr) with
  | none =>
    refine iff_of_false ?_ ?_
    · rintro ⟨a, ha, -⟩
      cases ha
    · rintro ⟨ls, b, hls, -⟩
      cases hls
  | some o =>
    obtain ⟨ls, b⟩ := o
    have hempty : ∀ n s : Nat, (replicate n ([] : List Nat)).getD s [] = [] := by
      intro n s
      rw [getD_eq_getElem?_getD, getElem?_replicate]
      split
      · rfl
      · rfl
    have hstart : Tables ⟨replicate (words eStr).length [], replicate (words cStr).length [], words eStr,
        words cStr, false, 0⟩ ∅ := by
      refine ⟨fun s t => ?_, fun s t => ?_, fun s => ?_⟩
      · rw [sourceTo, hempty]
        exact iff_of_false not_mem_nil (Finset.notMem_empty _)
      · rw [targetTo, hempty]
        exact iff_of_false not_mem_nil (Finset.notMem_empty _)
      · rw [sourceTo, hempty]
        exact nodup_nil
    obtain ⟨htables, hcount, hsame⟩ := hstart.addAll ls fun p hp => by
      rw [length_replicate, length_replicate]
      exact readLinks_lt hread p hp
    rw [Option.map_some]
    generalize ls.foldl (fun (a : WordAlignment) (p : Nat × Nat) => a.addLink p.1 p.2) _ = a1 at htables hcount hsame ⊢
    have hmade : ∃ a, (if b then { a1 with bad := true } else a1) = a ∧ a.Tables ls.toFinset ∧
        a.nbAlignments = ls.length ∧ a.sourceWords = words eStr ∧ a.targetWords = words cStr := by
      refine ⟨_, rfl, ?_⟩
      rw [zero_add] at hcount
      split
      · exact ⟨⟨htables.source, htables.target, htables.nodup⟩, hcount, hsame.sourceWords, hsame.targetWords⟩
      · exact ⟨htables, hcount, hsame.sourceWords, hsame.targetWords⟩
    obtain ⟨a, ha, htables, hcount, hsource, htarget⟩ := hmade
    rw [ha]
    have hword : ∀ p : Nat × Nat, stopsOf badalign a p = stops badalign ((words eStr).getD p.1 []) ((words cStr).getD p.2 []) ∧
        a.getSourceWord p.1 = (words eStr).getD p.1 [] ∧ a.getTargetWord p.2 = (words cStr).getD p.2 [] := by
      intro p
      rw [stopsOf, getSourceWord, getTargetWord, hsource, htarget]
      exact ⟨rfl, rfl, rfl⟩
    have hnodup : a.Consistent ↔ ls.Nodup := by
      rw [htables.consistent_iff, hcount, Nat.cast_inj, eq_comm]
      exact Multiset.toFinset_card_eq_card_iff_nodup (m := (ls : Multiset (Nat × Nat)))
    constructor
    · rintro ⟨a2, ha2, hcons, hdelete⟩
      obtain rfl := Option.some.inj ha2
      have hfew : a.nbAlignments = ls.toFinset.card := htables.consistent_iff.1 hcons
      refine ⟨ls, b, rfl, hnodup.1 hcons, fun p hp => ?_⟩
      have hone := (htables.delete_right_iff hfew).1 hdelete p (mem_toFinset.2 hp)
      rwa [(hword p).1, (hword p).2.1, (hword p).2.2] at hone
    · rintro ⟨ls', b', hls', hls, hone⟩
      obtain ⟨rfl, rfl⟩ := Prod.mk.inj (Option.some.inj hls')
      have hcons := hnodup.2 hls
      refine ⟨a, rfl, hcons, (htables.delete_right_iff (htables.consistent_iff.1 hcons)).2 fun p hp => ?_⟩
      rw [(hword p).1, (hword p).2.1, (hword p).2.2]
      exact hone p (mem_toFinset.1 hp)

/-- One link written twice, with its words on the stoplist: nothing is left, and one link is still counted. -/
theorem not_right_repeated : ¬ Right [(['t', 'h', 'e'], ['d', 'e'])]
    (make "0-0 0-0".toList ['t', 'h', 'e'] ['d', 'e']) := by
  rintro ⟨a, ha, hcons, -⟩
  have hmake : make "0-0 0-0".toList ['t', 'h', 'e'] ['d', 'e'] =
      some ⟨[[0]], [[0]], [['t', 'h', 'e']], [['d', 'e']], false, 2⟩ := by decide
  obtain rfl := Option.mem_unique ha hmake
  have hlinks : links ⟨[[0]], [[0]], [['t', 'h', 'e']], [['d', 'e']], false, 2⟩ = {(0, 0)} := by decide
  have hcount := hcons.count
  rw [hlinks] at hcount
  exact absurd hcount (by decide)

end WordAlignment

end Sbmt.Ghkm
