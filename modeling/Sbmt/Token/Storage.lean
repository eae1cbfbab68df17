import Sbmt.Grammar.Dictionary
import Sbmt.Hash.OaHashtable

/-!
# `in_memory_token_storage`

| here | there |
| --- | --- |
| `Storage` | `in_memory_token_storage` (`token/in_memory_token_storage.hpp:21-146`); `vecRef` is the `vec_ref` of the hash table's `key_extractor` |
| `Store` | the storages, by their addresses |
| `Store.keys` | `key_extractor::operator()` with `boost::hash` and `equal_to` |
| `pushBack`, `shrink`, `getIndex`, `findIndex`, `reset`, `swap` | `src/in_memory_token_storage.cpp:30-106` |

The hash table holds indices and asks the vector for the keys, through a pointer.  `swap` exchanges tables and vectors
and must leave the pointers (`in_memory_token_storage.hpp:136-144`).

`none` is a failed assertion or an exception of the hash table; a call that throws returns its message.

A storage in order (`Good`) is a list of strings without repetitions, `TokenStorage`, and its operations are those of
that list.
-/

namespace Sbmt.Token

open Sbmt.Lib Sbmt.Hash Sbmt.Grammar List Function

structure Storage (A : Type) where
  tokens : List String
  dictHash : OaTable Nat
  vecRef : A

abbrev Store (A : Type) := A → Storage A

/-- `SBMT_DICTIONARY_INITIAL_SIZE` -/
def initialSize : Nat := 10000

/-- What `std::string(t.c_str())` keeps of a string. -/
def cStr (t : String) : String := String.ofList (t.toList.takeWhile fun c => c ≠ Char.ofNat 0)

/-- The keys of a table whose values are indices of `tokens`. -/
def indexKeys (hash : String → Nat) (tokens : List String) : KeyTraits Nat String where
  extractKey idx := tokens.getD idx ""
  hashKey := hash
  equalKeys := (· == ·)

section

variable {A : Type} (hash : String → Nat) (lf : LoadFactor) (m : Store A)

def Store.keys (a : A) : KeyTraits Nat String := indexKeys hash (m (m a).vecRef).tokens

def Store.getToken (a : A) (idx : Nat) : Option String := (m a).tokens[idx]?

/-- `dict_hash.find` -/
def Store.findIndex (a : A) (tok : String) : Option (Option Nat) :=
  OaHashtable.find (m.keys hash a) (m a).dictHash tok

/-- `get_index` of a storage that is not to change. -/
def Store.getIndexConst (a : A) (tok : String) : Option (Except String Nat) :=
  (m.findIndex hash a tok).map fun pos =>
    match pos with
    | some idx => .ok idx
    | none => .error ("attempted to retrieve non-existent index from const token_storage for token '" ++ tok ++ "'")

variable [DecidableEq A] (m : Store A)

def Store.pushBack (a : A) (t : String) : Option (Nat × Store A) :=
  let newi := (m a).tokens.length
  let m' : Store A := update m a { m a with tokens := (m a).tokens ++ [cStr t] }
  (OaHashtable.insert (m'.keys hash a) lf (m' a).dictHash newi).map fun r =>
    (newi, update m' a { m' a with dictHash := r.1 })

def Store.getIndex (a : A) (tok : String) : Option (Nat × Store A) :=
  (m.findIndex hash a tok).bind fun pos =>
    match pos with
    | some idx => some (idx, m)
    | none => m.pushBack hash lf a tok

/-- The entries go before the strings that are their keys. -/
def Store.shrink (a : A) (newEnd : Nat) : Option (Store A) :=
  if newEnd ≤ (m a).tokens.length then
    ((range' newEnd ((m a).tokens.length - newEnd)).foldlM
      (fun tbl i => (OaHashtable.erase (m.keys hash a) tbl ((m a).tokens.getD i "")).map Prod.fst) (m a).dictHash).map
      fun tbl => update m a { m a with tokens := (m a).tokens.take newEnd, dictHash := tbl }
  else none

def Store.reset (a : A) : Store A :=
  update m a { m a with tokens := [], dictHash := (m a).dictHash.clear }

/-- `swap` of two key extractors: nothing. -/
def swapKeyExtractors (k₁ k₂ : A) : A × A := (k₁, k₂)

def Store.swap (a b : A) : Store A :=
  let refs := swapKeyExtractors (m a).vecRef (m b).vecRef
  update (update m a ⟨(m b).tokens, (m b).dictHash, refs.1⟩) b ⟨(m a).tokens, (m a).dictHash, refs.2⟩

end

/-! ## How large the table gets -/

/-- What the load factor of 0.75 gives where it matters: the first capacity, the size of the table for the largest one,
and that a table of that size is never half full. -/
structure ThreeQuarters (lf : LoadFactor) : Prop where
  scale_initial : lf.scale 12289 = 9216
  stretch_large : 3221225473 < lf.stretch 2416181247
  sparse_large : ∀ count < 2 ^ 30, lf.sparse count 4294967291 = true

/-- The capacity has been doubled some times; the last time the table is as large as the primes allow. -/
def Sized (tbl : OaTable Nat) : Prop :=
  ∃ i ≤ 18, tbl.maxNonEmpty + 1 = 9217 * 2 ^ i ∧ (i = 18 → tbl.size = 4294967291)

theorem oaNextPrime_large {n : Nat} (hn : 3221225473 < n) : oaNextPrime n = 4294967291 := by
  have hlast : ∀ p ∈ oaPrimeList, 3221225473 < p → p = 4294967291 := by decide
  unfold oaNextPrime
  cases h : oaPrimeList.find? (n ≤ ·) with
  | none => rfl
  | some p =>
    have hle : n ≤ p := by simpa using find?_some h
    exact hlast p (mem_of_find?_eq_some h) (hn.trans_le hle)

section

variable {lf : LoadFactor} {tbl tbl' : OaTable Nat}

theorem Sized.of_sameSize (h : Sized tbl) (hsame : OaHashtable.SameSize tbl tbl') : Sized tbl' := by
  unfold Sized
  rwa [hsame.1, hsame.2]

/-- The largest table is rehashed, never outgrown. -/
theorem Sized.roomy (h : Sized tbl) (hlf : ThreeQuarters lf) (hfew : tbl.numOccupied + 1 < 2 ^ 30) :
    OaHashtable.Roomy lf tbl ∨ ∃ i < 18, tbl.maxNonEmpty + 1 = 9217 * 2 ^ i := by
  obtain ⟨i, hi, hmax, hsize⟩ := h
  rcases Nat.lt_or_eq_of_le hi with hlt | rfl
  · exact .inr ⟨i, hlt, hmax⟩
  · refine .inl ⟨by omega, ?_⟩
    rw [hsize rfl]
    exact hlf.sparse_large _ hfew

theorem Sized.room (h : Sized tbl) (hlf : ThreeQuarters lf) (hfew : tbl.numOccupied + 1 < 2 ^ 30) :
    OaHashtable.Roomy lf tbl ∨ 2 * tbl.maxNonEmpty + 2 ≤ 4294967291 := by
  refine (h.roomy hlf hfew).imp_right ?_
  rintro ⟨i, hi, hmax⟩
  have hpow : 2 ^ i ≤ 2 ^ 17 := Nat.pow_le_pow_right two_pos (Nat.le_of_lt_succ hi)
  omega

theorem Sized.grow (h : Sized tbl) (hlf : ThreeQuarters lf) (hfew : tbl.numOccupied + 1 < 2 ^ 30)
    (hroomy : ¬ OaHashtable.Roomy lf tbl) (hmax' : tbl'.maxNonEmpty = 2 * tbl.maxNonEmpty + 1)
    (hsize' : tbl'.size = OaHashtable.grownSize lf (2 * tbl.maxNonEmpty + 1)) : Sized tbl' := by
  obtain ⟨i, hi, hmax⟩ := (h.roomy hlf hfew).resolve_left hroomy
  refine ⟨i + 1, hi, by rw [hmax']; omega, ?_⟩
  intro hlast
  obtain rfl : i = 17 := Nat.succ.inj hlast
  have hcap : 2 * tbl.maxNonEmpty + 1 = 2416181247 := by omega
  rw [hsize', hcap, OaHashtable.grownSize, oaNextPrime_large hlf.stretch_large, if_neg (by decide)]

end

/-! ## A storage in order -/

structure Good {A : Type} (hash : String → Nat) (a : A) (c : Storage A) : Prop where
  own : c.vecRef = a
  nodup : c.tokens.Nodup
  refines : OaHashtable.Refines (indexKeys hash c.tokens) c.dictHash (range c.tokens.length)
  sized : Sized c.dictHash

/-- The list it is. -/
def Good.view {A : Type} {hash : String → Nat} {a : A} {c : Storage A} (h : Good hash a c) : TokenStorage :=
  ⟨c.tokens, h.nodup⟩

section

variable {A : Type} {hash : String → Nat} {lf : LoadFactor} {m : Store A} {a : A} {t : String}

theorem indexKeys_equality (hash : String → Nat) (tokens : List String) :
    KeyEquality (indexKeys hash tokens).equalKeys (indexKeys hash tokens).hashKey where
  refl s := beq_self_eq_true s
  symm h := beq_iff_eq.2 (beq_iff_eq.1 h).symm
  trans h h' := beq_iff_eq.2 ((beq_iff_eq.1 h).trans (beq_iff_eq.1 h'))
  hash_eq h := congrArg hash (beq_iff_eq.1 h)

theorem Good.keys (h : Good hash a (m a)) : m.keys hash a = indexKeys hash (m a).tokens := by
  unfold Store.keys
  rw [h.own]

theorem Good.numOccupied (h : Good hash a (m a)) : (m a).dictHash.numOccupied = (m a).tokens.length := by
  rw [h.refines.inv.occupied, h.refines.values.length_eq, length_range]

theorem cStr_of_noNul (h : Char.ofNat 0 ∉ t.toList) : cStr t = t := by
  unfold cStr
  have hall : ∀ c ∈ t.toList, decide (c ≠ Char.ofNat 0) = true := by
    intro c hc
    exact decide_eq_true fun heq => h (heq ▸ hc)
  rw [takeWhile_eq_self_iff.2 hall, String.ofList_toList]

variable {tokens : List String}

theorem indexKeys_equal_iff {idx : Nat} (hidx : idx < tokens.length) :
    (indexKeys hash tokens).equalKeys ((indexKeys hash tokens).extractKey idx) t = true ↔ tokens[idx]? = some t := by
  show (tokens.getD idx "" == t) = true ↔ _
  rw [getD_eq_getElem _ _ hidx, getElem?_eq_getElem hidx, beq_iff_eq, Option.some_inj]

theorem getElem?_idxOf (ht : t ∈ tokens) : tokens[tokens.idxOf t]? = some t := by
  rw [getElem?_eq_getElem (idxOf_lt_length_of_mem ht)]
  exact congrArg some (getElem_idxOf _)

theorem idxOf_eq_of_getElem? (hnodup : tokens.Nodup) {idx : Nat} (h : tokens[idx]? = some t) :
    tokens.idxOf t = idx := by
  obtain ⟨hlt, -⟩ := List.getElem?_eq_some_iff.1 h
  exact ((getElem?_inj hlt hnodup).1 (h.trans (getElem?_idxOf (mem_of_getElem? h)).symm)).symm

/-- An index is found by its string. -/
theorem find?_range (hnodup : tokens.Nodup) (t : String) :
    (range tokens.length).find? (fun idx => (indexKeys hash tokens).equalKeys ((indexKeys hash tokens).extractKey idx) t) =
      if t ∈ tokens then some (tokens.idxOf t) else none := by
  cases hfind : (range tokens.length).find? _ with
  | none =>
    rw [if_neg]
    intro ht
    have hlt := idxOf_lt_length_of_mem ht
    exact find?_eq_none.1 hfind _ (mem_range.2 hlt) ((indexKeys_equal_iff hlt).2 (getElem?_idxOf ht))
  | some idx =>
    have hlt := mem_range.1 (mem_of_find?_eq_some hfind)
    have hfound := find?_some hfind
    have hget := (indexKeys_equal_iff hlt).1 hfound
    rw [if_pos (mem_of_getElem? hget), idxOf_eq_of_getElem? hnodup hget]

theorem Good.findIndex (h : Good hash a (m a)) (t : String) :
    m.findIndex hash a t = some (if t ∈ (m a).tokens then some ((m a).tokens.idxOf t) else none) := by
  unfold Store.findIndex
  rw [h.keys, OaHashtable.step_find h.refines (indexKeys_equality hash _), find?_range h.nodup]

variable [DecidableEq A]

/-- A string that is not there is put at the end. -/
theorem Good.pushBack (h : Good hash a (m a)) (hlf : ThreeQuarters lf) (ht : t ∉ (m a).tokens)
    (hnul : Char.ofNat 0 ∉ t.toList) (hfew : (m a).tokens.length + 1 < 2 ^ 30) :
    ∃ c, m.pushBack hash lf a t = some ((m a).tokens.length, update m a c) ∧ Good hash a c ∧
      c.tokens = (m a).tokens ++ [t] := by
  have hown := h.own
  have hnum := h.numOccupied
  obtain ⟨-, hnodup, hrefines, hsized⟩ := h
  unfold Store.pushBack
  generalize htbl : (m a).dictHash = tbl at *
  generalize htokens : (m a).tokens = tokens at *
  dsimp only
  rw [cStr_of_noNul hnul, update_self]
  have hkeys : Store.keys hash (update m a { m a with tokens := tokens ++ [t] }) a =
      indexKeys hash (tokens ++ [t]) := by
    unfold Store.keys
    rw [update_self]
    rw [hown, update_self]
  have hE := indexKeys_equality hash (tokens ++ [t])
  have hpushed : OaHashtable.Refines (indexKeys hash (tokens ++ [t])) tbl (range tokens.length) := by
    refine hrefines.congr ⟨fun idx hidx => ?_, rfl, rfl⟩
    show (tokens ++ [t]).getD idx "" = tokens.getD idx ""
    rw [getD_append _ _ _ _ (mem_range.1 hidx)]
  rw [hkeys]
  rw [htbl]
  have hspec := OaHashtable.insert_spec lf hpushed.inv hE tokens.length fun _ => hsized.room hlf (by omega)
  have hgrow := fun r (hr : OaHashtable.insert (indexKeys hash (tokens ++ [t])) lf tbl tokens.length = some r) =>
    OaHashtable.insert_size hpushed.inv hE hr
  generalize OaHashtable.insert (indexKeys hash (tokens ++ [t])) lf tbl tokens.length = r at hspec hgrow
  cases hspec with
  | old s idx hmem heq _ =>
    exfalso
    have hidx := mem_range.1 (hpushed.values.mem_iff.1 hmem)
    have hkey : (indexKeys hash (tokens ++ [t])).extractKey tokens.length = t := by
      show (tokens ++ [t]).getD tokens.length "" = t
      rw [getD_append_right _ _ _ _ (Nat.le_refl _), Nat.sub_self]
      rfl
    have hlen : idx < (tokens ++ [t]).length := by
      rw [length_append]
      omega
    rw [hkey, indexKeys_equal_iff hlen, getElem?_append_left hidx] at heq
    exact ht (mem_of_getElem? heq)
  | new s tbl' _ hinv hvalues _ =>
    refine ⟨⟨tokens ++ [t], tbl', a⟩, ?_, ⟨rfl, ?_, ⟨hinv, ?_⟩, ?_⟩, rfl⟩
    · rw [Option.map_some, update_idem, hown]
    · exact nodup_append.2 ⟨hnodup, nodup_singleton t, by
        rintro u hu v hv rfl
        exact ht (mem_singleton.1 hv ▸ hu)⟩
    · rw [length_append, length_singleton, range_succ]
      exact (hvalues.trans (hpushed.values.cons _)).trans (perm_append_singleton _ _).symm
    · rcases hgrow _ rfl with hsame | ⟨hroomy, hmax, hsize⟩
      · exact hsized.of_sameSize hsame
      · exact hsized.grow hlf (by omega) hroomy hmax hsize

/-- `get_index` is that of the list, and no other storage changes. -/
theorem Good.getIndex (h : Good hash a (m a)) (hlf : ThreeQuarters lf) (hnul : Char.ofNat 0 ∉ t.toList)
    (hfew : (m a).tokens.length + 1 < 2 ^ 30) :
    ∃ (c : Storage A) (h' : Good hash a c), m.getIndex hash lf a t = some ((h.view.getIndex t).1, update m a c) ∧
      h'.view = (h.view.getIndex t).2 := by
  unfold Store.getIndex
  rw [h.findIndex]
  by_cases ht : t ∈ (m a).tokens
  · rw [if_pos ht, TokenStorage.getIndex_of_mem (t := h.view) ht]
    exact ⟨m a, h, by rw [update_eq_self]; rfl, rfl⟩
  · obtain ⟨c, hpush, hgood, htokens⟩ := h.pushBack hlf ht hnul hfew
    rw [if_neg ht, TokenStorage.getIndex, dif_neg (show t ∉ h.view.tokens from ht)]
    exact ⟨c, hgood, hpush, TokenStorage.ext htokens⟩

/-- The entries of the indices from `newEnd` on are erased one after the other. -/
theorem eraseAll_refines (lf : LoadFactor) (hnodup : tokens.Nodup) : ∀ {n newEnd : Nat} {tbl : OaTable Nat} {live : List Nat},
    newEnd + n = tokens.length → OaHashtable.Refines (indexKeys hash tokens) tbl live → (∀ i ∈ live, i < tokens.length) →
    Sized tbl →
    ∃ tbl', (range' newEnd n).foldlM
        (fun tbl i => (OaHashtable.erase (indexKeys hash tokens) tbl (tokens.getD i "")).map Prod.fst) tbl = some tbl' ∧
      OaHashtable.Refines (indexKeys hash tokens) tbl' (live.filter fun i => i < newEnd) ∧ Sized tbl'
  | 0, newEnd, tbl, live, hlen, h, hlive, hsized => by
    refine ⟨tbl, rfl, ?_, hsized⟩
    have hall : ∀ i ∈ live, decide (i < newEnd) = true := fun i hi => decide_eq_true ((hlive i hi).trans_eq hlen.symm)
    rwa [filter_eq_self.2 hall]
  | n + 1, newEnd, tbl, live, hlen, h, hlive, hsized => by
    have hlt : newEnd < tokens.length := by omega
    have hkey : ∀ i ∈ live, (!(indexKeys hash tokens).equalKeys ((indexKeys hash tokens).extractKey i)
        (tokens.getD newEnd "")) = decide (i ≠ newEnd) := by
      intro i hi
      rw [Bool.eq_iff_iff, Bool.not_eq_true', Bool.eq_false_iff, Ne, indexKeys_equal_iff (hlive i hi), decide_eq_true_iff,
        getD_eq_getElem _ _ hlt, ← getElem?_eq_getElem hlt, getElem?_inj (hlive i hi) hnodup]
    obtain ⟨tbl1, hstep, h1⟩ := OaHashtable.step_erase lf h (indexKeys_equality hash tokens) (tokens.getD newEnd "")
    obtain ⟨r, hr, hr1⟩ := Option.map_eq_some_iff.1 hstep
    obtain rfl : r.1 = tbl1 := congrArg Prod.fst hr1
    have hlive1 : (OaHashtable.mapStep (indexKeys hash tokens) live (.erase (tokens.getD newEnd ""))).1 =
        live.filter fun i => i ≠ newEnd := filter_congr hkey
    rw [hlive1] at h1
    obtain ⟨tbl', hrest, h', hsized'⟩ := eraseAll_refines lf hnodup
      (show newEnd + 1 + n = tokens.length by omega) h1
      (fun i hi => hlive i (mem_filter.1 hi).1) (hsized.of_sameSize (OaHashtable.erase_sameSize hr))
    refine ⟨tbl', ?_, ?_, hsized'⟩
    · rw [range'_succ, foldlM_cons, hr]
      exact hrest
    · rw [filter_filter] at h'
      refine (filter_congr fun i _ => ?_) ▸ h'
      rw [Bool.eq_iff_iff, Bool.and_eq_true, decide_eq_true_iff, decide_eq_true_iff, decide_eq_true_iff]
      omega

/-- `shrink` keeps what is before the end. -/
theorem Good.shrink (lf : LoadFactor) (h : Good hash a (m a)) {newEnd : Nat} (hend : newEnd ≤ (m a).tokens.length) :
    ∃ (c : Storage A) (h' : Good hash a c), m.shrink hash a newEnd = some (update m a c) ∧
      h'.view = h.view.shrink newEnd := by
  obtain ⟨tbl, hrun, hrefines, hsized⟩ := eraseAll_refines lf h.nodup (Nat.add_sub_of_le hend) h.refines
    (fun i hi => mem_range.1 hi) h.sized
  refine ⟨⟨(m a).tokens.take newEnd, tbl, a⟩, ⟨rfl, h.view.shrink newEnd |>.nodup, ?_, hsized⟩, ?_, rfl⟩
  · rw [length_take, Nat.min_eq_left hend]
    have hperm : (range (m a).tokens.length).filter (fun i => i < newEnd) = range newEnd := by
      obtain ⟨k, hk⟩ := Nat.exists_eq_add_of_le hend
      rw [hk, range_add, filter_append, filter_eq_self.2, filter_eq_nil_iff.2, append_nil]
      · intro i hi
        obtain ⟨j, -, rfl⟩ := mem_map.1 hi
        simp
      · exact fun i hi => decide_eq_true (mem_range.1 hi)
    rw [hperm] at hrefines
    refine hrefines.congr ⟨fun idx hidx => ?_, rfl, rfl⟩
    show ((m a).tokens.take newEnd).getD idx "" = (m a).tokens.getD idx ""
    rw [getD_eq_getElem?_getD, getD_eq_getElem?_getD, getElem?_take_of_lt (mem_range.1 hidx)]
  · unfold Store.shrink
    rw [if_pos hend, h.keys, hrun, Option.map_some]
    dsimp only
    rw [h.own]

theorem Good.reset (h : Good hash a (m a)) : ∃ (c : Storage A) (h' : Good hash a c),
    m.reset a = update m a c ∧ h'.view = .reset := by
  refine ⟨⟨[], (m a).dictHash.clear, (m a).vecRef⟩, ⟨h.own, nodup_nil, ⟨?_, ?_⟩, ?_⟩, rfl, rfl⟩
  · exact OaHashtable.inv_replicate h.refines.inv.prime h.refines.inv.small
  · exact Perm.of_eq (OaHashtable.values_replicate _)
  · exact h.sized.of_sameSize ⟨rfl, length_replicate⟩

/-- Of two storages, each has what the other had, and its own pointer. -/
theorem Good.swap {b : A} (ha : Good hash a (m a)) (hb : Good hash b (m b)) :
    ∃ (c d : Storage A) (hc : Good hash a c) (hd : Good hash b d),
      m.swap a b = update (update m a c) b d ∧ hc.view = hb.view ∧ hd.view = ha.view :=
  ⟨⟨(m b).tokens, (m b).dictHash, (m a).vecRef⟩, ⟨(m a).tokens, (m a).dictHash, (m b).vecRef⟩,
    ⟨ha.own, hb.nodup, hb.refines, hb.sized⟩, ⟨hb.own, ha.nodup, ha.refines, ha.sized⟩, rfl, rfl, rfl⟩

/-- The constructor makes storages without strings. -/
theorem create_good (A : Type) (hash : String → Nat) (hlf : ThreeQuarters lf) : ∃ tbl, OaHashtable.create lf initialSize = some tbl ∧
    ∀ a : A, ∃ h : Good hash a (⟨[], tbl, a⟩ : Storage A), h.view = .reset := by
  obtain ⟨tbl, hcreate, hrefines⟩ := OaHashtable.create_refines (indexKeys hash []) lf (n := initialSize) (by decide)
  refine ⟨tbl, hcreate, fun a => ⟨⟨rfl, nodup_nil, hrefines, 0, Nat.zero_le _, ?_, fun h => by cases h⟩, rfl⟩⟩
  have hprime : oaNextPrime initialSize = 12289 := by decide
  rw [(OaHashtable.make_size hcreate).1, hprime, hlf.scale_initial, pow_zero, Nat.mul_one]

end

end Sbmt.Token
