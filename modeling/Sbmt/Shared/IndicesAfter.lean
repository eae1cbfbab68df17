import Sbmt.Shared.Compaction
/-!
# Compaction by a table of new indices (`graehl/shared/indices_after.hpp`)

`Tabulates` says that a table is the one for given marks, `init_tabulates` that `init` makes it.  Each of the
loops that go by a table then does what the loops over marks do (`Compacted`): a kept element's new index is the
number of elements in front of it that are kept.
-/

namespace Sbmt.Shared

open List

variable {α : Type} {f : α → α} {v w w' : List α} {marked : List Bool} {to' i n : Nat}

/-- The table of these marks. -/
structure Tabulates (T : IndicesAfter) (marked : List Bool) : Prop where
  nMapped : T.nMapped = marked.length
  nKept : T.nKept = marked.count false
  keptAt : ∀ i : Nat, marked[i]? = some false → T.map[i]? = some ((marked.take i).count false)
  removedAt : ∀ i : Nat, marked[i]? = some true → T.map[i]? = some removed

theorem newIndicesKeep_spec (mk : Bool) : ∀ {marked : List Bool} {f : Nat}, f + marked.length < wordSize →
    (newIndicesKeep mk f (marked.map fun m => m != mk)).2 = f + marked.count false ∧
    (∀ i : Nat, marked[i]? = some false →
      (newIndicesKeep mk f (marked.map fun m => m != mk)).1[i]? = some (f + (marked.take i).count false)) ∧
    ∀ i : Nat, marked[i]? = some true → (newIndicesKeep mk f (marked.map fun m => m != mk)).1[i]? = some removed
  | [], _, _ => by simp [newIndicesKeep]
  | true :: marked, f, h => by
    obtain ⟨hend, hkept, hremoved⟩ := newIndicesKeep_spec mk (show f + marked.length < wordSize by simp at h; omega)
    have hflag : ((true != mk) == mk) = false := by cases mk <;> rfl
    simp only [map_cons, newIndicesKeep, hflag]
    refine ⟨by simpa using hend, fun i hi => ?_, fun i hi => ?_⟩
    · cases i with
      | zero => cases hi
      | succ i => simpa using hkept i hi
    · cases i with
      | zero => rfl
      | succ i => simpa using hremoved i hi
  | false :: marked, f, h => by
    have hlt : f + 1 + marked.length < wordSize := by simp at h; omega
    obtain ⟨hend, hkept, hremoved⟩ := newIndicesKeep_spec mk hlt
    have hflag : ((false != mk) == mk) = true := by cases mk <;> rfl
    simp only [map_cons, newIndicesKeep, hflag, if_true, Nat.mod_eq_of_lt (show f + 1 < wordSize by omega)]
    refine ⟨by rw [hend]; simp; omega, fun i hi => ?_, fun i hi => ?_⟩
    · cases i with
      | zero => simp
      | succ i =>
        have := hkept i hi
        simp only [getElem?_cons_succ, this, take_succ_cons, count_cons_self, Option.some.injEq]
        omega
    · cases i with
      | zero => cases hi
      | succ i => simpa using hremoved i hi

/-- With less than `2^32` marks the table is built, and right. -/
theorem init_tabulates (mk : Bool) (h : marked.length < wordSize) :
    ∃ T, IndicesAfter.init (marked.map fun m => m != mk) mk = some T ∧ Tabulates T marked := by
  obtain ⟨hend, hkept, hremoved⟩ := newIndicesKeep_spec mk (f := 0) (show 0 + marked.length < wordSize by omega)
  simp only [Nat.zero_add] at hend hkept
  simp only [IndicesAfter.init, length_map, Nat.mod_eq_of_lt h]
  split
  · rename_i hnil
    obtain rfl := length_eq_zero_iff.mp hnil
    exact ⟨_, rfl, rfl, rfl, fun i hi => (by cases hi), fun i hi => (by cases hi)⟩
  · exact ⟨_, if_neg (lt_irrefl _), rfl, hend, hkept, hremoved⟩

namespace Tabulates

variable {T : IndicesAfter}

theorem keeping (h : Tabulates T marked) (hword : marked.length < wordSize) (hi : i < marked.length) :
    T.keeping i = (marked[i]? == some false) := by
  rw [getElem?_eq_getElem hi]
  cases hmark : marked[i] with
  | true => simp [IndicesAfter.keeping, h.removedAt i (by rw [getElem?_eq_getElem hi, hmark])]
  | false =>
    have hle : (marked.take i).count false ≤ (marked.take i).length := count_le_length
    rw [length_take] at hle
    have hne : (marked.take i).count false ≠ removed := by
      unfold removed
      unfold wordSize at hword
      omega
    simp [IndicesAfter.keeping, h.keptAt i (by rw [getElem?_eq_getElem hi, hmark]), hne]

theorem newIndex (h : Tabulates T marked) (hmark : marked[i]? = some false) :
    T.newIndex i = (marked.take i).count false := by
  simp [IndicesAfter.newIndex, h.keptAt i hmark]

end Tabulates

theorem count_kept (hlen : marked.length = v.length) (i : Nat) :
    (kept (v.take i) (marked.take i)).length = (marked.take i).count false :=
  length_kept (by simp [hlen])

/-- A move of an element to a place in front of it that changes nothing behind it, and nothing before the place. -/
structure Puts (how : List α → Nat → Nat → List α) : Prop where
  length : ∀ w j k, (how w j k).length = w.length
  front : ∀ {w : List α} {j k : Nat}, j ≤ k → ∀ hk : k < w.length, (how w j k).take (j + 1) = w.take j ++ [w[k]]
  back : ∀ {w : List α} {j k : Nat}, j ≤ k → (how w j k).drop (k + 1) = w.drop (k + 1)

theorem puts_swapAt : Puts (swapAt (α := α)) := ⟨length_swapAt, take_swapAt, drop_swapAt⟩

theorem puts_assign : Puts (IndicesAfter.assign (α := α)) where
  length w j k := by
    unfold IndicesAfter.assign
    split <;> simp
  front hle hk := by
    simp only [IndicesAfter.assign, getElem?_eq_getElem hk]
    exact take_set_succ (hle.trans_lt hk)
  back hle := by
    unfold IndicesAfter.assign
    split
    · exact drop_set_of_lt (Nat.lt_succ_of_le hle)
    · rfl

/-! ## The loops -/

namespace Tabulates

variable {T : IndicesAfter}

/-- Where the table keeps every element up to `first`, none of these is marked. -/
theorem passed (h : Tabulates T marked) (hword : marked.length < wordSize) :
    passOver T.keeping T.nMapped 0 ≤ marked.length ∧
      ∀ k < passOver T.keeping T.nMapped 0, marked[k]? = some false := by
  obtain ⟨-, hle, hpass, -⟩ := passOver_spec T.keeping T.nMapped 0
  rw [h.nMapped, Nat.zero_add] at hle
  rw [h.nMapped] at hpass ⊢
  refine ⟨hle, fun k hk => ?_⟩
  have hkeep := hpass k (Nat.zero_le k) hk
  rw [h.keeping hword (hk.trans_le hle)] at hkeep
  simpa using hkeep

theorem moveLoop_spec {how : List α → Nat → Nat → List α} (hhow : Puts how) (h : Tabulates T marked)
    (hword : marked.length < wordSize) (hlen : marked.length = v.length) :
    ∀ {n to' i : Nat} {w : List α}, Compacted id v marked to' i w → i + n ≤ v.length →
      ∃ t, Compacted id v marked t (i + n) (T.moveLoop how n i w)
  | 0, _, _, _, hw, _ => ⟨_, hw⟩
  | n + 1, to', i, w, hw, hn => by
    have hiv : i < v.length := by omega
    have hiw : i < w.length := by rwa [hw.length]
    have him : i < marked.length := hlen ▸ hiv
    have hget : w[i] = v[i] := Option.some.inj ((getElem?_eq_getElem hiw).symm.trans (hw.getElem hiv))
    unfold IndicesAfter.moveLoop
    rw [h.keeping hword him, show i + (n + 1) = i + 1 + n by omega]
    rcases hmark : marked[i]? with _ | _ | _
    · simp [getElem?_eq_getElem him] at hmark
    · have hindex : T.newIndex i = to' := by rw [h.newIndex hmark, ← count_kept hlen, hw.count]
      have hfront := hhow.front (hw.le hlen) hiw
      rw [hget] at hfront
      have hstep := hw.keep hlen hiv hmark (hhow.length w to' i) hfront (hhow.back (hw.le hlen))
      rw [hindex]
      exact moveLoop_spec hhow h hword hlen hstep (by omega)
    · exact moveLoop_spec hhow h hword hlen (hw.pass hlen hiv hmark rfl rfl rfl) (by omega)

theorem move_eq {how : List α → Nat → Nat → List α} (hhow : Puts how) (h : Tabulates T marked)
    (hword : marked.length < wordSize) (hlen : marked.length = v.length) : T.move how v = some (kept v marked) := by
  obtain ⟨hle, hpass⟩ := h.passed hword
  have hmapped := h.nMapped
  have hstart := compacted_passed (v := v) hlen (hlen ▸ hle) hpass
  obtain ⟨t, ht⟩ := h.moveLoop_spec hhow hword hlen (n := T.nMapped - passOver T.keeping T.nMapped 0) hstart (by omega)
  rw [show passOver T.keeping T.nMapped 0 + (T.nMapped - passOver T.keeping T.nMapped 0) = v.length by omega] at ht
  have hcount := ht.count
  have hfront := ht.front
  simp only [map_id, ← hlen, take_length] at hcount hfront
  rw [hlen, take_length, length_kept hlen, ← h.nKept] at hcount
  rw [hlen, take_length] at hfront
  simp only [IndicesAfter.move]
  rw [if_pos (by omega), hcount, hfront]

/-- What `copy_to` has written before it comes to `i`. -/
structure Copied (v : List α) (marked : List Bool) (i : Nat) (w : List α) : Prop where
  length : w.length = marked.count false
  front : w.take ((marked.take i).count false) = kept (v.take i) (marked.take i)

theorem count_take_lt (hmark : marked[i]? = some false) : (marked.take i).count false < marked.count false := by
  obtain ⟨hi, hfalse⟩ := List.getElem?_eq_some_iff.mp hmark
  have hsplit : marked.count false = (marked.take i).count false + (marked.drop i).count false := by
    rw [← count_append, take_append_drop]
  have hdrop : marked.drop i = false :: marked.drop (i + 1) := by rw [drop_eq_getElem_cons hi, hfalse]
  rw [hsplit, hdrop, count_cons_self]
  omega

theorem count_take_succ (hmark : marked[i]? = some false) :
    (marked.take (i + 1)).count false = (marked.take i).count false + 1 := by
  obtain ⟨hi, hfalse⟩ := List.getElem?_eq_some_iff.mp hmark
  rw [take_succ_eq_append_getElem hi, hfalse, count_append]
  rfl

/-- The first loop of `shuffle_removing` rewrites the elements that stay where they are. -/
theorem compacted_rewritten (f : α → α) (hlen : marked.length = v.length) : ∀ {j : Nat}, j ≤ v.length →
    (∀ k < j, marked[k]? = some false) → Compacted f v marked j j ((range j).foldl (fun v i => v.modify i f) v)
  | 0, _, _ => compacted_zero f v marked
  | j + 1, hj, hpass => by
    have ih := compacted_rewritten f hlen (Nat.le_of_succ_le hj) fun k hk => hpass k (Nat.lt_succ_of_lt hk)
    rw [range_succ, foldl_append]
    refine ih.keep hlen hj (hpass j (Nat.lt_succ_self j)) (by simp) ?_ (by simp [drop_modify_of_lt])
    have hjw : j < ((range j).foldl (fun v i => v.modify i f) v).length := by rwa [ih.length]
    have hget := ih.getElem hj
    rw [getElem?_eq_getElem hjw, Option.some.injEq] at hget
    simp only [foldl_cons, foldl_nil]
    rw [take_succ_eq_append_getElem (by simpa using hjw), take_modify, getElem_modify_eq, hget,
      modify_eq_self (by simp)]

theorem shuffleLoop_spec (f g : α → α) (h : Tabulates T marked) (hword : marked.length < wordSize)
    (hlen : marked.length = v.length) :
    ∀ {n to' i : Nat} {w : List α}, Compacted f v marked to' i w → i + n ≤ v.length →
      Compacted f v marked (T.shuffleLoop f g n to' i w).2 (i + n) (T.shuffleLoop f g n to' i w).1
  | 0, _, _, _, hw, _ => hw
  | n + 1, to', i, w, hw, hn => by
    have hiv : i < v.length := by omega
    have hiw : i < w.length := by rwa [hw.length]
    have him : i < marked.length := hlen ▸ hiv
    have hle := hw.le hlen
    have hget : w[i] = v[i] := Option.some.inj ((getElem?_eq_getElem hiw).symm.trans (hw.getElem hiv))
    unfold IndicesAfter.shuffleLoop
    rw [h.keeping hword him, show i + (n + 1) = i + 1 + n by omega]
    rcases hmark : marked[i]? with _ | _ | _
    · simp [getElem?_eq_getElem him] at hmark
    · have hfront : (swapAt (w.modify i f) to' i).take (to' + 1) = w.take to' ++ [f v[i]] := by
        rw [take_swapAt hle (by simpa using hiw), take_modify, getElem_modify_eq, hget,
          modify_eq_self (by simp; omega)]
      have hback : (swapAt (w.modify i f) to' i).drop (i + 1) = w.drop (i + 1) := by
        rw [drop_swapAt hle, drop_modify_of_lt _ _ _ _ (Nat.lt_succ_self i)]
      exact shuffleLoop_spec f g h hword hlen (hw.keep hlen hiv hmark (by simp [length_swapAt]) hfront hback) (by omega)
    · have hfront : (w.modify i g).take to' = w.take to' := by
        rw [take_modify, modify_eq_self (by simp; omega)]
      have hback : (w.modify i g).drop (i + 1) = w.drop (i + 1) := drop_modify_of_lt _ _ _ _ (Nat.lt_succ_self i)
      exact shuffleLoop_spec f g h hword hlen (hw.pass hlen hiv hmark (by simp) hfront hback) (by omega)

variable (h : Tabulates T marked)
include h

variable (hword : marked.length < wordSize)
include hword

variable (hlen : marked.length = v.length)
include hlen

theorem copyLoop_spec :
    ∀ {n i : Nat} {w : List α}, Copied v marked i w → i + n ≤ v.length → Copied v marked (i + n) (T.copyLoop v n i w)
  | 0, _, _, hw, _ => hw
  | n + 1, i, w, hw, hn => by
    have hiv : i < v.length := by omega
    have him : i < marked.length := hlen ▸ hiv
    have hsucc := kept_take_succ hlen hiv
    unfold IndicesAfter.copyLoop
    rw [h.keeping hword him, show i + (n + 1) = i + 1 + n by omega]
    apply copyLoop_spec _ (by omega)
    rcases hmark : marked[i]? with _ | _ | _
    · simp [getElem?_eq_getElem him] at hmark
    · have hfalse : marked[i] = false := by simpa [getElem?_eq_getElem him] using hmark
      rw [hfalse] at hsucc
      simp only [getElem?_eq_getElem hiv, h.newIndex hmark]
      constructor
      · simpa using hw.length
      · have hlt : (marked.take i).count false < w.length := by
          rw [hw.length]
          exact count_take_lt hmark
        simp only [beq_self_eq_true, if_true]
        rw [count_take_succ hmark, take_set_succ hlt, hw.front, hsucc]
        rfl
    · have htrue : marked[i] = true := by simpa [getElem?_eq_getElem him] using hmark
      have hcount : (marked.take (i + 1)).count false = (marked.take i).count false := by
        rw [take_succ_eq_append_getElem him, htrue, count_append]
        rfl
      rw [htrue] at hsucc
      exact ⟨hw.length, by simpa [hcount, hsucc] using hw.front⟩

theorem copyTo_eq (fresh : α) (to' : List α) : T.copyTo fresh to' v = kept v marked := by
  have hstart : Copied v marked 0 (IndicesAfter.resize fresh T.nKept to') := by
    refine ⟨?_, rfl⟩
    rw [h.nKept]
    simp [IndicesAfter.resize]
    omega
  have hend : Copied v marked marked.length (T.copyTo fresh to' v) := by
    have hloop := h.copyLoop_spec hword hlen (n := T.nMapped) hstart (by rw [h.nMapped]; omega)
    simpa [IndicesAfter.copyTo, h.nMapped] using hloop
  have hfront := hend.front
  rwa [take_length, ← hend.length, take_length, hlen, take_length] at hfront

theorem shuffle_eq
    (f g : α → α) : (T.shuffleRemoving f g v).1.take (T.shuffleRemoving f g v).2 = (kept v marked).map f := by
  obtain ⟨hle, hpass⟩ := h.passed hword
  have hmapped := h.nMapped
  have hstart := compacted_rewritten f (v := v) hlen (hlen ▸ hle) hpass
  have hloop := h.shuffleLoop_spec f g hword hlen (n := T.nMapped - passOver T.keeping T.nMapped 0) hstart (by omega)
  have hfront := hloop.front
  rw [show passOver T.keeping T.nMapped 0 + (T.nMapped - passOver T.keeping T.nMapped 0) = v.length by omega, take_length,
    ← hlen, take_length] at hfront
  exact hfront

/-- **Every member that goes by the table leaves the elements that are not marked.** -/
theorem compacting : Compacting T marked v :=
  { h with
    doMoves := h.move_eq puts_assign hword hlen
    doMovesSwap := h.move_eq puts_swapAt hword hlen
    copyTo := h.copyTo_eq hword hlen
    shuffle := h.shuffle_eq hword hlen }

end Tabulates

/-! ## When the helpers agree -/

/-- The constructors but one pass the polarity on. -/
theorem build_eq {ctor : TableCtor} {mk : Bool} (h : ctor = .afterIterators → mk = true) (flags : List Bool) :
    ctor.build flags mk = IndicesAfter.init flags mk := by
  cases ctor with
  | afterIterators =>
    rw [h rfl]
    rfl
  | afterContainer => rfl
  | removingIterators => rfl
  | removingContainer => rfl

theorem not_compacting_of_long {ctor : TableCtor} {flags : List Bool} {mk : Bool} {T : IndicesAfter}
    (hbuild : ctor.build flags mk = some T) (hflags : flags.length = v.length) (hlong : wordSize ≤ v.length) :
    ¬Compacting T marked v := by
  intro h
  have hinit : ∃ mk, IndicesAfter.init flags mk = some T := by
    cases ctor with
    | afterIterators => exact ⟨true, hbuild⟩
    | afterContainer => exact ⟨mk, hbuild⟩
    | removingIterators => exact ⟨mk, hbuild⟩
    | removingContainer => exact ⟨mk, hbuild⟩
  obtain ⟨mk', hinit⟩ := hinit
  have hmod : flags.length % wordSize < wordSize := Nat.mod_lt _ (by unfold wordSize; omega)
  have hmapped : T.nMapped ≠ v.length := by
    simp only [IndicesAfter.init] at hinit
    split at hinit
    · obtain rfl := Option.some.inj hinit
      intro hzero
      have hzero : 0 = v.length := hzero
      omega
    · rw [if_pos (by omega)] at hinit
      cases hinit
  have hmoves := h.doMoves
  simp only [IndicesAfter.doMoves, IndicesAfter.move] at hmoves
  rw [if_neg fun heq => hmapped heq.symm] at hmoves
  cases hmoves

/-- The marks for an `indices_after` from iterators are taken the wrong way around where `mk` is not `KEEP`. -/
theorem not_compacting_of_reversed {T : IndicesAfter} (hne : v ≠ []) (hlen : marked.length = v.length)
    (hword : marked.length < wordSize) (hbuild : TableCtor.build .afterIterators (marked.map fun m => m != false) false = some T) :
    ¬Compacting T marked v := by
  intro h
  have hflags : (marked.map fun m => m != false) = (marked.map fun m => !m).map fun m => m != true := by
    rw [map_map]
    exact map_congr_left fun m _ => by cases m <;> rfl
  have hnegated : (marked.map fun m => !m).length < wordSize := by simpa using hword
  obtain ⟨T', hinit, htab⟩ := init_tabulates true hnegated
  have hT : T' = T := by
    rw [hflags] at hbuild
    exact Option.mem_unique hinit hbuild
  subst hT
  have hpos : 0 < marked.length := hlen ▸ length_pos_of_ne_nil hne
  have hzero : marked[0]? = some marked[0] := getElem?_eq_getElem hpos
  cases hfirst : marked[0] with
  | true =>
    have hremoved := h.removedAt 0 (by rw [hzero, hfirst])
    have hkept := htab.keptAt 0 (by simp [hzero, hfirst])
    rw [hremoved] at hkept
    simp [removed] at hkept
  | false =>
    have hkept := h.keptAt 0 (by rw [hzero, hfirst])
    have hremoved := htab.removedAt 0 (by simp [hzero, hfirst])
    rw [hremoved] at hkept
    simp [removed] at hkept

/-- **The helpers leave exactly the elements that are not marked, in order, and the table says where they go, just when**:
there are less than `2^32` elements, nothing is marked where the marks are a predicate, and a table is not an `indices_after` that
iterators over marks for removal are given to. From `2^32` elements on, what `compactable` says of arrays and predicates. -/
theorem compacts_iff (v : List α) (m : Marking α) (hlen : (m.marks v).length = v.length) : m.Compacts v ↔ m.Compactable v := by
  cases m with
  | array marked => exact removeMarkedSwap_iff hlen
  | predicate pred => exact removeIfSwap_iff pred
  | table ctor mk marked =>
    have hlen : marked.length = v.length := hlen
    constructor
    · rintro ⟨T, hbuild, h⟩
      have hword : v.length < wordSize := by
        by_contra hlong
        exact not_compacting_of_long hbuild (by simpa using hlen) (Nat.not_lt.mp hlong) h
      refine ⟨hword, fun hctor => ?_⟩
      subst hctor
      cases mk with
      | true => exact .inl rfl
      | false =>
        by_contra hne
        exact not_compacting_of_reversed (fun hnil => hne (.inr hnil)) hlen (hlen ▸ hword) hbuild h
    · rintro ⟨hword, hctor⟩
      have hword : marked.length < wordSize := hlen ▸ hword
      by_cases hmk : ctor = .afterIterators → mk = true
      · obtain ⟨T, hinit, htab⟩ := init_tabulates mk hword
        exact ⟨T, (build_eq hmk _).trans hinit, htab.compacting hword hlen⟩
      · -- an empty vector has no marks to turn around
        have hnil : v = [] := by
          by_contra hne
          exact hmk fun h => (hctor h).resolve_right hne
        subst hnil
        obtain rfl : marked = [] := length_eq_zero_iff.mp hlen
        obtain ⟨T, hinit, htab⟩ := init_tabulates mk hword
        refine ⟨T, ?_, htab.compacting hword hlen⟩
        cases ctor <;> exact hinit

theorem compacts_iff_five : (Marking.array [true, false, true, false, false]).Compacts [1, 2, 3, 4, 5] := by
  have hlen : [1, 2, 3, 4, 5].length % wordSize = 5 := Nat.mod_eq_of_lt (by simp [wordSize])
  refine (compacts_iff ([1, 2, 3, 4, 5] : List Nat) (.array [true, false, true, false, false]) rfl).2 ?_
  simp only [Marking.Compactable, hlen]
  decide

/-- `remove_if_swap` keeps what it is to remove. -/
theorem not_compacts_predicate :
    ¬∀ (v : List Nat) (m : Marking Nat), (m.marks v).length = v.length → m.Compacts v := by
  intro h
  have hswap : removeIfSwap [1, 2] (fun a => a == 1) = kept [1, 2] [true, false] := h [1, 2] (.predicate fun a => a == 1) rfl
  exact absurd hswap (by decide)

end Sbmt.Shared
