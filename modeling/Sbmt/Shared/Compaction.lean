import Mathlib
/-!
# Taking marked elements out of a vector (`graehl/shared/array.hpp`, `indices_after.hpp`)

| here | there |
| --- | --- |
| `shuffleRemoving` | `shuffle_removing` (`array.hpp:59-78`); what it calls to rewrite an element is a function of the element |
| `IndicesAfter`, `init` | `indices_after` and its `init` (`indices_after.hpp:112-160`); `none` where `map` is written behind its end |
| `TableCtor.build` | the constructors of `indices_after` and `indices_after_removing` (`:126-135`, `:271-292`) |
| `doMoves`, `doMovesSwap`, `copyTo` | the members of these names (`:213-247`); `none` where their assertion fails |

`unsigned` is a number of 32 bits, and so are the lengths that the loops go by.  `kept` is what is to be left.
-/

namespace Sbmt.Shared

open List

variable {α : Type}

/-- As many as an `unsigned` has values. -/
def wordSize : Nat := 4294967296

/-- `(unsigned)-1` -/
def removed : Nat := 4294967295

def swapAt (v : List α) (i j : Nat) : List α :=
  match v[i]?, v[j]? with
  | some a, some b => (v.set i b).set j a
  | _, _ => v

/-- `while (i < sz && p(i)) ++i`, with so many elements up to `sz`. -/
def passOver (p : Nat → Bool) : Nat → Nat → Nat
  | 0, i => i
  | n + 1, i => if p i then passOver p n (i + 1) else i

/-- The loop that swaps the elements to be kept forward; what is left in the vector, and `to`. -/
def swapLoop (keep : List α → Nat → Bool) : Nat → Nat → Nat → List α → List α × Nat
  | 0, to', _, v => (v, to')
  | n + 1, to', i, v => if keep v i then swapLoop keep n (to' + 1) (i + 1) (swapAt v to' i) else swapLoop keep n to' (i + 1) v

def removeMarkedSwap (v : List α) (marked : List Bool) : List α :=
  let sz := v.length % wordSize
  if sz = 0 then v
  else
    let first := passOver (fun i => marked[i]? == some false) sz 0
    let r := swapLoop (fun _ i => marked[i]? == some false) (sz - first) first first v
    r.1.take r.2

/-- The first loop passes over the elements that `pred` is not true of, the second moves those that it is true of. -/
def removeIfSwap (v : List α) (pred : α → Bool) : List α :=
  let sz := v.length % wordSize
  if sz = 0 then v
  else
    let first := passOver (fun i => v[i]?.any fun a => !pred a) sz 0
    let r := swapLoop (fun v i => v[i]?.any pred) (sz - first) first first v
    r.1.take r.2

/-! ## The table -/

structure IndicesAfter where
  map : List Nat
  nKept : Nat
  nMapped : Nat

/-- The entries for the rest of the flags, from the new index `f` on, and the index after the last. -/
def newIndicesKeep (meansKeep : Bool) : Nat → List Bool → List Nat × Nat
  | f, [] => ([], f)
  | f, flag :: flags =>
    if flag == meansKeep then
      let r := newIndicesKeep meansKeep ((f + 1) % wordSize) flags
      (f :: r.1, r.2)
    else
      let r := newIndicesKeep meansKeep f flags
      (removed :: r.1, r.2)

namespace IndicesAfter

def init (flags : List Bool) (mk : Bool) : Option IndicesAfter :=
  let nMapped := flags.length % wordSize
  if nMapped = 0 then some ⟨[], 0, 0⟩
  -- the entries go to memory for `nMapped` of them
  else if nMapped < flags.length then none
  else
    let r := newIndicesKeep mk 0 flags
    some ⟨r.1, r.2, nMapped⟩

variable (T : IndicesAfter)

def keeping (i : Nat) : Bool := T.map[i]? != some removed

/-- `map[i]` -/
def newIndex (i : Nat) : Nat := T.map.getD i removed

/-- The loop of `do_moves` and `do_moves_swap` behind the elements that stay where they are. -/
def moveLoop (move : List α → Nat → Nat → List α) : Nat → Nat → List α → List α
  | 0, _, v => v
  | n + 1, i, v => moveLoop move n (i + 1) (if T.keeping i then move v (T.newIndex i) i else v)

/-- `v[to] = v[i]` -/
def assign (v : List α) (to' i : Nat) : List α :=
  match v[i]? with
  | some a => v.set to' a
  | none => v

def move (how : List α → Nat → Nat → List α) (v : List α) : Option (List α) :=
  if v.length = T.nMapped then
    let first := passOver T.keeping T.nMapped 0
    some ((T.moveLoop how (T.nMapped - first) first v).take T.nKept)
  else none

def doMoves (v : List α) : Option (List α) := T.move assign v

def doMovesSwap (v : List α) : Option (List α) := T.move swapAt v

/-- The loop of `copy_to`. -/
def copyLoop (v : List α) : Nat → Nat → List α → List α
  | 0, _, to' => to'
  | n + 1, i, to' =>
    copyLoop v n (i + 1) (if T.keeping i then (match v[i]? with | some a => to'.set (T.newIndex i) a | none => to') else to')

/-- `resize`, with `fresh` for the elements that are new. -/
def resize (fresh : α) (n : Nat) (v : List α) : List α := v.take n ++ replicate (n - v.length) fresh

def copyTo (fresh : α) (to' v : List α) : List α := T.copyLoop v T.nMapped 0 (resize fresh T.nKept to')

/-- The second loop of `shuffle_removing`. -/
def shuffleLoop (rewrite rewriteDeleted : α → α) : Nat → Nat → Nat → List α → List α × Nat
  | 0, to', _, v => (v, to')
  | n + 1, to', i, v =>
    if T.keeping i then shuffleLoop rewrite rewriteDeleted n (to' + 1) (i + 1) (swapAt (v.modify i rewrite) to' i)
    else shuffleLoop rewrite rewriteDeleted n to' (i + 1) (v.modify i rewriteDeleted)

/-- The vector, and the length that is returned. -/
def shuffleRemoving (rewrite rewriteDeleted : α → α) (v : List α) : List α × Nat :=
  let first := passOver T.keeping T.nMapped 0
  T.shuffleLoop rewrite rewriteDeleted (T.nMapped - first) first first
    ((range first).foldl (fun v i => v.modify i rewrite) v)

end IndicesAfter

/-- The constructors of the two tables, from a pair of iterators or from a container. -/
inductive TableCtor where
  | afterIterators
  | afterContainer
  | removingIterators
  | removingContainer
deriving DecidableEq

/-- A table from flags; `mk` says which value of a flag means that the element is kept. -/
def TableCtor.build : TableCtor → List Bool → Bool → Option IndicesAfter
  -- `init(i,end,KEEP)`, with the `KEEP` of `indices_after`
  | afterIterators, flags, _ => IndicesAfter.init flags true
  | afterContainer, flags, mk => IndicesAfter.init flags mk
  | removingIterators, flags, mk => IndicesAfter.init flags mk
  | removingContainer, flags, mk => IndicesAfter.init flags mk

/-! ## What is to be left -/

/-- The elements that are not marked. -/
def kept : List α → List Bool → List α
  | a :: v, m :: marked => if m then kept v marked else a :: kept v marked
  | _, _ => []

/-- The table of these marks, and what its members make of a vector. -/
structure Compacting (T : IndicesAfter) (marked : List Bool) (v : List α) : Prop where
  keptAt : ∀ i : Nat, marked[i]? = some false → T.map[i]? = some ((marked.take i).count false)
  removedAt : ∀ i : Nat, marked[i]? = some true → T.map[i]? = some removed
  nKept : T.nKept = marked.count false
  doMoves : T.doMoves v = some (kept v marked)
  doMovesSwap : T.doMovesSwap v = some (kept v marked)
  copyTo : ∀ (fresh : α) (to' : List α), T.copyTo fresh to' v = kept v marked
  shuffle : ∀ rewrite rewriteDeleted : α → α, (T.shuffleRemoving rewrite rewriteDeleted v).1.take
    (T.shuffleRemoving rewrite rewriteDeleted v).2 = (kept v marked).map rewrite

/-- The ways to say which elements are to go. -/
inductive Marking (α : Type) where
  | array (marked : List Bool)
  | predicate (pred : α → Bool)
  | table (ctor : TableCtor) (mk : Bool) (marked : List Bool)

namespace Marking

def marks (v : List α) : Marking α → List Bool
  | array marked => marked
  | predicate pred => v.map pred
  | table _ _ marked => marked

/-- The helpers for this kind of marks leave the elements that are not marked, in their order. -/
def Compacts (v : List α) : Marking α → Prop
  | array marked => removeMarkedSwap v marked = kept v marked
  | predicate pred => removeIfSwap v pred = kept v (v.map pred)
  -- a flag is `mk` where the element is not marked
  | table ctor mk marked => ∃ T, ctor.build (marked.map fun m => m != mk) mk = some T ∧ Compacting T marked v

/-- When they do. -/
def Compactable (v : List α) : Marking α → Prop
  | array marked =>
    if v.length % wordSize = 0 then ∀ m ∈ marked, m = false else ∀ m ∈ marked.drop (v.length % wordSize), m = true
  | predicate pred =>
    if v.length % wordSize = 0 then ∀ a ∈ v, pred a = false
    else (∀ a ∈ v.take (v.length % wordSize), pred a = false) ∧ ∀ a ∈ v.drop (v.length % wordSize), pred a = true
  | table ctor mk _ => v.length < wordSize ∧ (ctor = .afterIterators → mk = true ∨ v = [])

end Marking

/-! ## The elements that are kept -/

section

variable {v : List α} {marked : List Bool} {i : Nat}

theorem kept_append {v1 v2 : List α} {m1 m2 : List Bool} (h : v1.length = m1.length) :
    kept (v1 ++ v2) (m1 ++ m2) = kept v1 m1 ++ kept v2 m2 := by
  induction v1 generalizing m1 with
  | nil =>
    obtain rfl : m1 = [] := length_eq_zero_iff.mp h.symm
    rfl
  | cons a v1 ih =>
    cases m1 with
    | nil => cases h
    | cons m m1 =>
      have htail : kept (v1 ++ v2) (m1 ++ m2) = kept v1 m1 ++ kept v2 m2 := ih (by simpa using h)
      cases m <;> simp [kept, htail]

theorem kept_take_succ (hlen : marked.length = v.length) (hi : i < v.length) :
    kept (v.take (i + 1)) (marked.take (i + 1)) =
      kept (v.take i) (marked.take i) ++ if marked[i] then [] else [v[i]] := by
  have hm : i < marked.length := hlen ▸ hi
  rw [take_succ_eq_append_getElem hi, take_succ_eq_append_getElem hm, kept_append (by simp; omega)]
  cases marked[i] <;> simp [kept]

theorem kept_split (hlen : marked.length = v.length) (i : Nat) :
    kept v marked = kept (v.take i) (marked.take i) ++ kept (v.drop i) (marked.drop i) := by
  rw [← kept_append (by simp; omega), take_append_drop, take_append_drop]

theorem length_kept : ∀ {v : List α} {marked : List Bool}, marked.length = v.length →
    (kept v marked).length = marked.count false
  | [], [], _ => rfl
  | a :: v, m :: marked, h => by
    have ih : (kept v marked).length = marked.count false := length_kept (by simpa using h)
    cases m <;> simp [kept, ih]

theorem kept_eq_nil_iff : ∀ {v : List α} {marked : List Bool}, marked.length = v.length →
    (kept v marked = [] ↔ ∀ m ∈ marked, m = true)
  | [], [], _ => by simp [kept]
  | a :: v, m :: marked, h => by
    have ih : kept v marked = [] ↔ ∀ m ∈ marked, m = true := kept_eq_nil_iff (by simpa using h)
    cases m <;> simp [kept, ih]

theorem kept_eq_self_iff (hlen : marked.length = v.length) : kept v marked = v ↔ ∀ m ∈ marked, m = false := by
  constructor
  · intro h
    have hcount : marked.count false = marked.length := by rw [← length_kept hlen, h, hlen]
    intro m hm
    exact (count_eq_length.mp hcount m hm).symm
  · intro h
    induction v generalizing marked with
    | nil => cases marked <;> rfl
    | cons a v ih =>
      cases marked with
      | nil => cases hlen
      | cons m marked =>
        obtain rfl : m = false := h m (by simp)
        have htail : kept v marked = v := ih (by simpa using hlen) fun m hm => h m (by simp [hm])
        simp [kept, htail]

theorem kept_map (pred : α → Bool) : ∀ v : List α, kept v (v.map pred) = v.filter fun a => !pred a
  | [] => rfl
  | a :: v => by
    have ih := kept_map pred v
    cases h : pred a <;> simp [kept, h, ih]

end

/-! ## The loops -/

/-- The elements before `i` are dealt with: those that are kept stand in front of `to'`, rewritten, and from `i` on nothing is
changed. -/
structure Compacted (f : α → α) (v : List α) (marked : List Bool) (to' i : Nat) (w : List α) : Prop where
  length : w.length = v.length
  front : w.take to' = (kept (v.take i) (marked.take i)).map f
  count : (kept (v.take i) (marked.take i)).length = to'
  back : w.drop i = v.drop i

section

variable {f : α → α} {v w w' : List α} {marked : List Bool} {to' i n : Nat}

variable (f v marked) in
theorem compacted_zero : Compacted f v marked 0 0 v := ⟨rfl, rfl, rfl, rfl⟩

section

variable (h : Compacted f v marked to' i w)
include h

theorem Compacted.getElem (hi : i < v.length) : w[i]? = some v[i] := by
  have hhead := congrArg List.head? h.back
  rwa [head?_drop, head?_drop, getElem?_eq_getElem hi] at hhead

variable (hlen : marked.length = v.length)
include hlen

theorem Compacted.le : to' ≤ i := by
  have hcount := h.count
  rw [length_kept (by simp [hlen])] at hcount
  have := count_le_length (a := false) (l := marked.take i)
  simp only [length_take] at this
  omega

/-- An element that is kept is put behind those in front. -/
theorem Compacted.keep (hi : i < v.length)
    (hmark : marked[i]? = some false) (hlength : w'.length = w.length) (hfront : w'.take (to' + 1) = w.take to' ++ [f v[i]])
    (hback : w'.drop (i + 1) = w.drop (i + 1)) : Compacted f v marked (to' + 1) (i + 1) w' := by
  have hm : i < marked.length := hlen ▸ hi
  have hfalse : marked[i] = false := by simpa [getElem?_eq_getElem hm] using hmark
  refine ⟨hlength.trans h.length, ?_, ?_, ?_⟩
  · rw [hfront, h.front, kept_take_succ hlen hi, hfalse]
    simp
  · rw [kept_take_succ hlen hi, hfalse]
    simp [h.count]
  · rw [hback, ← drop_drop, h.back, drop_drop]

/-- One that is marked is left where it is. -/
theorem Compacted.pass (hi : i < v.length)
    (hmark : marked[i]? = some true) (hlength : w'.length = w.length) (hfront : w'.take to' = w.take to')
    (hback : w'.drop (i + 1) = w.drop (i + 1)) : Compacted f v marked to' (i + 1) w' := by
  have hm : i < marked.length := hlen ▸ hi
  have htrue : marked[i] = true := by simpa [getElem?_eq_getElem hm] using hmark
  refine ⟨hlength.trans h.length, ?_, ?_, ?_⟩
  · rw [hfront, h.front, kept_take_succ hlen hi, htrue]
    simp
  · rw [kept_take_succ hlen hi, htrue]
    simp [h.count]
  · rw [hback, ← drop_drop, h.back, drop_drop]

end

/-! ### One move -/

theorem take_set_succ {a : α} (h : to' < w.length) : (w.set to' a).take (to' + 1) = w.take to' ++ [a] := by
  rw [take_succ_eq_append_getElem (by simpa using h), take_set_of_le le_rfl]
  simp

theorem swapAt_eq (hle : to' ≤ i) (hi : i < w.length) :
    swapAt w to' i = (w.set to' w[i]).set i (w.get ⟨to', hle.trans_lt hi⟩) := by
  simp [swapAt, getElem?_eq_getElem hi, getElem?_eq_getElem (hle.trans_lt hi)]

theorem length_swapAt (w : List α) (j k : Nat) : (swapAt w j k).length = w.length := by
  unfold swapAt
  split <;> simp

theorem take_swapAt (hle : to' ≤ i) (hi : i < w.length) : (swapAt w to' i).take (to' + 1) = w.take to' ++ [w[i]] := by
  have hto : to' < w.length := hle.trans_lt hi
  rw [swapAt_eq hle hi]
  rcases Nat.eq_or_lt_of_le hle with rfl | hlt
  · rw [set_set, take_set_succ hto, get_eq_getElem]
  · rw [take_set_of_le (show to' + 1 ≤ i from hlt), take_set_succ hto]

theorem drop_swapAt (hle : to' ≤ i) : (swapAt w to' i).drop (i + 1) = w.drop (i + 1) := by
  unfold swapAt
  split
  · rw [drop_set_of_lt (Nat.lt_succ_self i), drop_set_of_lt (Nat.lt_succ_of_le hle)]
  · rfl

/-! ### Whole loops -/

theorem passOver_spec (p : Nat → Bool) : ∀ n i : Nat, i ≤ passOver p n i ∧ passOver p n i ≤ i + n ∧
    (∀ k, i ≤ k → k < passOver p n i → p k = true) ∧ (passOver p n i < i + n → p (passOver p n i) = false)
  | 0, i => ⟨le_rfl, le_rfl, fun k h h' => absurd h' (Nat.not_lt.mpr h), fun h => absurd h (lt_irrefl i)⟩
  | n + 1, i => by
    unfold passOver
    cases hp : p i with
    | false => exact ⟨le_rfl, Nat.le_add_right .., fun k h h' => absurd h' (Nat.not_lt.mpr h), fun _ => hp⟩
    | true =>
      obtain ⟨hle, hge, hpass, hstop⟩ := passOver_spec p n (i + 1)
      rw [if_pos rfl]
      refine ⟨by omega, by omega, fun k hik hk => ?_, fun h => hstop (by omega)⟩
      rcases Nat.eq_or_lt_of_le hik with rfl | hik
      · exact hp
      · exact hpass k hik hk

/-- The elements that the first loop passes over are where they are to be. -/
theorem compacted_passed (hlen : marked.length = v.length) : ∀ {j : Nat}, j ≤ v.length → (∀ k < j, marked[k]? = some false) →
    Compacted id v marked j j v
  | 0, _, _ => compacted_zero id v marked
  | j + 1, hj, hpass => by
    have ih := compacted_passed hlen (Nat.le_of_succ_le hj) fun k hk => hpass k (Nat.lt_succ_of_lt hk)
    exact ih.keep hlen hj (hpass j (Nat.lt_succ_self j)) rfl (take_succ_eq_append_getElem hj) rfl

theorem swapLoop_spec (keep : List α → Nat → Bool) {start : Nat} (hlen : marked.length = v.length)
    (hkeep : ∀ {to' i : Nat} {w : List α}, Compacted id v marked to' i w → start ≤ i → i < v.length →
      keep w i = (marked[i]? == some false)) :
    ∀ {n to' i : Nat} {w : List α}, Compacted id v marked to' i w → start ≤ i → i + n ≤ v.length →
      Compacted id v marked (swapLoop keep n to' i w).2 (i + n) (swapLoop keep n to' i w).1
  | 0, _, _, _, h, _, _ => h
  | n + 1, to', i, w, h, hi, hn => by
    have hiv : i < v.length := by omega
    have hiw : i < w.length := by rwa [h.length]
    have hget : w[i] = v[i] := Option.some.inj ((getElem?_eq_getElem hiw).symm.trans (h.getElem hiv))
    have hm : i < marked.length := hlen ▸ hiv
    have hsucc : i + (n + 1) = i + 1 + n := by omega
    unfold swapLoop
    rw [hkeep h hi hiv, getElem?_eq_getElem hm, hsucc]
    cases hmark : marked[i] with
    | false =>
      have hmark' : marked[i]? = some false := by rw [getElem?_eq_getElem hm, hmark]
      have hfront := take_swapAt (h.le hlen) hiw
      rw [hget] at hfront
      have hstep := h.keep hlen hiv hmark' (length_swapAt w to' i) hfront (drop_swapAt (h.le hlen))
      exact swapLoop_spec keep hlen hkeep hstep (Nat.le_succ_of_le hi) (by omega)
    | true =>
      have hmark' : marked[i]? = some true := by rw [getElem?_eq_getElem hm, hmark]
      exact swapLoop_spec keep hlen hkeep (h.pass hlen hiv hmark' rfl rfl rfl) (Nat.le_succ_of_le hi) (by omega)

theorem mod_word_le (v : List α) : v.length % wordSize ≤ v.length := Nat.mod_le _ _

theorem removeMarkedSwap_eq (hlen : marked.length = v.length) (hsz : v.length % wordSize ≠ 0) :
    removeMarkedSwap v marked = kept (v.take (v.length % wordSize)) (marked.take (v.length % wordSize)) := by
  have hle := mod_word_le v
  simp only [removeMarkedSwap, if_neg hsz]
  obtain ⟨-, hpass, hfalse, -⟩ := passOver_spec (fun i => marked[i]? == some false) (v.length % wordSize) 0
  generalize v.length % wordSize = sz at *
  generalize passOver (fun i => marked[i]? == some false) sz 0 = first at *
  have hstart : Compacted id v marked first first v :=
    compacted_passed hlen (by omega) fun k hk => by simpa using hfalse k (Nat.zero_le k) hk
  have hloop := swapLoop_spec (fun _ i => marked[i]? == some false) hlen (fun _ _ _ => rfl) hstart le_rfl
    (show first + (sz - first) ≤ v.length by omega)
  rw [hloop.front, map_id, show first + (sz - first) = sz by omega]

theorem removeMarkedSwap_iff (hlen : marked.length = v.length) :
    removeMarkedSwap v marked = kept v marked ↔ (Marking.array marked).Compactable v := by
  simp only [Marking.Compactable]
  split
  · rename_i hsz
    rw [← kept_eq_self_iff hlen]
    simp only [removeMarkedSwap, if_pos hsz]
    exact eq_comm
  · rename_i hsz
    have hdrop : (marked.drop (v.length % wordSize)).length = (v.drop (v.length % wordSize)).length := by simp [hlen]
    rw [removeMarkedSwap_eq hlen hsz, kept_split hlen (v.length % wordSize), ← kept_eq_nil_iff hdrop]
    exact self_eq_append_right

/-- The elements up to the first that `pred` is true of, and behind them those that it is true of. -/
theorem removeIfSwap_eq (pred : α → Bool) (hsz : v.length % wordSize ≠ 0) : ∃ first ≤ v.length % wordSize,
    removeIfSwap v pred = v.take first ++ ((v.take (v.length % wordSize)).drop first).filter pred ∧
    (∀ a ∈ v.take first, pred a = false) ∧
    ∀ a, ((v.take (v.length % wordSize)).drop first).head? = some a → pred a = true := by
  have hle := mod_word_le v
  simp only [removeIfSwap, if_neg hsz]
  obtain ⟨-, hpass, hfalse, hstop⟩ := passOver_spec (fun i => v[i]?.any fun a => !pred a) (v.length % wordSize) 0
  generalize v.length % wordSize = sz at *
  generalize passOver (fun i => v[i]?.any fun a => !pred a) sz 0 = first at *
  rw [Nat.zero_add] at hpass hstop
  have hbefore : ∀ a ∈ v.take first, pred a = false := by
    intro a ha
    obtain ⟨k, hk, rfl⟩ := getElem_of_mem ha
    rw [length_take] at hk
    have hpredk := hfalse k (Nat.zero_le k) (by omega)
    rw [getElem?_eq_getElem (by omega)] at hpredk
    simpa using hpredk
  refine ⟨first, hpass, ?_, hbefore, ?_⟩
  · -- the marks that the second loop goes by
    let marked := replicate first false ++ (v.drop first).map fun a => !pred a
    have hlen : marked.length = v.length := by simp [marked]; omega
    have hstart : Compacted id v marked first first v :=
      compacted_passed hlen (by omega) fun k hk => by simp [marked, getElem?_append_left, hk]
    have hloop := swapLoop_spec (fun w i => w[i]?.any pred) hlen (fun {to' i w} hw hi hiv => by
      rw [hw.getElem hiv, getElem?_append_right (by simpa using hi)]
      simp [getElem?_map, getElem?_drop, Nat.add_sub_cancel' hi, getElem?_eq_getElem hiv]) hstart le_rfl
      (show first + (sz - first) ≤ v.length by omega)
    have htake : v.take sz = v.take first ++ (v.take sz).drop first := by
      conv_lhs => rw [← take_append_drop first (v.take sz), take_take, Nat.min_eq_left hpass]
    have hmarks : marked.take sz = replicate first false ++ ((v.take sz).drop first).map fun a => !pred a := by
      simp only [marked, take_append, take_replicate, length_replicate, Nat.min_eq_right hpass, map_drop,
        map_take, drop_take]
    have hfront : kept (v.take first) (replicate first false) = v.take first :=
      (kept_eq_self_iff (by simp; omega)).mpr fun m hm => eq_of_mem_replicate hm
    rw [hloop.front, map_id, show first + (sz - first) = sz by omega]
    calc kept (v.take sz) (marked.take sz)
        = kept (v.take first ++ (v.take sz).drop first)
            (replicate first false ++ ((v.take sz).drop first).map fun a => !pred a) := by rw [← htake, hmarks]
      _ = v.take first ++ ((v.take sz).drop first).filter fun a => !!pred a := by
        rw [kept_append (by simp; omega), hfront, kept_map]
      _ = v.take first ++ ((v.take sz).drop first).filter pred := by simp
  · intro a ha
    rw [head?_drop] at ha
    have hlt : first < sz := by
      by_contra hge
      rw [getElem?_eq_none (by simp; omega)] at ha
      cases ha
    have hpred := hstop hlt
    rw [getElem?_take_of_lt hlt] at ha
    simpa [ha] using hpred

theorem removeIfSwap_iff (pred : α → Bool) :
    removeIfSwap v pred = kept v (v.map pred) ↔ (Marking.predicate pred).Compactable v := by
  simp only [Marking.Compactable]
  split
  · rename_i hsz
    have hself : kept v (v.map pred) = v ↔ ∀ m ∈ v.map pred, m = false := kept_eq_self_iff (by simp)
    simp only [removeIfSwap, if_pos hsz]
    rw [eq_comm, hself]
    simp
  · rename_i hsz
    obtain ⟨first, hle, heq, hbefore, hhead⟩ := removeIfSwap_eq pred hsz
    generalize hs : v.length % wordSize = sz at *
    have htake : v.take first ++ (v.take sz).drop first = v.take sz := by
      conv_rhs => rw [← take_append_drop first (v.take sz), take_take, Nat.min_eq_left hle]
    have hkept : kept v (v.map pred) = v.take first ++ (((v.take sz).drop first).filter (fun a => !pred a) ++
        (v.drop sz).filter fun a => !pred a) := by
      have hself : (v.take first).filter (fun a => !pred a) = v.take first :=
        filter_eq_self.mpr fun a ha => by simp [hbefore a ha]
      rw [kept_map]
      conv_lhs => rw [← take_append_drop sz v, ← htake, append_assoc, filter_append, filter_append, hself]
    rw [heq, hkept, append_cancel_left_eq]
    cases hrest : (v.take sz).drop first with
    | nil =>
      rw [hrest, append_nil] at htake
      rw [← htake]
      simp only [filter_nil, nil_append]
      rw [eq_comm, filter_eq_nil_iff]
      simp only [Bool.not_eq_true', Bool.not_eq_false]
      exact ⟨fun h => ⟨hbefore, h⟩, fun h => h.2⟩
    | cons a rest =>
      have hpred : pred a = true := hhead a (by rw [hrest]; rfl)
      have hmem : a ∈ v.take sz := mem_of_mem_drop (i := first) (by rw [hrest]; exact mem_cons_self)
      constructor
      · intro h
        -- the first element behind those passed over is to go, and is kept
        have ha : a ∈ (a :: rest).filter pred := mem_filter.mpr ⟨mem_cons_self, hpred⟩
        rw [h] at ha
        rcases mem_append.mp ha with ha | ha
        · simp [mem_filter, hpred] at ha
        · simp [mem_filter, hpred] at ha
      · rintro ⟨hnone, -⟩
        simp [hnone a hmem] at hpred

end

end Sbmt.Shared
