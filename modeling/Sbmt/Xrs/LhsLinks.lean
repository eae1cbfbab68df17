import Sbmt.Xrs.LhsText
/-!
# The left-hand side as an array (`xrsparse/xrsparse/xrs.hpp:14-36`, `xrsparse/src/xrs.cpp:30-52`)

`rule_data::lhs` has the nodes of the tree in preorder.  A child that another follows points to it through `next`, so
the actions of the grammar, which come to know of the next child only after all of the last one, go back to set
the link (`effectRoot_lhs`); the printer follows the links and writes the tree (`printPos_flat`).
-/

namespace Sbmt.Xrs

open Sbmt.Lib.Phrase List

/-! ## Preorder -/

mutual

def size : Tree → Nat
  | .var _ _ => 1
  | .lex _ _ => 2
  | .node _ k ks => 1 + size k + sizes ks

def sizes : List Tree → Nat
  | [] => 0
  | k :: ks => size k + sizes ks

end

mutual

/-- A tree that begins at `pos`, where `next` is the link of its root. -/
def flat (next pos : Nat) : Tree → List LhsNode
  | .var i l => [⟨true, false, l, i, next⟩]
  | .lex l w => [⟨false, true, l, 0, next⟩, ⟨false, false, w, 0, 0⟩]
  | .node l k ks =>
    ⟨false, true, l, 0, next⟩ ::
      (flat (if ks = [] then 0 else pos + 1 + size k) (pos + 1) k ++ flats 0 (pos + 1 + size k) ks)

/-- Siblings, where `next` is the link of the last. -/
def flats (next pos : Nat) : List Tree → List LhsNode
  | [] => []
  | k :: ks => flat (if ks = [] then next else pos + size k) pos k ++ flats next (pos + size k) ks

end

theorem size_pos (T : Tree) : 0 < size T := by
  cases T with
  | var i l => rw [size]; omega
  | lex l w => rw [size]; omega
  | node l k ks => rw [size]; omega

mutual

theorem length_flat : ∀ (T : Tree) (next pos : Nat), (flat next pos T).length = size T
  | .var _ _, _, _ => rfl
  | .lex _ _, _, _ => rfl
  | .node l k ks, next, pos => by
    rw [flat, size, length_cons, length_append, length_flat k, length_flats ks]
    omega

theorem length_flats : ∀ (ks : List Tree) (next pos : Nat), (flats next pos ks).length = sizes ks
  | [], _, _ => rfl
  | k :: ks, next, pos => by
    rw [flats, sizes, length_append, length_flat k, length_flats ks]

end

/-- The root of a tree comes first, and has the link. -/
theorem exists_flat (T : Tree) (next pos : Nat) : ∃ r rest, flat next pos T = r :: rest ∧ r.next = next := by
  cases T with
  | var i l => exact ⟨_, _, rfl, rfl⟩
  | lex l w => exact ⟨_, _, rfl, rfl⟩
  | node l k ks => exact ⟨_, _, by rw [flat], rfl⟩

theorem flat_modify (T : Tree) (next v pos : Nat) (more : List LhsNode) :
    (flat next pos T ++ more).modify 0 (fun nd => { nd with next := v }) = flat v pos T ++ more := by
  cases T with
  | var i l => rfl
  | lex l w => rfl
  | node l k ks =>
    rfl

theorem flats_concat (next : Nat) (k : Tree) (front : List Tree) : ∀ pos,
    flats next pos (front ++ [k]) = flats (pos + sizes front) pos front ++ flat next (pos + sizes front) k := by
  induction front with
  | nil =>
    simp [flats, sizes]
  | cons t ts ih =>
    intro pos
    have hpos : pos + size t + sizes ts = pos + (size t + sizes ts) := by omega
    rw [cons_append, flats, if_neg (by simp), ih, flats, sizes, hpos, append_assoc]
    by_cases hts : ts = []
    · subst hts
      simp [sizes]
    · rw [if_neg hts]

theorem modify_length_append {α : Type} (f : α → α) (base l : List α) :
    (base ++ l).modify base.length f = base ++ l.modify 0 f := modifyTailIdx_add _ 0 base l

/-- The link of the last sibling is set. -/
theorem flats_modify (base more : List LhsNode) (front : List Tree) (last : Tree) (v : Nat) :
    (base ++ flats 0 base.length (front ++ [last]) ++ more).modify (base.length + sizes front)
      (fun nd => { nd with next := v }) = base ++ flats v base.length (front ++ [last]) ++ more := by
  rw [flats_concat, flats_concat]
  set F := flats (base.length + sizes front) base.length front with hF
  have hlen : (base ++ F).length = base.length + sizes front := by
    rw [length_append, length_flats]
  rw [← append_assoc, ← append_assoc, append_assoc (base ++ F), ← hlen,
    modify_length_append, flat_modify, append_assoc (base ++ F)]

/-! ## The actions -/

/-- The state after the actions of a child. -/
structure Grown (s s' : LhsState) (T : Tree) : Prop where
  lhs : s'.lhs = s.lhs ++ flat 0 s.lhs.length T
  rootStack : s'.rootStack = s.rootStack
  seqStack : s'.seqStack = s.seqStack
  seqItem : s'.seqItem = s.lhs.length

/-- The state within a sequence of children that begins behind `base`, the last of which is on top of `lhs_seq_`. -/
structure Within (base : List LhsNode) (stack : List Nat) (front : List Tree) (last : Tree) (s : LhsState) : Prop where
  lhs : s.lhs = base ++ flats 0 base.length (front ++ [last])
  seqStack : s.seqStack = (base.length + sizes front) :: stack

theorem Within.link {base : List LhsNode} {stack : List Nat} {front : List Tree} {last k : Tree} {s s' : LhsState}
    (h : Within base stack front last s) (hk : Grown s s' k) : Within base stack (front ++ [last]) k s'.link := by
  have hlen : s.lhs.length = base.length + sizes (front ++ [last]) := by
    rw [h.lhs, length_append, length_flats]
  have hhead : s'.seqStack.headD 0 = base.length + sizes front := by
    rw [hk.seqStack, h.seqStack, headD_cons]
  constructor
  · show s'.lhs.modify (s'.seqStack.headD 0) _ = _
    rw [hhead, hk.lhs, hk.seqItem, h.lhs, flats_modify, ← h.lhs, hlen, flats_concat 0 k (front ++ [last]),
      append_assoc]
  · show s'.seqItem :: s'.seqStack.tail = _
    rw [hk.seqItem, hk.seqStack, h.seqStack, hlen, tail_cons]

mutual

theorem effect_grown : ∀ (T : Tree) (s : LhsState), Grown s (effect T s) T
  | .var i l, s => ⟨rfl, rfl, rfl, by simp [effect, LhsState.pushVar, LhsState.push]⟩
  | .lex l w, s => by
    refine ⟨?_, rfl, rfl, ?_⟩ <;>
      simp [effect, LhsState.takeRoot, LhsState.closeRoot, LhsState.pushWord, LhsState.push, LhsState.openSeq,
        LhsState.openRoot, flat]
  | .node l k ks, s => by
    set s1 := (s.openRoot l).openSeq with hs1
    have hlhs : s1.lhs = s.lhs ++ [⟨false, true, l, 0, 0⟩] := rfl
    have hlen : s1.lhs.length = s.lhs.length + 1 := by
      rw [hlhs, length_append, length_singleton]
    have hroots : s1.rootStack = s.lhs.length :: s.rootStack := by
      simp [hs1, LhsState.openSeq, LhsState.openRoot, LhsState.push]
    have hk := effect_grown k s1
    have hwithin : Within s1.lhs s.seqStack [] k (effect k s1).setBack := by
      constructor
      · show (effect k s1).lhs = _
        rw [hk.lhs]
        simp [flats]
      · show (effect k s1).seqItem :: (effect k s1).seqStack.tail = _
        rw [hk.seqItem, hk.seqStack]
        rfl
    obtain ⟨hlhs', hseq', hroots'⟩ := effectMore_within ks _ _ _ _ _ hwithin
    have hroots'' : (effectMore ks (effect k s1).setBack).rootStack = s.lhs.length :: s.rootStack := by
      rw [hroots']
      show (effect k s1).rootStack = _
      rw [hk.rootStack, hroots]
    refine ⟨?_, ?_, ?_, ?_⟩
    · show (effectMore ks (effect k s1).setBack).lhs = _
      rw [hlhs', hlen, hlhs, append_assoc]
      rfl
    · show (effectMore ks (effect k s1).setBack).rootStack.tail = _
      rw [hroots'', tail_cons]
    · show (effectMore ks (effect k s1).setBack).seqStack.tail = _
      rw [hseq']
    · show (effectMore ks (effect k s1).setBack).rootStack.headD 0 = _
      rw [hroots'', headD_cons]

theorem effectMore_within : ∀ (ks : List Tree) (base : List LhsNode) (stack : List Nat) (front : List Tree)
    (last : Tree) (s : LhsState), Within base stack front last s →
      (effectMore ks s).lhs = base ++ flats 0 base.length (front ++ last :: ks) ∧
        (effectMore ks s).seqStack.tail = stack ∧ (effectMore ks s).rootStack = s.rootStack
  | [], base, stack, front, last, s, h => ⟨h.lhs, by rw [effectMore, h.seqStack, tail_cons], rfl⟩
  | k :: ks, base, stack, front, last, s, h => by
    have hk := effect_grown k s
    obtain ⟨hlhs, hseq, hroots⟩ := effectMore_within ks base stack (front ++ [last]) k _ (h.link hk)
    rw [effectMore]
    refine ⟨?_, hseq, hroots.trans hk.rootStack⟩
    rw [hlhs, append_assoc]
    rfl

end

/-- **The actions of a left-hand side push its nodes** in preorder, linked. -/
theorem effectRoot_lhs {T : Tree} (h : T.IsRoot) (s : LhsState) :
    (effectRoot T s).lhs = s.lhs ++ flat 0 s.lhs.length T := by
  have hgrown := (effect_grown T s).lhs
  rw [h.effect_eq] at hgrown
  exact hgrown

/-! ## The printer -/

mutual

theorem printPos_flat : ∀ (T : Tree) (vec : List LhsNode) (n next : Nat) (pre post : List LhsNode),
    vec = pre ++ flat next pre.length T ++ post → size T ≤ n → printPos vec n pre.length = printTree T
  | .var i l, vec, n, next, pre, post, hvec, hn => by
    obtain ⟨n, rfl⟩ := Nat.exists_eq_succ_of_ne_zero (by rw [size] at hn; omega : n ≠ 0)
    have hget : vec[pre.length]? = some ⟨true, false, l, i, next⟩ := by
      rw [hvec, flat]
      simp
    simp [printPos, hget, printTree]
  | .lex l w, vec, n, next, pre, post, hvec, hn => by
    rw [size] at hn
    obtain ⟨n, rfl⟩ := Nat.exists_eq_add_of_le' hn
    have hget : vec[pre.length]? = some ⟨false, true, l, 0, next⟩ := by
      rw [hvec, flat]
      simp
    have hget' : vec[pre.length + 1]? = some ⟨false, false, w, 0, 0⟩ := by
      rw [hvec, flat]
      simp
    simp [printPos, printNext, hget, hget', printTree]
  | .node l k ks, vec, n, next, pre, post, hvec, hn => by
    rw [size] at hn
    have hk := size_pos k
    obtain ⟨n, rfl⟩ := Nat.exists_eq_succ_of_ne_zero (by omega : n ≠ 0)
    rw [flat] at hvec
    have hget : vec[pre.length]? = some ⟨false, true, l, 0, next⟩ := by
      rw [hvec]
      simp
    -- the array as it is cut at the first child, and behind it
    set pre1 := pre ++ [⟨false, true, l, 0, next⟩] with hpre1
    have hlen1 : pre1.length = pre.length + 1 := by simp [hpre1]
    set F := flat (if ks = [] then 0 else pre.length + 1 + size k) (pre.length + 1) k with hF
    have hlenF : F.length = size k := length_flat k _ _
    have hvec1 : vec = pre1 ++ F ++ (flats 0 (pre.length + 1 + size k) ks ++ post) := by
      rw [hvec, hpre1]
      simp
    have hvec2 : vec = (pre1 ++ F) ++ flats 0 (pre1 ++ F).length ks ++ post := by
      rw [hvec1, length_append, hlen1, hlenF]
      simp
    have hfirst := printPos_flat k vec n _ pre1 _ (by rw [hlen1]; exact hvec1) (by omega)
    obtain ⟨r, rest, hr, hnext⟩ := exists_flat k (if ks = [] then 0 else pre.length + 1 + size k) (pre.length + 1)
    have hgetk : vec[pre.length + 1]? = some r := by
      rw [hvec1, hF, hr, ← hlen1]
      simp
    have hmore := printNext_flats ks vec n (pre.length + 1) (pre1 ++ F) post r hgetk
      (by rw [hnext, length_append, hlen1, hlenF]) hvec2 (by simp [hpre1]) (by omega)
    rw [hlen1] at hfirst
    simp [printPos, hget, hfirst, hmore, printTree]

theorem printNext_flats : ∀ (ks : List Tree) (vec : List LhsNode) (n pos : Nat) (pre post : List LhsNode) (r : LhsNode),
    vec[pos]? = some r → r.next = (if ks = [] then 0 else pre.length) → vec = pre ++ flats 0 pre.length ks ++ post →
      pre ≠ [] → sizes ks < n → printNext vec n pos = printMore ks
  | [], vec, n, pos, pre, post, r, hget, hnext, _, _, hn => by
    obtain ⟨n, rfl⟩ := Nat.exists_eq_succ_of_ne_zero (by omega : n ≠ 0)
    simp [printNext, hget, hnext, printMore]
  | k :: ks, vec, n, pos, pre, post, r, hget, hnext, hvec, hpre, hn => by
    obtain ⟨n, rfl⟩ := Nat.exists_eq_succ_of_ne_zero (by omega : n ≠ 0)
    rw [sizes] at hn
    have hk := size_pos k
    have hne : pre.length ≠ 0 := by
      rw [ne_eq, length_eq_zero_iff]
      exact hpre
    rw [flats] at hvec
    set F := flat (if ks = [] then 0 else pre.length + size k) pre.length k with hF
    have hlenF : F.length = size k := length_flat k _ _
    have hvec1 : vec = pre ++ F ++ (flats 0 (pre.length + size k) ks ++ post) := by
      rw [hvec]
      simp
    have hvec2 : vec = (pre ++ F) ++ flats 0 (pre ++ F).length ks ++ post := by
      rw [hvec1, length_append, hlenF]
      simp
    have hfirst := printPos_flat k vec n _ pre _ hvec1 (by omega)
    obtain ⟨r', rest, hr', hnext'⟩ := exists_flat k (if ks = [] then 0 else pre.length + size k) pre.length
    have hgetk : vec[pre.length]? = some r' := by
      rw [hvec1, hF, hr']
      simp
    have hmore := printNext_flats ks vec n pre.length (pre ++ F) post r' hgetk
      (by rw [hnext', length_append, hlenF]) hvec2 (by simp [hpre]) (by omega)
    simp [printNext, hget, hnext, hne, hfirst, hmore, printMore]

end

/-- **The printer writes the tree** whose nodes are in the array. -/
theorem printPos_root (T : Tree) : printPos (flat 0 0 T) (flat 0 0 T).length 0 = printTree T := by
  apply printPos_flat T _ _ 0 [] []
  · simp
  · rw [length_flat]

end Sbmt.Xrs
