import Sbmt.Carmel.Wfst
import Sbmt.Lib.Numbering
import Sbmt.Lib.Survivors

/-!
# Taking states out of a transducer (`carmel/src/fst.cc:521-537`)

| here | there |
| --- | --- |
| `Fst` | a `WFST`, valid or not; `final` is `none` for `invalid_state` |
| `NamedWfst` | a valid `WFST` with the names of its states, `stateNames` |
| `indicesAfterRemoveMarked` | `indices_after_remove_marked` (`shared/indices_after.hpp:16-26`), `none` for -1 |

`restrict` is what removing comes to: some states are left, and of the arcs between them some. `Renumbering` says how
the states and arcs of one transducer stand in another, `restrict_renumbering` and `restrict_bijOn` that a restriction
has the paths of the whole that stay within it.
-/

namespace Sbmt.Carmel

open Sbmt.Lib List

variable {W : Type*}

structure Fst (W : Type*) where
  states : List (List (FSTArc W))
  final : Option Nat
  stateNames : List String
deriving DecidableEq

structure NamedWfst (W : Type*) extends Wfst W where
  stateNames : List String
  names_le : stateNames.length ≤ states.length

def NamedWfst.toFst (x : NamedWfst W) : Fst W := ⟨x.states, some x.final, x.stateNames⟩

variable (marked : Nat → Bool)

/-- The new index of each, and how many are left. -/
def indicesAfterRemoveMarked (n : Nat) : List (Option Nat) × Nat :=
  (range n).foldl (fun o i => if marked i then (o.1 ++ [none], o.2) else (o.1 ++ [some o.2], o.2 + 1)) ([], 0)

def swapAt {α : Type*} (v : List α) (i j : Nat) : List α :=
  match v[i]?, v[j]? with
  | some a, some b => (v.set i b).set j a
  | _, _ => v

/-- The loop of `remove_marked_swap`, with so many elements to go. The loop before it passes over the elements that this
one would swap with themselves. -/
def swapKept {α : Type*} (marked : Nat → Bool) : Nat → Nat → Nat → List α → List α
  | 0, dst, _, v => v.take dst
  | n + 1, dst, i, v =>
    if marked i then swapKept marked n dst (i + 1) v else swapKept marked n (dst + 1) (i + 1) (swapAt v dst i)

def removeMarkedSwap {α : Type*} (v : List α) : List α := swapKept marked v.length 0 0 v

def renumberDestinations (oldToNew : List (Option Nat)) (arcs : List (FSTArc W)) : List (FSTArc W) :=
  arcs.filterMap fun a => oldToNew[a.dest]?.join.map fun d => { a with dest := d }

def removeMarkedStates (y : Fst W) (marked : Nat → Bool) : Fst W :=
  let o := indicesAfterRemoveMarked marked y.states.length
  if y.states.length = o.2 then y
  else
    { states := (removeMarkedSwap marked y.states).map (renumberDestinations o.1)
      final := y.final.bind fun f => o.1[f]?.join
      stateNames := removeMarkedSwap marked y.stateNames }

/-! ## What the loops compute -/

/-- The states that are left, by their old numbers. -/
def kept (n : Nat) : List Nat := (range n).filter fun k => !marked k

section

variable {marked : Nat → Bool}

variable {n k : Nat}

theorem mem_kept : k ∈ kept marked n ↔ k < n ∧ marked k = false := by
  unfold kept
  rw [mem_filter, mem_range, Bool.not_eq_true']

theorem kept_nodup (marked : Nat → Bool) (n : Nat) : (kept marked n).Nodup := nodup_range.filter _

theorem newIndex_kept (hmark : marked k = false) : Numbering.newIndex marked k = some (kept marked k).length := by
  unfold Numbering.newIndex kept
  rw [if_neg (by rw [hmark]; exact Bool.false_ne_true)]

theorem getElem?_kept_iff {i : Nat} : (kept marked n)[i]? = some k ↔ k < n ∧ Numbering.newIndex marked k = some i := by
  constructor
  · intro h
    obtain ⟨hk, hmark⟩ := mem_kept.1 (mem_of_getElem? h)
    have hnew := newIndex_kept hmark
    have hsame : (kept marked n)[(kept marked k).length]? = some k := Numbering.getElem?_kept hk hnew
    obtain ⟨hlt, -⟩ := List.getElem?_eq_some_iff.1 h
    obtain rfl := (getElem?_inj hlt (kept_nodup marked n)).1 (h.trans hsame.symm)
    exact ⟨hk, hnew⟩
  · rintro ⟨hk, hnew⟩
    exact Numbering.getElem?_kept hk hnew

theorem kept_succ (n : Nat) : kept marked (n + 1) = kept marked n ++ if marked n then [] else [n] := by
  unfold kept
  rw [range_succ]
  cases hmark : marked n with
  | true => simp [hmark]
  | false => simp [hmark]

theorem indicesAfterRemoveMarked_eq (n : Nat) :
    indicesAfterRemoveMarked marked n = ((range n).map (Numbering.newIndex marked), (kept marked n).length) := by
  induction n with
  | zero => rfl
  | succ n ih =>
    unfold indicesAfterRemoveMarked at ih ⊢
    rw [range_succ, foldl_append, ih, kept_succ]
    cases hmark : marked n with
    | true => simp [Numbering.newIndex, hmark]
    | false => simp [Numbering.newIndex, hmark, kept]

theorem indicesAfterRemoveMarked_get (hk : k < n) :
    (indicesAfterRemoveMarked marked n).1[k]?.join = Numbering.newIndex marked k := by
  rw [indicesAfterRemoveMarked_eq, getElem?_map, getElem?_range hk]
  rfl

variable {α : Type*}

theorem swapAt_length (v : List α) (i j : Nat) : (swapAt v i j).length = v.length := by
  unfold swapAt
  split
  · rw [length_set, length_set]
  · rfl

/-- The elements before `dst` are those kept so far, the ones from `i` on are as they were. -/
theorem swapKept_eq : ∀ {n dst i : Nat} {v : List α}, dst ≤ i → i + n = v.length → swapKept marked n dst i v =
      v.take dst ++ ((range' i n).filter fun k => !marked k).filterMap fun k => v[k]?
  | 0, dst, i, v, _, _ => by
    rw [range'_zero, filter_nil, filterMap_nil, append_nil]
    rfl
  | n + 1, dst, i, v, hle, hlen => by
    rw [swapKept, range'_succ]
    cases hmark : marked i with
    | true =>
      rw [if_pos rfl, swapKept_eq (by omega) (by omega), filter_cons_of_neg (by rw [hmark]; exact Bool.false_ne_true)]
    | false =>
      have hi : i < v.length := by omega
      have hdst : dst < v.length := by omega
      have hswap : swapAt v dst i = (v.set dst v[i]).set i v[dst] := by
        unfold swapAt
        rw [getElem?_eq_getElem hdst, getElem?_eq_getElem hi]
      rw [if_neg Bool.false_ne_true, swapKept_eq (by omega) (by rw [swapAt_length]; omega),
        filter_cons_of_pos (by rw [hmark]; rfl), filterMap_cons_some (getElem?_eq_getElem hi)]
      have htake : (swapAt v dst i).take (dst + 1) = v.take dst ++ [v[i]] := by
        rw [hswap]
        apply ext_getElem?
        intro k
        rcases Nat.lt_trichotomy k dst with hk | rfl | hk
        · rw [getElem?_take_of_lt (by omega), getElem?_set_ne (by omega), getElem?_set_ne (by omega),
            getElem?_append_left (by rw [length_take]; omega), getElem?_take_of_lt hk]
        · rw [getElem?_take_of_lt (by omega), getElem?_append_right (by rw [length_take]; omega),
            length_take, Nat.min_eq_left hdst.le, Nat.sub_self]
          by_cases hki : i = k
          · subst hki
            rw [getElem?_set_self (by rw [length_set]; exact hi)]
            rfl
          · rw [getElem?_set_ne hki, getElem?_set_self hdst]
            rfl
        · rw [getElem?_eq_none (by rw [length_take]; omega),
            getElem?_eq_none (by rw [length_append, length_take, length_singleton]; omega)]
      have hrest : ∀ k ∈ (range' (i + 1) n).filter fun k => !marked k, (swapAt v dst i)[k]? = v[k]? := by
        intro k hk
        have hk' := mem_range'_1.1 (mem_filter.1 hk).1
        rw [hswap, getElem?_set_ne (by omega), getElem?_set_ne (by omega)]
      rw [htake, append_assoc, filterMap_congr hrest]
      rfl

theorem removeMarkedSwap_eq (v : List α) :
    removeMarkedSwap marked v = (kept marked v.length).filterMap fun k => v[k]? := by
  unfold removeMarkedSwap
  rw [swapKept_eq (Nat.le_refl 0) (Nat.zero_add _), take_zero, nil_append, kept, range_eq_range']

end

/-! ## A part of a transducer -/

/-- `old` and `ptr` take the states and arcs of `r` to those of `x` that they are: in order, with the same labels, weight
and group, from the start to the start and from the final state to the final state. -/
structure Renumbering (r x : Wfst W) (old : Nat → Nat) (ptr : ArcPtr → ArcPtr) : Prop where
  mono : ∀ s t, s < t → t < r.numStates → old s < old t
  lt : ∀ s < r.numStates, old s < x.numStates
  start : old 0 = 0
  final : old r.final = x.final
  arc : ∀ p a, r.arc? p = some a → (ptr p).src = old p.src ∧ x.arc? (ptr p) = some { a with dest := old a.dest }
  pos : ∀ p q, p.src = q.src → p.pos < q.pos → (∃ a, r.arc? q = some a) → (ptr p).pos < (ptr q).pos

namespace Renumbering

variable {r x : Wfst W} {old : Nat → Nat} {ptr : ArcPtr → ArcPtr}

variable {s t : Nat}

variable (h : Renumbering r x old ptr)
include h

theorem path {ps : List ArcPtr} (hpath : r.Path s ps t) : x.Path (old s) (ps.map ptr) (old t) := by
  induction hpath with
  | nil s => exact .nil _
  | @cons p ps a t ha _ ih =>
    obtain ⟨hsrc, harc⟩ := h.arc p a ha
    rw [← hsrc]
    exact .cons harc ih

theorem old_inj (hs : s < r.numStates) (ht : t < r.numStates) (heq : old s = old t) : s = t := by
  rcases Nat.lt_trichotomy s t with hlt | hst | hgt
  · exact absurd heq (h.mono s t hlt ht).ne
  · exact hst
  · exact absurd heq (h.mono t s hgt hs).ne'

theorem ptr_inj {p q : ArcPtr} {a b : FSTArc W} (hp : r.arc? p = some a)
    (hq : r.arc? q = some b) (heq : ptr p = ptr q) : p = q := by
  have hsrc : p.src = q.src := by
    refine h.old_inj (Wfst.arc?_lt hp).1 (Wfst.arc?_lt hq).1 ?_
    rw [← (h.arc p a hp).1, heq, (h.arc q b hq).1]
  obtain ⟨s, i⟩ := p
  obtain ⟨s', j⟩ := q
  obtain rfl : s = s' := hsrc
  rcases Nat.lt_trichotomy i j with hlt | rfl | hgt
  · exact absurd (congrArg ArcPtr.pos heq) (h.pos ⟨s, i⟩ ⟨s, j⟩ rfl hlt ⟨b, hq⟩).ne
  · rfl
  · exact absurd (congrArg ArcPtr.pos heq) (h.pos ⟨s, j⟩ ⟨s, i⟩ rfl hgt ⟨a, hp⟩).ne'

theorem map_inj {ps : List ArcPtr} (hps : r.Path s ps t) :
    ∀ {s' t' : Nat} {qs : List ArcPtr}, r.Path s' qs t' → ps.map ptr = qs.map ptr → ps = qs := by
  induction hps with
  | nil s =>
    intro s' t' qs _ heq
    exact (map_eq_nil_iff.1 heq.symm).symm
  | @cons p ps a t ha _ ih =>
    intro s' t' qs hqs heq
    cases hqs with
    | nil => cases heq
    | cons hb hrest =>
      obtain ⟨hhead, htail⟩ := List.cons.inj heq
      rw [h.ptr_inj ha hb hhead, ih hrest htail]

end Renumbering

def keepArc (drop : Nat → FSTArc W → Bool) (k : Nat) (a : FSTArc W) : Option (FSTArc W) :=
  if drop k a then none else (Numbering.newIndex marked a.dest).map fun d => { a with dest := d }

def restrictStates (x : Wfst W) (marked : Nat → Bool) (drop : Nat → FSTArc W → Bool) : List (List (FSTArc W)) :=
  (kept marked x.numStates).map fun k => (x.arcs k).filterMap (keepArc marked drop k)

variable {x : Wfst W} {marked : Nat → Bool} {drop : Nat → FSTArc W → Bool}

variable {k : Nat}

theorem keepArc_eq_some {a b : FSTArc W} (h : keepArc marked drop k a = some b) :
    drop k a = false ∧ Numbering.newIndex marked a.dest = some b.dest ∧ b = { a with dest := b.dest } := by
  unfold keepArc at h
  split at h
  · cases h
  · next hdrop =>
    obtain ⟨d, hd, rfl⟩ := Option.map_eq_some_iff.1 h
    exact ⟨Bool.eq_false_iff.2 hdrop, hd, rfl⟩

theorem keepArc_some {d : Nat} {a : FSTArc W} (hdrop : drop k a = false)
    (hd : Numbering.newIndex marked a.dest = some d) : keepArc marked drop k a = some { a with dest := d } := by
  unfold keepArc
  rw [if_neg (by rw [hdrop]; exact Bool.false_ne_true), hd]
  rfl

/-- What is left of a transducer when the marked states are taken out, and of each other state the arcs to a marked state
and those that `drop` names. -/
def restrict (x : Wfst W) (marked : Nat → Bool) (drop : Nat → FSTArc W → Bool) (hstart : marked 0 = false)
    (hfinal : marked x.final = false) : Wfst W where
  states := restrictStates x marked drop
  final := (kept marked x.final).length
  nonempty := by
    rw [restrictStates, length_map]
    exact length_pos_of_mem (mem_kept.2 ⟨x.nonempty, hstart⟩)
  final_lt := by
    have hget := getElem?_kept_iff.2 ⟨x.final_lt, newIndex_kept hfinal⟩
    rw [restrictStates, length_map]
    exact (List.getElem?_eq_some_iff.1 hget).1
  dest_lt := by
    intro arcs harcs b hb
    obtain ⟨k, hk, rfl⟩ := mem_map.1 harcs
    obtain ⟨a, ha, hab⟩ := mem_filterMap.1 hb
    obtain ⟨i, hi⟩ := mem_iff_getElem?.1 ha
    have hget := getElem?_kept_iff.2 ⟨(Wfst.arc?_lt (p := ⟨k, i⟩) hi).2, (keepArc_eq_some hab).2.1⟩
    rw [restrictStates, length_map]
    exact (List.getElem?_eq_some_iff.1 hget).1

/-- The state that a state of a restriction is. -/
def oldState (x : Wfst W) (marked : Nat → Bool) (s : Nat) : Nat := (kept marked x.numStates).getD s 0

/-- The arc that an arc of a restriction is. -/
def oldArc (x : Wfst W) (marked : Nat → Bool) (drop : Nat → FSTArc W → Bool) (p : ArcPtr) : ArcPtr :=
  let k := oldState x marked p.src
  ⟨k, Survivors.position (keepArc marked drop k) (x.arcs k) p.pos⟩

variable {s : Nat}

theorem oldState_eq_iff (hs : s < (kept marked x.numStates).length) :
    oldState x marked s = k ↔ (kept marked x.numStates)[s]? = some k := by
  unfold oldState
  rw [getD_eq_getElem?_getD, getElem?_eq_getElem hs, Option.getD_some, Option.some_inj]

theorem oldState_newIndex (hk : k < x.numStates) (h : Numbering.newIndex marked k = some s) :
    oldState x marked s = k := by
  have hget := getElem?_kept_iff.2 ⟨hk, h⟩
  exact (oldState_eq_iff (List.getElem?_eq_some_iff.1 hget).1).2 hget

section

variable {hstart : marked 0 = false} {hfinal : marked x.final = false}

theorem restrict_numStates : (restrict x marked drop hstart hfinal).numStates = (kept marked x.numStates).length :=
  length_map _

variable {s : Nat}

theorem restrict_arcs (hs : (kept marked x.numStates)[s]? = some k) :
    (restrict x marked drop hstart hfinal).arcs s = (x.arcs k).filterMap (keepArc marked drop k) := by
  show (restrictStates x marked drop).getD s [] = _
  rw [restrictStates, getD_eq_getElem?_getD, getElem?_map, hs]
  rfl

/-- An arc of the restriction is one of the whole, and the state it leaves. -/
theorem restrict_arc {p : ArcPtr} {b : FSTArc W} (h : (restrict x marked drop hstart hfinal).arc? p = some b) :
    ∃ a, (kept marked x.numStates)[p.src]? = some (oldState x marked p.src) ∧
      x.arc? (oldArc x marked drop p) = some a ∧ keepArc marked drop (oldState x marked p.src) a = some b := by
  have hlt := (Wfst.arc?_lt h).1
  rw [restrict_numStates] at hlt
  have hs := (oldState_eq_iff hlt).1 rfl
  unfold Wfst.arc? at h
  rw [restrict_arcs hs] at h
  obtain ⟨a, ha, hab⟩ := Survivors.getElem?_position h
  exact ⟨a, hs, ha, hab⟩

variable (hstart hfinal) in
theorem restrict_lift {q : ArcPtr} {a : FSTArc W} {d : Nat} (ha : x.arc? q = some a) (hdrop : drop q.src a = false)
    (hs : Numbering.newIndex marked q.src = some s) (hd : Numbering.newIndex marked a.dest = some d) :
    ∃ i, oldArc x marked drop ⟨s, i⟩ = q ∧
      (restrict x marked drop hstart hfinal).arc? ⟨s, i⟩ = some { a with dest := d } := by
  have hlt := (Wfst.arc?_lt ha).1
  obtain ⟨i, hi, hget⟩ := Survivors.exists_position (keepArc_some hdrop hd) ha
  refine ⟨i, ?_, ?_⟩
  · simp only [oldArc, oldState_newIndex hlt hs, hi]
  · unfold Wfst.arc?
    rw [restrict_arcs (getElem?_kept_iff.2 ⟨hlt, hs⟩)]
    exact hget

variable (drop hstart hfinal) in
theorem restrict_renumbering :
    Renumbering (restrict x marked drop hstart hfinal) x (oldState x marked) (oldArc x marked drop) where
  mono s t hst ht := by
    rw [restrict_numStates] at ht
    have hsorted : (kept marked x.numStates).Pairwise (· < ·) := pairwise_lt_range.filter _
    unfold oldState
    rw [getD_eq_getElem _ _ (hst.trans ht), getD_eq_getElem _ _ ht]
    exact pairwise_iff_getElem.1 hsorted s t (hst.trans ht) ht hst
  lt s hs := by
    rw [restrict_numStates] at hs
    exact (getElem?_kept_iff.1 ((oldState_eq_iff hs).1 rfl)).1
  start := oldState_newIndex x.nonempty (newIndex_kept hstart)
  final := oldState_newIndex x.final_lt (newIndex_kept hfinal)
  arc p b h := by
    obtain ⟨a, -, ha, hab⟩ := restrict_arc h
    obtain ⟨-, hdest, hb⟩ := keepArc_eq_some hab
    refine ⟨rfl, ?_⟩
    rw [ha, hb, oldState_newIndex (Wfst.arc?_lt ha).2 hdest]
  pos p q hsrc hlt := by
    rintro ⟨b, hb⟩
    obtain ⟨-, hs, -, -⟩ := restrict_arc hb
    unfold Wfst.arc? at hb
    rw [restrict_arcs hs] at hb
    show Survivors.position _ _ _ < Survivors.position _ _ _
    rw [hsrc]
    exact Survivors.position_lt hlt (List.getElem?_eq_some_iff.1 hb).1

/-- The arcs of a path stay in a restriction. -/
def Within (x : Wfst W) (marked : Nat → Bool) (drop : Nat → FSTArc W → Bool) (qs : List ArcPtr) : Prop :=
  ∀ q ∈ qs, ∀ a, x.arc? q = some a → drop q.src a = false ∧ marked a.dest = false

variable (hstart hfinal) in
theorem restrict_path {u v : Nat} {qs : List ArcPtr} (hpath : x.Path u qs v) (hwithin : Within x marked drop qs) :
    ∀ {s : Nat}, Numbering.newIndex marked u = some s →
      ∃ ps t, Numbering.newIndex marked v = some t ∧ (restrict x marked drop hstart hfinal).Path s ps t ∧
        ps.map (oldArc x marked drop) = qs := by
  induction hpath with
  | nil u =>
    intro s hs
    exact ⟨[], s, hs, .nil s, rfl⟩
  | @cons q qs a v ha _ ih =>
    intro s hs
    obtain ⟨hdrop, hmark⟩ := hwithin q mem_cons_self a ha
    have hd := newIndex_kept hmark
    obtain ⟨i, hold, harc⟩ := restrict_lift hstart hfinal ha hdrop hs hd
    obtain ⟨ps, t, ht, hps, hmap⟩ := ih (fun q' hq' => hwithin q' (mem_cons_of_mem q hq')) hd
    exact ⟨⟨s, i⟩ :: ps, t, ht, .cons harc hps, by rw [map_cons, hold, hmap]⟩

theorem restrict_within {t : Nat} {ps : List ArcPtr} (hpath : (restrict x marked drop hstart hfinal).Path s ps t) :
    Within x marked drop (ps.map (oldArc x marked drop)) := by
  induction hpath with
  | nil s => exact fun q hq => by cases hq
  | @cons p ps b t hb _ ih =>
    rintro q hq a ha
    rcases mem_cons.1 hq with rfl | hq
    · obtain ⟨a', -, ha', hab⟩ := restrict_arc hb
      obtain rfl : a = a' := Option.mem_unique ha ha'
      obtain ⟨hdrop, hdest, -⟩ := keepArc_eq_some hab
      exact ⟨hdrop, (Numbering.newIndex_eq_some hdest).1⟩
    · exact ih q hq a ha

variable (drop hstart hfinal) in
/-- **The accepting paths of a restriction are those of the whole that stay within it.** -/
theorem restrict_bijOn : Set.BijOn (List.map (oldArc x marked drop))
    {ps | (restrict x marked drop hstart hfinal).Accepting ps} {qs | x.Accepting qs ∧ Within x marked drop qs} := by
  have hren := restrict_renumbering drop hstart hfinal
  refine ⟨?_, ?_, ?_⟩
  · intro ps hps
    refine ⟨?_, restrict_within hps⟩
    have hpath := hren.path hps
    rwa [hren.start, hren.final] at hpath
  · intro ps hps qs hqs heq
    exact hren.map_inj hps hqs heq
  · rintro qs ⟨hqs, hwithin⟩
    obtain ⟨ps, t, ht, hps, hmap⟩ := restrict_path hstart hfinal hqs hwithin (newIndex_kept hstart)
    obtain rfl : (kept marked x.final).length = t := Option.some.inj ((newIndex_kept hfinal).symm.trans ht)
    exact ⟨ps, hps, hmap⟩

end

/-! ## Removing is restricting -/

variable {α : Type*}

theorem getElem?_filterMap_of_isSome {β : Type*} {g : α → Option β} :
    ∀ {l : List α} (_ : ∀ a ∈ l, (g a).isSome = true) (i : Nat), (l.filterMap g)[i]? = l[i]?.bind g
  | [], _, _ => rfl
  | a :: l, h, i => by
    obtain ⟨b, hb⟩ := Option.isSome_iff_exists.1 (h a mem_cons_self)
    rw [filterMap_cons_some hb]
    cases i with
    | zero => exact hb.symm
    | succ i => exact getElem?_filterMap_of_isSome (fun c hc => h c (mem_cons_of_mem a hc)) i

variable {n : Nat}

/-- The elements of an array that are left, by the numbers of the states that are. -/
theorem removeMarkedSwap_get {v : List α}
    (hs : (kept marked n)[s]? = some k) : (removeMarkedSwap marked v)[s]? = v[k]? := by
  obtain ⟨-, hnew⟩ := getElem?_kept_iff.1 hs
  have hsome : ∀ k ∈ kept marked v.length, (v[k]?).isSome = true := by
    intro k hk
    rw [getElem?_eq_getElem (mem_kept.1 hk).1]
    rfl
  rw [removeMarkedSwap_eq, getElem?_filterMap_of_isSome hsome]
  by_cases hk : k < v.length
  · rw [getElem?_kept_iff.2 ⟨hk, hnew⟩]
    rfl
  · rw [getElem?_eq_none (Nat.le_of_not_lt hk)]
    cases hget : (kept marked v.length)[s]? with
    | none => rfl
    | some k' =>
      obtain ⟨hlt, hnew'⟩ := getElem?_kept_iff.1 hget
      exact absurd (Numbering.newIndex_inj hnew' hnew ▸ hlt) hk

theorem kept_eq_range (h : n = (kept marked n).length) {m : Nat} (hm : m ≤ n) : kept marked m = range m := by
  have hall : ∀ k ∈ range n, (!marked k) = true :=
    length_filter_eq_length_iff.1 (h.symm.trans length_range.symm)
  exact filter_eq_self.2 fun k hk =>
    hall k (mem_range.2 (Nat.lt_of_lt_of_le (mem_range.1 hk) hm))

theorem removeMarkedSwap_of_unmarked {v : List α} (h : n = (kept marked n).length)
    (hlen : v.length ≤ n) : removeMarkedSwap marked v = v := by
  apply ext_getElem?
  intro k
  by_cases hk : k < v.length
  · refine removeMarkedSwap_get (n := v.length) ?_
    rw [kept_eq_range h hlen, getElem?_range hk]
  · rw [removeMarkedSwap_eq, kept_eq_range h hlen, getElem?_eq_none (Nat.le_of_not_lt hk)]
    refine getElem?_eq_none ((length_filterMap_le _ _).trans ?_)
    rw [length_range]
    exact Nat.le_of_not_lt hk

theorem newIndex_of_unmarked (h : n = (kept marked n).length) (hk : k < n) : Numbering.newIndex marked k = some k := by
  have hget : (kept marked n)[k]? = some k := by rw [kept_eq_range h (Nat.le_refl n), getElem?_range hk]
  exact (getElem?_kept_iff.1 hget).2

/-- Also where nothing is removed. -/
theorem removeMarkedStates_eq (x : NamedWfst W) (marked : Nat → Bool) :
    removeMarkedStates x.toFst marked =
      { states := restrictStates x.toWfst marked fun _ _ => false
        final := Numbering.newIndex marked x.final
        stateNames := removeMarkedSwap marked x.stateNames } := by
  have hrenumber : ∀ arcs ∈ x.states, renumberDestinations
      (indicesAfterRemoveMarked marked x.states.length).1 arcs = arcs.filterMap (keepArc marked (fun _ _ => false) 0) := by
    intro arcs harcs
    refine filterMap_congr fun a ha => ?_
    rw [indicesAfterRemoveMarked_get (x.dest_lt arcs harcs a ha)]
    rfl
  have hstates : (removeMarkedSwap marked x.states).map (renumberDestinations
      (indicesAfterRemoveMarked marked x.states.length).1) = restrictStates x.toWfst marked fun _ _ => false := by
    rw [restrictStates, removeMarkedSwap_eq]
    rw [map_filterMap, ← filterMap_eq_map]
    refine filterMap_congr fun k hk => ?_
    have hlt := (mem_kept.1 hk).1
    have hget : x.toWfst.arcs k = x.states[k] := by
      unfold Wfst.arcs
      rw [getD_eq_getElem _ _ hlt]
    rw [getElem?_eq_getElem hlt, Option.map_some, hrenumber _ (getElem_mem hlt), Function.comp_apply, hget]
    rfl
  by_cases hcount : x.states.length = (kept marked x.states.length).length
  · have hsame : removeMarkedStates x.toFst marked = x.toFst := by
      unfold removeMarkedStates
      rw [indicesAfterRemoveMarked_eq]
      exact if_pos hcount
    rw [hsame, ← hstates, newIndex_of_unmarked hcount x.final_lt, removeMarkedSwap_of_unmarked hcount (Nat.le_refl _),
      removeMarkedSwap_of_unmarked hcount x.names_le, map_congr_left hrenumber]
    have hid : ∀ arcs ∈ x.states, arcs.filterMap (keepArc marked (fun _ _ => false) 0) = arcs := by
      intro arcs harcs
      have hsome : ∀ a ∈ arcs, keepArc marked (fun _ _ => false) 0 a = some a :=
        fun a ha => keepArc_some rfl (newIndex_of_unmarked hcount (x.dest_lt arcs harcs a ha))
      rw [filterMap_congr hsome, filterMap_some]
    rw [map_congr_left hid, map_id']
    rfl
  · have hfinal : (indicesAfterRemoveMarked marked x.states.length).1[x.final]?.join = Numbering.newIndex marked x.final :=
      indicesAfterRemoveMarked_get x.final_lt
    rw [← hstates, ← hfinal]
    unfold removeMarkedStates
    rw [if_neg (by rw [indicesAfterRemoveMarked_eq]; exact hcount)]
    rfl

end Sbmt.Carmel
