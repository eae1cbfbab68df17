import Sbmt.Carmel.TwoHeap

/-!
# The queue of states that knows where each one is (`shared/graph.h:308-319`)

| here | there |
| --- | --- |
| `DistQueue` | `distQueue` and `DistToState::stateLocations`, whose pointers are indices here |
| `DistQueue.assign` | `DistToState::operator=` (`:314-317`) |
| `distSlots` | the iterators of `distQueue`, `heap` being one before its start |
| `distLess` | `operator<` of `DistToState` (`shared/graph.cc:95-97`): the nearer state is the greater one |
| `initialQueue` | how `shortestDistancesFrom` fills both (`shared/graph.cc:172-185`) |

Only an assignment to a slot notes where its state is now; what `temp` holds has no slot.  `Holds q L` says that the
first slots are `L` and that each of these states is where it is said to be.
-/

namespace Sbmt.Carmel

open Sbmt.Lib Function Option

structure DistQueue where
  queue : List Nat
  stateLocations : Nat → Nat

def DistQueue.assign (q : DistQueue) (i state : Nat) : DistQueue where
  queue := q.queue.set i state
  stateLocations := update q.stateLocations state i

def distSlots : Slots DistQueue Nat where
  get q i := if i = 0 then none else q.queue[i - 1]?
  assign q i state := q.assign (i - 1) state

def distLess {C : Type} [LinearOrder C] (weights : Nat → C) (lhs rhs : Nat) : Bool :=
  decide (weights rhs < weights lhs)

def fillWith (src i : Nat) : Nat := if i ≤ src then i - 1 else i

def initialQueue (nStates src : Nat) : DistQueue :=
  ((List.range' 1 (nStates - 1)).foldl (fun q i => DistQueue.assign q i (fillWith src i))
    ⟨List.replicate nStates 0, fun _ => 0⟩).assign 0 src

theorem distLess_weak {C : Type} [LinearOrder C] (weights : Nat → C) : StrictWeak (distLess weights) :=
  StrictWeak.ofKey fun s => OrderDual.toDual (weights s)

theorem distLess_eq_false {C : Type} [LinearOrder C] {weights : Nat → C} {s t : Nat} :
    distLess weights s t = false ↔ weights s ≤ weights t := by
  rw [distLess, decide_eq_false_iff_not, not_lt]

/-! ## What the queue holds -/

structure Holds (n : Nat) (q : DistQueue) (L : List Nat) : Prop where
  size : q.queue.length = n
  queue : ∀ (i : Nat) s, L[i]? = some s → q.queue[i]? = some s
  nodup : L.Nodup
  located : ∀ (i : Nat) s, L[i]? = some s → q.stateLocations s = i

/-- The same of all slots but one, which is open. -/
structure HoldsBut (n : Nat) (q : DistQueue) (L : List Nat) (x : Nat) : Prop where
  size : q.queue.length = n
  length : L.length ≤ q.queue.length
  queue : ∀ (i : Nat) s, i ≠ x → L[i]? = some s → q.queue[i]? = some s
  nodup : L.Nodup
  located : ∀ (i : Nat) s, i ≠ x → L[i]? = some s → q.stateLocations s = i

section

variable {n : Nat} {q : DistQueue} {L M : List Nat} {i j s t x a z : Nat}

theorem nodup_at (h : L.Nodup) (hi : L[i]? = some s) (hj : L[j]? = some s) : i = j := by
  obtain ⟨hi, rfl⟩ := List.getElem?_eq_some_iff.1 hi
  obtain ⟨hj, heq⟩ := List.getElem?_eq_some_iff.1 hj
  exact ((List.Nodup.getElem_inj_iff h).1 heq).symm

theorem Holds.length_le (h : Holds n q L) : L.length ≤ q.queue.length := by
  by_contra hlt
  have hlast := h.queue q.queue.length _ (List.getElem?_eq_getElem (Nat.lt_of_not_le hlt))
  rw [List.getElem?_eq_none le_rfl] at hlast
  cases hlast

theorem assign_queue_self (h : i < q.queue.length) : (q.assign i s).queue[i]? = some s := List.getElem?_set_self h

theorem assign_queue_ne (h : i ≠ j) : (q.assign i s).queue[j]? = q.queue[j]? := List.getElem?_set_ne h

theorem assign_located_self : (q.assign i s).stateLocations s = i := update_self ..

theorem assign_located_ne (h : t ≠ s) : (q.assign i s).stateLocations t = q.stateLocations t := update_of_ne h ..

/-- The open slot is filled. -/
theorem HoldsBut.put (h : HoldsBut n q L x) (ht : L[x]? = some t) : Holds n (q.assign x t) L where
  size := (List.length_set ..).trans h.size
  queue i s hi := by
    by_cases hix : i = x
    · subst hix
      obtain rfl : t = s := mem_unique ht hi
      exact assign_queue_self ((List.getElem?_eq_some_iff.1 hi).1.trans_le h.length)
    · rw [assign_queue_ne (Ne.symm hix)]
      exact h.queue i s hix hi
  nodup := h.nodup
  located i s hi := by
    by_cases hix : i = x
    · subst hix
      obtain rfl : t = s := mem_unique ht hi
      exact assign_located_self
    · have hst : s ≠ t := by
        rintro rfl
        exact hix (nodup_at h.nodup hi ht)
      rw [assign_located_ne hst]
      exact h.located i s hix hi

theorem Holds.take (h : Holds n q L) (x : Nat) : HoldsBut n q L x :=
  ⟨h.size, h.length_le, fun i s _ => h.queue i s, h.nodup, fun i s _ => h.located i s⟩

/-- The open slot is filled from another one, which is then open. -/
theorem HoldsBut.move (h : HoldsBut n q L x) (hx : x < L.length) (hj : j ≠ x) (hs : L[j]? = some s) :
    HoldsBut n (q.assign x s) (swapAt L x j) j := by
  have hjl := (List.getElem?_eq_some_iff.1 hs).1
  have hget := getElem?_swapAt hx hjl
  have hat : (swapAt L x j)[x]? = some s := by rw [hget, if_neg (Ne.symm hj), if_pos rfl, hs]
  have helse : ∀ i, i ≠ j → i ≠ x → (swapAt L x j)[i]? = L[i]? := fun i h1 h2 => by rw [hget, if_neg h1, if_neg h2]
  constructor
  · exact (List.length_set ..).trans h.size
  · rw [length_swapAt]
    exact h.length.trans (List.length_set ..).ge
  · intro i t hij hi
    by_cases hix : i = x
    · subst hix
      obtain rfl : s = t := mem_unique hat hi
      exact assign_queue_self (hx.trans_le h.length)
    · rw [helse i hij hix] at hi
      rw [assign_queue_ne (Ne.symm hix)]
      exact h.queue i t hix hi
  · exact (swapAt_perm L x j).nodup_iff.2 h.nodup
  · intro i t hij hi
    by_cases hix : i = x
    · subst hix
      obtain rfl : s = t := mem_unique hat hi
      exact assign_located_self
    · rw [helse i hij hix] at hi
      have hts : t ≠ s := by
        rintro rfl
        exact hij (nodup_at h.nodup hi hs)
      rw [assign_located_ne hts]
      exact h.located i t hix hi

theorem distSlots_get (h : x < L.length) (hq : ∀ s, L[x]? = some s → q.queue[x]? = some s) :
    distSlots.get q (x + 1) = L[x]? := by
  rw [List.getElem?_eq_getElem h] at hq ⊢
  exact hq _ rfl

theorem distRep : Rep distSlots (Holds n) (HoldsBut n) where
  take h _ := h.take _
  get h hx := distSlots_get hx (h.queue _)
  get_but h hy hne := distSlots_get hy fun s => h.queue _ s hne
  move h hx hne hb := h.move hx hne hb
  put h ht := h.put ht

/-- The last state in the place of the first one. -/
theorem Holds.exchange (h : Holds n q (a :: M ++ [z])) : Holds n (q.assign 0 z) (z :: M) := by
  have hnodup : (z :: M).Nodup := by
    have := h.nodup
    rw [List.cons_append, List.nodup_cons] at this
    exact (List.perm_append_singleton z M).nodup_iff.1 this.2
  have hsame : ∀ (i : Nat) s, i ≠ 0 → (z :: M)[i]? = some s → (a :: M ++ [z])[i]? = some s := by
    intro i s hi hs
    obtain ⟨i, rfl⟩ := Nat.exists_eq_succ_of_ne_zero hi
    rw [List.getElem?_cons_succ] at hs
    rw [List.cons_append, List.getElem?_cons_succ,
      List.getElem?_append_left (List.getElem?_eq_some_iff.1 hs).1]
    exact hs
  refine HoldsBut.put ⟨h.size, ?_, ?_, hnodup, ?_⟩ rfl
  · have := h.length_le
    rw [List.length_append] at this
    exact (Nat.le_add_right _ _).trans this
  · exact fun i s hi hs => h.queue i s (hsame i s hi hs)
  · exact fun i s hi hs => h.located i s (hsame i s hi hs)

/-! ## What the operations make of it -/

/-- **`heapPop`** takes the first state out. -/
theorem Holds.pop {less : Nat → Nat → Bool} (hlt : StrictWeak less) (h : Holds n q (a :: L))
    (hs : Sifted less up (a :: L)) :
    ∃ q' L', heapPop distSlots less q (L.length + 1) = some q' ∧ Holds n q' L' ∧ L'.Perm L ∧ Sifted less up L' := by
  rcases List.eq_nil_or_concat L with rfl | ⟨M, z, rfl⟩
  · -- the only state is put where it is already
    have hget : q.queue[0]? = some a := h.queue 0 a rfl
    have hagain : (q.assign 0 a).queue[0]? = some a := assign_queue_self (List.getElem?_eq_some_iff.1 hget).1
    refine ⟨(q.assign 0 a).assign 0 a, [], ?_, ⟨?_, ?_, List.nodup_nil, ?_⟩, .refl _, ?_⟩
    · show (q.queue[0]?).bind _ = _
      rw [hget]
      show ((q.assign 0 a).queue[0]?).bind _ = _
      rw [hagain]
      rfl
    · exact ((List.length_set ..).trans (List.length_set ..)).trans h.size
    · intro i s hi
      cases hi
    · intro i s hi
      cases hi
    · exact fun i _ => atMost_none_left _
  · rw [List.concat_eq_append] at *
    have hlast : q.queue[(M ++ [z]).length]? = some z := by
      apply h.queue
      rw [List.length_append, List.length_singleton, List.getElem?_cons_succ, List.getElem?_concat_length]
    obtain ⟨q', L', hrun, hq', hperm, hs'⟩ :=
      heapify_spec distRep hlt h.exchange (Nat.succ_pos _) (sifted_exchanged hs) le_rfl
    refine ⟨q', L', ?_, hq', hperm.trans (List.perm_append_singleton z M).symm, siftedFrom_zero.1 hs'⟩
    show (q.queue[(M ++ [z]).length]?).bind _ = _
    rw [hlast, List.length_append]
    exact hrun

/-- A state that comes nearer may exceed its parent. -/
theorem Sifted.decrease {C : Type} [LinearOrder C] {d : Nat → C} {c : C} (h : Sifted (distLess d) up L) (hL : L.Nodup)
    (hx : L[x]? = some t) (hc : c < d t) : UpHole (distLess (update d t c)) up L x := by
  have hsame : ∀ {i : Nat} {s}, i ≠ x → L[i]? = some s → update d t c s = d s := by
    intro i s hix hi
    apply update_of_ne
    rintro rfl
    exact hix (nodup_at hL hi hx)
  have hle : ∀ s, update d t c s ≤ d s := by
    intro s
    by_cases hst : s = t
    · rw [hst, update_self]
      exact hc.le
    · rw [update_of_ne hst]
  constructor
  · intro i hi hix s hs p hp
    rw [distLess_eq_false, hsame hix hs]
    exact (hle p).trans (distLess_eq_false.1 (h i hi s hs p hp))
  · intro hxpos i hi hup s hs p hp
    have hlt := up_lt i hi
    have hlt' := up_lt x hxpos
    have htop : d p ≤ d t := distLess_eq_false.1 (h x hxpos t hx p hp)
    have hbelow : d t ≤ d s := distLess_eq_false.1 (h i hi s hs t (by rw [hup]; exact hx))
    rw [distLess_eq_false, hsame (by omega) hs, hsame hlt'.ne hp]
    exact htop.trans hbelow

/-- **`heapAdjustUp`** at the place of a state that has come nearer. -/
theorem Holds.decrease {C : Type} [LinearOrder C] {d : Nat → C} {c : C} (h : Holds n q L) (hs : Sifted (distLess d) up L)
    (ht : t ∈ L) (hc : c < d t) :
    ∃ q' L', heapAdjustUp distSlots (distLess (update d t c)) q (q.stateLocations t + 1) = some q' ∧
      Holds n q' L' ∧ L'.Perm L ∧ Sifted (distLess (update d t c)) up L' := by
  obtain ⟨x, hx⟩ := List.mem_iff_getElem?.1 ht
  rw [h.located x t hx]
  exact heapAdjustUp_spec distRep (distLess_weak _) h (List.getElem?_eq_some_iff.1 hx).1
    (Sifted.decrease hs h.nodup hx hc)

end

/-! ## At the beginning -/

/-- The source comes first, the other states in their order. -/
def initialOrder (nStates src : Nat) : List Nat :=
  (List.range nStates).map fun i => if i = 0 then src else fillWith src i

theorem initialOrder_get {nStates src i : Nat} (hi : i < nStates) :
    (initialOrder nStates src)[i]? = some (if i = 0 then src else fillWith src i) := by
  rw [initialOrder, List.getElem?_map, List.getElem?_range hi]
  rfl

theorem fillWith_ne {src i : Nat} (hi : 0 < i) : fillWith src i ≠ src := by
  unfold fillWith
  split
  · omega
  · omega

theorem fillWith_inj {src i j : Nat} (hi : 0 < i) (hj : 0 < j) (h : fillWith src i = fillWith src j) : i = j := by
  unfold fillWith at h
  split at h
  · split at h
    · omega
    · omega
  · split at h
    · omega
    · omega

theorem mem_initialOrder {nStates src s : Nat} (hsrc : src < nStates) : s ∈ initialOrder nStates src ↔ s < nStates := by
  rw [initialOrder, List.mem_map]
  constructor
  · rintro ⟨i, hi, rfl⟩
    have hi := List.mem_range.1 hi
    unfold fillWith
    split
    · exact hsrc
    · split
      · omega
      · exact hi
  · intro hs
    rcases Nat.lt_trichotomy s src with hlt | rfl | hgt
    · refine ⟨s + 1, List.mem_range.2 (by omega), ?_⟩
      rw [if_neg (Nat.succ_ne_zero s), fillWith, if_pos (by omega), Nat.add_sub_cancel]
    · exact ⟨0, List.mem_range.2 (by omega), if_pos rfl⟩
    · refine ⟨s, List.mem_range.2 hs, ?_⟩
      rw [if_neg (by omega), fillWith, if_neg (by omega)]

theorem initialOrder_nodup (nStates src : Nat) : (initialOrder nStates src).Nodup := by
  refine List.Nodup.map_on ?_ List.nodup_range
  intro i _ j _ h
  rcases Nat.eq_zero_or_pos i with rfl | hi
  · rcases Nat.eq_zero_or_pos j with rfl | hj
    · rfl
    · rw [if_neg hj.ne'] at h
      exact absurd h.symm (fillWith_ne hj)
  · rcases Nat.eq_zero_or_pos j with rfl | hj
    · rw [if_neg hi.ne'] at h
      exact absurd h (fillWith_ne hi)
    · rw [if_neg hi.ne', if_neg hj.ne'] at h
      exact fillWith_inj hi hj h

/-- After the loop over the slots, all but the first are filled. -/
theorem fillSlots_spec (src : Nat) (q : DistQueue) (k : Nat) (hk : k < q.queue.length) :
    let q' := (List.range' 1 k).foldl (fun q i => DistQueue.assign q i (fillWith src i)) q
    q'.queue.length = q.queue.length ∧ ∀ i, 0 < i → i ≤ k →
      q'.queue[i]? = some (fillWith src i) ∧ q'.stateLocations (fillWith src i) = i := by
  induction k with
  | zero => exact ⟨rfl, fun i hi hik => absurd hi (Nat.not_lt.2 hik)⟩
  | succ k ih =>
    obtain ⟨hlen, hall⟩ := ih (by omega)
    rw [List.range'_1_concat, List.foldl_append, List.foldl_cons, List.foldl_nil, Nat.add_comm 1 k]
    refine ⟨(List.length_set ..).trans hlen, ?_⟩
    intro i hi hik
    by_cases heq : i = k + 1
    · subst heq
      exact ⟨assign_queue_self (by rw [hlen]; exact hk), assign_located_self⟩
    · obtain ⟨hq, hloc⟩ := hall i hi (by omega)
      rw [assign_queue_ne (Ne.symm heq), assign_located_ne fun h => heq (fillWith_inj hi (Nat.succ_pos k) h)]
      exact ⟨hq, hloc⟩

theorem initialQueue_holds {nStates src : Nat} (hsrc : src < nStates) :
    Holds nStates (initialQueue nStates src) (initialOrder nStates src) := by
  obtain ⟨hlen, hall⟩ := fillSlots_spec src ⟨List.replicate nStates 0, fun _ => 0⟩ (nStates - 1)
    (by rw [List.length_replicate]; omega)
  rw [List.length_replicate] at hlen
  have hlength : (initialOrder nStates src).length = nStates := by rw [initialOrder, List.length_map, List.length_range]
  have hat : ∀ (i : Nat) s, i ≠ 0 → (initialOrder nStates src)[i]? = some s → s = fillWith src i ∧ i ≤ nStates - 1 := by
    intro i s hi hs
    have hil := (List.getElem?_eq_some_iff.1 hs).1
    rw [hlength] at hil
    rw [initialOrder_get hil, if_neg hi] at hs
    exact ⟨(Option.some.inj hs).symm, by omega⟩
  refine HoldsBut.put ⟨hlen, ?_, ?_, initialOrder_nodup nStates src, ?_⟩ ?_
  · rw [hlength, hlen]
  · intro i s hi hs
    obtain ⟨rfl, hik⟩ := hat i s hi hs
    exact (hall i (Nat.pos_of_ne_zero hi) hik).1
  · intro i s hi hs
    obtain ⟨rfl, hik⟩ := hat i s hi hs
    exact (hall i (Nat.pos_of_ne_zero hi) hik).2
  · rw [initialOrder_get (by omega), if_pos rfl]

end Sbmt.Carmel
