import Sbmt.Edge.Equivalence
import Sbmt.Hash.PriorityTable
import Sbmt.Lib.Prune
/-!
# Filtering the edges of a span (`sbmt_decoder/include/sbmt/search/impl/edge_filter.ipp`)

Equivalent edges are merged into one class, and the classes are in a queue with the lowest score on top.

| here | there |
| --- | --- |
| `Edge`, `EdgeEquiv`, `create` | `edge`, `edge_equivalence`, `edge_equivalence_pool::create`; `key` is what equivalent edges agree in |
| `score` | `edge::score`: the heuristic times the inside score (`edge/edge.hpp:330-334`) |
| `EdgeQueue`, `insertEdge`, `insertEquiv` | `edge_queue` (`impl/edge_queue.ipp:12-116`) |
| `histogramPredicate`, `ratioPredicate` | `impl/filter_predicates.ipp:5-43` |
| `popLoop`, `popTop` | `predicate_edge_filter::pop_top` (`impl/edge_filter.ipp:47-81`) |
| `insert` | `predicate_edge_filter::insert` (`:18-34`), before the filter is finalized |

The heuristic of an edge comes of its root and its info, so it is the class's (`edge/edge.hpp:262`).  `none` is
the exception "priority_table invalidated!".
-/

namespace Sbmt.Search.EdgeFilter

open Sbmt.Lib Sbmt.Edge Sbmt.Hash List

variable {K S C : Type}

structure Edge (K S C : Type) where
  key : K
  alt : AltEdge S C

/-- A class has a representative. -/
structure EdgeEquiv (K S C : Type) where
  key : K
  impl : Impl S C
  hasRep : impl.rep.isSome

namespace EdgeEquiv

def representative (eq : EdgeEquiv K S C) : AltEdge S C := eq.impl.rep.get eq.hasRep

def create (limits : K → Limits) (e : Edge K S C) : EdgeEquiv K S C := ⟨e.key, ⟨limits e.key, some e.alt, []⟩, rfl⟩

section

variable [LinearOrder S] (H : HeapAlg)

theorem isSome_insertEdge {c : Impl S C} {e : AltEdge S C} (h : c.rep.isSome) : (c.insertEdge H e).rep.isSome := by
  obtain ⟨limits, rep, alts⟩ := c
  obtain ⟨rep, rfl⟩ := Option.isSome_iff_exists.mp h
  rw [Impl.insertEdge_rep]
  rfl

theorem isSome_insertAll {es : List (AltEdge S C)} : ∀ {c : Impl S C}, c.rep.isSome → (c.insertAll H es).rep.isSome := by
  induction es with
  | nil => exact fun h => h
  | cons e es ih => exact fun h => ih (isSome_insertEdge H h)

def insertEdge (e : AltEdge S C) (eq : EdgeEquiv K S C) : EdgeEquiv K S C :=
  ⟨eq.key, eq.impl.insertEdge H e, isSome_insertEdge H eq.hasRep⟩

def merge (other eq : EdgeEquiv K S C) : EdgeEquiv K S C :=
  ⟨eq.key, eq.impl.merge H other.impl, isSome_insertAll H eq.hasRep⟩

end

end EdgeEquiv

structure EdgeQueue (K S C : Type) where
  ptable : PriorityTable (EdgeEquiv K S C) K
  highScore : S

/-- What filters by the contents of the queue: whether to keep an edge of a score, and whether to pop the top. -/
structure Predicate (K S C : Type) where
  keepEdge : EdgeQueue K S C → S → Bool
  popTop : EdgeQueue K S C → Bool

section

variable [DecidableEq K] [CommSemiring S] [LinearOrder S] (H : HeapAlg) (limits : K → Limits) (heuristic : K → S)

def Edge.score (e : Edge K S C) : S := heuristic e.key * e.alt.inside

def EdgeEquiv.score (eq : EdgeEquiv K S C) : S := heuristic eq.key * eq.representative.inside

/-- Keyed by the representative, and by its score with `std::greater`. -/
def queueTraits : Traits (EdgeEquiv K S C) K S := ⟨EdgeEquiv.key, EdgeEquiv.score heuristic, fun a b => decide (b < a)⟩

namespace EdgeQueue

def empty : EdgeQueue K S C := ⟨.empty, 0⟩

variable (q : EdgeQueue K S C)

def size : Nat := q.ptable.heap.length

def top (q : EdgeQueue K S C) : Option (EdgeEquiv K S C) := q.ptable.top

def pop (q : EdgeQueue K S C) : EdgeQueue K S C := { q with ptable := q.ptable.pop (queueTraits heuristic) }

def lowestScore : S :=
  match q.top with
  | some eq => eq.score heuristic
  | none => 0

def highestScore : S :=
  match q.top with
  | some _ => q.highScore
  | none => 0

def insertEdge (q : EdgeQueue K S C) (e : Edge K S C) : Option (EdgeQueue K S C) :=
  let ptable :=
    match Lib.find e.key q.ptable.entryIndex with
    | none => some (q.ptable.insert (queueTraits heuristic) (.create limits e)).1
    | some pos => q.ptable.modify (queueTraits heuristic) pos (EdgeEquiv.insertEdge H e.alt)
  ptable.map fun ptable => ⟨ptable, if q.highScore < e.score heuristic then e.score heuristic else q.highScore⟩

def insertEquiv (eq : EdgeEquiv K S C) : Option (EdgeQueue K S C) :=
  let ptable :=
    match Lib.find eq.key q.ptable.entryIndex with
    | none => some (q.ptable.insert (queueTraits heuristic) eq).1
    | some pos => q.ptable.modify (queueTraits heuristic) pos (EdgeEquiv.merge H eq)
  ptable.map fun ptable => ⟨ptable, if q.highScore < eq.score heuristic then eq.score heuristic else q.highScore⟩

end EdgeQueue

/-- The `topN` best. -/
def histogramPredicate (topN : Nat) : Predicate K S C where
  keepEdge q s := decide (q.size < topN) || decide (q.lowestScore heuristic ≤ s)
  popTop q := decide (topN < q.size)

/-- What is not `threshold` times smaller than the best. -/
def ratioPredicate (threshold : S) : Predicate K S C where
  keepEdge q s := decide (threshold * q.highestScore ≤ s)
  popTop q := decide (q.lowestScore heuristic < threshold * q.highestScore)

variable (filt : Predicate K S C)

/-- `transact` holds the classes popped last, as far back as their scores are equal. -/
def pushTransact (transact : List (EdgeEquiv K S C)) (eq : EdgeEquiv K S C) : List (EdgeEquiv K S C) :=
  match transact.getLast? with
  | none => [eq]
  | some back => if back.score heuristic = eq.score heuristic then transact ++ [eq] else [eq]

/-- The loop of `pop_top`. -/
def popLoop : Nat → EdgeQueue K S C → List (EdgeEquiv K S C) → EdgeQueue K S C × List (EdgeEquiv K S C)
  | 0, pqueue, transact => (pqueue, transact)
  | fuel + 1, pqueue, transact =>
    match pqueue.top with
    | none => (pqueue, transact)
    | some eq =>
      if filt.popTop pqueue then popLoop fuel (pqueue.pop heuristic) (pushTransact heuristic transact eq)
      else (pqueue, transact)

/-- Some classes of a score are gone and others are not: then all are kept. -/
def popTop (pqueue : EdgeQueue K S C) : Option (EdgeQueue K S C) :=
  let popped := popLoop heuristic filt pqueue.size pqueue []
  match popped.2.getLast?, popped.1.top with
  | some back, some top =>
    if back.score heuristic = top.score heuristic then popped.2.foldlM (EdgeQueue.insertEquiv H heuristic) popped.1
    else some popped.1
  | _, _ => some popped.1

def insert (pqueue : EdgeQueue K S C) (e : Edge K S C) : Option (EdgeQueue K S C × Bool) :=
  let retval := filt.keepEdge pqueue (e.score heuristic)
  if retval then
    (pqueue.insertEdge H limits heuristic e).bind fun pqueue' =>
      if e.score heuristic = pqueue.lowestScore heuristic then some (pqueue', retval)
      else (popTop H heuristic filt pqueue').map (·, retval)
  else (popTop H heuristic filt pqueue).map (·, retval)

/-- One edge after another, from an empty queue. -/
def insertAll (es : List (Edge K S C)) : Option (EdgeQueue K S C) :=
  es.foldlM (fun pqueue e => (insert H limits heuristic filt pqueue e).map Prod.fst) .empty

end

/-! ## The queue -/

section

variable [DecidableEq K] [CommSemiring S] [LinearOrder S] {H : HeapAlg} {limits : K → Limits} {heuristic : K → S}
  {q q' : EdgeQueue K S C} {e : Edge K S C} {eq : EdgeEquiv K S C}

/-- What the queue holds: the classes, with their scores. -/
def entries (heuristic : K → S) (q : EdgeQueue K S C) : List (K × S) :=
  q.ptable.heap.map fun eq => (eq.key, eq.score heuristic)

/-- The queue's table is in order. -/
structure Ordered (heuristic : K → S) (q : EdgeQueue K S C) : Prop where
  indexed : PriorityTable.Indexed (queueTraits heuristic) q.ptable
  sifted : Sifted (queueTraits heuristic).less parent q.ptable.heap

omit [DecidableEq K] in
theorem strictWeak_less (heuristic : K → S) : StrictWeak (queueTraits (C := C) heuristic).less :=
  Traits.less_strictWeak (StrictWeak.ofKey OrderDual.toDual)

theorem Ordered.keyed (h : Ordered heuristic q) : Keyed (entries heuristic q) := by
  rw [Keyed, entries, map_map, Nodup, pairwise_map, pairwise_iff_getElem]
  intro i j hi hj hij hkey
  exact hij.ne (h.indexed.unique (getElem?_eq_getElem hi) (getElem?_eq_getElem hj) hkey)

variable {k : K}

theorem Ordered.find_none (h : Ordered heuristic q) (hfind : Lib.find k q.ptable.entryIndex = none) (s : S) :
    (k, s) ∉ entries heuristic q := by
  intro hmem
  obtain ⟨v, hv, heq⟩ := mem_map.mp hmem
  obtain ⟨i, hi⟩ := getElem?_of_mem hv
  have := h.indexed.find_key hi
  cases heq
  rw [show (queueTraits heuristic).key v = v.key from rfl, hfind] at this
  cases this

/-- A class that is not there comes in as it is. -/
theorem insertEquiv_new (H : HeapAlg) (h : PriorityTable.Indexed (queueTraits heuristic) q.ptable) (eq : EdgeEquiv K S C)
    (hnew : ∀ eq' ∈ q.ptable.heap, eq'.key ≠ eq.key) :
    ∃ q', q.insertEquiv H heuristic eq = some q' ∧
      PriorityTable.Leaves (queueTraits heuristic) q.ptable (eq :: q.ptable.heap) q'.ptable := by
  unfold EdgeQueue.insertEquiv
  cases hfind : Lib.find eq.key q.ptable.entryIndex with
  | none => exact ⟨_, rfl, (PriorityTable.insert_leaves (strictWeak_less heuristic) h hfind).2⟩
  | some pos =>
    obtain ⟨old, hold, hkey⟩ := (h _ _).mp hfind
    exact absurd hkey (hnew old (mem_of_getElem? hold))

theorem insertEquivs_spec (H : HeapAlg) : ∀ (transact : List (EdgeEquiv K S C)) {q : EdgeQueue K S C}, Ordered heuristic q →
    ((transact ++ q.ptable.heap).map EdgeEquiv.key).Nodup →
    ∃ q', transact.foldlM (EdgeQueue.insertEquiv H heuristic) q = some q' ∧ Ordered heuristic q' ∧
      q'.ptable.heap.Perm (transact ++ q.ptable.heap)
  | [], q, h, _ => ⟨q, rfl, h, .refl _⟩
  | eq :: transact, q, h, hnodup => by
    rw [cons_append, map_cons, nodup_cons] at hnodup
    obtain ⟨q1, hrun, h1⟩ := insertEquiv_new H h.indexed eq fun eq' hmem hkey =>
      hnodup.1 (mem_map.mpr ⟨eq', mem_append_right _ hmem, hkey⟩)
    have hmid : (transact ++ q1.ptable.heap).Perm (eq :: (transact ++ q.ptable.heap)) :=
      (h1.perm.append_left transact).trans perm_middle
    obtain ⟨q', hrun', h', hperm'⟩ := insertEquivs_spec H transact ⟨h1.indexed, h1.sifted h.sifted⟩
      ((hmid.map EdgeEquiv.key).nodup_iff.mpr (nodup_cons.mpr hnodup))
    refine ⟨q', ?_, h', hperm'.trans hmid⟩
    rw [foldlM_cons, hrun]
    exact hrun'

/-- The top is of the lowest score. -/
theorem Ordered.top (h : Ordered heuristic q) (htop : q.top = some eq) :
    eq ∈ q.ptable.heap ∧ ∀ w ∈ q.ptable.heap, eq.score heuristic ≤ w.score heuristic := by
  refine ⟨mem_of_head? htop, fun w hw => ?_⟩
  have := PriorityTable.top_max (strictWeak_less heuristic) h.sifted eq htop w hw
  exact not_lt.mp (of_decide_eq_false this)

theorem Ordered.pop (h : Ordered heuristic q) (htop : q.top = some eq) :
    Ordered heuristic (q.pop heuristic) ∧ (eq :: (q.pop heuristic).ptable.heap).Perm q.ptable.heap := by
  have hget : q.ptable.heap[0]? = some eq := by
    rw [← head?_eq_getElem?]
    exact htop
  have hne : q.ptable.heap ≠ [] := ne_nil_of_mem (h.top htop).1
  obtain ⟨hperm, hindexed⟩ := PriorityTable.eraseAt_perm hget h.indexed
  exact ⟨⟨hindexed, PriorityTable.sifted_pop (strictWeak_less heuristic) h.indexed h.sifted hne⟩, hperm⟩

theorem ordered_empty : Ordered heuristic (.empty : EdgeQueue K S C) := by
  refine ⟨fun k i => iff_of_false (fun h => ?_) fun ⟨v, hv, _⟩ => ?_, fun i _ => ?_⟩
  · cases h
  · simp [EdgeQueue.empty, PriorityTable.empty] at hv
  · simp [EdgeQueue.empty, PriorityTable.empty]

omit [CommSemiring S] in
theorem highScore_eq (a b : S) : (if a < b then b else a) = max a b := (max_def_lt a b).symm

/-! ## Popping -/

/-- In the middle of `pop_top`: what was popped, worst first, and the last of it that are equal. -/
structure Popped (heuristic : K → S) (q₀ q : EdgeQueue K S C) (popped transact : List (EdgeEquiv K S C)) : Prop where
  ordered : Ordered heuristic q
  high : q.highScore = q₀.highScore
  split : Split (EdgeEquiv.score heuristic) q₀.ptable.heap popped q.ptable.heap
  last : ∀ back ∈ popped.getLast?, ∀ p ∈ popped, p.score heuristic ≤ back.score heuristic
  transact : transact = popped.filter fun p => popped.getLast?.any fun back => decide (p.score heuristic = back.score heuristic)

theorem Popped.init (h : Ordered heuristic q) : Popped heuristic q q [] [] :=
  ⟨h, rfl, ⟨.refl _, fun _ hp => absurd hp not_mem_nil⟩, fun _ _ _ hp => absurd hp not_mem_nil, rfl⟩

theorem Popped.step {q0 : EdgeQueue K S C} {popped transact : List (EdgeEquiv K S C)}
    (h : Popped heuristic q0 q popped transact) (htop : q.top = some eq) :
    Popped heuristic q0 (q.pop heuristic) (popped ++ [eq]) (pushTransact heuristic transact eq) := by
  obtain ⟨hordered, hperm⟩ := h.ordered.pop htop
  obtain ⟨hmem, hleast⟩ := h.ordered.top htop
  have hle : ∀ p ∈ popped, p.score heuristic ≤ eq.score heuristic := fun p hp => h.split.le p hp eq hmem
  refine ⟨hordered, h.high, ⟨?_, fun p hp a ha => ?_⟩, fun back hback p hp => ?_, ?_⟩
  · rw [append_assoc]
    exact (hperm.append_left popped).trans h.split.perm
  · have ha := hperm.mem_iff.mp (mem_cons_of_mem eq ha)
    rcases mem_append.mp hp with hp | hp
    · exact h.split.le p hp a ha
    · rw [mem_singleton.mp hp]
      exact hleast a ha
  · rw [getLast?_concat, Option.mem_some_iff] at hback
    subst hback
    rcases mem_append.mp hp with hp | hp
    · exact hle p hp
    · rw [mem_singleton.mp hp]
  · have hgoal : (popped ++ [eq]).filter (fun p =>
          (popped ++ [eq]).getLast?.any fun back => decide (p.score heuristic = back.score heuristic)) =
        popped.filter (fun p => decide (p.score heuristic = eq.score heuristic)) ++ [eq] := by
      simp
    rw [hgoal, pushTransact, h.transact]
    cases hlast : popped.getLast? with
    | none =>
      rw [getLast?_eq_none_iff.mp hlast]
      rfl
    | some back =>
      have hback : back ∈ popped := mem_of_getLast? hlast
      have hlastFilter : (popped.filter fun p => (some back).any fun back =>
          decide (p.score heuristic = back.score heuristic)).getLast? = some back := by
        obtain ⟨front, rfl⟩ := getLast?_eq_some_iff.mp hlast
        simp
      rw [hlastFilter]
      dsimp only
      by_cases heq : back.score heuristic = eq.score heuristic
      · simp [heq]
      · -- what was popped before is below the new score
        have hbelow : popped.filter (fun p => decide (p.score heuristic = eq.score heuristic)) = [] := by
          rw [filter_eq_nil_iff]
          intro p hp hpe
          have hpb := h.last back hlast p hp
          rw [of_decide_eq_true hpe] at hpb
          exact heq (le_antisymm (hle back hback) hpb)
        rw [if_neg heq, hbelow]
        rfl

/-- What each pop preserves, the loop does; it ends where the predicate has nothing to pop. -/
theorem popLoop_spec (filt : Predicate K S C) (q0 : EdgeQueue K S C)
    (J : EdgeQueue K S C → List (EdgeEquiv K S C) → Prop)
    (hJ : ∀ q eq popped transact, Popped heuristic q0 q popped transact → q.top = some eq → filt.popTop q = true →
      J q popped → J (q.pop heuristic) (popped ++ [eq])) :
    ∀ {fuel : Nat} {q : EdgeQueue K S C} {popped transact : List (EdgeEquiv K S C)}, Popped heuristic q0 q popped transact →
      J q popped → q.size ≤ fuel →
      ∃ q' popped' transact', popLoop heuristic filt fuel q transact = (q', transact') ∧
        Popped heuristic q0 q' popped' transact' ∧ J q' popped' ∧ (q'.top = none ∨ filt.popTop q' = false)
  | 0, q, popped, transact, h, hj, hsize => by
    refine ⟨q, popped, transact, rfl, h, hj, .inl ?_⟩
    rw [EdgeQueue.top, PriorityTable.top, length_eq_zero_iff.mp (Nat.le_zero.mp hsize)]
    rfl
  | fuel + 1, q, popped, transact, h, hj, hsize => by
    unfold popLoop
    cases htop : q.top with
    | none => exact ⟨q, popped, transact, rfl, h, hj, .inl htop⟩
    | some eq =>
      dsimp only
      by_cases hpop : filt.popTop q = true
      · rw [if_pos hpop]
        have hlen := (h.ordered.pop htop).2.length_eq
        rw [length_cons] at hlen
        exact popLoop_spec filt q0 J hJ (h.step htop) (hJ q eq popped transact h htop hpop hj) (by
          unfold EdgeQueue.size at hsize ⊢
          omega)
      · rw [if_neg hpop]
        exact ⟨q, popped, transact, rfl, h, hj, .inr (Bool.eq_false_iff.mpr hpop)⟩

variable (heuristic q) in
omit [DecidableEq K] in
theorem entries_topN (n : Nat) :
    topN Prod.snd n (entries heuristic q) =
      (topN (EdgeEquiv.score heuristic) n q.ptable.heap).map fun eq => (eq.key, eq.score heuristic) :=
  topN_map _ _

/-- **`pop_top` leaves the `n` best, ties and all.** -/
theorem popTop_histogram (H : HeapAlg) (h : Ordered heuristic q) (n : Nat) :
    ∃ q', popTop H heuristic (histogramPredicate heuristic n) q = some q' ∧ Ordered heuristic q' ∧
      (entries heuristic q').Perm (topN Prod.snd n (entries heuristic q)) := by
  obtain ⟨q1, popped, transact, hrun, hp, hmany, hend⟩ := popLoop_spec (histogramPredicate heuristic n) q
    (fun q popped => popped ≠ [] → n ≤ q.size)
    (fun q eq popped transact hp htop hpop _ _ => by
      have hlen := (hp.ordered.pop htop).2.length_eq
      rw [length_cons] at hlen
      have hsize : n < q.size := of_decide_eq_true hpop
      unfold EdgeQueue.size at hsize ⊢
      omega)
    (.init h) (fun hne => absurd rfl hne) le_rfl
  unfold popTop
  rw [hrun]
  dsimp only
  rcases eq_nil_or_concat popped with rfl | ⟨front, back, hcat⟩
  · -- nothing was popped, and there are no more than `n`
    have htr : transact = [] := hp.transact
    subst htr
    refine ⟨q1, rfl, hp.ordered, ?_⟩
    have hperm : q1.ptable.heap.Perm q.ptable.heap := hp.split.perm
    have hsize : q1.ptable.heap.length ≤ n := by
      rcases hend with htop | hpop
      · rw [head?_eq_none_iff.mp htop]
        exact Nat.zero_le n
      · exact not_lt.mp (of_decide_eq_false hpop)
    rw [entries_topN]
    refine (hperm.map _).trans (Perm.of_eq ?_)
    rw [topN_eq_self fun a ha => (better_lt_length ha).trans_le (hperm.length_eq ▸ hsize)]
  · rw [concat_eq_append] at hcat
    subst hcat
    have hmany := hmany (by simp)
    have htr : transact = (front ++ [back]).filter fun p => decide (p.score heuristic = back.score heuristic) := by
      rw [hp.transact, getLast?_concat]
      rfl
    have hback : transact.getLast? = some back := by
      rw [htr]
      simp
    rw [hback]
    cases htop : q1.top with
    | none =>
      -- the queue has been emptied
      have hnil : q1.ptable.heap = [] := head?_eq_none_iff.mp htop
      have hn : n = 0 := by
        unfold EdgeQueue.size at hmany
        rw [hnil] at hmany
        exact Nat.le_zero.mp hmany
      refine ⟨q1, rfl, hp.ordered, ?_⟩
      rw [entries, hnil, hn, topN]
      simp
    | some top =>
      obtain ⟨hmem, hleast⟩ := hp.ordered.top htop
      have hsize : q1.ptable.heap.length = n := by
        rcases hend with hnone | hpop
        · rw [htop] at hnone
          cases hnone
        · exact le_antisymm (not_lt.mp (of_decide_eq_false hpop)) hmany
      have hbest := hp.split.topN_perm hsize hmem hleast
      dsimp only
      by_cases htie : back.score heuristic = top.score heuristic
      · rw [if_pos htie]
        have hnodup : ((transact ++ q1.ptable.heap).map EdgeEquiv.key).Nodup := by
          have hkeys : ((front ++ [back] ++ q1.ptable.heap).map EdgeEquiv.key).Nodup := by
            refine ((hp.split.perm.map _).nodup_iff).mpr ?_
            have hkeyed := h.keyed
            rw [Keyed, entries, map_map] at hkeyed
            exact hkeyed
          refine hkeys.sublist (Sublist.map _ (Sublist.append ?_ (Sublist.refl _)))
          rw [htr]
          exact filter_sublist
        obtain ⟨q', hrun', hordered, hperm⟩ := insertEquivs_spec H transact hp.ordered hnodup
        refine ⟨q', hrun', hordered, ?_⟩
        rw [entries_topN]
        refine Perm.map _ (hperm.trans (Perm.trans (Perm.of_eq ?_) hbest.symm))
        rw [htr, htie]
      · rw [if_neg htie]
        refine ⟨q1, rfl, hp.ordered, ?_⟩
        rw [entries_topN]
        refine Perm.map _ (Perm.trans (Perm.of_eq ?_) hbest.symm)
        have hnone : (front ++ [back]).filter (fun p => decide (p.score heuristic = top.score heuristic)) = [] := by
          rw [filter_eq_nil_iff]
          intro p hpp hpe
          have hpb := hp.last back getLast?_concat p hpp
          have hbt := hp.split.le back (mem_append_right _ mem_cons_self) top hmem
          rw [of_decide_eq_true hpe] at hpb
          exact htie (le_antisymm hbt hpb)
        rw [hnone]
        rfl

/-- **`pop_top` leaves what reaches the threshold.** -/
theorem popTop_ratio (H : HeapAlg) (h : Ordered heuristic q) (threshold : S) :
    ∃ q', popTop H heuristic (ratioPredicate heuristic threshold) q = some q' ∧ Ordered heuristic q' ∧
      q'.highScore = q.highScore ∧
      (entries heuristic q').Perm ((entries heuristic q).filter fun a => decide (threshold * q.highScore ≤ a.2)) := by
  have hhighest : ∀ {q' : EdgeQueue K S C} {eq}, q'.top = some eq → q'.highScore = q.highScore →
      ((ratioPredicate heuristic threshold).popTop q' = true ↔ eq.score heuristic < threshold * q.highScore) := by
    intro q' eq htop hhigh
    show decide (q'.lowestScore heuristic < threshold * q'.highestScore) = true ↔ _
    rw [EdgeQueue.lowestScore, EdgeQueue.highestScore, htop, decide_eq_true_eq, hhigh]
  obtain ⟨q1, popped, transact, hrun, hp, hlow, hend⟩ := popLoop_spec (ratioPredicate heuristic threshold) q
    (fun _ popped => ∀ p ∈ popped, p.score heuristic < threshold * q.highScore)
    (fun q eq popped transact hp htop hpop hlow p hpp => by
      rcases mem_append.mp hpp with hpp | hpp
      · exact hlow p hpp
      · rw [mem_singleton.mp hpp]
        exact (hhighest htop hp.high).mp hpop)
    (.init h) (fun _ hpp => absurd hpp not_mem_nil) le_rfl
  -- what is left reaches it
  have hleft : ∀ a ∈ q1.ptable.heap, threshold * q.highScore ≤ a.score heuristic := by
    intro a ha
    rcases hend with hnone | hpop
    · rw [head?_eq_none_iff.mp hnone] at ha
      cases ha
    · cases htop : q1.top with
      | none =>
        rw [head?_eq_none_iff.mp htop] at ha
        cases ha
      | some top =>
        refine le_trans (not_lt.mp fun hlt => ?_) ((hp.ordered.top htop).2 a ha)
        rw [(hhighest htop hp.high).mpr hlt] at hpop
        cases hpop
  have hperm : (entries heuristic q1).Perm
      ((entries heuristic q).filter fun a => decide (threshold * q.highScore ≤ a.2)) := by
    have hmap := (hp.split.perm.map fun eq => (eq.key, eq.score heuristic)).filter fun a =>
      decide (threshold * q.highScore ≤ a.2)
    refine Perm.trans (Perm.of_eq ?_) hmap
    rw [map_append, filter_append, filter_map, filter_map]
    have hnone : popped.filter ((fun a : K × S => decide (threshold * q.highScore ≤ a.2)) ∘
        fun eq => (eq.key, eq.score heuristic)) = [] := by
      rw [filter_eq_nil_iff]
      exact fun p hpp hle => absurd (hlow p hpp) (not_lt.mpr (of_decide_eq_true hle))
    have hall : q1.ptable.heap.filter ((fun a : K × S => decide (threshold * q.highScore ≤ a.2)) ∘
        fun eq => (eq.key, eq.score heuristic)) = q1.ptable.heap := by
      rw [filter_eq_self]
      exact fun a ha => decide_eq_true (hleft a ha)
    rw [hnone, hall]
    rfl
  unfold popTop
  rw [hrun]
  dsimp only
  split
  · rename_i back top hback htop
    have hmem : back ∈ popped := by
      have := mem_of_getLast? hback
      rw [hp.transact] at this
      exact (mem_filter.mp this).1
    have hne : ¬ back.score heuristic = top.score heuristic := by
      have htop := hleft top (hp.ordered.top htop).1
      exact fun heq => absurd (heq ▸ hlow back hmem) (not_lt.mpr htop)
    rw [if_neg hne]
    exact ⟨q1, rfl, hp.ordered, hp.high, hperm⟩
  · exact ⟨q1, rfl, hp.ordered, hp.high, hperm⟩

/-- A class whose key stays is changed where it is. -/
theorem modify_eq (h : PriorityTable.Indexed (queueTraits heuristic) q.ptable) {pos : Nat} {f : EdgeEquiv K S C → EdgeEquiv K S C}
    (hfind : Lib.find k q.ptable.entryIndex = some pos) (hkey : ∀ eq, (f eq).key = eq.key) :
    ∃ old, q.ptable.heap[pos]? = some old ∧ old.key = k ∧
      q.ptable.modify (queueTraits heuristic) pos f = some (q.ptable.put (queueTraits heuristic) pos old (f old)) ∧
      PriorityTable.Leaves (queueTraits heuristic) q.ptable (q.ptable.heap.set pos (f old))
        (q.ptable.put (queueTraits heuristic) pos old (f old)) := by
  obtain ⟨old, hold, hk⟩ := (h _ _).mp hfind
  have hsame : (queueTraits heuristic).key (f old) = (queueTraits heuristic).key old := hkey old
  refine ⟨old, hold, hk, ?_, PriorityTable.put_leaves (strictWeak_less heuristic) h hold hsame⟩
  unfold PriorityTable.modify
  rw [hold]
  exact if_neg fun hne => hne hsame.symm

/-- A class changed where it is: its score goes up. -/
theorem modify_raise (h : Ordered heuristic q) {s : S} {pos : Nat} {f : EdgeEquiv K S C → EdgeEquiv K S C}
    (hfind : Lib.find k q.ptable.entryIndex = some pos) (hkey : ∀ eq, (f eq).key = eq.key)
    (hscore : ∀ eq : EdgeEquiv K S C, eq.key = k → (f eq).score heuristic = max (eq.score heuristic) s) (high : S) :
    ∃ ptable, q.ptable.modify (queueTraits heuristic) pos f = some ptable ∧ Ordered heuristic ⟨ptable, high⟩ ∧
      (entries heuristic ⟨ptable, high⟩).Perm (raiseKey k s (entries heuristic q)) := by
  obtain ⟨old, hold, hk, hmodify, hleaves⟩ := modify_eq h.indexed hfind hkey
  refine ⟨_, hmodify, ⟨hleaves.indexed, hleaves.sifted h.sifted⟩, ?_⟩
  have hget : (entries heuristic q)[pos]? = some (k, old.score heuristic) := by
    rw [entries, getElem?_map, hold, ← hk]
    rfl
  refine Perm.trans ?_ (set_perm_raise h.keyed hget)
  refine (hleaves.perm.map _).trans (Perm.of_eq ?_)
  rw [map_set, hkey, hscore old hk, hk]
  rfl

/-- A class of a new key: it has its own score. -/
theorem insert_raise (h : Ordered heuristic q) (hfind : Lib.find eq.key q.ptable.entryIndex = none) (high : S) :
    Ordered heuristic ⟨(q.ptable.insert (queueTraits heuristic) eq).1, high⟩ ∧
      (entries heuristic ⟨(q.ptable.insert (queueTraits heuristic) eq).1, high⟩).Perm
        (raiseKey eq.key (eq.score heuristic) (entries heuristic q)) := by
  obtain ⟨-, hleaves⟩ := PriorityTable.insert_leaves (strictWeak_less heuristic) h.indexed hfind
  refine ⟨⟨hleaves.indexed, hleaves.sifted h.sifted⟩, ?_⟩
  rw [raiseKey, bestOf_of_absent (h.find_none hfind), filter_ne_of_absent (h.find_none hfind)]
  exact hleaves.perm.map _

/-! ## What is kept -/

variable (es : List (Edge K S C))

/-- The classes there are. -/
def classes : List K := (es.map Edge.key).dedup

/-- The best score in a class. -/
def classBest (heuristic : K → S) (es : List (Edge K S C)) (k : K) : S :=
  ((es.filter fun e => decide (e.key = k)).map (Edge.score heuristic)).foldr max 0

def classScores (heuristic : K → S) (es : List (Edge K S C)) : List (K × S) :=
  (classes es).map fun k => (k, classBest heuristic es k)

/-- The best score of all. -/
def overallBest (heuristic : K → S) (es : List (Edge K S C)) : S := (es.map (Edge.score heuristic)).foldr max 0

/-- The classes left in the queue. -/
def EdgeQueue.classes (q : EdgeQueue K S C) : List K := q.ptable.heap.map EdgeEquiv.key

omit [DecidableEq K] [CommSemiring S] in
theorem foldr_max (x y : S) (xs : List S) : xs.foldr max (max x y) = max (xs.foldr max y) x := by
  induction xs with
  | nil => exact max_comm x y
  | cons z xs ih => rw [foldr_cons, foldr_cons, ih, max_assoc]

theorem classBest_concat (e : Edge K S C) (k : K) :
    classBest heuristic (es ++ [e]) k =
      if e.key = k then max (classBest heuristic es k) (e.score heuristic) else classBest heuristic es k := by
  unfold classBest
  rw [filter_append, map_append, foldr_append]
  by_cases hk : e.key = k
  · rw [if_pos hk, filter_cons, if_pos (decide_eq_true hk), ← foldr_max]
    rfl
  · rw [if_neg hk, filter_cons, if_neg (by simpa using hk)]
    rfl

omit [DecidableEq K] in
theorem overallBest_concat (e : Edge K S C) :
    overallBest heuristic (es ++ [e]) = max (overallBest heuristic es) (e.score heuristic) := by
  unfold overallBest
  rw [map_append, foldr_append, ← foldr_max]
  rfl

variable {es : List (Edge K S C)}

theorem mem_classScores {a : K × S} :
    a ∈ classScores heuristic es ↔ (∃ e ∈ es, e.key = a.1) ∧ a.2 = classBest heuristic es a.1 := by
  rw [classScores, mem_map]
  simp only [classes, mem_dedup, mem_map]
  constructor
  · rintro ⟨k, hk, rfl⟩
    exact ⟨hk, rfl⟩
  · rintro ⟨hk, hs⟩
    exact ⟨a.1, hk, Prod.ext rfl hs.symm⟩

variable (heuristic es) in
theorem keyed_classScores : Keyed (classScores heuristic es) := by
  have hmap : (classScores heuristic es).map Prod.fst = classes es := by
    rw [classScores, map_map]
    exact map_id _
  rw [Keyed, hmap]
  exact nodup_dedup _

/-- Without an edge there is no score. -/
theorem classBest_of_absent (h : ¬ ∃ e ∈ es, e.key = k) : classBest heuristic es k = 0 := by
  have hnil : es.filter (fun e => decide (e.key = k)) = [] := by
    rw [filter_eq_nil_iff]
    exact fun e he hk => h ⟨e, he, of_decide_eq_true hk⟩
  rw [classBest, hnil]
  rfl

/-- One edge more. -/
theorem classScores_concat [CanonicallyOrderedAdd S] (es : List (Edge K S C)) (e : Edge K S C) :
    (raiseKey e.key (e.score heuristic) (classScores heuristic es)).Perm (classScores heuristic (es ++ [e])) := by
  have hbest : bestOf e.key (e.score heuristic) (classScores heuristic es) =
      max (classBest heuristic es e.key) (e.score heuristic) := by
    by_cases hex : ∃ e' ∈ es, e'.key = e.key
    · exact bestOf_of_mem (keyed_classScores heuristic es) (mem_classScores.mpr ⟨hex, rfl⟩)
    · rw [bestOf_of_absent fun old hold => hex (mem_classScores.mp hold).1, classBest_of_absent hex, max_eq_right zero_le]
  refine (perm_ext_iff_of_nodup ((keyed_classScores heuristic es).raiseKey.of_map _)
    ((keyed_classScores heuristic _).of_map _)).mpr fun a => ?_
  rw [raiseKey, mem_cons, mem_filter, decide_eq_true_eq, mem_classScores, mem_classScores, hbest, classBest_concat]
  simp only [mem_append, mem_singleton]
  constructor
  · rintro (rfl | ⟨⟨⟨e', he', hk⟩, hs⟩, hne⟩)
    · exact ⟨⟨e, .inr rfl, rfl⟩, (if_pos rfl).symm⟩
    · rw [if_neg (Ne.symm hne)]
      exact ⟨⟨e', .inl he', hk⟩, hs⟩
  · rintro ⟨⟨e', he', hk⟩, hs⟩
    by_cases hke : e.key = a.1
    · rw [if_pos hke] at hs
      exact .inl (Prod.ext hke.symm (hke ▸ hs))
    · rw [if_neg hke] at hs
      refine .inr ⟨⟨⟨e', ?_, hk⟩, hs⟩, Ne.symm hke⟩
      rcases he' with he' | rfl
      · exact he'
      · exact absurd hk hke

section
omit [DecidableEq K] [CommSemiring S]

theorem le_foldr_max {x y : S} {xs : List S} (hx : x ∈ xs) : x ≤ xs.foldr max y := by
  induction xs with
  | nil => cases hx
  | cons z xs ih =>
    rcases mem_cons.mp hx with rfl | hx
    · exact le_max_left _ _
    · exact (ih hx).trans (le_max_right _ _)

theorem foldr_max_mem {y : S} (xs : List S) : xs.foldr max y = y ∨ xs.foldr max y ∈ xs := by
  induction xs with
  | nil => exact .inl rfl
  | cons z xs ih =>
    rw [foldr_cons]
    rcases max_cases z (xs.foldr max y) with ⟨heq, -⟩ | ⟨heq, -⟩
    · rw [heq]
      exact .inr mem_cons_self
    · rw [heq]
      exact ih.imp_right (mem_cons_of_mem z)

end

theorem score_le_classBest (he : e ∈ es) : e.score heuristic ≤ classBest heuristic es e.key :=
  le_foldr_max (mem_map.mpr ⟨e, mem_filter.mpr ⟨he, decide_eq_true rfl⟩, rfl⟩)

theorem classBest_le_overallBest [CanonicallyOrderedAdd S] (es : List (Edge K S C)) (k : K) :
    classBest heuristic es k ≤ overallBest heuristic es := by
  unfold classBest
  rcases foldr_max_mem (y := 0) ((es.filter fun e => decide (e.key = k)).map (Edge.score heuristic)) with heq | hmem
  · rw [heq]
    exact zero_le
  · obtain ⟨e, he, heq⟩ := mem_map.mp hmem
    rw [← heq]
    exact le_foldr_max (mem_map.mpr ⟨e, (mem_filter.mp he).1, rfl⟩)

/-- The classes of the entries. -/
theorem mem_classes {P : K × S → Bool}
    (hkept : (entries heuristic q).Perm ((classScores heuristic es).filter P)) (k : K) :
    k ∈ q.classes ↔ k ∈ classes es ∧ P (k, classBest heuristic es k) = true := by
  have hmap : q.classes = (entries heuristic q).map Prod.fst := by
    rw [entries, map_map]
    rfl
  rw [hmap, (hkept.map Prod.fst).mem_iff, mem_map, classes, mem_dedup, mem_map]
  constructor
  · rintro ⟨a, ha, rfl⟩
    obtain ⟨hmem, hP⟩ := mem_filter.mp ha
    obtain ⟨hex, hs⟩ := mem_classScores.mp hmem
    exact ⟨hex, hs ▸ hP⟩
  · rintro ⟨hex, hP⟩
    exact ⟨_, mem_filter.mpr ⟨mem_classScores.mpr ⟨hex, rfl⟩, hP⟩, rfl⟩

theorem classScores_perm {es' : List (Edge K S C)} (h : es.Perm es') :
    (classScores heuristic es).Perm (classScores heuristic es') := by
  refine (perm_ext_iff_of_nodup ((keyed_classScores heuristic _).of_map _) ((keyed_classScores heuristic _).of_map _)).mpr fun a => ?_
  have hbest : classBest heuristic es a.1 = classBest heuristic es' a.1 :=
    ((h.filter _).map _).foldr_eq 0
  rw [mem_classScores, mem_classScores, hbest]
  simp only [h.mem_iff]

/-! ## One edge -/

section
omit [DecidableEq K] [LinearOrder S]

theorem lowestScore_of_top (htop : q.top = some eq) : q.lowestScore heuristic = eq.score heuristic := by
  rw [EdgeQueue.lowestScore, htop]

theorem lowestScore_of_empty (heuristic : K → S) (htop : q.top = none) : q.lowestScore heuristic = 0 ∧ entries heuristic q = [] := by
  constructor
  · rw [EdgeQueue.lowestScore, htop]
  · rw [entries, head?_eq_none_iff.mp htop]
    rfl

end

/-- The entry on top is the least. -/
theorem Ordered.low (h : Ordered heuristic q) (htop : q.top = some eq) :
    (eq.key, eq.score heuristic) ∈ entries heuristic q ∧ ∀ a ∈ entries heuristic q, eq.score heuristic ≤ a.2 := by
  obtain ⟨hmem, hleast⟩ := h.top htop
  refine ⟨mem_map.mpr ⟨eq, hmem, rfl⟩, fun a ha => ?_⟩
  obtain ⟨w, hw, rfl⟩ := mem_map.mp ha
  exact hleast w hw

theorem insertAll_concat {filt : Predicate K S C} (hrun : insertAll H limits heuristic filt es = some q)
    (e : Edge K S C) :
    insertAll H limits heuristic filt (es ++ [e]) = (insert H limits heuristic filt q e).map Prod.fst := by
  unfold insertAll at hrun ⊢
  rw [foldlM_append, hrun]
  simp

variable [IsStrictOrderedRing S] [CanonicallyOrderedAdd S]

omit [DecidableEq K] in
theorem score_insertEdge (e : AltEdge S C) (eq : EdgeEquiv K S C) :
    (EdgeEquiv.insertEdge H e eq).score heuristic = max (eq.score heuristic) (heuristic eq.key * e.inside) := by
  obtain ⟨key, ⟨limits, rep, alts⟩, hasRep⟩ := eq
  obtain ⟨rep, rfl⟩ := Option.isSome_iff_exists.mp hasRep
  have hmono : Monotone fun x => heuristic key * x := fun x y hxy => mul_le_mul_of_nonneg_left hxy zero_le
  have hrep : (EdgeEquiv.insertEdge H e ⟨key, ⟨limits, some rep, alts⟩, hasRep⟩).representative =
      if rep.inside < e.inside then e else rep := by
    apply Option.some.inj
    rw [EdgeEquiv.representative, Option.some_get]
    exact Impl.insertEdge_rep
  show heuristic key * _ = max (heuristic key * rep.inside) (heuristic key * e.inside)
  rw [hrep, ← hmono.map_max]
  split
  · rename_i hlt
    rw [max_eq_right hlt.le]
  · rename_i hlt
    rw [max_eq_left (not_lt.mp hlt)]

variable (H limits) in
/-- An edge put into the queue: its class comes in, or its score goes up. -/
theorem insertEdge_spec (h : Ordered heuristic q) (e : Edge K S C) :
    ∃ q', q.insertEdge H limits heuristic e = some q' ∧ Ordered heuristic q' ∧
      (entries heuristic q').Perm (raiseKey e.key (e.score heuristic) (entries heuristic q)) ∧
      q'.highScore = max q.highScore (e.score heuristic) := by
  unfold EdgeQueue.insertEdge
  cases hfind : Lib.find e.key q.ptable.entryIndex with
  | none =>
    have hnew : Lib.find (EdgeEquiv.create limits e).key q.ptable.entryIndex = none := hfind
    obtain ⟨hordered, hperm⟩ := insert_raise h hnew (if q.highScore < e.score heuristic then e.score heuristic else q.highScore)
    exact ⟨_, rfl, hordered, hperm, highScore_eq _ _⟩
  | some pos =>
    obtain ⟨ptable, hmodify, hordered, hperm⟩ := modify_raise h hfind (f := EdgeEquiv.insertEdge H e.alt) (fun _ => rfl)
      (fun eq hkey => (score_insertEdge e.alt eq).trans (by rw [hkey]))
      (if q.highScore < e.score heuristic then e.score heuristic else q.highScore)
    dsimp only
    rw [hmodify]
    exact ⟨_, rfl, hordered, hperm, highScore_eq _ _⟩

variable (H limits) in
/-- **One edge, and the `n` best of all that came.** -/
theorem insert_histogram {n : Nat} (hn : 1 ≤ n) (h : Ordered heuristic q)
    (hkept : (entries heuristic q).Perm (topN Prod.snd n (classScores heuristic es))) (e : Edge K S C) :
    ∃ q' r, insert H limits heuristic (histogramPredicate heuristic n) q e = some (q', r) ∧ Ordered heuristic q' ∧
      (entries heuristic q').Perm (topN Prod.snd n (classScores heuristic (es ++ [e]))) := by
  have hkeyed := keyed_classScores heuristic es
  have hsize : (entries heuristic q).length = q.size := length_map _
  obtain ⟨q1, hrun1, h1, hperm1, -⟩ := insertEdge_spec H limits h e
  by_cases hkeep : (histogramPredicate heuristic n).keepEdge q (e.score heuristic) = true
  · have hroom : (entries heuristic q).length < n ∨ ∃ low ∈ entries heuristic q, low.2 ≤ e.score heuristic := by
      rcases (Bool.or_eq_true _ _).mp hkeep with hfew | hlow
      · exact .inl (hsize ▸ of_decide_eq_true hfew)
      · cases htop : q.top with
        | none =>
          rw [(lowestScore_of_empty heuristic htop).2]
          exact .inl hn
        | some eq =>
          refine .inr ⟨_, (h.low htop).1, ?_⟩
          rw [← lowestScore_of_top htop]
          exact of_decide_eq_true hlow
    have hall := (topN_raise hkeyed hkept hroom).trans (topN_perm (classScores_concat es e))
    unfold insert
    rw [if_pos hkeep, hrun1, Option.bind_some]
    by_cases htie : e.score heuristic = q.lowestScore heuristic
    · rw [if_pos htie]
      refine ⟨q1, _, rfl, h1, hperm1.trans (Perm.trans (Perm.symm ?_) hall)⟩
      cases htop : q.top with
      | none =>
        rw [(lowestScore_of_empty heuristic htop).2]
        refine Perm.of_eq (topN_eq_self fun a ha => ?_)
        exact (better_lt_length ha).trans_le hn
      | some eq =>
        obtain ⟨hmem, hleast⟩ := h.low htop
        rw [lowestScore_of_top htop] at htie
        rw [htie]
        exact topN_tie hkeyed hkept hmem hleast
    · rw [if_neg htie]
      obtain ⟨q', hrun', h', hperm'⟩ := popTop_histogram H h1 n
      rw [hrun']
      exact ⟨q', _, rfl, h', hperm'.trans ((topN_perm hperm1).trans hall)⟩
  · have hno := Bool.eq_false_iff.mpr hkeep
    obtain ⟨hmany, hlow⟩ := (Bool.or_eq_false_iff).mp hno
    have hworse : ∀ a ∈ entries heuristic q, e.score heuristic < a.2 := by
      intro a ha
      cases htop : q.top with
      | none =>
        rw [(lowestScore_of_empty heuristic htop).2] at ha
        cases ha
      | some eq =>
        rw [lowestScore_of_top htop] at hlow
        exact (not_le.mp (of_decide_eq_false hlow)).trans_le ((h.low htop).2 a ha)
    have hreject := topN_reject (k := e.key) hkeyed hkept (hsize ▸ not_lt.mp (of_decide_eq_false hmany)) hworse
    obtain ⟨q', hrun', h', hperm'⟩ := popTop_histogram H h n
    unfold insert
    rw [if_neg hkeep, hrun']
    exact ⟨q', _, rfl, h', hperm'.trans ((topN_kept hkept).trans (hreject.trans (topN_perm (classScores_concat es e))))⟩

variable {threshold : S}

/-- An empty queue has seen nothing better than zero. -/
theorem overallBest_of_empty (ht : threshold ≤ 1)
    (hempty : (classScores heuristic es).filter (fun a => decide (threshold * overallBest heuristic es ≤ a.2)) = []) :
    overallBest heuristic es = 0 := by
  rcases foldr_max_mem (y := 0) (es.map (Edge.score heuristic)) with heq | hmem
  · exact heq
  · obtain ⟨e, he, heq⟩ := mem_map.mp hmem
    have hle : threshold * overallBest heuristic es ≤ classBest heuristic es e.key :=
      calc threshold * overallBest heuristic es ≤ overallBest heuristic es := mul_le_of_le_one_left zero_le ht
        _ = e.score heuristic := heq.symm
        _ ≤ classBest heuristic es e.key := score_le_classBest he
    have hin := filter_eq_nil_iff.mp hempty (e.key, classBest heuristic es e.key)
      (mem_classScores.mpr ⟨⟨e, he, rfl⟩, rfl⟩)
    exact absurd (decide_eq_true hle) hin

variable (H limits) in
/-- **One edge, and all that reaches the threshold.** -/
theorem insert_ratio (ht : threshold ≤ 1) (h : Ordered heuristic q)
    (hhigh : q.highScore = overallBest heuristic es)
    (hkept : (entries heuristic q).Perm
      ((classScores heuristic es).filter fun a => decide (threshold * overallBest heuristic es ≤ a.2))) (e : Edge K S C) :
    ∃ q' r, insert H limits heuristic (ratioPredicate heuristic threshold) q e = some (q', r) ∧ Ordered heuristic q' ∧
      q'.highScore = overallBest heuristic (es ++ [e]) ∧
      (entries heuristic q').Perm ((classScores heuristic (es ++ [e])).filter fun a =>
        decide (threshold * overallBest heuristic (es ++ [e]) ≤ a.2)) := by
  have hkeyed := keyed_classScores heuristic es
  have hall : ∀ t : S, ((raiseKey e.key (e.score heuristic) (classScores heuristic es)).filter fun a => decide (t ≤ a.2)).Perm
      ((classScores heuristic (es ++ [e])).filter fun a => decide (t ≤ a.2)) := fun t => (classScores_concat es e).filter _
  have hreach : ∀ a ∈ entries heuristic q, threshold * overallBest heuristic es ≤ a.2 := fun a ha =>
    of_decide_eq_true (mem_filter.mp (hkept.mem_iff.mp ha)).2
  have hhighest : q.highestScore = overallBest heuristic es := by
    unfold EdgeQueue.highestScore
    cases htop : q.top with
    | some eq => exact hhigh
    | none =>
      rw [(lowestScore_of_empty heuristic htop).2] at hkept
      exact (overallBest_of_empty ht (nil_perm.mp hkept)).symm
  have hlowest : q.lowestScore heuristic ≤ overallBest heuristic es := by
    cases htop : q.top with
    | none =>
      rw [(lowestScore_of_empty heuristic htop).1]
      exact zero_le
    | some eq =>
      have hmem := (mem_filter.mp (hkept.mem_iff.mp (h.low htop).1)).1
      have hbest : eq.score heuristic = classBest heuristic es eq.key := (mem_classScores.mp hmem).2
      rw [lowestScore_of_top htop, hbest]
      exact classBest_le_overallBest es _
  obtain ⟨q1, hrun1, h1, hperm1, hhigh1⟩ := insertEdge_spec H limits h e
  rw [hhigh] at hhigh1
  rw [overallBest_concat]
  by_cases hkeep : (ratioPredicate heuristic threshold).keepEdge q (e.score heuristic) = true
  · have hs : threshold * overallBest heuristic es ≤ e.score heuristic := hhighest ▸ of_decide_eq_true hkeep
    have hmono : threshold * overallBest heuristic es ≤ threshold * max (overallBest heuristic es) (e.score heuristic) :=
      mul_le_mul_of_nonneg_left (le_max_left _ _) zero_le
    have hshown := (filter_raise (k := e.key) hkeyed hkept hs hmono).trans (hall _)
    unfold insert
    rw [if_pos hkeep, hrun1, Option.bind_some]
    by_cases htie : e.score heuristic = q.lowestScore heuristic
    · rw [if_pos htie]
      refine ⟨q1, _, rfl, h1, hhigh1, hperm1.trans (Perm.trans (Perm.of_eq ?_) hshown)⟩
      -- the best is what it was, and none is below the threshold
      rw [max_eq_left (htie ▸ hlowest)]
      symm
      rw [filter_eq_self]
      intro a ha
      rw [decide_eq_true_eq]
      rcases mem_cons.mp ha with rfl | ha
      · exact hs.trans (le_bestOf _ _ _)
      · exact hreach a (mem_filter.mp ha).1
    · rw [if_neg htie]
      obtain ⟨q', hrun', h', hhigh', hperm'⟩ := popTop_ratio H h1 threshold
      rw [hrun']
      rw [hhigh1] at hhigh' hperm'
      exact ⟨q', _, rfl, h', hhigh', hperm'.trans ((hperm1.filter _).trans hshown)⟩
  · have hs : e.score heuristic < threshold * overallBest heuristic es :=
      hhighest ▸ not_le.mp (of_decide_eq_false (Bool.eq_false_iff.mpr hkeep))
    have hbelow : e.score heuristic ≤ overallBest heuristic es := hs.le.trans (mul_le_of_le_one_left zero_le ht)
    rw [max_eq_left hbelow]
    obtain ⟨q', hrun', h', hhigh', hperm'⟩ := popTop_ratio H h threshold
    rw [hhigh] at hhigh' hperm'
    unfold insert
    rw [if_neg hkeep, hrun']
    refine ⟨q', _, rfl, h', hhigh', hperm'.trans (Perm.trans (Perm.of_eq ?_)
      ((filter_reject hkeyed hkept hs).trans (hall _)))⟩
    exact filter_eq_self.mpr fun a ha => decide_eq_true (hreach a ha)

/-! ## All edges -/

variable (H limits heuristic) in
theorem insertAll_histogram {n : Nat} (hn : 1 ≤ n) (es : List (Edge K S C)) :
    ∃ q, insertAll H limits heuristic (histogramPredicate heuristic n) es = some q ∧ Ordered heuristic q ∧
      (entries heuristic q).Perm (topN Prod.snd n (classScores heuristic es)) := by
  induction es using List.reverseRecOn with
  | nil => exact ⟨.empty, rfl, ordered_empty, .refl _⟩
  | append_singleton es e ih =>
    obtain ⟨q, hrun, hordered, hkept⟩ := ih
    obtain ⟨q', r, hinsert, hordered', hkept'⟩ := insert_histogram H limits hn hordered hkept e
    exact ⟨q', by rw [insertAll_concat hrun, hinsert]; rfl, hordered', hkept'⟩

variable (H limits heuristic) in
theorem insertAll_ratio (ht : threshold ≤ 1) (es : List (Edge K S C)) :
    ∃ q, insertAll H limits heuristic (ratioPredicate heuristic threshold) es = some q ∧ Ordered heuristic q ∧
      q.highScore = overallBest heuristic es ∧ (entries heuristic q).Perm
        ((classScores heuristic es).filter fun a => decide (threshold * overallBest heuristic es ≤ a.2)) := by
  induction es using List.reverseRecOn with
  | nil => exact ⟨.empty, rfl, ordered_empty, rfl, .refl _⟩
  | append_singleton es e ih =>
    obtain ⟨q, hrun, hordered, hhigh, hkept⟩ := ih
    obtain ⟨q', r, hinsert, hordered', hhigh', hkept'⟩ := insert_ratio H limits ht hordered hhigh hkept e
    exact ⟨q', by rw [insertAll_concat hrun, hinsert]; rfl, hordered', hhigh', hkept'⟩

/-- **What is left of the edges**, in whatever order they come: with a histogram the classes no worse than the `n`th best, with
a ratio those that reach it. -/
theorem filter_keeps (H : HeapAlg) (limits : K → Limits) (heuristic : K → S) (es : List (Edge K S C)) :
    (∀ n, 1 ≤ n → ∀ es', es'.Perm es →
      ∃ q, insertAll H limits heuristic (histogramPredicate heuristic n) es' = some q ∧
        ∀ k, k ∈ q.classes ↔ k ∈ classes es ∧
          ∀ x ∈ nthBest Prod.snd n (classScores heuristic es), x ≤ classBest heuristic es k) ∧
    ∀ threshold ≤ 1, ∀ es', es'.Perm es →
      ∃ q, insertAll H limits heuristic (ratioPredicate heuristic threshold) es' = some q ∧
        ∀ k, k ∈ q.classes ↔ k ∈ classes es ∧ threshold * overallBest heuristic es ≤ classBest heuristic es k := by
  constructor
  · intro n hn es' hes
    obtain ⟨q, hrun, -, hkept⟩ := insertAll_histogram H limits heuristic hn es'
    refine ⟨q, hrun, fun k => ?_⟩
    rw [mem_classes (hkept.trans (topN_perm (classScores_perm hes))), decide_eq_true_eq, better_lt_iff hn]
  · intro threshold ht es' hes
    obtain ⟨q, hrun, -, -, hkept⟩ := insertAll_ratio H limits heuristic ht es'
    refine ⟨q, hrun, fun k => ?_⟩
    have hoverall : overallBest heuristic es' = overallBest heuristic es := (hes.map _).foldr_eq 0
    rw [hoverall] at hkept
    rw [mem_classes (hkept.trans ((classScores_perm hes).filter _)), decide_eq_true_eq]

end

section

/-- An edge of a class and an inside score. -/
def edgeOf (key inside : Nat) : Edge Nat Nat Nat := ⟨key, ⟨(none, none), inside, 0⟩⟩

/-- Six edges in four classes, two of them tied for the second place. -/
theorem filter_keeps_ties :
    let es := [edgeOf 1 5, edgeOf 4 1, edgeOf 2 2, edgeOf 3 3, edgeOf 4 2, edgeOf 2 3]
    ∃ q, insertAll HeapAlg.sorted (fun _ => ⟨4, false⟩) (fun _ => 1) (histogramPredicate (fun _ => 1) 2) es.reverse = some q ∧
      ∀ k, k ∈ q.classes ↔ k ∈ classes es ∧
        ∀ x ∈ nthBest Prod.snd 2 (classScores (fun _ => 1) es), x ≤ classBest (fun _ => 1) es k :=
  (filter_keeps HeapAlg.sorted (fun _ => ⟨4, false⟩) (fun _ => 1) _).1 2 (by decide) _ (reverse_perm _)

/-- The class with the best inside score has to go where another class has the better heuristic. -/
theorem not_filter_keeps_inside :
    let es := [edgeOf 1 3, edgeOf 2 2]
    let heuristic : Nat → Nat := fun k => if k = 2 then 4 else 1
    ¬ ∃ q, insertAll HeapAlg.sorted (fun _ => ⟨4, false⟩) heuristic (histogramPredicate heuristic 1) es = some q ∧
      ∀ k, k ∈ q.classes ↔ k ∈ classes es ∧
        ∀ x ∈ nthBest Prod.snd 1 (classScores (fun _ => 1) es), x ≤ classBest (fun _ => 1) es k := by
  intro es heuristic
  rintro ⟨q, hrun, h⟩
  have hclasses : ((insertAll HeapAlg.sorted (fun _ => ⟨4, false⟩) heuristic (histogramPredicate heuristic 1) es).map
      EdgeQueue.classes) = some [2] := by decide
  rw [hrun] at hclasses
  have hq : q.classes = [2] := Option.some.inj hclasses
  have hone := (h 1).mpr (by decide)
  rw [hq] at hone
  exact absurd hone (by decide)

end

end Sbmt.Search.EdgeFilter
