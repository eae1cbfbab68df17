import Sbmt.Search.EdgeFilter
/-!
# The lowest and the highest score of a queue (`sbmt_decoder/include/sbmt/search/impl/edge_queue.ipp`)

| here | there |
| --- | --- |
| `QueueCall`, `call` | the calls that change a queue (`:12-91`); an empty queue is not popped |
| `lowestScore`, `highestScore` | `:94-106`, in `EdgeFilter` |

The highest score is remembered, and raised by what comes in; `erase` looks for it again where it may have gone, `pop` does
not.  It is none of the queue's own once the queue has been emptied by popping and something lower comes in.  The lowest
score is that of the top, right as long as the table is in order: that is what `erase` can spoil (`FitsAt`).
-/

namespace Sbmt.Search.EdgeFilter

open Sbmt.Lib Sbmt.Edge Sbmt.Hash List Option

variable {K S C : Type}

/-- What a queue is asked to do.  The representative of a class is the best of it. -/
inductive QueueCall (K S C : Type) [LE S] where
  | insertEdge (e : Edge K S C)
  | insertEquiv (eq : EdgeEquiv K S C) (hbest : ∀ a ∈ eq.impl.alts, a.inside ≤ eq.representative.inside)
  | erase (k : K)
  | pop

namespace EdgeQueue

variable [DecidableEq K] [CommSemiring S] [LinearOrder S] (H : HeapAlg) (limits : K → Limits) (heuristic : K → S)

/-- The highest score is looked for again if it may be the one that goes. -/
def erase (q : EdgeQueue K S C) (k : K) : EdgeQueue K S C × Bool :=
  match PriorityTable.lookup k q.ptable with
  | none => (q, false)
  | some eq =>
    let ptable := (q.ptable.eraseKey (queueTraits heuristic) k).1
    (⟨ptable, if q.highScore ≤ eq.score heuristic then
        ptable.heap.foldl (fun maxScore eq => max maxScore (eq.score heuristic)) 0
      else q.highScore⟩, true)

def call (q : EdgeQueue K S C) : QueueCall K S C → Option (EdgeQueue K S C)
  | .insertEdge e => q.insertEdge H limits heuristic e
  | .insertEquiv eq _ => q.insertEquiv H heuristic eq
  | .erase k => some (q.erase heuristic k).1
  | .pop => if q.ptable.heap = [] then none else some (q.pop heuristic)

end EdgeQueue

section

variable [DecidableEq K] [CommSemiring S] [LinearOrder S] {H : HeapAlg} {limits : K → Limits} {heuristic : K → S}
  {q q' : EdgeQueue K S C} {eq : EdgeEquiv K S C}

/-- The two scores bound the classes of the queue, and the higher one is one of theirs. -/
structure Bounds (heuristic : K → S) (q : EdgeQueue K S C) : Prop where
  lowest : ∀ eq ∈ q.ptable.heap, q.lowestScore heuristic ≤ eq.score heuristic
  highest : ∀ eq ∈ q.ptable.heap, eq.score heuristic ≤ q.highestScore
  attained : q.ptable.heap ≠ [] → ∃ eq ∈ q.ptable.heap, eq.score heuristic = q.highestScore

/-- Nothing comes into an empty queue below the score it still remembers, and the element that `erase` moves to the gap
fits there. -/
def Regular (heuristic : K → S) (q : EdgeQueue K S C) : QueueCall K S C → Prop
  | .insertEdge e => q.ptable.heap = [] → q.highScore ≤ e.score heuristic
  | .insertEquiv eq _ => q.ptable.heap = [] → q.highScore ≤ eq.score heuristic
  | .erase k => ∀ pos ∈ find k q.ptable.entryIndex, q.ptable.FitsAt (queueTraits heuristic) pos
  | .pop => True

/-- The score remembered is the highest of the queue, unless it is empty. -/
structure High (l : List (K × S)) (high : S) : Prop where
  le : ∀ a ∈ l, a.2 ≤ high
  attained : l ≠ [] → ∃ a ∈ l, a.2 = high

omit [DecidableEq K] [CommSemiring S] in
theorem High.perm {l l' : List (K × S)} {high : S} (h : High l high) (hp : l.Perm l') : High l' high := by
  refine ⟨fun a ha => h.le a (hp.mem_iff.mpr ha), fun hne => ?_⟩
  obtain ⟨a, ha, heq⟩ := h.attained fun hnil => hne (nil_perm.mp (hnil ▸ hp))
  exact ⟨a, hp.mem_iff.mp ha, heq⟩

variable {l : List (K × S)}

omit [CommSemiring S] in
/-- A class whose score is raised, or that is new. -/
theorem High.raise {high s : S} (h : High l high) (hkeyed : Keyed l) (hempty : l = [] → high ≤ s) (k : K) :
    High (raiseKey k s l) (max high s) := by
  have hbest : bestOf k s l ≤ max high s := by
    by_cases hmem : ∃ old, (k, old) ∈ l
    · obtain ⟨old, hold⟩ := hmem
      rw [bestOf_of_mem hkeyed hold]
      exact max_le_max_right s (h.le _ hold)
    · rw [bestOf_of_absent fun old hold => hmem ⟨old, hold⟩]
      exact le_max_right ..
  refine ⟨fun a ha => ?_, fun _ => ?_⟩
  · rcases mem_cons.mp ha with rfl | ha
    · exact hbest
    · exact (h.le a (mem_of_mem_filter ha)).trans (le_max_left ..)
  · by_cases hle : high ≤ s
    · rw [max_eq_right hle] at hbest ⊢
      exact ⟨_, mem_cons_self, le_antisymm hbest (le_bestOf k s l)⟩
    · have hlt := not_le.mp hle
      obtain ⟨⟨k', s'⟩, ha, heq⟩ := h.attained fun hnil => hle (hempty hnil)
      obtain rfl : s' = high := heq
      rw [max_eq_left hlt.le]
      by_cases hk : k' = k
      · subst hk
        exact ⟨_, mem_cons_self, (bestOf_of_mem hkeyed ha).trans (max_eq_left hlt.le)⟩
      · exact ⟨_, mem_cons_of_mem _ (mem_filter.mpr ⟨ha, decide_eq_true hk⟩), rfl⟩

section
omit [DecidableEq K] [CommSemiring S]

/-- The lowest goes: the highest is still there, or nothing is. -/
theorem High.pop {low : K × S} {high : S} (h : High (low :: l) high) (hlow : ∀ a ∈ l, low.2 ≤ a.2) :
    High l high := by
  refine ⟨fun a ha => h.le a (mem_cons_of_mem _ ha), fun hne => ?_⟩
  obtain ⟨a, ha, heq⟩ := h.attained (cons_ne_nil _ _)
  rcases mem_cons.mp ha with rfl | ha
  · obtain ⟨b, hb⟩ := exists_mem_of_ne_nil l hne
    exact ⟨b, hb, le_antisymm (h.le b (mem_cons_of_mem _ hb)) (heq ▸ hlow b hb)⟩
  · exact ⟨a, ha, heq⟩

/-- One that is below the highest goes. -/
theorem High.erase {old : K × S} {high : S} (h : High (old :: l) high) (hlt : old.2 < high) :
    High l high := by
  refine ⟨fun a ha => h.le a (mem_cons_of_mem _ ha), fun _ => ?_⟩
  obtain ⟨a, ha, heq⟩ := h.attained (cons_ne_nil _ _)
  rcases mem_cons.mp ha with rfl | ha
  · exact absurd heq hlt.ne
  · exact ⟨a, ha, heq⟩

/-- The highest is looked for, from a score on that is not above any. -/
theorem high_foldl {α : Type} (f : α → K × S) {low : S} (l : List α) (hlow : ∀ a ∈ l, low ≤ (f a).2) :
    High (l.map f) (l.foldl (fun m a => max m (f a).2) low) := by
  induction l using List.reverseRecOn with
  | nil => exact ⟨fun a ha => absurd ha not_mem_nil, fun hne => absurd rfl hne⟩
  | append_singleton l a ih =>
    have ih := ih fun b hb => hlow b (mem_append_left _ hb)
    have hlowest := hlow a (mem_append_right _ mem_cons_self)
    rw [map_append, foldl_append]
    refine ⟨fun b hb => ?_, fun _ => ?_⟩
    · rcases mem_append.mp hb with hb | hb
      · exact (ih.le b hb).trans (le_max_left ..)
      · obtain rfl := mem_singleton.mp hb
        exact le_max_right ..
    · show ∃ b ∈ l.map f ++ [f a], b.2 = max (l.foldl (fun m a => max m (f a).2) low) (f a).2
      by_cases hle : l.foldl (fun m a => max m (f a).2) low ≤ (f a).2
      · exact ⟨f a, mem_append_right _ mem_cons_self, (max_eq_right hle).symm⟩
      · have hne : l.map f ≠ [] := by
          rintro hnil
          rw [map_eq_nil_iff] at hnil
          subst hnil
          exact hle hlowest
        obtain ⟨b, hb, heq⟩ := ih.attained hne
        exact ⟨b, mem_append_left _ hb, heq.trans (max_eq_left (not_le.mp hle).le).symm⟩

end

/-! ## One call -/

/-- The table is in order, and the score remembered is right. -/
structure Good (heuristic : K → S) (q : EdgeQueue K S C) : Prop where
  ordered : Ordered heuristic q
  high : High (entries heuristic q) q.highScore

theorem good_empty : Good heuristic (.empty : EdgeQueue K S C) :=
  ⟨ordered_empty, fun _ ha => absurd ha not_mem_nil, fun hne => absurd rfl hne⟩

theorem Good.bounds (h : Good heuristic q) : Bounds heuristic q := by
  have hentry : ∀ eq ∈ q.ptable.heap, (eq.key, eq.score heuristic) ∈ entries heuristic q := fun eq heq =>
    mem_map.mpr ⟨eq, heq, rfl⟩
  have hhigh : q.ptable.heap ≠ [] → q.highestScore = q.highScore ∧ ∃ top, q.top = some top := by
    intro hne
    obtain ⟨top, rest, hheap⟩ := exists_cons_of_ne_nil hne
    have htop : q.top = some top := by
      rw [EdgeQueue.top, PriorityTable.top, hheap]
      rfl
    exact ⟨by rw [EdgeQueue.highestScore, htop], top, htop⟩
  refine ⟨fun eq heq => ?_, fun eq heq => ?_, fun hne => ?_⟩
  · obtain ⟨-, top, htop⟩ := hhigh (ne_nil_of_mem heq)
    rw [lowestScore_of_top htop]
    exact (h.ordered.top htop).2 eq heq
  · rw [(hhigh (ne_nil_of_mem heq)).1]
    exact h.high.le _ (hentry eq heq)
  · obtain ⟨a, ha, heq⟩ := h.high.attained fun hnil => hne (map_eq_nil_iff.mp hnil)
    obtain ⟨eq, hmem, rfl⟩ := mem_map.mp ha
    exact ⟨eq, hmem, heq.trans (hhigh hne).1.symm⟩

theorem Good.pop (h : Good heuristic q) (hne : q.ptable.heap ≠ []) : Good heuristic (q.pop heuristic) := by
  obtain ⟨top, rest, hheap⟩ := exists_cons_of_ne_nil hne
  have htop : q.top = some top := by
    rw [EdgeQueue.top, PriorityTable.top, hheap]
    rfl
  obtain ⟨hordered, hperm⟩ := h.ordered.pop htop
  refine ⟨hordered, High.pop (h.high.perm (hperm.map _).symm) fun a ha => ?_⟩
  obtain ⟨eq, heq, rfl⟩ := mem_map.mp ha
  exact (h.ordered.top htop).2 eq (hperm.mem_iff.mp (mem_cons_of_mem _ heq))

section

omit [DecidableEq K] [CommSemiring S] in
/-- The representative after some edges have gone in. -/
theorem insertAll_inside (es : List (AltEdge S C)) :
    ∀ {c : Impl S C} {rep : AltEdge S C}, c.rep = some rep →
      ∃ rep', (c.insertAll H es).rep = some rep' ∧ rep'.inside = (es.map AltEdge.inside).foldl max rep.inside := by
  induction es with
  | nil => exact fun h => ⟨_, h, rfl⟩
  | cons e es ih =>
    rintro ⟨limits, rep0, alts⟩ rep h
    obtain rfl : rep0 = some rep := h
    obtain ⟨rep', hrep', hinside⟩ := ih (c := Impl.insertEdge H ⟨limits, some rep, alts⟩ e) Impl.insertEdge_rep
    refine ⟨rep', hrep', hinside.trans ?_⟩
    rw [map_cons, foldl_cons]
    congr 1
    rw [max_def_lt]
    split_ifs <;> rfl

variable [IsStrictOrderedRing S] [CanonicallyOrderedAdd S]

omit [IsStrictOrderedRing S] in
theorem Good.erase (h : Good heuristic q) (k : K)
    (hfits : ∀ pos ∈ find k q.ptable.entryIndex, q.ptable.FitsAt (queueTraits heuristic) pos) :
    Good heuristic (q.erase heuristic k).1 := by
  unfold EdgeQueue.erase
  cases hlookup : PriorityTable.lookup k q.ptable with
  | none => exact h
  | some eq =>
    obtain ⟨pos, hpos, hget⟩ := bind_eq_some_iff.mp hlookup
    obtain ⟨hperm, hindexed⟩ := PriorityTable.eraseAt_perm hget h.ordered.indexed
    have herase : (q.ptable.eraseKey (queueTraits heuristic) k).1 = q.ptable.eraseAt (queueTraits heuristic) pos := by
      rw [PriorityTable.eraseKey, hpos]
    have hsifted := (PriorityTable.sifted_eraseAt_iff (strictWeak_less heuristic) h.ordered.indexed h.ordered.sifted
      (List.getElem?_eq_some_iff.mp hget).1).mpr (hfits pos hpos)
    dsimp only
    rw [herase]
    refine ⟨⟨hindexed, hsifted⟩, ?_⟩
    have hhigh : High (((eq :: (q.ptable.eraseAt (queueTraits heuristic) pos).heap).map fun eq =>
        (eq.key, eq.score heuristic))) q.highScore := h.high.perm (hperm.map _).symm
    by_cases hle : q.highScore ≤ eq.score heuristic
    · dsimp only
      rw [if_pos hle]
      exact high_foldl (fun eq : EdgeEquiv K S C => (eq.key, eq.score heuristic)) _ fun _ _ => zero_le
    · dsimp only
      rw [if_neg hle]
      exact hhigh.erase (not_le.mp hle)

omit [DecidableEq K] in
/-- The score of a class that another one goes into. -/
theorem score_merge (other eq : EdgeEquiv K S C) (hbest : ∀ a ∈ other.impl.alts, a.inside ≤ other.representative.inside) :
    (EdgeEquiv.merge H other eq).score heuristic =
      max (eq.score heuristic) (heuristic eq.key * other.representative.inside) := by
  have hmono : Monotone fun x => heuristic eq.key * x := fun x y hxy => mul_le_mul_of_nonneg_left hxy zero_le
  have hedges : other.impl.edges = other.representative :: other.impl.alts := by
    have hrep : other.impl.rep = some other.representative := (some_get _).symm
    rw [Impl.edges, hrep]
  have hrep : eq.impl.rep = some eq.representative := (some_get _).symm
  obtain ⟨rep', hrep', hinside⟩ := insertAll_inside (H := H) other.impl.edges hrep
  have hmerged : (EdgeEquiv.merge H other eq).representative = rep' := Option.some.inj ((some_get _).trans hrep')
  have hmax : rep'.inside = max eq.representative.inside other.representative.inside := by
    rw [hinside, hedges, map_cons, foldl_cons]
    have hle : ∀ x ∈ other.impl.alts.map AltEdge.inside, x ≤ max eq.representative.inside other.representative.inside := by
      intro x hx
      obtain ⟨a, ha, rfl⟩ := mem_map.mp hx
      exact (hbest a ha).trans (le_max_right ..)
    generalize max eq.representative.inside other.representative.inside = m at hle
    generalize other.impl.alts.map AltEdge.inside = xs at hle
    induction xs with
    | nil => rfl
    | cons x xs ih =>
      rw [foldl_cons, max_eq_left (hle x mem_cons_self)]
      exact ih fun y hy => hle y (mem_cons_of_mem _ hy)
  show heuristic eq.key * _ = max (heuristic eq.key * eq.representative.inside) _
  rw [hmerged, hmax]
  exact hmono.map_max

/-- A class put into the queue: it comes in, or goes into the one that is there. -/
theorem insertEquiv_raise (H : HeapAlg) (h : Ordered heuristic q) (eq : EdgeEquiv K S C)
    (hbest : ∀ a ∈ eq.impl.alts, a.inside ≤ eq.representative.inside) :
    ∃ q', q.insertEquiv H heuristic eq = some q' ∧ Ordered heuristic q' ∧
      (entries heuristic q').Perm (raiseKey eq.key (eq.score heuristic) (entries heuristic q)) ∧
      q'.highScore = max q.highScore (eq.score heuristic) := by
  unfold EdgeQueue.insertEquiv
  cases hfind : Lib.find eq.key q.ptable.entryIndex with
  | none =>
    obtain ⟨hordered, hperm⟩ := insert_raise h hfind (if q.highScore < eq.score heuristic then eq.score heuristic else q.highScore)
    exact ⟨_, rfl, hordered, hperm, highScore_eq _ _⟩
  | some pos =>
    obtain ⟨ptable, hmodify, hordered, hperm⟩ := modify_raise h hfind (f := EdgeEquiv.merge H eq) (fun _ => rfl)
      (fun old hkey => (score_merge eq old hbest).trans (by rw [hkey]))
      (if q.highScore < eq.score heuristic then eq.score heuristic else q.highScore)
    dsimp only
    rw [hmodify]
    exact ⟨_, rfl, hordered, hperm, highScore_eq _ _⟩

theorem Good.call (h : Good heuristic q) {op : QueueCall K S C} (hop : Regular heuristic q op)
    (hcall : q.call H limits heuristic op = some q') : Good heuristic q' := by
  have hraise : ∀ {k s}, (q.ptable.heap = [] → q.highScore ≤ s) → Ordered heuristic q' →
      (entries heuristic q').Perm (raiseKey k s (entries heuristic q)) → q'.highScore = max q.highScore s →
      Good heuristic q' := by
    intro k s hempty hordered hperm hhigh
    refine ⟨hordered, hhigh ▸ High.perm (h.high.raise h.ordered.keyed (fun hnil => ?_) k) hperm.symm⟩
    exact hempty (map_eq_nil_iff.mp hnil)
  cases op with
  | insertEdge e =>
    obtain ⟨q1, hrun, hordered, hperm, hhigh⟩ := insertEdge_spec H limits h.ordered e
    obtain rfl : q1 = q' := mem_unique hrun hcall
    exact hraise hop hordered hperm hhigh
  | insertEquiv eq hbest =>
    obtain ⟨q1, hrun, hordered, hperm, hhigh⟩ := insertEquiv_raise H h.ordered eq hbest
    obtain rfl : q1 = q' := mem_unique hrun hcall
    exact hraise hop hordered hperm hhigh
  | erase k =>
    cases hcall
    exact h.erase k hop
  | pop =>
    have hne : q.ptable.heap ≠ [] := fun hnil => by
      rw [EdgeQueue.call, if_pos hnil] at hcall
      cases hcall
    rw [EdgeQueue.call, if_neg hne] at hcall
    cases hcall
    exact h.pop hne

/-- **In a run of regular calls, the two scores bound the classes of the queue after each.** -/
theorem bounds_throughout (H : HeapAlg) (limits : K → Limits) (heuristic : K → S) (calls : List (QueueCall K S C))
    (hregular : Machine.Along (EdgeQueue.call H limits heuristic) (Regular heuristic) calls .empty) :
    Machine.Throughout (EdgeQueue.call H limits heuristic) (Bounds heuristic) calls .empty :=
  (Machine.throughout_of_step (fun _ _ _ h hop hcall => h.call hop hcall) good_empty hregular).mono fun _ => Good.bounds

end

end

section

def callOf : Nat × Nat → QueueCall Nat Nat Nat := fun p => .insertEdge (edgeOf p.1 p.2)

/-- Every score is the inside score. -/
def callFlat : EdgeQueue Nat Nat Nat → QueueCall Nat Nat Nat → Option (EdgeQueue Nat Nat Nat) :=
  EdgeQueue.call HeapAlg.sorted (fun _ => ⟨4, false⟩) fun _ => 1

theorem bounds_throughout_erase :
    Machine.Throughout callFlat (Bounds fun _ => 1) [callOf (1, 5), callOf (2, 3), .erase 1, .pop] .empty := by
  refine bounds_throughout HeapAlg.sorted (fun _ => ⟨4, false⟩) (fun _ => 1) _ ?_
  refine .cons rfl (fun _ => by decide) (.cons rfl
    (fun hnil => absurd (congrArg List.length hnil) (by decide)) (.cons rfl ?_ (.cons rfl trivial trivial)))
  intro pos hpos
  obtain rfl : 1 = pos := Option.some.inj hpos
  refine .inr ⟨atMost_some.mpr rfl, fun c hc hcl => ?_⟩
  have hcl : c + 1 < 2 := hcl
  unfold Hash.parent at hc
  omega

/-- The queue that was emptied remembers 5, and holds 3; the one that 10 was taken out of has 20, and says 30. -/
theorem not_bounds :
    (∃ q, Machine.run callFlat [callOf (1, 5), .pop, callOf (2, 3)] .empty = some q ∧ ¬Bounds (fun _ => 1) q) ∧
    ∃ q, Machine.run callFlat ([(1, 1), (2, 10), (3, 20), (4, 30), (5, 100)].map callOf ++ [.erase 2, .pop]) .empty = some q ∧
      ¬Bounds (fun _ => 1) q := by
  have hstale : ((Machine.run callFlat [callOf (1, 5), .pop, callOf (2, 3)] .empty).map fun q =>
      (entries (fun _ => 1) q, q.highestScore)) = some ([(2, 3)], 5) := by decide
  have hspoilt : ((Machine.run callFlat ([(1, 1), (2, 10), (3, 20), (4, 30), (5, 100)].map callOf ++ [.erase 2, .pop])
      .empty).map fun q => (entries (fun _ => 1) q, q.lowestScore fun _ => 1)) =
        some ([(4, 30), (5, 100), (3, 20)], 30) := by decide
  obtain ⟨q, hrun, hq⟩ := map_eq_some_iff.mp hstale
  obtain ⟨q', hrun', hq'⟩ := map_eq_some_iff.mp hspoilt
  refine ⟨⟨q, hrun, fun hbounds => ?_⟩, q', hrun', fun hbounds => ?_⟩
  · obtain ⟨hentries, hhigh⟩ := Prod.mk.inj hq
    have hne : q.ptable.heap ≠ [] := fun hnil => by
      rw [entries, hnil] at hentries
      cases hentries
    obtain ⟨eq, heq, hscore⟩ := hbounds.attained hne
    have hmem : (eq.key, eq.score fun _ => 1) ∈ entries (fun _ => 1) q := mem_map.mpr ⟨eq, heq, rfl⟩
    rw [hentries, hscore, hhigh, mem_singleton] at hmem
    exact absurd (Prod.mk.inj hmem).2 (by decide)
  · obtain ⟨hentries, hlow⟩ := Prod.mk.inj hq'
    have hmem : (3, 20) ∈ entries (fun _ => 1) q' := by
      rw [hentries]
      decide
    obtain ⟨eq, heq, hpair⟩ := mem_map.mp hmem
    have hle := hbounds.lowest eq heq
    rw [hlow, (Prod.mk.inj hpair).2] at hle
    exact absurd hle (by decide)

end

end Sbmt.Search.EdgeFilter
