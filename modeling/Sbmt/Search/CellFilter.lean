import Sbmt.Search.QueueBounds
/-!
# Filtering by cell and by span (`sbmt_decoder/include/sbmt/search/impl/edge_filter.ipp`)

A class is in the queue of its cell, the classes of one root, and in that of the span if it is good enough.

| here | there |
| --- | --- |
| `CellFilter`, `cell` | `cell_edge_filter` (`edge_filter.hpp:131-207`); `root` is a part of what equivalent edges agree in |
| `Offer`, `insert` | the two `insert` (`:138-179`, `:183-219`), which differ in what they put into the cell |
| `finalize` | `:284-308`; the map is a list of cells in the order of its buckets |

`none` is an exception: the filter is finalized, or "priority_table invalidated!".

Nothing here depends on the queues being in order: `Minus` says what is left of a queue, whatever is on top of it.  Every
class that is evicted from one queue goes from the other; that a class taken out of the span's queue by `insert` comes back
or leaves its cell is because there is room for it then (`Step.mirrored`).
-/

namespace Sbmt.Search.EdgeFilter

open Sbmt.Lib Sbmt.Edge Sbmt.Hash List

variable {R K S C : Type}

structure CellFilter (R K S C : Type) where
  cellMap : List (R × EdgeQueue K S C)
  spanQueue : EdgeQueue K S C
  finalized : Bool

/-- What goes in. -/
inductive Offer (K S C : Type) where
  | edge (e : Edge K S C)
  | equiv (eq : EdgeEquiv K S C)

namespace Offer

variable [CommSemiring S]

def key : Offer K S C → K
  | edge e => e.key
  | equiv eq => eq.key

def score (heuristic : K → S) : Offer K S C → S
  | edge e => e.score heuristic
  | equiv eq => eq.score heuristic

variable [DecidableEq K] [LinearOrder S] (H : HeapAlg) (limits : K → Limits) (heuristic : K → S)

/-- `queue.insert(epool,e)` and `queue.insert(eq)`. -/
def put (q : EdgeQueue K S C) : Offer K S C → Option (EdgeQueue K S C)
  | edge e => q.insertEdge H limits heuristic e
  | equiv eq => q.insertEquiv H heuristic eq

end Offer

namespace CellFilter

variable [DecidableEq R] [DecidableEq K] [CommSemiring S] [LinearOrder S] (H : HeapAlg) (limits : K → Limits)
  (heuristic : K → S) (root : K → R) (cellPred spanPred : Predicate K S C)

def empty : CellFilter R K S C := ⟨[], .empty, false⟩

/-- `get_create`. -/
def cell (cellMap : List (R × EdgeQueue K S C)) (tok : R) : EdgeQueue K S C := (find tok cellMap).getD .empty

/-- The loop of `pop_cell`. -/
def popCell : Nat → EdgeQueue K S C → EdgeQueue K S C → EdgeQueue K S C × EdgeQueue K S C
  | 0, queue, spanQueue => (queue, spanQueue)
  | fuel + 1, queue, spanQueue =>
    match queue.top with
    | none => (queue, spanQueue)
    | some top =>
      if cellPred.popTop queue then popCell fuel (queue.pop heuristic) (spanQueue.erase heuristic top.key).1
      else (queue, spanQueue)

/-- The loop of `pop_span`. -/
def popSpan : Nat → List (R × EdgeQueue K S C) → EdgeQueue K S C → List (R × EdgeQueue K S C) × EdgeQueue K S C
  | 0, cellMap, spanQueue => (cellMap, spanQueue)
  | fuel + 1, cellMap, spanQueue =>
    match spanQueue.top with
    | none => (cellMap, spanQueue)
    | some top =>
      if spanPred.popTop spanQueue then
        let queue := ((cell cellMap (root top.key)).erase heuristic top.key).1
        popSpan fuel (upsert (root top.key) (fun _ => queue) cellMap) (spanQueue.pop heuristic)
      else (cellMap, spanQueue)

def insert (f : CellFilter R K S C) (o : Offer K S C) : Option (CellFilter R K S C × Bool) :=
  if f.finalized then none
  else
    let tok := root o.key
    let queue := cell f.cellMap tok
    let cellKeep := cellPred.keepEdge queue (o.score heuristic)
    if cellKeep then
      let spanQueue := (f.spanQueue.erase heuristic o.key).1
      (o.put H limits heuristic queue).bind fun queue =>
        let (queue, spanQueue) := popCell heuristic cellPred queue.size queue spanQueue
        let cellMap := upsert tok (fun _ => queue) f.cellMap
        let spanKeep := spanPred.keepEdge spanQueue (o.score heuristic)
        match PriorityTable.lookup o.key queue.ptable with
        | some pe =>
          if spanKeep then
            (spanQueue.insertEquiv H heuristic pe).map fun spanQueue =>
              let (cellMap, spanQueue) := popSpan heuristic root spanPred spanQueue.size cellMap spanQueue
              ({ f with cellMap, spanQueue }, spanKeep)
          else some ({ f with cellMap, spanQueue }, spanKeep)
        | none => some ({ f with cellMap, spanQueue }, spanKeep)
    else
      let spanKeep := spanPred.keepEdge f.spanQueue (o.score heuristic)
      some ({ f with cellMap := upsert tok (fun _ => queue) f.cellMap }, spanKeep)

/-- `while (!span_queue.empty() and span_pred.pop_top(span_queue)) span_queue.pop();` -/
def trim : Nat → EdgeQueue K S C → EdgeQueue K S C
  | 0, spanQueue => spanQueue
  | fuel + 1, spanQueue =>
    match spanQueue.top with
    | none => spanQueue
    | some _ => if spanPred.popTop spanQueue then trim fuel (spanQueue.pop heuristic) else spanQueue

/-- One class of a cell. -/
def offerSpan (spanQueue : EdgeQueue K S C) (eq : EdgeEquiv K S C) : Option (EdgeQueue K S C) :=
  if PriorityTable.lookup eq.key spanQueue.ptable |>.isNone then
    if spanPred.keepEdge spanQueue (eq.score heuristic) then
      (spanQueue.insertEquiv H heuristic eq).map fun spanQueue => trim heuristic spanPred spanQueue.size spanQueue
    else some spanQueue
  else some spanQueue

def finalize (f : CellFilter R K S C) : Option (CellFilter R K S C) :=
  if f.finalized then some f
  else
    ((f.cellMap.flatMap fun p => p.2.ptable.heap).foldlM (offerSpan H heuristic spanPred) f.spanQueue).map
      fun spanQueue => { f with spanQueue, finalized := true }

/-- One after another, from an empty filter. -/
def insertAll (os : List (Offer K S C)) : Option (CellFilter R K S C) :=
  os.foldlM (fun f o => (insert H limits heuristic root cellPred spanPred f o).map Prod.fst) empty

end CellFilter

section

variable [DecidableEq K] [CommSemiring S] [LinearOrder S] {H : HeapAlg} {limits : K → Limits} {heuristic : K → S}
  {q q' q'' : EdgeQueue K S C} {P P' : List K} {k : K}

/-! ## What is left of a queue -/

/-- The index of the queue is right, whatever its order is. -/
def EdgeQueue.Indexed (heuristic : K → S) (q : EdgeQueue K S C) : Prop := PriorityTable.Indexed (queueTraits heuristic) q.ptable

theorem EdgeQueue.Indexed.nodup (h : q.Indexed heuristic) : q.classes.Nodup := by
  rw [EdgeQueue.classes, Nodup, pairwise_map, pairwise_iff_getElem]
  intro i j hi hj hij hkey
  exact hij.ne (PriorityTable.Indexed.unique h (getElem?_eq_getElem hi) (getElem?_eq_getElem hj) hkey)

theorem indexed_empty : (.empty : EdgeQueue K S C).Indexed heuristic := ordered_empty.indexed

variable {eq : EdgeEquiv K S C}

theorem lookup_iff (h : q.Indexed heuristic) :
    PriorityTable.lookup k q.ptable = some eq ↔ eq ∈ q.ptable.heap ∧ eq.key = k := by
  unfold PriorityTable.lookup
  rw [Option.bind_eq_some_iff]
  constructor
  · rintro ⟨pos, hpos, hget⟩
    obtain ⟨v, hv, hkey⟩ := (h k pos).mp hpos
    obtain rfl := Option.mem_unique hv hget
    exact ⟨mem_of_getElem? hv, hkey⟩
  · rintro ⟨hmem, rfl⟩
    obtain ⟨pos, hpos⟩ := getElem?_of_mem hmem
    exact ⟨pos, h.find_key hpos, hpos⟩

/-- The classes of `P` are gone, and no others. -/
structure Minus (heuristic : K → S) (P : List K) (q q' : EdgeQueue K S C) : Prop where
  indexed : q'.Indexed heuristic
  perm : q'.ptable.heap.Perm (q.ptable.heap.filter fun eq => decide (eq.key ∉ P))

namespace Minus

theorem of_absent (h : q.Indexed heuristic) (habsent : ∀ eq ∈ q.ptable.heap, eq.key ∉ P) : Minus heuristic P q q :=
  ⟨h, .of_eq (filter_eq_self.mpr fun eq heq => decide_eq_true (habsent eq heq)).symm⟩

theorem refl (h : q.Indexed heuristic) : Minus heuristic [] q q := of_absent h fun _ _ => not_mem_nil

variable (h : Minus heuristic P q q')
include h

theorem mem (eq : EdgeEquiv K S C) : eq ∈ q'.ptable.heap ↔ eq ∈ q.ptable.heap ∧ eq.key ∉ P := by
  rw [h.perm.mem_iff, mem_filter, decide_eq_true_eq]

theorem classes : k ∈ q'.classes ↔ k ∈ q.classes ∧ k ∉ P := by
  constructor
  · intro hk
    obtain ⟨eq, heq, rfl⟩ := mem_map.mp hk
    exact ⟨mem_map_of_mem ((h.mem eq).mp heq).1, ((h.mem eq).mp heq).2⟩
  · rintro ⟨hk, hP⟩
    obtain ⟨eq, heq, rfl⟩ := mem_map.mp hk
    exact mem_map_of_mem ((h.mem eq).mpr ⟨heq, hP⟩)

theorem trans (h' : Minus heuristic P' q' q'') : Minus heuristic (P ++ P') q q'' := by
  refine ⟨h'.indexed, (h'.perm.trans (h.perm.filter _)).trans (.of_eq ?_)⟩
  rw [filter_filter]
  refine filter_congr fun eq _ => ?_
  rw [← Bool.decide_and]
  exact decide_eq_decide.mpr (by rw [mem_append, not_or, and_comm])

theorem size_le : q'.size ≤ q.size :=
  h.perm.length_eq.trans_le (length_filter_le ..)

theorem size_lt (heq : eq ∈ q.ptable.heap) (hgone : eq.key ∈ P) : q'.size < q.size :=
  h.perm.length_eq.trans_lt (length_filter_lt_length_iff_exists.mpr ⟨eq, heq, by simpa using hgone⟩)

end Minus

/-- What is left when a class of a key goes, and nothing else has this key. -/
theorem filter_key (h : q.Indexed heuristic) {l : List (EdgeEquiv K S C)}
    (hperm : (eq :: l).Perm q.ptable.heap) : l.Perm (q.ptable.heap.filter fun eq' => decide (eq'.key ∉ [eq.key])) := by
  have hnodup : ((eq :: l).map EdgeEquiv.key).Nodup := (hperm.map _).nodup_iff.mpr h.nodup
  rw [map_cons, nodup_cons] at hnodup
  refine Perm.trans (.of_eq ?_) (hperm.filter _)
  rw [filter_cons_of_neg (by simp)]
  refine (filter_eq_self.mpr fun eq' heq' => ?_).symm
  rw [decide_eq_true_eq, mem_singleton]
  exact fun hkey => hnodup.1 (mem_map.mpr ⟨eq', heq', hkey⟩)

theorem minus_erase (h : q.Indexed heuristic) (k : K) : Minus heuristic [k] q (q.erase heuristic k).1 := by
  unfold EdgeQueue.erase
  cases hlookup : PriorityTable.lookup k q.ptable with
  | none =>
    refine .of_absent h fun eq heq hkey => ?_
    rw [(lookup_iff h).mpr ⟨heq, mem_singleton.mp hkey⟩] at hlookup
    cases hlookup
  | some eq =>
    obtain ⟨pos, hpos, hget⟩ := Option.bind_eq_some_iff.mp hlookup
    obtain ⟨hperm, hindexed⟩ := PriorityTable.eraseAt_perm hget h
    obtain ⟨-, rfl⟩ := (lookup_iff h).mp hlookup
    have herase : (q.ptable.eraseKey (queueTraits heuristic) eq.key).1 = q.ptable.eraseAt (queueTraits heuristic) pos := by
      rw [PriorityTable.eraseKey, hpos]
    rw [herase]
    exact ⟨hindexed, filter_key h hperm⟩

theorem minus_pop (h : q.Indexed heuristic) (htop : q.top = some eq) :
    Minus heuristic [eq.key] q (q.pop heuristic) := by
  have hget : q.ptable.heap[0]? = some eq := by
    rw [← head?_eq_getElem?]
    exact htop
  obtain ⟨hperm, hindexed⟩ := PriorityTable.eraseAt_perm hget h
  exact ⟨hindexed, filter_key h hperm⟩

/-- A class of the key is in, new or changed, and the others are as they were. -/
structure Puts (heuristic : K → S) (k : K) (q q' : EdgeQueue K S C) : Prop where
  indexed : q'.Indexed heuristic
  perm : ∃ eq, eq.key = k ∧ q'.ptable.heap.Perm (eq :: q.ptable.heap.filter fun eq => decide (eq.key ≠ k))

/-- A class changed where it is. -/
theorem modify_puts (h : q.Indexed heuristic) {pos : Nat} {f : EdgeEquiv K S C → EdgeEquiv K S C}
    (hfind : Lib.find k q.ptable.entryIndex = some pos) (hkey : ∀ eq, (f eq).key = eq.key) (high : S) :
    ∃ ptable, q.ptable.modify (queueTraits heuristic) pos f = some ptable ∧ Puts heuristic k q ⟨ptable, high⟩ := by
  obtain ⟨old, hold, hk, hmodify, hleaves⟩ := modify_eq h hfind hkey
  obtain ⟨hpos, hget⟩ := List.getElem?_eq_some_iff.mp hold
  have hrest := filter_key h (hget ▸ getElem_cons_eraseIdx_perm hpos)
  refine ⟨_, hmodify, hleaves.indexed, f old, (hkey old).trans hk, ?_⟩
  refine hleaves.perm.trans ((set_perm_cons_eraseIdx hpos _).trans (Perm.cons _ ?_))
  simpa only [mem_singleton, hk] using hrest

/-- A class of a new key. -/
theorem append_puts (h : q.Indexed heuristic) (eq : EdgeEquiv K S C) (hfind : Lib.find eq.key q.ptable.entryIndex = none)
    (high : S) : Puts heuristic eq.key q ⟨(q.ptable.insert (queueTraits heuristic) eq).1, high⟩ := by
  have hfind : Lib.find ((queueTraits heuristic).key eq) q.ptable.entryIndex = none := hfind
  obtain ⟨-, hleaves⟩ := PriorityTable.insert_leaves (strictWeak_less heuristic) h hfind
  refine ⟨hleaves.indexed, eq, rfl, hleaves.perm.trans (.of_eq ?_)⟩
  rw [filter_eq_self.mpr]
  intro eq' heq'
  rw [decide_eq_true_eq]
  intro hkey
  obtain ⟨pos, hpos⟩ := getElem?_of_mem heq'
  have := h.find_key hpos
  rw [show (queueTraits heuristic).key eq' = (queueTraits heuristic).key eq from hkey, hfind] at this
  cases this

variable (H limits) in
theorem put_puts (h : q.Indexed heuristic) (o : Offer K S C) :
    ∃ q', o.put H limits heuristic q = some q' ∧ Puts heuristic o.key q q' := by
  cases o with
  | edge e =>
    show ∃ q', q.insertEdge H limits heuristic e = some q' ∧ Puts heuristic e.key q q'
    unfold EdgeQueue.insertEdge
    cases hfind : Lib.find e.key q.ptable.entryIndex with
    | none => exact ⟨_, rfl, append_puts h (.create limits e) hfind _⟩
    | some pos =>
      obtain ⟨ptable, hmodify, hputs⟩ := modify_puts h hfind (f := EdgeEquiv.insertEdge H e.alt) (fun _ => rfl)
        (if q.highScore < e.score heuristic then e.score heuristic else q.highScore)
      dsimp only
      rw [hmodify]
      exact ⟨_, rfl, hputs⟩
  | equiv eq =>
    show ∃ q', q.insertEquiv H heuristic eq = some q' ∧ Puts heuristic eq.key q q'
    unfold EdgeQueue.insertEquiv
    cases hfind : Lib.find eq.key q.ptable.entryIndex with
    | none => exact ⟨_, rfl, append_puts h eq hfind _⟩
    | some pos =>
      obtain ⟨ptable, hmodify, hputs⟩ := modify_puts h hfind (f := EdgeEquiv.merge H eq) (fun _ => rfl)
        (if q.highScore < eq.score heuristic then eq.score heuristic else q.highScore)
      dsimp only
      rw [hmodify]
      exact ⟨_, rfl, hputs⟩

theorem Puts.mem (h : Puts heuristic k q q') (hne : eq.key ≠ k) : eq ∈ q'.ptable.heap ↔ eq ∈ q.ptable.heap := by
  obtain ⟨eq', hkey, hperm⟩ := h.perm
  rw [hperm.mem_iff, mem_cons, mem_filter, decide_eq_true_eq]
  constructor
  · rintro (rfl | ⟨heq, -⟩)
    · exact absurd hkey hne
    · exact heq
  · exact fun heq => .inr ⟨heq, hne⟩

theorem Puts.classes (h : Puts heuristic k q q') {k' : K} (hne : k' ≠ k) : k' ∈ q'.classes ↔ k' ∈ q.classes := by
  constructor
  · intro hk
    obtain ⟨eq, heq, rfl⟩ := mem_map.mp hk
    exact mem_map_of_mem ((h.mem hne).mp heq)
  · intro hk
    obtain ⟨eq, heq, rfl⟩ := mem_map.mp hk
    exact mem_map_of_mem ((h.mem hne).mpr heq)

section
omit [DecidableEq K] [CommSemiring S] [LinearOrder S]

theorem top_none (htop : q.top = none) : q.size = 0 := by
  have hnil : q.ptable.heap = [] := head?_eq_none_iff.mp htop
  rw [EdgeQueue.size, hnil]
  rfl

theorem top_mem (htop : q.top = some eq) : eq ∈ q.ptable.heap := mem_of_head? htop

end

/-! ## The loops -/

namespace CellFilter

section

variable [DecidableEq R] {root : K → R} {cellPred spanPred : Predicate K S C} {queue spanQueue : EdgeQueue K S C}
  {cellMap : List (R × EdgeQueue K S C)}

omit [DecidableEq K] [LinearOrder S] in
theorem cell_upsert (cellMap : List (R × EdgeQueue K S C)) (q : EdgeQueue K S C) (tok r : R) :
    cell (upsert tok (fun _ => q) cellMap) r = if r = tok then q else cell cellMap r := by
  unfold cell
  rw [find_upsert]
  split_ifs <;> rfl

variable (cellPred) in
/-- **What `pop_cell` takes from the cell it takes from the span.** -/
theorem popCell_spec (fuel : Nat) : ∀ {queue spanQueue : EdgeQueue K S C}, queue.Indexed heuristic → spanQueue.Indexed heuristic →
    ∃ P, Minus heuristic P queue (popCell heuristic cellPred fuel queue spanQueue).1 ∧
      Minus heuristic P spanQueue (popCell heuristic cellPred fuel queue spanQueue).2 ∧ ∀ k ∈ P, k ∈ queue.classes := by
  induction fuel with
  | zero => exact fun hq hs => ⟨[], .refl hq, .refl hs, fun _ hk => absurd hk not_mem_nil⟩
  | succ fuel ih =>
    intro queue spanQueue hq hs
    unfold popCell
    cases htop : queue.top with
    | none => exact ⟨[], .refl hq, .refl hs, fun _ hk => absurd hk not_mem_nil⟩
    | some top =>
      by_cases hpop : cellPred.popTop queue = true
      · have hcell := minus_pop hq htop
        have hspan := minus_erase hs top.key
        obtain ⟨P, hcell', hspan', hP⟩ := ih hcell.indexed hspan.indexed
        dsimp only
        rw [if_pos hpop]
        refine ⟨[top.key] ++ P, hcell.trans hcell', hspan.trans hspan', fun k hk => ?_⟩
        rcases mem_append.mp hk with hk | hk
        · rw [mem_singleton.mp hk]
          exact mem_map_of_mem (top_mem htop)
        · obtain ⟨eq, heq, rfl⟩ := mem_map.mp (hP k hk)
          exact mem_map_of_mem ((hcell.mem eq).mp heq).1
      · dsimp only
        rw [if_neg hpop]
        exact ⟨[], .refl hq, .refl hs, fun _ hk => absurd hk not_mem_nil⟩

variable {c s : Nat}

theorem trim_spec (fuel : Nat) : ∀ {spanQueue : EdgeQueue K S C}, spanQueue.Indexed heuristic → spanQueue.size ≤ fuel →
    (trim heuristic (histogramPredicate heuristic s) fuel spanQueue).Indexed heuristic ∧
      (∀ k ∈ (trim heuristic (histogramPredicate heuristic s) fuel spanQueue).classes, k ∈ spanQueue.classes) ∧
      (trim heuristic (histogramPredicate heuristic s) fuel spanQueue).size ≤ s := by
  induction fuel with
  | zero => exact fun hs hsize => ⟨hs, fun _ hk => hk, hsize.trans (Nat.zero_le s)⟩
  | succ fuel ih =>
    intro spanQueue hs hsize
    unfold trim
    cases htop : spanQueue.top with
    | none => exact ⟨hs, fun _ hk => hk, (top_none htop).trans_le (Nat.zero_le s)⟩
    | some top =>
      by_cases hpop : (histogramPredicate heuristic s).popTop spanQueue = true
      · have hspan := minus_pop hs htop
        have hlt := hspan.size_lt (top_mem htop) mem_cons_self
        rw [if_pos hpop]
        obtain ⟨hindexed, hclasses, hsize'⟩ := ih hspan.indexed (by omega)
        exact ⟨hindexed, fun k hk => (hspan.classes.mp (hclasses k hk)).1, hsize'⟩
      · rw [if_neg hpop]
        exact ⟨hs, fun _ hk => hk, not_lt.mp fun hlt => hpop (decide_eq_true hlt)⟩

/-- The cell loses what it would lose alone. -/
theorem popCell_fst (fuel : Nat) : ∀ queue spanQueue : EdgeQueue K S C,
    (popCell heuristic cellPred fuel queue spanQueue).1 = trim heuristic cellPred fuel queue := by
  induction fuel with
  | zero => exact fun _ _ => rfl
  | succ fuel ih =>
    intro queue spanQueue
    unfold popCell trim
    cases queue.top with
    | none => rfl
    | some top =>
      dsimp only
      split_ifs
      · exact ih _ _
      · rfl

/-- The cells are indexed, and a class is in the cell of its root. -/
structure Rooted (heuristic : K → S) (root : K → R) (cellMap : List (R × EdgeQueue K S C)) : Prop where
  keys : (cellMap.map Prod.fst).Nodup
  indexed : ∀ r, (cell cellMap r).Indexed heuristic
  root : ∀ r, ∀ eq ∈ (cell cellMap r).ptable.heap, root eq.key = r

variable (spanPred) in
/-- **What `pop_span` takes from the span it takes from the cells.** -/
theorem popSpan_spec (fuel : Nat) : ∀ {cellMap : List (R × EdgeQueue K S C)} {spanQueue : EdgeQueue K S C},
    Rooted heuristic root cellMap → spanQueue.Indexed heuristic →
    ∃ P, Minus heuristic P spanQueue (popSpan heuristic root spanPred fuel cellMap spanQueue).2 ∧
      (∀ r, Minus heuristic P (cell cellMap r) (cell (popSpan heuristic root spanPred fuel cellMap spanQueue).1 r)) ∧
      Rooted heuristic root (popSpan heuristic root spanPred fuel cellMap spanQueue).1 := by
  induction fuel with
  | zero => exact fun hc hs => ⟨[], .refl hs, fun r => .refl (hc.indexed r), hc⟩
  | succ fuel ih =>
    intro cellMap spanQueue hc hs
    unfold popSpan
    cases htop : spanQueue.top with
    | none => exact ⟨[], .refl hs, fun r => .refl (hc.indexed r), hc⟩
    | some top =>
      by_cases hpop : spanPred.popTop spanQueue = true
      · dsimp only
        rw [if_pos hpop]
        have hspan := minus_pop hs htop
        have hcells : ∀ r, Minus heuristic [top.key] (cell cellMap r) (cell (upsert (root top.key) (fun _ =>
            ((cell cellMap (root top.key)).erase heuristic top.key).1) cellMap) r) := by
          intro r
          rw [cell_upsert]
          by_cases hr : r = root top.key
          · rw [if_pos hr, hr]
            exact minus_erase (hc.indexed _) top.key
          · rw [if_neg hr]
            refine .of_absent (hc.indexed r) fun eq heq hkey => hr ?_
            rw [← hc.root r eq heq, mem_singleton.mp hkey]
        have hrooted : Rooted heuristic root (upsert (root top.key) (fun _ =>
            ((cell cellMap (root top.key)).erase heuristic top.key).1) cellMap) :=
          ⟨nodup_keys_upsert _ hc.keys, fun r => (hcells r).indexed, fun r eq heq =>
            hc.root r eq (((hcells r).mem eq).mp heq).1⟩
        obtain ⟨P, hspan', hcells', hrooted'⟩ := ih hrooted hspan.indexed
        exact ⟨[top.key] ++ P, hspan.trans hspan', fun r => (hcells r).trans (hcells' r), hrooted'⟩
      · dsimp only
        rw [if_neg hpop]
        exact ⟨[], .refl hs, fun r => .refl (hc.indexed r), hc⟩

/-- So does the span. -/
theorem popSpan_snd (fuel : Nat) : ∀ (cellMap : List (R × EdgeQueue K S C)) (spanQueue : EdgeQueue K S C),
    (popSpan heuristic root spanPred fuel cellMap spanQueue).2 = trim heuristic spanPred fuel spanQueue := by
  induction fuel with
  | zero => exact fun _ _ => rfl
  | succ fuel ih =>
    intro cellMap spanQueue
    unfold popSpan trim
    cases spanQueue.top with
    | none => rfl
    | some top =>
      dsimp only
      split_ifs
      · exact ih _ _
      · rfl

/-! ## One insertion -/

/-- Every class of the span is in its cell, and neither is too large. -/
structure Inv (heuristic : K → S) (root : K → R) (c s : Nat) (cellMap : List (R × EdgeQueue K S C))
    (spanQueue : EdgeQueue K S C) : Prop where
  rooted : Rooted heuristic root cellMap
  indexed : spanQueue.Indexed heuristic
  nested : ∀ eq ∈ spanQueue.ptable.heap, eq ∈ (cell cellMap (root eq.key)).ptable.heap
  cellSize : ∀ r, (cell cellMap r).size ≤ c
  spanSize : spanQueue.size ≤ s

/-- The keys of the classes a cell holds. -/
def Held (root : K → R) (cellMap : List (R × EdgeQueue K S C)) (k : K) : Prop := k ∈ (cell cellMap (root k)).classes

/-- What an insertion of a class does to the others: none comes in, and one that leaves the span leaves its cell. -/
structure Step (root : K → R) (k : K) (cellMap cellMap' : List (R × EdgeQueue K S C)) (spanQueue spanQueue' : EdgeQueue K S C) :
    Prop where
  gains : ∀ k', k' ≠ k → Held root cellMap' k' → Held root cellMap k'
  mirrored : ∀ k', k' ∈ spanQueue.classes → k' ∉ spanQueue'.classes → ¬Held root cellMap' k'

/-- The classes that `pop_span` leaves. -/
theorem Inv.popSpan (hrooted : Rooted heuristic root cellMap) (hindexed : spanQueue.Indexed heuristic)
    (hnested : ∀ eq ∈ spanQueue.ptable.heap, eq ∈ (cell cellMap (root eq.key)).ptable.heap)
    (hcell : ∀ r, (cell cellMap r).size ≤ c) :
    let popped := popSpan heuristic root (histogramPredicate heuristic s) spanQueue.size cellMap spanQueue
    Inv heuristic root c s popped.1 popped.2 ∧ (∀ k, Held root popped.1 k → Held root cellMap k) ∧
      ∀ k, k ∈ spanQueue.classes → k ∉ popped.2.classes → ¬Held root popped.1 k := by
  obtain ⟨P, hspan, hcells, hrooted'⟩ := popSpan_spec (histogramPredicate heuristic s) spanQueue.size hrooted hindexed
  refine ⟨⟨hrooted', hspan.indexed, fun eq heq => ?_, fun r => (hcells r).size_le.trans (hcell r), ?_⟩,
    fun k hk => ((hcells (root k)).classes.mp hk).1, fun k hk hgone hheld => ?_⟩
  · obtain ⟨heq, hP⟩ := (hspan.mem eq).mp heq
    exact ((hcells _).mem eq).mpr ⟨hnested eq heq, hP⟩
  · rw [popSpan_snd]
    exact (trim_spec _ hindexed le_rfl).2.2
  · have hP : k ∈ P := by
      by_contra hP
      exact hgone (hspan.classes.mpr ⟨hk, hP⟩)
    exact ((hcells (root k)).classes.mp hheld).2 hP

/-- In the middle of an insertion: the class is in its cell, or has been popped there, and is out of the span. -/
structure Cleared (heuristic : K → S) (root : K → R) (c s : Nat) (k : K) (cellMap cellMap' : List (R × EdgeQueue K S C))
    (spanQueue spanQueue' : EdgeQueue K S C) : Prop where
  inv : Inv heuristic root c s cellMap' spanQueue'
  absent : k ∉ spanQueue'.classes
  gains : ∀ k', k' ≠ k → Held root cellMap' k' → Held root cellMap k'
  mirrored : ∀ k', k' ≠ k → k' ∈ spanQueue.classes → k' ∉ spanQueue'.classes → ¬Held root cellMap' k'
  room : k ∈ spanQueue.classes → spanQueue'.size < s

theorem cleared_of_put (h : Inv heuristic root c s cellMap spanQueue)
    (hputs : Puts heuristic k (cell cellMap (root k)) queue) :
    let popped := popCell heuristic (histogramPredicate heuristic c) queue.size queue (spanQueue.erase heuristic k).1
    Cleared heuristic root c s k cellMap (upsert (root k) (fun _ => popped.1) cellMap) spanQueue popped.2 := by
  obtain ⟨P, hcell, hspan, hP⟩ := popCell_spec (histogramPredicate heuristic c) queue.size hputs.indexed
    (minus_erase h.indexed k).indexed
  have hsize : (popCell heuristic (histogramPredicate heuristic c) queue.size queue
      (spanQueue.erase heuristic k).1).1.size ≤ c := by
    rw [popCell_fst]
    exact (trim_spec _ hputs.indexed le_rfl).2.2
  have hspan := (minus_erase h.indexed k).trans hspan
  generalize popCell heuristic (histogramPredicate heuristic c) queue.size queue (spanQueue.erase heuristic k).1 = popped at *
  -- All that is put into a cell belongs there.
  have hroot : ∀ eq ∈ queue.ptable.heap, root eq.key = root k := by
    intro eq heq
    by_cases hkey : eq.key = k
    · rw [hkey]
    · exact h.rooted.root _ eq ((hputs.mem hkey).mp heq)
  have hsame : ∀ {r}, r ≠ root k → cell (upsert (root k) (fun _ => popped.1) cellMap) r = cell cellMap r := fun hr => by
    rw [cell_upsert, if_neg hr]
  have hown : cell (upsert (root k) (fun _ => popped.1) cellMap) (root k) = popped.1 := by
    rw [cell_upsert, if_pos rfl]
  refine ⟨⟨⟨nodup_keys_upsert _ h.rooted.keys, fun r => ?_, fun r eq heq => ?_⟩, hspan.indexed, fun eq heq => ?_, fun r => ?_,
    hspan.size_le.trans h.spanSize⟩, fun hk => ?_, fun k' hne hk' => ?_, fun k' hne hk' hgone hheld => ?_, fun hk => ?_⟩
  · by_cases hr : r = root k
    · rw [hr, hown]
      exact hcell.indexed
    · rw [hsame hr]
      exact h.rooted.indexed r
  · by_cases hr : r = root k
    · rw [hr, hown] at heq
      rw [hr]
      exact hroot eq ((hcell.mem eq).mp heq).1
    · rw [hsame hr] at heq
      exact h.rooted.root r eq heq
  · obtain ⟨heq, hgone⟩ := (hspan.mem eq).mp heq
    rw [mem_append, not_or, mem_singleton] at hgone
    have hin := h.nested eq heq
    by_cases hr : root eq.key = root k
    · rw [hr] at hin ⊢
      rw [hown]
      exact (hcell.mem eq).mpr ⟨(hputs.mem hgone.1).mpr hin, hgone.2⟩
    · rw [hsame hr]
      exact hin
  · by_cases hr : r = root k
    · rw [hr, hown]
      exact hsize
    · rw [hsame hr]
      exact h.cellSize r
  · exact (hspan.classes.mp hk).2 (mem_append_left _ mem_cons_self)
  · unfold Held at hk' ⊢
    by_cases hr : root k' = root k
    · rw [hr] at hk' ⊢
      rw [hown] at hk'
      exact (hputs.classes hne).mp (hcell.classes.mp hk').1
    · rwa [hsame hr] at hk'
  · have hk'P : k' ∈ P := by
      by_contra hnot
      refine hgone (hspan.classes.mpr ⟨hk', fun hmem => ?_⟩)
      rcases mem_append.mp hmem with hmem | hmem
      · exact hne (mem_singleton.mp hmem)
      · exact hnot hmem
    obtain ⟨eq, heq, hkey⟩ := mem_map.mp (hP k' hk'P)
    unfold Held at hheld
    rw [← hkey, hroot eq heq, hown] at hheld
    exact (hcell.classes.mp hheld).2 (hkey.symm ▸ hk'P)
  · obtain ⟨eq, heq, hkey⟩ := mem_map.mp hk
    exact (hspan.size_lt heq (mem_append_left _ (mem_singleton.mpr hkey))).trans_le h.spanSize

variable {f : CellFilter R K S C} (H : HeapAlg)

/-- **One insertion keeps the queues in step**: it goes through, and what leaves the span leaves its cell. -/
theorem insert_spec (limits : K → Limits) (hopen : f.finalized = false)
    (h : Inv heuristic root c s f.cellMap f.spanQueue) (o : Offer K S C) :
    ∃ f' kept, insert H limits heuristic root (histogramPredicate heuristic c) (histogramPredicate heuristic s) f o =
        some (f', kept) ∧ f'.finalized = false ∧ Inv heuristic root c s f'.cellMap f'.spanQueue ∧
      Step root o.key f.cellMap f'.cellMap f.spanQueue f'.spanQueue := by
  have hreplace : ∀ r, cell (upsert (root o.key) (fun _ => cell f.cellMap (root o.key)) f.cellMap) r = cell f.cellMap r := by
    intro r
    rw [cell_upsert]
    split_ifs with hr
    · rw [hr]
    · rfl
  unfold insert
  rw [hopen]
  dsimp only
  by_cases hkeep : (histogramPredicate heuristic c).keepEdge (cell f.cellMap (root o.key)) (o.score heuristic) = true
  · obtain ⟨queue, hput, hputs⟩ := put_puts H limits (h.rooted.indexed (root o.key)) o
    have hcleared := cleared_of_put h hputs
    have hown := cell_upsert f.cellMap (popCell heuristic (histogramPredicate heuristic c) queue.size queue
      (f.spanQueue.erase heuristic o.key).1).1 (root o.key) (root o.key)
    rw [if_pos rfl] at hown
    rw [if_pos hkeep, hput, Option.bind_some]
    generalize popCell heuristic (histogramPredicate heuristic c) queue.size queue (f.spanQueue.erase heuristic o.key).1 =
      popped at *
    have hindexed : popped.1.Indexed heuristic := hown ▸ hcleared.inv.rooted.indexed (root o.key)
    cases hlookup : PriorityTable.lookup o.key popped.1.ptable with
    | none =>
      -- It has been popped at once.
      refine ⟨_, _, rfl, rfl, hcleared.inv, hcleared.gains, fun k' hk' hgone => ?_⟩
      by_cases hne : k' = o.key
      · subst hne
        unfold Held
        rw [hown]
        intro hheld
        obtain ⟨eq, heq, hkey⟩ := mem_map.mp hheld
        rw [(lookup_iff hindexed).mpr ⟨heq, hkey⟩] at hlookup
        cases hlookup
      · exact hcleared.mirrored k' hne hk' hgone
    | some pe =>
      obtain ⟨hpe, hkey⟩ := (lookup_iff hindexed).mp hlookup
      dsimp only
      by_cases hspan : (histogramPredicate heuristic s).keepEdge popped.2 (o.score heuristic) = true
      · obtain ⟨spanQueue, hinsert, hperm, hindexed', -⟩ := insertEquiv_new H hcleared.inv.indexed pe
          fun eq heq heqKey => hcleared.absent (mem_map.mpr ⟨eq, heq, heqKey.trans hkey⟩)
        rw [if_pos hspan, hinsert]
        obtain ⟨hinv, hheld, hmirrored⟩ := Inv.popSpan (s := s) hcleared.inv.rooted hindexed' (fun eq heq => by
          rcases mem_cons.mp (hperm.mem_iff.mp heq) with rfl | heq
          · rw [hkey, hown]
            exact hpe
          · exact hcleared.inv.nested eq heq) hcleared.inv.cellSize
        have hclasses : ∀ k', k' ∈ spanQueue.classes ↔ k' = o.key ∨ k' ∈ popped.2.classes := by
          intro k'
          rw [EdgeQueue.classes, (hperm.map _).mem_iff, map_cons, mem_cons, hkey]
          rfl
        refine ⟨_, _, rfl, rfl, hinv, fun k' hne hk' => hcleared.gains k' hne (hheld k' hk'), fun k' hk' hgone => ?_⟩
        by_cases hin : k' ∈ spanQueue.classes
        · exact hmirrored k' hin hgone
        · rw [hclasses, not_or] at hin
          exact fun hk'' => hcleared.mirrored k' hin.1 hk' hin.2 (hheld k' hk'')
      · -- There would have been room for it, had it been in the span.
        rw [if_neg hspan]
        refine ⟨_, _, rfl, rfl, hcleared.inv, hcleared.gains, fun k' hk' hgone => ?_⟩
        by_cases hne : k' = o.key
        · subst hne
          exact absurd (Bool.or_eq_true_iff.mpr (.inl (decide_eq_true (hcleared.room hk')))) hspan
        · exact hcleared.mirrored k' hne hk' hgone
  · -- Only an empty cell may have come in.
    rw [if_neg hkeep]
    refine ⟨_, _, rfl, rfl, ⟨⟨nodup_keys_upsert _ h.rooted.keys, fun r => ?_, fun r => ?_⟩, h.indexed, fun eq heq => ?_,
      fun r => ?_, h.spanSize⟩, fun k' _ hk' => ?_, fun k' hk' hgone => absurd hk' hgone⟩
    · exact (hreplace r).symm ▸ h.rooted.indexed r
    · exact (hreplace r).symm ▸ h.rooted.root r
    · exact (hreplace (root eq.key)).symm ▸ h.nested eq heq
    · exact (hreplace r).symm ▸ h.cellSize r
    · unfold Held at hk' ⊢
      rwa [hreplace] at hk'

/-! ## Finalizing -/

theorem offerSpan_spec (hs : spanQueue.Indexed heuristic) (hsize : spanQueue.size ≤ s)
    (eq : EdgeEquiv K S C) :
    ∃ spanQueue', offerSpan H heuristic (histogramPredicate heuristic s) spanQueue eq = some spanQueue' ∧
      spanQueue'.Indexed heuristic ∧ spanQueue'.size ≤ s ∧
      ∀ k ∈ spanQueue'.classes, k ∈ spanQueue.classes ∨ k = eq.key := by
  unfold offerSpan
  cases hlookup : PriorityTable.lookup eq.key spanQueue.ptable with
  | some old => exact ⟨spanQueue, rfl, hs, hsize, fun _ hk => .inl hk⟩
  | none =>
    by_cases hkeep : (histogramPredicate heuristic s).keepEdge spanQueue (eq.score heuristic) = true
    · obtain ⟨spanQueue', hinsert, hperm, hindexed, -⟩ := insertEquiv_new H hs eq fun eq' heq' hkey => by
        rw [(lookup_iff hs).mpr ⟨heq', hkey⟩] at hlookup
        cases hlookup
      obtain ⟨htrimmed, hclasses, hsize'⟩ := trim_spec (s := s) spanQueue'.size hindexed le_rfl
      rw [if_pos hkeep, hinsert]
      refine ⟨_, rfl, htrimmed, hsize', fun k hk => ?_⟩
      have hmem := hclasses k hk
      rw [EdgeQueue.classes, (hperm.map _).mem_iff, map_cons, mem_cons] at hmem
      exact hmem.symm
    · rw [if_neg hkeep]
      exact ⟨spanQueue, rfl, hs, hsize, fun _ hk => .inl hk⟩

theorem offerAll_spec (eqs : List (EdgeEquiv K S C)) : ∀ {spanQueue : EdgeQueue K S C},
    spanQueue.Indexed heuristic → spanQueue.size ≤ s →
    ∃ spanQueue', eqs.foldlM (offerSpan H heuristic (histogramPredicate heuristic s)) spanQueue = some spanQueue' ∧
      spanQueue'.size ≤ s ∧ ∀ k ∈ spanQueue'.classes, k ∈ spanQueue.classes ∨ k ∈ eqs.map EdgeEquiv.key := by
  induction eqs with
  | nil => exact fun hs hsize => ⟨_, rfl, hsize, fun _ hk => .inl hk⟩
  | cons eq eqs ih =>
    intro spanQueue hs hsize
    obtain ⟨spanQueue1, hrun, hindexed, hsize1, hclasses⟩ := offerSpan_spec H hs hsize eq
    obtain ⟨spanQueue', hrun', hsize', hclasses'⟩ := ih hindexed hsize1
    refine ⟨spanQueue', ?_, hsize', fun k hk => ?_⟩
    · rw [foldlM_cons, hrun]
      exact hrun'
    · rcases hclasses' k hk with hk | hk
      · rcases hclasses k hk with hk | rfl
        · exact .inl hk
        · exact .inr mem_cons_self
      · exact .inr (mem_cons_of_mem _ hk)

omit [DecidableEq K] [LinearOrder S] in
theorem cell_of_mem (hkeys : (cellMap.map Prod.fst).Nodup) {p : R × EdgeQueue K S C} (hp : p ∈ cellMap) :
    cell cellMap p.1 = p.2 := by
  unfold cell
  rw [(find_eq_some_iff hkeys).mpr hp]
  rfl

/-- **Only what a cell holds is delivered.** -/
theorem finalize_spec (hopen : f.finalized = false) (h : Inv heuristic root c s f.cellMap f.spanQueue) :
    ∃ g, finalize H heuristic (histogramPredicate heuristic s) f = some g ∧ g.spanQueue.size ≤ s ∧
      ∀ k ∈ g.spanQueue.classes, Held root f.cellMap k := by
  obtain ⟨spanQueue, hrun, hsize, hclasses⟩ := offerAll_spec H (f.cellMap.flatMap fun p => p.2.ptable.heap) h.indexed h.spanSize
  refine ⟨{ f with spanQueue, finalized := true }, ?_, hsize, fun k hk => ?_⟩
  · unfold finalize
    rw [hopen, hrun]
    rfl
  · rcases hclasses k hk with hk | hk
    · obtain ⟨eq, heq, rfl⟩ := mem_map.mp hk
      exact mem_map_of_mem (h.nested eq heq)
    · obtain ⟨eq, heq, rfl⟩ := mem_map.mp hk
      obtain ⟨p, hp, heq⟩ := mem_flatMap.mp heq
      have hcell := cell_of_mem h.rooted.keys hp
      rw [← hcell] at heq
      unfold Held
      rw [h.rooted.root p.1 eq heq]
      exact mem_map_of_mem heq

/-! ## Runs -/

/-- What is promised after every insertion. -/
structure Consistent (root : K → R) (c s : Nat) (f : CellFilter R K S C) : Prop where
  nested : ∀ eq ∈ f.spanQueue.ptable.heap, ∃ queue, (root eq.key, queue) ∈ f.cellMap ∧ eq ∈ queue.ptable.heap
  distinct : (f.cellMap.flatMap fun p => p.2.classes).Nodup
  cellSize : ∀ p ∈ f.cellMap, p.2.size ≤ c
  spanSize : f.spanQueue.size ≤ s

/-- A class goes from its cell or from the span. -/
def Dropped (root : K → R) (f f' : CellFilter R K S C) (k : K) : Prop :=
  (Held root f.cellMap k ∧ ¬Held root f'.cellMap k) ∨ (k ∈ f.spanQueue.classes ∧ k ∉ f'.spanQueue.classes)

/-- What `top` and `pop` go through. -/
def delivered (f : CellFilter R K S C) : List K := f.spanQueue.classes

variable (heuristic root c s) in
theorem inv_empty :
    Inv heuristic root c s (empty : CellFilter R K S C).cellMap (empty : CellFilter R K S C).spanQueue :=
  ⟨⟨nodup_nil, fun _ => indexed_empty, fun _ _ heq => absurd heq not_mem_nil⟩, indexed_empty,
    fun _ heq => absurd heq not_mem_nil, fun _ => Nat.zero_le c, Nat.zero_le s⟩

theorem Inv.consistent (h : Inv heuristic root c s f.cellMap f.spanQueue) : Consistent root c s f := by
  refine ⟨fun eq heq => ?_, ?_, fun p hp => ?_, h.spanSize⟩
  · have hin := h.nested eq heq
    unfold cell at hin
    cases hfind : find (root eq.key) f.cellMap with
    | none =>
      rw [hfind] at hin
      exact absurd hin not_mem_nil
    | some queue =>
      rw [hfind] at hin
      exact ⟨queue, (find_eq_some_iff h.rooted.keys).mp hfind, hin⟩
  · rw [nodup_flatMap]
    refine ⟨fun p hp => ?_, ?_⟩
    · rw [← cell_of_mem h.rooted.keys hp]
      exact (h.rooted.indexed p.1).nodup
    · refine List.Pairwise.imp_of_mem (fun hp hp' hne => ?_) (pairwise_map.mp h.rooted.keys)
      intro k hk hk'
      obtain ⟨eq, heq, rfl⟩ := mem_map.mp hk
      obtain ⟨eq', heq', hkey⟩ := mem_map.mp hk'
      rw [← cell_of_mem h.rooted.keys hp] at heq
      rw [← cell_of_mem h.rooted.keys hp'] at heq'
      exact hne (by rw [← h.rooted.root _ eq heq, ← h.rooted.root _ eq' heq', hkey])
  · rw [← cell_of_mem h.rooted.keys hp]
    exact h.cellSize p.1

/-- What one insertion keeps, a run keeps. -/
theorem run_spec (limits : K → Limits) (os : List (Offer K S C)) : ∀ {f : CellFilter R K S C},
    f.finalized = false → Inv heuristic root c s f.cellMap f.spanQueue →
    ∃ f', os.foldlM (fun f o => (insert H limits heuristic root (histogramPredicate heuristic c)
        (histogramPredicate heuristic s) f o).map Prod.fst) f = some f' ∧ f'.finalized = false ∧
      Inv heuristic root c s f'.cellMap f'.spanQueue ∧
      ∀ k, (∀ o ∈ os, o.key ≠ k) → Held root f'.cellMap k → Held root f.cellMap k := by
  induction os with
  | nil => exact fun hopen h => ⟨_, rfl, hopen, h, fun _ _ hk => hk⟩
  | cons o os ih =>
    intro f hopen h
    obtain ⟨f1, kept, hinsert, hopen1, h1, hstep⟩ := insert_spec H limits hopen h o
    obtain ⟨f', hrun, hopen', h', hheld⟩ := ih hopen1 h1
    refine ⟨f', ?_, hopen', h', fun k hk hin => ?_⟩
    · rw [foldlM_cons, hinsert]
      exact hrun
    · exact hstep.gains k (hk o mem_cons_self).symm (hheld k (fun o' ho' => hk o' (mem_cons_of_mem _ ho')) hin)

/-- **After every insertion each class of the span is in its own cell, the classes of the cells are distinct, and no queue is
over its limit; and what was dropped from a queue, and not offered again, is not delivered.** -/
theorem insertAll_consistent (H : HeapAlg) (limits : K → Limits) (heuristic : K → S) (root : K → R) (c s : Nat)
    (os : List (Offer K S C)) :
    let insert := insert H limits heuristic root (histogramPredicate heuristic c) (histogramPredicate heuristic s)
    let insertAll := insertAll H limits heuristic root (histogramPredicate heuristic c) (histogramPredicate heuristic s)
    ∃ f g, insertAll os = some f ∧ Consistent root c s f ∧ finalize H heuristic (histogramPredicate heuristic s) f = some g ∧
      ∀ os1 o os2 f1 f2 kept, os = os1 ++ o :: os2 → insertAll os1 = some f1 → insert f1 o = some (f2, kept) →
        ∀ k, Dropped root f1 f2 k → (∀ o' ∈ os2, o'.key ≠ k) → k ∉ g.delivered := by
  obtain ⟨f, hrun, hopen, h, -⟩ := run_spec H limits (c := c) (s := s) os rfl (inv_empty heuristic root c s)
  obtain ⟨g, hfinal, -, hdelivered⟩ := finalize_spec H hopen h
  refine ⟨f, g, hrun, h.consistent, hfinal, ?_⟩
  rintro os1 o os2 f1 f2 kept rfl hrun1 hinsert k hdropped hlater hk
  obtain ⟨f1', hrun1', hopen1, h1, -⟩ := run_spec H limits (c := c) (s := s) os1 rfl (inv_empty heuristic root c s)
  obtain rfl : f1' = f1 := Option.mem_unique hrun1' hrun1
  obtain ⟨f2', kept', hinsert', hopen2, h2, hstep⟩ := insert_spec H limits hopen1 h1 o
  obtain ⟨rfl, -⟩ := Prod.mk.inj (Option.mem_unique hinsert' hinsert)
  obtain ⟨f', hrun2, -, -, hheld⟩ := run_spec H limits (c := c) (s := s) os2 hopen2 h2
  have hall : insertAll H limits heuristic root (histogramPredicate heuristic c) (histogramPredicate heuristic s)
      (os1 ++ o :: os2) = some f' := by
    unfold insertAll
    rw [foldlM_append, hrun1', Option.bind_eq_bind, Option.bind_some, foldlM_cons, hinsert']
    exact hrun2
  obtain rfl : f' = f := Option.mem_unique hall hrun
  have hnot : ¬Held root f2'.cellMap k := by
    rcases hdropped with ⟨-, hnot⟩ | ⟨hin, hout⟩
    · exact hnot
    · exact hstep.mirrored k hin hout
  exact hnot (hheld k hlater (hdelivered k hk))

end

end CellFilter

end

end Sbmt.Search.EdgeFilter
