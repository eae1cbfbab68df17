import Sbmt.Gusc.Product
import Sbmt.Lib.Machine
/-!
# Sorted cubes (`sbmt_decoder/include/sbmt/search/sorted_cube.hpp`)

The rules and the edges to the left and right of a split make a cube, each side sorted best first.

| here | there |
| --- | --- |
| `SortedCube`, `Item` | `sorted_cube`, its `item` (`sorted_cube.hpp:17-96`); an iterator is the number of steps from its `begin`, the parent the cube's place in `sorted_cube_list` |
| `hasSuccessor`, `successor` | `has_successor`, `successor` (`:110-182`), built with `SBMT_CUBE_HEAP_REDUNDANT_PATHS` 1; the directions 1, 2, 3 are `0, 1, 2 : Fin 3` |
| `pushPrePost` | `push_pre_post` (`impl/cube_heap_span_filter.ipp:40-61`); `rejected` is what `items_seen` turned away |
| `start`, `pop` | the loops of `finalize` (`:196-234`), for a queue that hands out whatever it likes |
| `CubeHeap`, `finalize`| the same with the `std::priority_queue` it has, `fuzzyFilter` the filter that ends it (`:168-251`) |

`create_edge` is a function of what an item points at, so of the item.
-/

namespace Sbmt.Search

open Sbmt.Lib Sbmt.Gusc List

variable {A B C : Type}

structure SortedCube (A B C : Type) where
  xs : List A
  ys : List B
  zs : List C

/-- An item of one of `n` cubes. -/
structure Item (n : Nat) where
  parent : Fin n
  xitr : Nat
  yitr : Nat
  zitr : Nat
deriving DecidableEq

namespace SortedCube

variable (cube : SortedCube A B C)

def empty : Bool := cube.xs.isEmpty || cube.ys.isEmpty || cube.zs.isEmpty

def size : Nat := cube.xs.length * cube.ys.length * cube.zs.length

/-- The three lengths. -/
def len : Pos 3 := ![cube.xs.length, cube.ys.length, cube.zs.length]

def corner {n : Nat} (k : Fin n) : Item n := ⟨k, 0, 0, 0⟩

end SortedCube

namespace Item

variable {n : Nat}

def pos (item : Item n) : Pos 3 := ![item.xitr, item.yitr, item.zitr]

def successor (item : Item n) : Fin 3 → Item n
  | 0 => { item with xitr := item.xitr + 1 }
  | 1 => { item with yitr := item.yitr + 1 }
  | 2 => { item with zitr := item.zitr + 1 }

/-- In the second direction only from the first `x`, in the third only from the first `x` and `y`. -/
def hasSuccessor (cube : SortedCube A B C) (item : Item n) : Fin 3 → Bool
  | 0 =>
    if item.xitr = cube.xs.length then false
    else decide (item.xitr + 1 ≠ cube.xs.length)
  | 1 =>
    if item.xitr ≠ 0 then false
    else if item.yitr = cube.ys.length then false
    else decide (item.yitr + 1 ≠ cube.ys.length)
  | 2 =>
    if item.xitr ≠ 0 then false
    else if item.yitr ≠ 0 then false
    else if item.zitr = cube.zs.length then false
    else decide (item.zitr + 1 ≠ cube.zs.length)

end Item

/-- The queue in no order, what has been seen, what has been turned away, and what has been popped. -/
structure Explored (n : Nat) where
  waiting : List (Item n)
  itemsSeen : List (Item n)
  rejected : List (Item n)
  popped : List (Item n)

namespace Explored

variable {n : Nat}

def pushPrePost (s : Explored n) (pre : Item n) : Explored n :=
  if pre ∈ s.itemsSeen then { s with rejected := pre :: s.rejected }
  else { s with waiting := pre :: s.waiting, itemsSeen := pre :: s.itemsSeen }

variable (cubes : List (SortedCube A B C))

/-- The items that are pushed when `item` is popped. -/
def successors (item : Item cubes.length) : List (Item cubes.length) :=
  ((finRange 3).filter (item.hasSuccessor (cubes.get item.parent))).map item.successor

/-- The items that are pushed first: the corners of the cubes that are not empty. -/
def corners : List (Item cubes.length) :=
  ((finRange cubes.length).filter fun k => !(cubes.get k).empty).map SortedCube.corner

def start : Explored cubes.length := (corners cubes).foldl pushPrePost ⟨[], [], [], []⟩

/-- The queue hands out `item`. -/
def pop (s : Explored cubes.length) (item : Item cubes.length) : Option (Explored cubes.length) :=
  if item ∈ s.waiting then
    some ((successors cubes item).foldl pushPrePost
      { s with waiting := s.waiting.erase item, popped := s.popped ++ [item] })
  else none

end Explored

/-! ## The queue of `cube_heap_span_filter` -/

section

variable {E F : Type} (H : HeapAlg) (lt : E → E → Bool)

/-- `pq`, `items_seen` and the filter; the log is what `items_seen` has turned away. -/
structure CubeHeap (n : Nat) (E F : Type) where
  pq : List (Item n × E)
  itemsSeen : List (Item n)
  rejected : List (Item n)
  filter : F

/-- `post_score_compare`. -/
def postScoreCompare {n : Nat} (p1 p2 : Item n × E) : Bool := lt p1.2 p2.2

namespace CubeHeap

variable {n : Nat} (createEdge : Item n → E)

def pushPrePost (s : CubeHeap n E F) (pre : Item n) : CubeHeap n E F :=
  if pre ∈ s.itemsSeen then { s with rejected := pre :: s.rejected }
  else { s with pq := H.push (postScoreCompare lt) (pre, createEdge pre) s.pq, itemsSeen := pre :: s.itemsSeen }

end CubeHeap

variable (cubes : List (SortedCube A B C)) (createEdge : Item cubes.length → E) (insert : F → E → F × Option Bool)

/-- The main loop; `none` is the filter's "indeterminate". -/
def CubeHeap.explore : Nat → CubeHeap cubes.length E F → CubeHeap cubes.length E F
  | 0, s => s
  | fuel + 1, s =>
    match s.pq with
    | [] => s
    | top :: _ =>
      let (filter, addEdge) := insert s.filter top.2
      if addEdge = some false then { s with filter }
      else
        CubeHeap.explore fuel ((Explored.successors cubes top.1).foldl (CubeHeap.pushPrePost H lt createEdge)
          { s with pq := H.pop (postScoreCompare lt) s.pq, filter })

/-- The queue begins with the corners; no cube has more items than it is large. -/
def CubeHeap.finalize (fuzzyFilter : F) : CubeHeap cubes.length E F :=
  CubeHeap.explore H lt cubes createEdge insert ((cubes.map SortedCube.size).sum + 1)
    ((Explored.corners cubes).foldl (CubeHeap.pushPrePost H lt createEdge) ⟨[], [], [], fuzzyFilter⟩)

end

/-! ## One way to every item -/

namespace Item

variable {n : Nat}

/-- The item from which an item is reached. -/
def before (item : Item n) : Finset (Item n) :=
  if item.xitr ≠ 0 then {{ item with xitr := item.xitr - 1 }}
  else if item.yitr ≠ 0 then {{ item with yitr := item.yitr - 1 }}
  else if item.zitr ≠ 0 then {{ item with zitr := item.zitr - 1 }}
  else ∅

/-- The item points into the cube. -/
def Inside (cube : SortedCube A B C) (item : Item n) : Prop :=
  item.xitr < cube.xs.length ∧ item.yitr < cube.ys.length ∧ item.zitr < cube.zs.length

instance (cube : SortedCube A B C) (item : Item n) : Decidable (item.Inside cube) := inferInstanceAs (Decidable (_ ∧ _))

theorem before_eq_empty {item : Item n} : item.before = ∅ ↔ item = SortedCube.corner item.parent := by
  obtain ⟨k, x, y, z⟩ := item
  unfold before SortedCube.corner
  split_ifs with hx hy hz
  · simp [hx]
  · simp [hy]
  · simp [hz]
  · simp_all

theorem rank_before {p q : Item n} (hq : q ∈ p.before) : q.xitr + q.yitr + q.zitr < p.xitr + p.yitr + p.zitr := by
  unfold before at hq
  split_ifs at hq with hx hy hz
  · cases Finset.mem_singleton.mp hq
    dsimp only
    omega
  · cases Finset.mem_singleton.mp hq
    dsimp only
    omega
  · cases Finset.mem_singleton.mp hq
    dsimp only
    omega
  · cases hq

theorem before_subset {p q : Item n} (hq : q ∈ p.before) : p.before = {q} := by
  unfold before at hq ⊢
  split_ifs at hq ⊢ with hx hy hz
  · rw [Finset.mem_singleton.mp hq]
  · rw [Finset.mem_singleton.mp hq]
  · rw [Finset.mem_singleton.mp hq]
  · cases hq

theorem before_inside {cube : SortedCube A B C} {p q : Item n} (hp : p.Inside cube) (hq : q ∈ p.before) :
    q.Inside cube ∧ q.parent = p.parent := by
  obtain ⟨hx, hy, hz⟩ := hp
  unfold before at hq
  split_ifs at hq
  · cases Finset.mem_singleton.mp hq
    exact ⟨⟨by dsimp only; omega, hy, hz⟩, rfl⟩
  · cases Finset.mem_singleton.mp hq
    exact ⟨⟨hx, by dsimp only; omega, hz⟩, rfl⟩
  · cases Finset.mem_singleton.mp hq
    exact ⟨⟨hx, hy, by dsimp only; omega⟩, rfl⟩
  · cases hq

/-- **The successors of an item are the items that are reached from it.** -/
theorem exists_successor {cube : SortedCube A B C} {item q : Item n} (hitem : item.Inside cube) :
    (∃ xyz, item.hasSuccessor cube xyz = true ∧ item.successor xyz = q) ↔ q.Inside cube ∧ item ∈ q.before := by
  obtain ⟨k, x, y, z⟩ := item
  obtain ⟨hx, hy, hz⟩ := hitem
  simp only at hx hy hz
  constructor
  · rintro ⟨xyz, hhas, rfl⟩
    fin_cases xyz
    · simp only [hasSuccessor] at hhas
      split_ifs at hhas with hend
      have hin := of_decide_eq_true hhas
      exact ⟨⟨by simp only [successor]; omega, hy, hz⟩, by simp [before, successor]⟩
    · simp only [hasSuccessor] at hhas
      split_ifs at hhas with hx0 hend
      have hin := of_decide_eq_true hhas
      exact ⟨⟨hx, by simp only [successor]; omega, hz⟩, by simp [before, successor, hx0]⟩
    · simp only [hasSuccessor] at hhas
      split_ifs at hhas with hx0 hy0 hend
      have hin := of_decide_eq_true hhas
      exact ⟨⟨hx, hy, by simp only [successor]; omega⟩, by simp [before, successor, hx0, hy0]⟩
  · rintro ⟨⟨hqx, hqy, hqz⟩, hbefore⟩
    obtain ⟨k', x', y', z'⟩ := q
    simp only at hqx hqy hqz
    unfold before at hbefore
    split_ifs at hbefore with hx0 hy0 hz0
    · -- from the item before in the first direction
      cases Finset.mem_singleton.mp hbefore
      simp only at hx0
      refine ⟨0, ?_, ?_⟩
      · simp only [hasSuccessor]
        rw [if_neg (by omega), decide_eq_true_eq]
        omega
      · simp only [successor, mk.injEq, and_true, true_and]
        omega
    · cases Finset.mem_singleton.mp hbefore
      simp only [not_not] at hx0 hy0
      refine ⟨1, ?_, ?_⟩
      · simp only [hasSuccessor]
        rw [if_neg (not_not.mpr hx0), if_neg (by omega), decide_eq_true_eq]
        omega
      · simp only [successor, mk.injEq, and_true, true_and]
        omega
    · cases Finset.mem_singleton.mp hbefore
      simp only [not_not] at hx0 hy0 hz0
      refine ⟨2, ?_, ?_⟩
      · simp only [hasSuccessor]
        rw [if_neg (not_not.mpr hx0), if_neg (not_not.mpr hy0), if_neg (by omega), decide_eq_true_eq]
        omega
      · simp only [successor, mk.injEq, true_and]
        omega
    · cases hbefore

theorem successor_injective (item : Item n) : Function.Injective item.successor := by
  intro d e h
  fin_cases d <;> fin_cases e <;> simp_all [successor]

end Item

section

variable (cubes : List (SortedCube A B C))

/-- All items of all cubes. -/
def items : Finset (Item cubes.length) :=
  Finset.univ.biUnion fun k =>
    (Finset.range (cubes.get k).xs.length ×ˢ Finset.range (cubes.get k).ys.length ×ˢ
      Finset.range (cubes.get k).zs.length).image fun xyz => ⟨k, xyz.1, xyz.2.1, xyz.2.2⟩

variable {cubes}

theorem mem_items {item : Item cubes.length} : item ∈ items cubes ↔ item.Inside (cubes.get item.parent) := by
  obtain ⟨k, x, y, z⟩ := item
  simp only [items, Finset.mem_biUnion, Finset.mem_univ, true_and, Finset.mem_image, Finset.mem_product, Finset.mem_range,
    Item.mk.injEq, Prod.exists, Item.Inside]
  constructor
  · rintro ⟨k', x', y', z', hin, rfl, rfl, rfl, rfl⟩
    exact hin
  · intro hin
    exact ⟨k, x, y, z, hin, rfl, rfl, rfl, rfl⟩

theorem mem_successors {item q : Item cubes.length} (hitem : item ∈ items cubes) :
    q ∈ Explored.successors cubes item ↔ q ∈ items cubes ∧ item ∈ q.before := by
  have hiff := Item.exists_successor (q := q) (mem_items.mp hitem)
  rw [Explored.successors, mem_map]
  simp only [mem_filter, mem_finRange, true_and]
  rw [hiff, mem_items]
  constructor
  · rintro ⟨hin, hq⟩
    have hparent := (Item.before_inside hin hq).2
    exact ⟨hparent ▸ hin, hq⟩
  · rintro ⟨hin, hq⟩
    have hparent := (Item.before_inside hin hq).2
    exact ⟨hparent.symm ▸ hin, hq⟩

theorem mem_corners {item : Item cubes.length} : item ∈ Explored.corners cubes ↔ item ∈ items cubes ∧ item.before = ∅ := by
  rw [Item.before_eq_empty, mem_items]
  simp only [Explored.corners, mem_map, mem_filter, mem_finRange, true_and]
  have hempty : ∀ k, (!(cubes.get k).empty) = true ↔ (SortedCube.corner k).Inside (cubes.get k) := by
    simp [SortedCube.empty, Item.Inside, SortedCube.corner, length_pos_iff, and_assoc]
  constructor
  · rintro ⟨k, hk, rfl⟩
    exact ⟨(hempty k).mp hk, rfl⟩
  · rintro ⟨hin, hcorner⟩
    exact ⟨item.parent, (hempty _).mpr (hcorner ▸ hin), hcorner.symm⟩

end

/-! ## Whatever the queue hands out -/

namespace Explored

variable {n : Nat} {cubes : List (SortedCube A B C)} {s s' : Explored cubes.length} {item : Item cubes.length}

/-- Pushing what has not been seen. -/
theorem foldl_pushPrePost : ∀ {pres : List (Item n)} {s : Explored n}, pres.Nodup → (∀ pre ∈ pres, pre ∉ s.itemsSeen) →
    pres.foldl pushPrePost s =
      { s with waiting := pres.reverse ++ s.waiting, itemsSeen := pres.reverse ++ s.itemsSeen }
  | [], _, _, _ => rfl
  | pre :: pres, s, hnodup, hnew => by
    obtain ⟨hpre, hpres⟩ := nodup_cons.mp hnodup
    have hpush : pushPrePost s pre = { s with waiting := pre :: s.waiting, itemsSeen := pre :: s.itemsSeen } :=
      if_neg (hnew pre mem_cons_self)
    rw [foldl_cons, hpush, foldl_pushPrePost hpres]
    · simp
    · intro q hq hseen
      rcases mem_cons.mp hseen with rfl | hseen
      · exact hpre hq
      · exact hnew q (mem_cons_of_mem pre hq) hseen

/-- The state between the pops: what waits is what can be reached from what has been popped. -/
structure Inv (s : Explored cubes.length) : Prop where
  frontier : Frontier (items cubes) Item.before s.popped.toFinset s.waiting
  seen : s.itemsSeen.Perm (s.popped ++ s.waiting)
  popped : s.popped.Nodup
  rejected : s.rejected = []

theorem nodup_corners : (corners cubes).Nodup :=
  ((nodup_finRange _).filter _).map fun _ _ h => congrArg Item.parent h

theorem start_eq : start cubes = ⟨(corners cubes).reverse, (corners cubes).reverse, [], []⟩ := by
  rw [start, foldl_pushPrePost nodup_corners fun _ _ => not_mem_nil]
  simp

theorem start_inv : Inv (start cubes) := by
  rw [start_eq]
  refine ⟨Frontier.start (nodup_reverse.mpr nodup_corners) fun p => ?_, .refl _, nodup_nil, rfl⟩
  rw [mem_reverse, mem_corners]

theorem Inv.covers (h : Inv s) : Covers (items cubes) Item.before s.popped.toFinset s.waiting := by
  refine h.frontier.covers fun p hp q hq => ?_
  obtain ⟨hin, hparent⟩ := Item.before_inside (mem_items.mp hp) hq
  exact mem_items.mpr (hparent.symm ▸ hin)

/-- **A pop pushes what has never been pushed.** -/
theorem pop_inv (h : Inv s) (hpop : pop cubes s item = some s') :
    Inv s' ∧ s'.popped = s.popped ++ [item] := by
  unfold pop at hpop
  split_ifs at hpop with hmem
  obtain ⟨hitem, hnew⟩ := h.covers.fresh item hmem
  have hwaiting : s.waiting.Perm (item :: s.waiting.erase item) := perm_cons_erase hmem
  have hself : item ∉ item.before := fun hq => absurd (Item.rank_before hq) (lt_irrefl _)
  have hnodup : (successors cubes item).Nodup :=
    (((nodup_finRange 3).filter _).map item.successor_injective)
  have hvisit : Frontier (items cubes) Item.before (insert item s.popped.toFinset)
      (successors cubes item ++ s.waiting.erase item) := by
    refine (h.frontier.perm hwaiting.symm).visit hself hnodup fun p => ?_
    rw [mem_successors hitem]
    refine and_congr_right fun _ => ⟨fun hp => ⟨hp, ?_⟩, And.left⟩
    rw [Item.before_subset hp]
    exact Finset.singleton_subset_iff.mpr (Finset.mem_insert_self _ _)
  have hfresh : ∀ pre ∈ successors cubes item, pre ∉ s.itemsSeen := by
    -- the one item before it is popped only now
    intro pre hpre hseen
    have hbefore := ((mem_successors hitem).mp hpre).2
    rcases mem_append.mp (h.seen.mem_iff.mp hseen) with hpopped | hwait
    · exact hnew (h.frontier.closed pre (mem_toFinset.mpr hpopped) hbefore)
    · exact hnew (((h.frontier.mem pre).mp hwait).2.2 hbefore)
  have hpush := foldl_pushPrePost (s := { s with waiting := s.waiting.erase item, popped := s.popped ++ [item] })
    hnodup hfresh
  rw [hpush] at hpop
  cases hpop
  have hperm : ((successors cubes item).reverse ++ s.waiting.erase item).Perm
      (successors cubes item ++ s.waiting.erase item) := (reverse_perm _).append_right _
  refine ⟨⟨?_, ?_, ?_, h.rejected⟩, rfl⟩
  · have hset : (s.popped ++ [item]).toFinset = insert item s.popped.toFinset := by
      simp
    rw [hset]
    exact hvisit.perm hperm
  · have hseen : s.itemsSeen.Perm (s.popped ++ [item] ++ s.waiting.erase item) := by
      rw [append_assoc]
      exact h.seen.trans (hwaiting.append_left _)
    refine (hseen.append_left _).trans ?_
    exact perm_append_comm_assoc _ _ _
  · refine Nodup.append h.popped (nodup_singleton item) fun q hq hq' => ?_
    rw [mem_singleton.mp hq'] at hq
    exact hnew (mem_toFinset.mpr hq)

theorem run_inv : ∀ {schedule : List (Item cubes.length)} {s s' : Explored cubes.length}, Inv s →
    Machine.run (pop cubes) schedule s = some s' → Inv s' ∧ s'.popped = s.popped ++ schedule
  | [], s, s', h, hrun => by
    cases hrun
    exact ⟨h, (append_nil _).symm⟩
  | item :: schedule, s, s', h, hrun => by
    obtain ⟨s1, hpop, hrun⟩ := Option.bind_eq_some_iff.mp hrun
    obtain ⟨h1, hpopped⟩ := pop_inv h hpop
    obtain ⟨h', hpopped'⟩ := run_inv h1 hrun
    refine ⟨h', ?_⟩
    rw [hpopped', hpopped, append_assoc]
    rfl

/-- Nothing has been pushed twice. -/
theorem Inv.nodup_seen (h : Inv s) : s.itemsSeen.Nodup := by
  rw [h.seen.nodup_iff]
  refine Nodup.append h.popped h.frontier.nodup fun q hq hq' => ?_
  exact ((h.frontier.mem q).mp hq').2.1 (mem_toFinset.mpr hq)

theorem Inv.popped_items (h : Inv s) : s.popped.toFinset ⊆ items cubes := h.frontier.visited

/-- With nothing left in the queue every item has been popped. -/
theorem Inv.done (h : Inv s) (hwaiting : s.waiting = []) : ∀ item, item ∈ s.popped ↔ item ∈ items cubes := by
  intro item
  constructor
  · exact fun hitem => h.popped_items (mem_toFinset.mpr hitem)
  · intro hitem
    by_contra hnot
    have hrank : ∀ p : Item cubes.length, ∀ q ∈ p.before, q.xitr + q.yitr + q.zitr < p.xitr + p.yitr + p.zitr :=
      fun p q hq => Item.rank_before hq
    have hvalue : ∀ p ∈ items cubes, ∀ q ∈ p.before, (fun _ => 0 : Item cubes.length → Nat) p ≤ (fun _ => 0) q :=
      fun _ _ _ _ => Nat.le_refl 0
    obtain ⟨q, hq, -⟩ := h.covers.exists_best hrank hvalue item hitem fun hmem => hnot (mem_toFinset.mp hmem)
    rw [hwaiting] at hq
    cases hq

end Explored

section

variable {cubes : List (SortedCube A B C)}

theorem card_items : (items cubes).card ≤ (cubes.map SortedCube.size).sum := by
  have hside : ∀ k : Fin cubes.length, ((Finset.range (cubes.get k).xs.length ×ˢ Finset.range (cubes.get k).ys.length ×ˢ
      Finset.range (cubes.get k).zs.length).image fun xyz =>
        (⟨k, xyz.1, xyz.2.1, xyz.2.2⟩ : Item cubes.length)).card ≤ (cubes.get k).size := by
    intro k
    refine Finset.card_image_le.trans (le_of_eq ?_)
    simp [SortedCube.size, mul_assoc]
  calc (items cubes).card
      ≤ ∑ k : Fin cubes.length, (cubes.get k).size := Finset.card_biUnion_le.trans (Finset.sum_le_sum fun k _ => hside k)
    _ = (cubes.map SortedCube.size).sum := by
        rw [← sum_ofFn]
        conv_rhs => rw [← ofFn_get cubes, map_ofFn]
        rfl

theorem mem_box_len {cube : SortedCube A B C} {n : Nat} {item : Item n} : item.pos ∈ box cube.len ↔ item.Inside cube := by
  rw [mem_box, inside, decide_eq_true_eq, Fin.forall_fin_succ, Fin.forall_fin_two]
  rfl

/-- What has been popped of a cube is what `product_heap_generator` yields. -/
theorem perm_productHeap {popped : List (Item cubes.length)} (hnodup : popped.Nodup)
    (hall : ∀ item, item ∈ popped ↔ item ∈ items cubes) (k : Fin cubes.length) {G : Type} (H : HeapAlg) (lt : G → G → Bool)
    (product : Pos 3 → G) :
    ((popped.filter fun item => item.parent = k).map fun item => product item.pos).Perm
      (productHeap H lt product (cubes.get k).len) := by
  obtain ⟨order, horder, hmem, hrun⟩ := productHeap_complete H lt product (cubes.get k).len
  rw [hrun, show (fun item : Item cubes.length => product item.pos) = product ∘ Item.pos from rfl, ← map_map]
  refine Perm.map product ?_
  rw [perm_ext_iff_of_nodup _ horder]
  · intro p
    rw [hmem, mem_map]
    constructor
    · rintro ⟨item, hitem, rfl⟩
      obtain ⟨hitem, hparent⟩ := mem_filter.mp hitem
      have hin := mem_items.mp ((hall item).mp hitem)
      rw [of_decide_eq_true hparent] at hin
      exact mem_box_len.mpr hin
    · intro hp
      have hpos : (⟨k, p 0, p 1, p 2⟩ : Item cubes.length).pos = p := by
        funext i
        fin_cases i <;> rfl
      refine ⟨⟨k, p 0, p 1, p 2⟩, mem_filter.mpr ⟨(hall _).mpr (mem_items.mpr ?_), by simp⟩, hpos⟩
      exact mem_box_len.mp (by rwa [hpos])
  · refine (hnodup.filter _).map_on fun p hp q hq hpq => ?_
    have hparent : p.parent = q.parent :=
      (of_decide_eq_true (mem_filter.mp hp).2).trans (of_decide_eq_true (mem_filter.mp hq).2).symm
    obtain ⟨_, x, y, z⟩ := p
    obtain ⟨_, x', y', z'⟩ := q
    have hx : x = x' := congrFun hpq 0
    have hy : y = y' := congrFun hpq 1
    have hz : z = z' := congrFun hpq 2
    subst hparent hx hy hz
    rfl

end

/-! ## The queue it has -/

namespace CubeHeap

variable {E F : Type} {n : Nat} {H : HeapAlg} {lt : E → E → Bool}

/-- The order of the queue forgotten. -/
structure Forgets (hs : CubeHeap n E F) (s : Explored n) : Prop where
  pq : (hs.pq.map Prod.fst).Perm s.waiting
  itemsSeen : hs.itemsSeen = s.itemsSeen
  rejected : hs.rejected = s.rejected

theorem pushPrePost_forgets {createEdge : Item n → E} {hs : CubeHeap n E F} {s : Explored n} (h : hs.Forgets s) (pre : Item n) :
    (hs.pushPrePost H lt createEdge pre).Forgets (s.pushPrePost pre) := by
  unfold pushPrePost Explored.pushPrePost
  rw [h.itemsSeen]
  split_ifs
  · exact ⟨h.pq, rfl, by rw [h.rejected]⟩
  · exact ⟨((H.push_perm _ _ _).map Prod.fst).trans (h.pq.cons pre), rfl, h.rejected⟩

theorem foldl_forgets {createEdge : Item n → E} : ∀ (pres : List (Item n)) {hs : CubeHeap n E F} {s : Explored n},
    hs.Forgets s → (pres.foldl (pushPrePost H lt createEdge) hs).Forgets (pres.foldl Explored.pushPrePost s)
  | [], _, _, h => h
  | pre :: pres, _, _, h => foldl_forgets pres (pushPrePost_forgets h pre)

variable {cubes : List (SortedCube A B C)} {createEdge : Item cubes.length → E} {insert : F → E → F × Option Bool}

/-- **The loop of the filter is one of the runs**; if the filter does not end it, it ends with an empty queue. -/
theorem explore_run : ∀ {fuel : Nat} {hs : CubeHeap cubes.length E F} {s : Explored cubes.length}, s.Inv → hs.Forgets s →
    (items cubes).card < fuel + s.popped.length →
    ∃ schedule s', Machine.run (Explored.pop cubes) schedule s = some s' ∧
      (explore H lt cubes createEdge insert fuel hs).Forgets s' ∧
      ((∀ f e, (insert f e).2 ≠ some false) → (explore H lt cubes createEdge insert fuel hs).pq = [])
  | 0, hs, s, hinv, _, hfuel => by
    have hle := Finset.card_le_card hinv.popped_items
    rw [toFinset_card_of_nodup hinv.popped] at hle
    omega
  | fuel + 1, hs, s, hinv, hsame, hfuel => by
    unfold explore
    cases hpq : hs.pq with
    | nil => exact ⟨[], s, rfl, hsame, fun _ => hpq⟩
    | cons top pq =>
      dsimp only
      by_cases hadd : (insert hs.filter top.2).2 = some false
      · rw [if_pos hadd]
        exact ⟨[], s, rfl, ⟨hpq ▸ hsame.pq, hsame.itemsSeen, hsame.rejected⟩, fun hnever => absurd hadd (hnever _ _)⟩
      · rw [if_neg hadd]
        have hwaiting : (top.1 :: pq.map Prod.fst).Perm s.waiting := by
          have := hsame.pq
          rwa [hpq] at this
        have hmem : top.1 ∈ s.waiting := hwaiting.mem_iff.mp mem_cons_self
        obtain ⟨s1, hs1⟩ : ∃ s1, Explored.pop cubes s top.1 = some s1 := by
          unfold Explored.pop
          rw [if_pos hmem]
          exact ⟨_, rfl⟩
        obtain ⟨hinv1, hpopped1⟩ := Explored.pop_inv hinv hs1
        have hsame1 : ((Explored.successors cubes top.1).foldl (pushPrePost H lt createEdge)
            { hs with pq := H.pop (postScoreCompare lt) (top :: pq), filter := (insert hs.filter top.2).1 }).Forgets s1 := by
          have hrest : (pq.map Prod.fst).Perm (s.waiting.erase top.1) :=
            (hwaiting.trans (perm_cons_erase hmem)).cons_inv
          unfold Explored.pop at hs1
          rw [if_pos hmem] at hs1
          cases hs1
          exact foldl_forgets _ ⟨((H.pop_perm _ _ _).map Prod.fst).trans hrest, hsame.itemsSeen, hsame.rejected⟩
        have hlen : s1.popped.length = s.popped.length + 1 := by rw [hpopped1, length_append, length_singleton]
        have hfuel1 : (items cubes).card < fuel + s1.popped.length := by omega
        obtain ⟨schedule, s', hrun, hsame', hend⟩ := explore_run hinv1 hsame1 hfuel1
        exact ⟨top.1 :: schedule, s', by rw [Machine.run, hs1, Option.bind_some, hrun], hsame', hend⟩

variable (H lt createEdge insert) in
theorem finalize_run (fuzzyFilter : F) :
    ∃ schedule s, Machine.run (Explored.pop cubes) schedule (Explored.start cubes) = some s ∧
      (finalize H lt cubes createEdge insert fuzzyFilter).Forgets s ∧
      ((∀ f e, (insert f e).2 ≠ some false) → (finalize H lt cubes createEdge insert fuzzyFilter).pq = []) := by
  refine explore_run Explored.start_inv (foldl_forgets _ ⟨.refl _, rfl, rfl⟩) ?_
  have hcard : (items cubes).card ≤ (cubes.map SortedCube.size).sum := card_items
  omega

end CubeHeap

/-- **Every item of every cube is pushed exactly once, in whatever order the items are popped**: `items_seen` turns nothing
away, an emptied queue has handed out all that `product_heap_generator` yields, and the queue of the span filter is no
exception. -/
theorem sortedCube_exactly_once (cubes : List (SortedCube A B C)) :
    (∀ schedule s, Machine.run (Explored.pop cubes) schedule (Explored.start cubes) = some s →
      s.rejected = [] ∧ s.itemsSeen.Nodup ∧ (∀ item ∈ s.itemsSeen, item ∈ items cubes) ∧
      (s.waiting = [] → (∀ item, item ∈ s.itemsSeen ↔ item ∈ items cubes) ∧
        ∀ (k : Fin cubes.length) (G : Type) (H : HeapAlg) (lt : G → G → Bool) (product : Pos 3 → G),
          ((schedule.filter fun item => item.parent = k).map fun item => product item.pos).Perm
            (productHeap H lt product (cubes.get k).len))) ∧
    ∀ (E F : Type) (H : HeapAlg) (lt : E → E → Bool) (createEdge : Item cubes.length → E)
      (insert : F → E → F × Option Bool) (fuzzyFilter : F),
      (CubeHeap.finalize H lt cubes createEdge insert fuzzyFilter).rejected = [] ∧
      (CubeHeap.finalize H lt cubes createEdge insert fuzzyFilter).itemsSeen.Nodup ∧
      ((∀ f e, (insert f e).2 ≠ some false) →
        ∀ item, item ∈ (CubeHeap.finalize H lt cubes createEdge insert fuzzyFilter).itemsSeen ↔ item ∈ items cubes) := by
  have hseen : ∀ {s : Explored cubes.length}, s.Inv → s.waiting = [] → ∀ item, item ∈ s.itemsSeen ↔ item ∈ items cubes := by
    intro s hinv hwaiting item
    rw [hinv.seen.mem_iff, hwaiting, append_nil]
    exact hinv.done hwaiting item
  constructor
  · intro schedule s hrun
    obtain ⟨hinv, hpopped⟩ := Explored.run_inv Explored.start_inv hrun
    refine ⟨hinv.rejected, hinv.nodup_seen, fun item hitem => ?_, fun hwaiting => ⟨hseen hinv hwaiting, ?_⟩⟩
    · rcases mem_append.mp (hinv.seen.mem_iff.mp hitem) with hmem | hmem
      · exact hinv.popped_items (mem_toFinset.mpr hmem)
      · exact (hinv.covers.fresh item hmem).1
    · intro k G H lt product
      have hschedule : s.popped = schedule := by rw [hpopped, Explored.start_eq, nil_append]
      exact perm_productHeap (hschedule ▸ hinv.popped) (fun item => hschedule ▸ hinv.done hwaiting item) k H lt product
  · intro E F H lt createEdge insert fuzzyFilter
    obtain ⟨schedule, s, hrun, hsame, hend⟩ := CubeHeap.finalize_run H lt createEdge insert fuzzyFilter
    obtain ⟨hinv, -⟩ := Explored.run_inv Explored.start_inv hrun
    refine ⟨hsame.rejected.trans hinv.rejected, hsame.itemsSeen ▸ hinv.nodup_seen, fun hnever item => ?_⟩
    rw [hsame.itemsSeen]
    have hpq := hsame.pq
    rw [hend hnever] at hpq
    exact hseen hinv (nil_perm.mp hpq) item

/-- Two rules over a pair of edges whose left half has two items, and one rule over another pair. -/
def twoCubes : List (SortedCube Nat Nat Nat) := [⟨[0, 1], [0, 1], [0]⟩, ⟨[2], [0], [3]⟩]

/-- The items of the first cube, and that of the second one in between. -/
def alternating : List (Item twoCubes.length) :=
  let first : Fin 2 := ⟨0, Nat.two_pos⟩
  [⟨first, 0, 0, 0⟩, ⟨⟨1, Nat.one_lt_two⟩, 0, 0, 0⟩, ⟨first, 0, 1, 0⟩, ⟨first, 1, 0, 0⟩, ⟨first, 1, 1, 0⟩]

theorem sortedCube_exactly_once_twoCubes :
    (∃ s, Machine.run (Explored.pop twoCubes) alternating (Explored.start twoCubes) = some s ∧
      s.rejected = [] ∧ s.itemsSeen.Nodup ∧ ∀ item, item ∈ s.itemsSeen ↔ item ∈ items twoCubes) ∧
    ∀ item, item ∈ (CubeHeap.finalize HeapAlg.sorted (fun a b : Nat => decide (a < b)) twoCubes
      (fun item => item.xitr + item.yitr) (fun u _ => (u, some true)) ()).itemsSeen ↔ item ∈ items twoCubes := by
  obtain ⟨hrun, hheap⟩ := sortedCube_exactly_once twoCubes
  constructor
  · obtain ⟨s, hs, hwaiting⟩ : ∃ s, Machine.run (Explored.pop twoCubes) alternating (Explored.start twoCubes) = some s ∧
        s.waiting = [] := ⟨_, rfl, rfl⟩
    obtain ⟨hrejected, hnodup, -, hdone⟩ := hrun _ s hs
    exact ⟨s, hs, hrejected, hnodup, (hdone hwaiting).1⟩
  · exact (hheap Nat Unit HeapAlg.sorted _ _ (fun u _ => (u, some true)) ()).2.2 fun _ _ h => Bool.noConfusion (Option.some.inj h)

end Sbmt.Search
