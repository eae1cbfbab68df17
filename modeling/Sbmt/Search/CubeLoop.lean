import Sbmt.Lib.Heap
/-!
# Cubic pruning (`sbmt_decoder/include/sbmt/search/impl/cube.ipp`)

`cube_loop` sorts its three ranges best first and takes it that behind a rejected triple all triples are rejected.

| here | there |
| --- | --- |
| `CubeLoop` | `cube_loop`: the predicate and the three comparisons (`cube.ipp:64-77`, `:151-155`) |
| `SortAlg` | `std::sort` |
| `rcLoop`, `rbLoop`, `raLoop` | the three loops of `operator()` (`:103-149`); an iterator is the number of steps from `begin()`, the log is where the predicate said yes |
| `run` | `operator()` |
| `dumbCube` | `dumb_cube`, the naive triple loop (`test/test_cube.cpp:60-67`) |

The first argument of a loop is how far its iterator is from its end marker.
-/

namespace Sbmt.Search

open Sbmt.Lib List

/-- A sort. What becomes of elements that compare equal is left open. -/
structure SortAlg where
  sort : {α : Type} → (α → α → Bool) → List α → List α
  perm : ∀ {α : Type} (lt : α → α → Bool) (l : List α), (sort lt l).Perm l
  sorted : ∀ {α : Type} {lt : α → α → Bool} (l : List α), StrictWeak lt → (sort lt l).Pairwise fun a b => lt b a = false

/-- The sort that keeps the order of what compares equal. -/
def SortAlg.stable : SortAlg where
  sort lt l := l.mergeSort fun a b => !lt b a
  perm lt l := mergeSort_perm l _
  sorted {α lt} l h := by
    refine (pairwise_mergeSort (fun a b c hab hbc => ?_) (fun a b => ?_) l).imp fun hab => ?_
    · rw [Bool.not_eq_true'] at hab hbc ⊢
      exact h.negTrans hbc hab
    · cases hba : lt b a with
      | false => rfl
      | true => simp [h.asymm hba]
    · rwa [Bool.not_eq_true'] at hab

abbrev Triple := Nat × Nat × Nat

structure CubeLoop (A B C : Type) where
  pred : A → B → C → Bool
  compa : A → A → Bool
  compb : B → B → Bool
  compc : C → C → Bool

variable {A B C : Type}

section

variable (pred : A → B → C → Bool) (ra : List A) (rb : List B) (rc : List C)

/-- `pred(*raitr, *rbitr, *rcitr)`. -/
def accepts (raitr rbitr rcitr : Nat) : Bool :=
  match ra[raitr]?, rb[rbitr]?, rc[rcitr]? with
  | some a, some b, some c => pred a b c
  | _, _, _ => false

def rcLoop (raitr rbitr : Nat) : Nat → Nat → List Triple → Nat × List Triple
  | 0, rcitr, log => (rcitr, log)
  | n + 1, rcitr, log =>
    if !accepts pred ra rb rc raitr rbitr rcitr then (rcitr, log)
    else rcLoop raitr rbitr n (rcitr + 1) (log ++ [(raitr, rbitr, rcitr)])

/-- Where one row ends all later rows of the slab end at the latest. -/
def rbLoop (raitr : Nat) : Nat → Nat → Nat → List Triple → Nat × Nat × List Triple
  | 0, rbitr, rcend, log => (rbitr, rcend, log)
  | n + 1, rbitr, rcend, log =>
    let row := rcLoop pred ra rb rc raitr rbitr rcend 0 log
    if row.1 = 0 then (rbitr, row)
    else rbLoop raitr n (rbitr + 1) row.1 row.2

/-- The row at which one slab has ended is where all later slabs end at the latest. -/
def raLoop : Nat → Nat → Nat → List Triple → List Triple
  | 0, _, _, log => log
  | n + 1, raitr, rbend, log =>
    let (rbitr, rcend, log) := rbLoop pred ra rb rc raitr rbend 0 rc.length log
    let rbend := if rcend = 0 then rbitr else rbend
    if rbend = 0 ∧ rcend = 0 then log
    else raLoop n (raitr + 1) rbend log

/-- The naive triple loop. -/
def dumbCube : List Triple :=
  (range ra.length).flatMap fun x => (range rb.length).flatMap fun y => (range rc.length).flatMap fun z =>
    if accepts pred ra rb rc x y z then [(x, y, z)] else []

/-- The cubic pruning assumption: behind what is rejected all is rejected. -/
def Cubic : Prop :=
  ∀ {x₀ y₀ z₀ x₁ y₁ z₁ : Nat}, x₀ ≤ x₁ → y₀ ≤ y₁ → z₀ ≤ z₁ →
    accepts pred ra rb rc x₁ y₁ z₁ = true → accepts pred ra rb rc x₀ y₀ z₀ = true

end

/-- The ranges after sorting. -/
def CubeLoop.sorted (S : SortAlg) (cube : CubeLoop A B C) (ra : List A) (rb : List B) (rc : List C) :
    List A × List B × List C :=
  (S.sort cube.compa ra, S.sort cube.compb rb, S.sort cube.compc rc)

def CubeLoop.run (S : SortAlg) (cube : CubeLoop A B C) (ra : List A) (rb : List B) (rc : List C) : List Triple :=
  let (ra, rb, rc) := cube.sorted S ra rb rc
  raLoop cube.pred ra rb rc ra.length 0 rb.length []

/-! ## Looping further than there is anything -/

section

variable {β : Type} {f : Nat → List β}

theorem flatMap_range'_nil {k n : Nat} (h : ∀ z, k ≤ z → f z = []) : (range' k n).flatMap f = [] := by
  rw [flatMap_eq_nil_iff]
  intro z hz
  exact h z (left_le_of_mem_range' hz)

theorem flatMap_range_of_nil {m m' : Nat} (hm : ∀ z, m ≤ z → f z = []) (hm' : ∀ z, m' ≤ z → f z = []) :
    (range m).flatMap f = (range m').flatMap f := by
  wlog hle : m ≤ m' generalizing m m'
  · exact (this hm' hm (Nat.le_of_not_le hle)).symm
  · obtain ⟨n, rfl⟩ := Nat.exists_eq_add_of_le hle
    rw [range_eq_range', range_eq_range', ← range'_append_1, flatMap_append,
      flatMap_range'_nil (k := 0 + m) fun z hz => hm z (by omega), append_nil]

end

/-! ## The three loops -/

section

variable {pred : A → B → C → Bool} {ra : List A} {rb : List B} {rc : List C}

theorem accepts_lt {x y z : Nat} (h : accepts pred ra rb rc x y z = true) :
    x < ra.length ∧ y < rb.length ∧ z < rc.length := by
  unfold accepts at h
  split at h
  · rename_i ha hb hc
    exact ⟨(List.getElem?_eq_some_iff.mp ha).1, (List.getElem?_eq_some_iff.mp hb).1, (List.getElem?_eq_some_iff.mp hc).1⟩
  · cases h

variable (pred ra rb rc)

/-- What the naive loop adds for one triple, one row and one slab. -/
def cell (x y z : Nat) : List Triple := if accepts pred ra rb rc x y z then [(x, y, z)] else []

def rowOf (x y : Nat) : List Triple := (range rc.length).flatMap (cell pred ra rb rc x y)

def slab (x : Nat) : List Triple := (range rb.length).flatMap (rowOf pred ra rb rc x)

variable {pred ra rb rc}

theorem cell_eq_nil {x y z : Nat} (h : ¬ accepts pred ra rb rc x y z = true) : cell pred ra rb rc x y z = [] := if_neg h

theorem rowOf_eq_nil {x y : Nat} (h : ∀ z, ¬ accepts pred ra rb rc x y z = true) : rowOf pred ra rb rc x y = [] := by
  rw [rowOf, flatMap_eq_nil_iff]
  exact fun z _ => cell_eq_nil (h z)

theorem slab_eq_nil {x : Nat} (h : ∀ y z, ¬ accepts pred ra rb rc x y z = true) : slab pred ra rb rc x = [] := by
  rw [slab, flatMap_eq_nil_iff]
  exact fun y _ => rowOf_eq_nil (h y)

/-- The innermost loop stops exactly where the predicate begins to say no. -/
theorem rcLoop_spec (hcubic : Cubic pred ra rb rc) {x y : Nat} : ∀ (n k : Nat) (log : List Triple),
    (∀ z, k + n ≤ z → ¬ accepts pred ra rb rc x y z = true) →
    ∃ rcitr, rcLoop pred ra rb rc x y n k log = (rcitr, log ++ (range' k n).flatMap (cell pred ra rb rc x y)) ∧
      k ≤ rcitr ∧ rcitr ≤ k + n ∧ ∀ z, k ≤ z → (accepts pred ra rb rc x y z = true ↔ z < rcitr)
  | 0, k, log, hend => ⟨k, by simp [rcLoop], le_rfl, le_rfl, fun z hz => iff_of_false (hend z hz) (by omega)⟩
  | n + 1, k, log, hend => by
    unfold rcLoop
    by_cases hk : accepts pred ra rb rc x y k = true
    · have hcell : cell pred ra rb rc x y k = [(x, y, k)] := if_pos hk
      obtain ⟨rcitr, hrun, hge, hle, hiff⟩ := rcLoop_spec hcubic n (k + 1) (log ++ [(x, y, k)])
        fun z hz => hend z (by omega)
      refine ⟨rcitr, ?_, by omega, by omega, fun z hz => ?_⟩
      · rw [hk, Bool.not_true, if_neg Bool.false_ne_true, hrun, range'_succ, flatMap_cons, hcell, append_assoc]
      · rcases Nat.eq_or_lt_of_le hz with rfl | hz
        · exact iff_of_true hk hge
        · exact hiff z hz
    · -- behind the first triple that is rejected there is none that is accepted
      have hbehind : ∀ z, k ≤ z → ¬ accepts pred ra rb rc x y z = true := fun z hz h => hk (hcubic le_rfl le_rfl hz h)
      refine ⟨k, ?_, le_rfl, by omega, fun z hz => iff_of_false (hbehind z hz) (by omega)⟩
      rw [Bool.eq_false_iff.mpr hk, Bool.not_false, if_pos rfl, flatMap_range'_nil fun z hz => cell_eq_nil (hbehind z hz),
        append_nil]

/-- The middle loop logs its rows; if it has come to an empty row, all rows from there on are empty. -/
theorem rbLoop_spec (hcubic : Cubic pred ra rb rc) {x : Nat} : ∀ (n y : Nat) {rcend : Nat} (log : List Triple),
    (∀ y' z, y ≤ y' → accepts pred ra rb rc x y' z = true → z < rcend) →
    ∃ rbitr rcend', rbLoop pred ra rb rc x n y rcend log =
        (rbitr, rcend', log ++ (range' y n).flatMap (rowOf pred ra rb rc x)) ∧
      y ≤ rbitr ∧ rbitr ≤ y + n ∧
      (rcend' = 0 → ∀ y' z, rbitr ≤ y' → ¬ accepts pred ra rb rc x y' z = true)
  | 0, y, rcend, log, hend => by
    refine ⟨y, rcend, by simp [rbLoop], le_rfl, le_rfl, fun hzero y' z hy hacc => ?_⟩
    have := hend y' z hy hacc
    omega
  | n + 1, y, rcend, log, hend => by
    have hbound : ∀ z, 0 + rcend ≤ z → ¬ accepts pred ra rb rc x y z = true := by
      intro z hz hacc
      have := hend y z le_rfl hacc
      omega
    obtain ⟨rcitr, hrow, -, hle, hiff⟩ := rcLoop_spec hcubic rcend 0 log hbound
    have hcells : (range' 0 rcend).flatMap (cell pred ra rb rc x y) = rowOf pred ra rb rc x y := by
      rw [← range_eq_range']
      apply flatMap_range_of_nil
      · exact fun z hz => cell_eq_nil (hbound z (by omega))
      · exact fun z hz => cell_eq_nil fun hacc => by
          have := (accepts_lt hacc).2.2
          omega
    rw [hcells] at hrow
    unfold rbLoop
    rw [hrow]
    -- for this and all later rows
    have hlater : ∀ y' z, y ≤ y' → accepts pred ra rb rc x y' z = true → z < rcitr := fun y' z hy hacc =>
      (hiff z (Nat.zero_le z)).mp (hcubic le_rfl hy le_rfl hacc)
    by_cases hzero : rcitr = 0
    · have hempty : ∀ y' z, y ≤ y' → ¬ accepts pred ra rb rc x y' z = true := by
        intro y' z hy hacc
        have := hlater y' z hy hacc
        omega
      refine ⟨y, rcitr, ?_, le_rfl, by omega, fun _ => hempty⟩
      rw [if_pos hzero, rowOf_eq_nil fun z => hempty y z le_rfl,
        flatMap_range'_nil fun y' hy => rowOf_eq_nil fun z => hempty y' z hy]
    · obtain ⟨rbitr, rcend', hrun, hge, hle', hdone⟩ := rbLoop_spec hcubic n (y + 1)
        (log ++ rowOf pred ra rb rc x y) fun y' z hy hacc => hlater y' z (by omega) hacc
      refine ⟨rbitr, rcend', ?_, by omega, by omega, hdone⟩
      rw [if_neg hzero, hrun, range'_succ, flatMap_cons, append_assoc]

theorem raLoop_spec (hcubic : Cubic pred ra rb rc) : ∀ {n x rbend : Nat} {log : List Triple},
    (∀ x' y z, x ≤ x' → accepts pred ra rb rc x' y z = true → y < rbend) →
    raLoop pred ra rb rc n x rbend log = log ++ (range' x n).flatMap (slab pred ra rb rc)
  | 0, x, rbend, log, _ => by simp [raLoop]
  | n + 1, x, rbend, log, hend => by
    obtain ⟨rbitr, rcend, hrun, -, hle, hdone⟩ := rbLoop_spec hcubic rbend 0 log
      fun y' z _ (hacc : accepts pred ra rb rc x y' z = true) => (accepts_lt hacc).2.2
    have hrows : (range' 0 rbend).flatMap (rowOf pred ra rb rc x) = slab pred ra rb rc x := by
      rw [← range_eq_range']
      apply flatMap_range_of_nil
      · exact fun y hy => rowOf_eq_nil fun z hacc => by
          have := hend x y z le_rfl hacc
          omega
      · exact fun y hy => rowOf_eq_nil fun z hacc => by
          have := (accepts_lt hacc).2.1
          omega
    rw [hrows] at hrun
    unfold raLoop
    rw [hrun]
    dsimp only
    -- for this and all later slabs
    have hlater : ∀ x' y z, x ≤ x' → accepts pred ra rb rc x' y z = true → y < if rcend = 0 then rbitr else rbend := by
      intro x' y z hx hacc
      split_ifs with hzero
      · by_contra hy
        exact hdone hzero y z (Nat.le_of_not_lt hy) (hcubic hx le_rfl le_rfl hacc)
      · exact hend x' y z hx hacc
    by_cases hstop : (if rcend = 0 then rbitr else rbend) = 0 ∧ rcend = 0
    · have hempty : ∀ x', x ≤ x' → slab pred ra rb rc x' = [] := by
        intro x' hx
        refine slab_eq_nil fun y z hacc => ?_
        have := hlater x' y z hx hacc
        omega
      rw [if_pos hstop, hempty x le_rfl, flatMap_range'_nil hempty]
    · rw [if_neg hstop, raLoop_spec hcubic fun x' y z hx hacc => hlater x' y z (by omega) hacc, range'_succ,
        flatMap_cons, append_assoc]

theorem mem_dumbCube {x y z : Nat} : (x, y, z) ∈ dumbCube pred ra rb rc ↔ accepts pred ra rb rc x y z = true := by
  simp only [dumbCube, mem_flatMap, mem_range, mem_ite_nil_right, mem_singleton, Prod.mk.injEq]
  constructor
  · rintro ⟨_, _, _, _, _, _, hacc, rfl, rfl, rfl⟩
    exact hacc
  · intro hacc
    obtain ⟨hx, hy, hz⟩ := accepts_lt hacc
    exact ⟨x, hx, y, hy, z, hz, hacc, rfl, rfl, rfl⟩

theorem nodup_dumbCube : (dumbCube pred ra rb rc).Nodup := by
  have hcell : ∀ x y z, (if accepts pred ra rb rc x y z then [(x, y, z)] else []).Nodup := by
    intro x y z
    split_ifs
    · exact nodup_singleton _
    · exact nodup_nil
  have hrow : ∀ x y, ((range rc.length).flatMap fun z => if accepts pred ra rb rc x y z then [(x, y, z)] else []).Nodup := by
    intro x y
    refine nodup_flatMap.mpr ⟨fun z _ => hcell x y z, nodup_range.imp fun hne t ht ht' => ?_⟩
    simp only [mem_ite_nil_right, mem_singleton] at ht ht'
    exact hne (congrArg (fun t => t.2.2) (ht.2.symm.trans ht'.2))
  refine nodup_flatMap.mpr ⟨fun x _ => ?_, nodup_range.imp fun hne t ht ht' => ?_⟩
  · refine nodup_flatMap.mpr ⟨fun y _ => hrow x y, nodup_range.imp fun hne t ht ht' => ?_⟩
    simp only [mem_flatMap, mem_ite_nil_right, mem_singleton] at ht ht'
    obtain ⟨_, -, -, rfl⟩ := ht
    obtain ⟨_, -, -, heq⟩ := ht'
    exact hne (congrArg (fun t => t.2.1) heq)
  · simp only [mem_flatMap, mem_ite_nil_right, mem_singleton] at ht ht'
    obtain ⟨_, -, _, -, -, rfl⟩ := ht
    obtain ⟨_, -, _, -, -, heq⟩ := ht'
    exact hne (congrArg (fun t => t.1) heq)

end

/-- **Under the cubic pruning assumption `cube_loop` says yes to exactly what the naive triple loop says yes to**, to each
triple once and in the same order. -/
theorem cubeLoop_exact (S : SortAlg) (cube : CubeLoop A B C) (ra : List A) (rb : List B) (rc : List C)
    (hcubic : Cubic cube.pred (S.sort cube.compa ra) (S.sort cube.compb rb) (S.sort cube.compc rc)) :
    cube.run S ra rb rc = dumbCube cube.pred (S.sort cube.compa ra) (S.sort cube.compb rb) (S.sort cube.compc rc) ∧
    (cube.run S ra rb rc).Nodup ∧
    ∀ x y z, (x, y, z) ∈ cube.run S ra rb rc ↔
      accepts cube.pred (S.sort cube.compa ra) (S.sort cube.compb rb) (S.sort cube.compc rc) x y z = true := by
  -- the loops end early without loss
  rw [CubeLoop.run, CubeLoop.sorted]
  dsimp only
  rw [raLoop_spec hcubic fun x y z _ hacc => (accepts_lt hacc).2.1, ← range_eq_range']
  exact ⟨rfl, nodup_dumbCube, fun x y z => mem_dumbCube⟩

/-- `std::greater`. -/
def greater [LT A] [DecidableLT A] (a b : A) : Bool := decide (b < a)

theorem sorted_greater [LinearOrder A] (S : SortAlg) (ra : List A) : (S.sort greater ra).Pairwise fun a b => b ≤ a := by
  have hgreater : StrictWeak (greater (A := A)) := StrictWeak.ofKey OrderDual.toDual
  exact (S.sorted ra hgreater).imp fun h => not_lt.mp (of_decide_eq_false h)

theorem getElem?_le_of_sorted [LinearOrder A] {l : List A} (hl : l.Pairwise fun a b => b ≤ a) {i j : Nat} (hij : i ≤ j) {b : A}
    (hb : l[j]? = some b) : ∃ a, l[i]? = some a ∧ b ≤ a := by
  obtain ⟨hj, rfl⟩ := List.getElem?_eq_some_iff.mp hb
  refine ⟨l[i], getElem?_eq_getElem (hij.trans_lt hj), ?_⟩
  rcases Nat.eq_or_lt_of_le hij with rfl | hlt
  · exact le_rfl
  · exact pairwise_iff_getElem.mp hl i j (hij.trans_lt hj) hj hlt

/-- Sorted by `std::greater`, as the ranges are by default, the assumption holds of every predicate that accepts what is no
worse than something accepted. -/
theorem cubic_of_greater [LinearOrder A] [LinearOrder B] [LinearOrder C] (S : SortAlg) {pred : A → B → C → Bool}
    (hpred : ∀ {a a' b b' c c'}, a ≤ a' → b ≤ b' → c ≤ c' → pred a b c = true → pred a' b' c' = true)
    (ra : List A) (rb : List B) (rc : List C) :
    Cubic pred (S.sort greater ra) (S.sort greater rb) (S.sort greater rc) := by
  intro x0 y0 z0 x1 y1 z1 hx hy hz hacc
  unfold accepts at hacc ⊢
  split at hacc
  · rename_i ha hb hc
    obtain ⟨a, ha', hle⟩ := getElem?_le_of_sorted (sorted_greater S ra) hx ha
    obtain ⟨b, hb', hle'⟩ := getElem?_le_of_sorted (sorted_greater S rb) hy hb
    obtain ⟨c, hc', hle''⟩ := getElem?_le_of_sorted (sorted_greater S rc) hz hc
    rw [ha', hb', hc']
    exact hpred hle hle' hle'' hacc
  · cases hacc

/-- The test's predicate. -/
def sumThreshold (threshold : Nat) : CubeLoop Nat Nat Nat :=
  ⟨fun x y z => decide (threshold < x + y + z), greater, greater, greater⟩

theorem cubeLoop_exact_sumThreshold :
    ((sumThreshold 29).run .stable [10, 9, 8, 7, 4, 3, 2, 1] [8, 4, 2, 1] [15, 12, 9, 8, 2, 1, 1]).Nodup :=
  (cubeLoop_exact .stable (sumThreshold 29) [10, 9, 8, 7, 4, 3, 2, 1] [8, 4, 2, 1] [15, 12, 9, 8, 2, 1, 1]
    (cubic_of_greater .stable (fun ha hb hc h => decide_eq_true (by have := of_decide_eq_true h; omega)) _ _ _)).2.1

end Sbmt.Search
