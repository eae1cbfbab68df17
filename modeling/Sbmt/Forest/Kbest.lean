import Sbmt.Forest.Basic
import Sbmt.Gusc.Order
/-!
# Lazy k-best derivations (`graehl/shared/lazy_forest_kbest.hpp`, `sbmt/forest/kbest.hpp`)

Each node keeps the derivations found so far in `memo`, best first, and in `pq` the candidates for the next one. The
front of `pq` is the last entry of `memo`: its successors are made only when somebody asks for the entry after it. A
successor takes the next best derivation of one child, which the child is asked for in the same way.

| here | there |
|---|---|
| `Derivation`, `adjustChild`, `makeWorse` | an `edge_equivalence` of one edge; `edge::adjust_child` (`edge.ipp:310`), `make_worse` (`kbest.hpp:127`) |
| `Hyperedge`, `Node` | `lazy_forest::hyperedge`, `lazy_forest` (`pq`, `memo`) |
| `fresh` | `lazy_forest_builder` (`kbest.hpp:135-192`): `add_sorted` of the sorted edges of every item |

The filter is the permissive one, so the loop of `get_best` runs once. `old_subderiv` is not handed to `makeWorse`,
which does not look at it. A quotient by a zero score counts as zero.

What a node answers does not depend on who has asked before: `best` gives the answers without the memos, and
`getBest_spec` says that the memos hold its initial parts. The rest is about `best`.
-/

namespace Sbmt.Forest

open Sbmt.Lib Sbmt.Gusc List Function

/-! ## The lazy forest -/

/-- A derivation: the `k`-th edge of its node, a derivation for each child, and its inside score. -/
inductive Derivation (S : Type)
  | nullary (k : Nat) (inside : S)
  | unary (k : Nat) (inside : S) (d : Derivation S)
  | binary (k : Nat) (inside : S) (d₀ d₁ : Derivation S)
  deriving DecidableEq

namespace Derivation

variable {S : Type}

def inside : Derivation S → S
  | nullary _ s | unary _ s _ | binary _ s _ _ => s

/-- The place of its edge in the node. -/
def index : Derivation S → Nat
  | nullary k _ | unary k _ _ | binary k _ _ _ => k

/-- The tree of edges, without the scores. -/
def tree : Derivation S → Derivation Unit
  | nullary k _ => .nullary k ()
  | unary k _ d => .unary k () d.tree
  | binary k _ d₀ d₁ => .binary k () d₀.tree d₁.tree

end Derivation

section

variable {S : Type} [LinearOrderedCommGroupWithZero S]

/-- `edge::adjust_child`. -/
def adjustChild (newChild : Derivation S) (i : Nat) : Derivation S → Derivation S
  | .nullary k s => .nullary k s
  | .unary k s d => .unary k (s * (newChild.inside / d.inside)) newChild
  | .binary k s d₀ d₁ =>
    if i = 0 then .binary k (s * (newChild.inside / d₀.inside)) newChild d₁
    else .binary k (s * (newChild.inside / d₁.inside)) d₀ newChild

/-- `make_worse`. -/
def makeWorse (prototype newSubderiv : Derivation S) (changedChildIndex : Nat) : Derivation S :=
  adjustChild newSubderiv changedChildIndex prototype

structure Hyperedge (S : Type) where
  derivation : Derivation S
  child : Kids
  childbp0 : Nat
  childbp1 : Nat

def Hyperedge.childbp (e : Hyperedge S) (which : Nat) : Nat := if which = 0 then e.childbp0 else e.childbp1

/-- The hyperedge with `d` for its child at place `which`. -/
def Hyperedge.worsen (e : Hyperedge S) (which : Nat) (d : Derivation S) : Hyperedge S where
  derivation := makeWorse e.derivation d which
  child := e.child
  childbp0 := if which = 0 then e.childbp0 + 1 else e.childbp0
  childbp1 := if which = 0 then e.childbp1 else e.childbp1 + 1

/-- An entry of `memo`: `PENDING()`, `NONE()` or a derivation. -/
inductive MemoEntry (S : Type)
  | pending
  | none
  | best (d : Derivation S)

def MemoEntry.ofOption : Option (Derivation S) → MemoEntry S
  | .none => .none
  | some d => .best d

structure Node (S : Type) where
  pq : List (Hyperedge S)
  memo : List (MemoEntry S)

/-- The nodes of all items. -/
abbrev LazyForest (S : Type) := Nat → Node S

/-- `operator<` of `hyperedge`. -/
abbrev worse : Hyperedge S → Hyperedge S → Bool := lesserBy fun h => h.derivation.inside

section

variable (H : HeapAlg) (i : Nat) (childBest : Nat → Nat → StateM (LazyForest S) (Option (Derivation S)))

def push (e : Hyperedge S) : StateM (LazyForest S) Unit :=
  modify fun st => update st i { st i with pq := H.push worse e (st i).pq }

/-- `generate_successor_hyperedge`, for the child `c` at place `which`. -/
def generateSuccessorHyperedge (pending : Hyperedge S) (which c : Nat) : StateM (LazyForest S) Unit := do
  let newChild ← childBest c (pending.childbp which + 1)
  match newChild with
  | none => pure ()
  | some d => push H i (pending.worsen which d)

/-- The calls of `generate_successor_hyperedge` in `next_best`: the second child is raised only while the first is at
its best, so that there is one path to every pair of ranks. -/
def generateSuccessors (pending : Hyperedge S) : StateM (LazyForest S) Unit :=
  match pending.child with
  | .nullary => pure ()
  | .unary c => generateSuccessorHyperedge H i childBest pending 0 c
  | .binary c₀ c₁ => do
    generateSuccessorHyperedge H i childBest pending 0 c₀
    if pending.childbp0 = 0 then generateSuccessorHyperedge H i childBest pending 1 c₁ else pure ()

def nextBest : StateM (LazyForest S) (Option (Derivation S)) := do
  match ((← get) i).pq with
  | [] => pure none
  | pending :: _ => do
    modify fun st => update st i { st i with pq := H.pop worse (st i).pq }
    generateSuccessors H i childBest pending
    return (((← get) i).pq.head?).map Hyperedge.derivation

/-- What `get_best` does when the entry is the next one, or there already. -/
def getBestWith (n : Nat) : StateM (LazyForest S) (Option (Derivation S)) := do
  match ((← get) i).memo[n]? with
  | some .pending => do
    modify fun st => update st i { st i with memo := (st i).memo.set n .none }
    return none
  | some .none => return none
  | some (.best d) => return some d
  | none => do
    modify fun st => update st i { st i with memo := (st i).memo ++ [.pending] }
    let d ← nextBest H i childBest
    modify fun st => update st i { st i with memo := (st i).memo.dropLast ++ [.ofOption d] }
    return d

end

/-- `get_best(n)` of node `i`. The edges of a node lead to smaller nodes, so the test `c < i` never fails. -/
def getBest (H : HeapAlg) (i : Nat) (n : Nat) : StateM (LazyForest S) (Option (Derivation S)) :=
  getBestWith H i (fun c m => if c < i then getBest H c m else pure none) n
termination_by i

/-- The loop of `enumerate_kbest`, with `i` derivations visited and at most `k` to go. -/
def enumerateFrom (H : HeapAlg) (top : Nat) (visit : Derivation S → Nat → Bool) :
    Nat → Nat → StateM (LazyForest S) (List (Derivation S))
  | 0, _ => return []
  | k + 1, i => do
    match ← getBest H top i with
    | none => return []
    | some d => if visit d i then return d :: (← enumerateFrom H top visit k (i + 1)) else return [d]

variable (H : HeapAlg)

/-- The derivations `enumerate_kbest` visits. -/
def enumerateKbest (top k : Nat) (visit : Derivation S → Nat → Bool) :
    StateM (LazyForest S) (List (Derivation S)) :=
  enumerateFrom H top visit k 0

/-! ## Building it -/

/-- The derivation that an edge stands for: it was built on its children's best. -/
def edgeDerivation (first : Nat → Derivation S) (k : Nat) (e : Edge S) : Derivation S :=
  match e.kids with
  | .nullary => .nullary k e.inside
  | .unary c => .unary k e.inside (first c)
  | .binary c₀ c₁ => .binary k e.inside (first c₀) (first c₁)

/-- The derivation that an item stands for: its representative. -/
def firstBest (F : ParseForest S) (i : Nat) : Derivation S :=
  edgeDerivation (fun c => if c < i then firstBest F c else .nullary 0 1) 0 (F.item i).rep
termination_by i

variable (F : ParseForest S)

/-- `add_sorted` of every edge of the item. -/
def initialQueue (i : Nat) : List (Hyperedge S) :=
  (F.item i).sort.edges.mapIdx fun k e => ⟨edgeDerivation (firstBest F) k e, e.kids, 0, 0⟩

def fresh : LazyForest S := fun i => ⟨initialQueue F i, [.best (firstBest F i)]⟩

/-! ## The answers without the memos -/

variable (b : Nat → Nat → Option (Derivation S))

/-- The candidates that `next_best` makes from `pending`, when the children answer `b`. -/
def successors (pending : Hyperedge S) : List (Hyperedge S) :=
  let successor (which c : Nat) := (b c (pending.childbp which + 1)).toList.map (pending.worsen which)
  match pending.child with
  | .nullary => []
  | .unary c => successor 0 c
  | .binary c₀ c₁ => successor 0 c₀ ++ if pending.childbp0 = 0 then successor 1 c₁ else []

/-- The queue after its front has made way for its successors. -/
def advance : List (Hyperedge S) → List (Hyperedge S)
  | [] => []
  | pending :: q => (successors b pending).foldl (fun q e => H.push worse e q) (H.pop worse (pending :: q))

/-- The `n`-th best derivation of node `i`. -/
def best (H : HeapAlg) (F : ParseForest S) (i n : Nat) : Option (Derivation S) :=
  ((advance H fun c m => if c < i then best H F c m else none)^[n] (initialQueue F i)).head?.map Hyperedge.derivation
termination_by i

/-- What the children of node `i` answer. -/
def answers (i c m : Nat) : Option (Derivation S) := if c < i then best H F c m else none

/-- The queue of node `i` with `n` derivations after the first. -/
def queue (i n : Nat) : List (Hyperedge S) := (advance H (answers H F i))^[n] (initialQueue F i)

section

variable {H : HeapAlg} {F : ParseForest S} {st : LazyForest S} {i n : Nat}

theorem best_eq (i n : Nat) : best H F i n = (queue H F i n).head?.map Hyperedge.derivation := by
  rw [best]
  rfl

theorem queue_succ (i n : Nat) : queue H F i (n + 1) = advance H (answers H F i) (queue H F i n) :=
  iterate_succ_apply' _ _ _

/-! ## The memos hold the answers -/

/-- The entries of the children's memos that a hyperedge was built from. -/
def Hyperedge.ranks (e : Hyperedge S) : List (Nat × Nat) :=
  match e.child with
  | .nullary => []
  | .unary c => [(c, e.childbp0)]
  | .binary c₀ c₁ => [(c₀, e.childbp0), (c₁, e.childbp1)]

/-- The children have found the derivations that the candidates were built from. -/
def Founded (st : LazyForest S) (i : Nat) (q : List (Hyperedge S)) : Prop :=
  ∀ e ∈ q, ∀ r ∈ e.ranks, r.1 < i → r.2 < (st r.1).memo.length

/-- Node `j` is where its answers leave it after some `n`. -/
def Holds (H : HeapAlg) (F : ParseForest S) (st : LazyForest S) (j : Nat) : Prop :=
  ∃ n, (st j).memo = (range (n + 1)).map (fun m => MemoEntry.ofOption (best H F j m)) ∧ (st j).pq = queue H F j n ∧
    Founded st j (st j).pq

/-- What happens to the other nodes, and to the memo of node `i`, while node `i` looks for its next best. -/
structure Moves (H : HeapAlg) (F : ParseForest S) (i : Nat) (st st' : LazyForest S) : Prop where
  below : (∀ j < i, Holds H F st j) → ∀ j < i, Holds H F st' j
  above : ∀ j, i < j → st' j = st j
  memo : (st' i).memo = (st i).memo
  grows : ∀ j, (st j).memo.length ≤ (st' j).memo.length

theorem Moves.trans {st' st'' : LazyForest S} (h : Moves H F i st st') (h' : Moves H F i st' st'') : Moves H F i st st'' where
  below hb := h'.below (h.below hb)
  above j hj := (h'.above j hj).trans (h.above j hj)
  memo := h'.memo.trans h.memo
  grows j := (h.grows j).trans (h'.grows j)

omit [LinearOrderedCommGroupWithZero S] in
theorem Founded.mono {st' : LazyForest S} {q : List (Hyperedge S)} (h : Founded st i q)
    (hgrows : ∀ j, (st j).memo.length ≤ (st' j).memo.length) : Founded st' i q :=
  fun e he r hr hlt => (h e he r hr hlt).trans_le (hgrows r.1)

/-- Only the queue of node `i` changes. -/
theorem moves_update (q : List (Hyperedge S)) : Moves H F i st (update st i { st i with pq := q }) := by
  have hmemo : ∀ j, (update st i { st i with pq := q } j).memo = (st j).memo := by
    intro j
    by_cases hj : j = i
    · subst hj
      rw [update_self]
    · rw [update_of_ne hj]
  refine ⟨fun hb j hj => ?_, fun j hj => update_of_ne hj.ne' _ _, hmemo i, fun j => (congrArg List.length (hmemo j)).ge⟩
  obtain ⟨n, hm, hq, hf⟩ := hb j hj
  have hnode : update st i { st i with pq := q } j = st j := update_of_ne hj.ne _ _
  refine ⟨n, by rw [hnode, hm], by rw [hnode, hq], ?_⟩
  rw [hnode]
  exact hf.mono fun j => (congrArg List.length (hmemo j)).ge

/-- What node `i` may expect of its children. -/
def ChildSpec (H : HeapAlg) (F : ParseForest S) (i : Nat)
    (childBest : Nat → Nat → StateM (LazyForest S) (Option (Derivation S))) : Prop :=
  ∀ c m st, (∀ j < i, Holds H F st j) → (c < i → m ≤ (st c).memo.length) →
    ∃ st', childBest c m st = (answers H F i c m, st') ∧ Moves H F i st st' ∧ (st' i).pq = (st i).pq ∧
      (c < i → m < (st' c).memo.length)

variable {childBest : Nat → Nat → StateM (LazyForest S) (Option (Derivation S))}

section
omit [LinearOrderedCommGroupWithZero S]

/-- Run the first part of a computation. -/
theorem run_bind {α β : Type} {x : StateM (LazyForest S) α} {f : α → StateM (LazyForest S) β} {a : α}
    {st st' : LazyForest S} (h : x st = (a, st')) : (x >>= f) st = f a st' := by
  show (match x st with | (a, s) => f a s) = _
  rw [h]

theorem run_get (st : LazyForest S) : (get : StateM (LazyForest S) (LazyForest S)) st = (st, st) := rfl

theorem run_modify (f : LazyForest S → LazyForest S) (st : LazyForest S) :
    (modify f : StateM (LazyForest S) PUnit) st = ((), f st) := rfl

end

/-- `push_heap` of several hyperedges. -/
abbrev pushAll (H : HeapAlg) (l q : List (Hyperedge S)) : List (Hyperedge S) := l.foldl (fun q e => H.push worse e q) q

theorem pushAll_perm : ∀ (l q : List (Hyperedge S)), (pushAll H l q).Perm (l ++ q)
  | [], _ => .refl _
  | e :: l, q => by
    refine (pushAll_perm l (H.push worse e q)).trans ?_
    exact ((H.push_perm worse e q).append_left l).trans perm_middle

theorem generateSuccessorHyperedge_spec (hchild : ChildSpec H F i childBest) (hb : ∀ j < i, Holds H F st j)
    (pending : Hyperedge S) {which c : Nat} (hrank : c < i → pending.childbp which < (st c).memo.length) :
    ∃ st', generateSuccessorHyperedge H i childBest pending which c st = ((), st') ∧ Moves H F i st st' ∧
      (st' i).pq = pushAll H ((answers H F i c (pending.childbp which + 1)).toList.map (pending.worsen which)) (st i).pq ∧
      (c < i → pending.childbp which + 1 < (st' c).memo.length) := by
  obtain ⟨st', hrun, hmoves, hpq, hlen⟩ := hchild c (pending.childbp which + 1) st hb hrank
  unfold generateSuccessorHyperedge
  cases hans : answers H F i c (pending.childbp which + 1) with
  | none =>
    refine ⟨st', ?_, hmoves, hpq, hlen⟩
    rw [run_bind hrun, hans]
    rfl
  | some d =>
    refine ⟨update st' i { st' i with pq := H.push worse (pending.worsen which d) (st' i).pq }, ?_,
      hmoves.trans (moves_update _), ?_, fun hc => ?_⟩
    · rw [run_bind hrun, hans]
      rfl
    · rw [update_self, hpq]
      rfl
    · rw [update_of_ne hc.ne]
      exact hlen hc

/-- A successor is founded if its predecessor is and the new derivation of the child has been found. -/
theorem worsen_founded {pending : Hyperedge S} {which c : Nat} {d : Derivation S}
    (hc : pending.child = .unary c ∧ which = 0 ∨ (∃ c', pending.child = .binary c c' ∧ which = 0) ∨
      ∃ c', pending.child = .binary c' c ∧ which = 1)
    (hold : ∀ r ∈ pending.ranks, r.1 < i → r.2 < (st r.1).memo.length)
    (hnew : c < i → pending.childbp which + 1 < (st c).memo.length) :
    ∀ r ∈ (pending.worsen which d).ranks, r.1 < i → r.2 < (st r.1).memo.length := by
  unfold Hyperedge.ranks at hold ⊢
  rcases hc with ⟨hk, rfl⟩ | ⟨c', hk, rfl⟩ | ⟨c', hk, rfl⟩
  · simp only [Hyperedge.worsen, hk] at hold ⊢
    simpa [Hyperedge.childbp] using hnew
  · simp only [Hyperedge.worsen, hk] at hold ⊢
    simp only [mem_cons, not_mem_nil, or_false, forall_eq_or_imp, forall_eq, if_true] at hold ⊢
    exact ⟨by simpa [Hyperedge.childbp] using hnew, hold.2⟩
  · simp only [Hyperedge.worsen, hk] at hold ⊢
    simp only [mem_cons, not_mem_nil, or_false, forall_eq_or_imp, forall_eq, one_ne_zero, if_false] at hold ⊢
    exact ⟨hold.1, by simpa [Hyperedge.childbp] using hnew⟩

theorem generateSuccessors_spec (hchild : ChildSpec H F i childBest) (hb : ∀ j < i, Holds H F st j)
    {pending : Hyperedge S} (hranks : ∀ r ∈ pending.ranks, r.1 < i → r.2 < (st r.1).memo.length) :
    ∃ st', generateSuccessors H i childBest pending st = ((), st') ∧ Moves H F i st st' ∧
      (st' i).pq = pushAll H (successors (answers H F i) pending) (st i).pq ∧
      Founded st' i (successors (answers H F i) pending) := by
  -- the successor for one child, in any later state
  have hone {which c : Nat} (hc : pending.child = .unary c ∧ which = 0 ∨ (∃ c', pending.child = .binary c c' ∧ which = 0) ∨
      ∃ c', pending.child = .binary c' c ∧ which = 1) {st1 st2 : LazyForest S}
      (hgrow : ∀ j, (st j).memo.length ≤ (st2 j).memo.length) (hgrow1 : ∀ j, (st1 j).memo.length ≤ (st2 j).memo.length)
      (hnew : c < i → pending.childbp which + 1 < (st1 c).memo.length) :
      Founded st2 i ((answers H F i c (pending.childbp which + 1)).toList.map (pending.worsen which)) := by
    intro e he
    obtain ⟨d, -, rfl⟩ := mem_map.mp he
    refine worsen_founded hc (fun r hr hlt => (hranks r hr hlt).trans_le (hgrow r.1)) fun hlt => ?_
    exact (hnew hlt).trans_le (hgrow1 c)
  unfold generateSuccessors successors
  cases hk : pending.child with
  | nullary => exact ⟨st, rfl, ⟨id, fun _ _ => rfl, rfl, fun _ => le_rfl⟩, rfl, fun e he => absurd he not_mem_nil⟩
  | unary c =>
    have hrank : c < i → pending.childbp 0 < (st c).memo.length := hranks (c, pending.childbp0) (by simp [Hyperedge.ranks, hk])
    obtain ⟨st1, hrun, hmoves, hpq, hnew⟩ := generateSuccessorHyperedge_spec hchild hb pending hrank
    exact ⟨st1, hrun, hmoves, hpq, hone (.inl ⟨hk, rfl⟩) hmoves.grows (fun _ => le_rfl) hnew⟩
  | binary c0 c1 =>
    have hrank0 : c0 < i → pending.childbp 0 < (st c0).memo.length :=
      hranks (c0, pending.childbp0) (by simp [Hyperedge.ranks, hk])
    have hrank1 : c1 < i → pending.childbp 1 < (st c1).memo.length :=
      hranks (c1, pending.childbp1) (by simp [Hyperedge.ranks, hk])
    obtain ⟨st1, hrun1, hmoves1, hpq1, hnew1⟩ := generateSuccessorHyperedge_spec hchild hb pending hrank0
    dsimp only
    by_cases h0 : pending.childbp0 = 0
    · obtain ⟨st2, hrun2, hmoves2, hpq2, hnew2⟩ := generateSuccessorHyperedge_spec hchild (hmoves1.below hb) pending
        fun hlt => (hrank1 hlt).trans_le (hmoves1.grows c1)
      refine ⟨st2, ?_, hmoves1.trans hmoves2, ?_, ?_⟩
      · rw [run_bind hrun1, if_pos h0, hrun2]
      · rw [hpq2, hpq1, if_pos h0, pushAll, pushAll, pushAll, foldl_append]
      · rw [if_pos h0]
        intro e he
        rcases mem_append.mp he with he | he
        · exact hone (.inr (.inl ⟨c1, hk, rfl⟩)) (hmoves1.trans hmoves2).grows hmoves2.grows hnew1 e he
        · exact hone (.inr (.inr ⟨c0, hk, rfl⟩)) (hmoves1.trans hmoves2).grows (fun _ => le_rfl) hnew2 e he
    · refine ⟨st1, ?_, hmoves1, ?_, ?_⟩
      · rw [run_bind hrun1, if_neg h0]
        rfl
      · rw [hpq1, if_neg h0, append_nil]
      · rw [if_neg h0, append_nil]
        exact hone (.inr (.inl ⟨c1, hk, rfl⟩)) hmoves1.grows (fun _ => le_rfl) hnew1

/-- `next_best` advances the queue and answers with its new front. -/
theorem nextBest_spec (hchild : ChildSpec H F i childBest) (hb : ∀ j < i, Holds H F st j) (hq : Founded st i (st i).pq) :
    ∃ st', nextBest H i childBest st =
        ((advance H (answers H F i) (st i).pq).head?.map Hyperedge.derivation, st') ∧
      Moves H F i st st' ∧ (st' i).pq = advance H (answers H F i) (st i).pq ∧ Founded st' i (st' i).pq := by
  unfold nextBest
  rw [run_bind (run_get st)]
  cases hpq : (st i).pq with
  | nil => exact ⟨st, rfl, ⟨id, fun _ _ => rfl, rfl, fun _ => le_rfl⟩, hpq, hpq ▸ hq⟩
  | cons pending q =>
    have hmoves1 : Moves H F i st (update st i { st i with pq := H.pop worse (st i).pq }) := moves_update _
    obtain ⟨st2, hrun2, hmoves2, hpq2, hfound2⟩ := generateSuccessors_spec hchild (hmoves1.below hb)
      fun r hr hlt => (hq pending (hpq ▸ mem_cons_self) r hr hlt).trans_le (hmoves1.grows r.1)
    rw [update_self, hpq] at hpq2
    have hadvance : (st2 i).pq = advance H (answers H F i) (pending :: q) := hpq2
    refine ⟨st2, ?_, hmoves1.trans hmoves2, hadvance, ?_⟩
    · dsimp only
      rw [run_bind (run_modify _ st), run_bind hrun2, ← hadvance]
      rfl
    · rw [hadvance]
      intro e he
      rcases mem_append.mp ((pushAll_perm _ _).mem_iff.mp he) with he | he
      · exact hfound2 e he
      · have hmem := hpq ▸ mem_cons_of_mem pending (H.mem_pop.mp he)
        exact (hq.mono (hmoves1.trans hmoves2).grows) e hmem

/-- A node that has moved no further than a child keeps what it holds. -/
theorem Holds.frame {st' : LazyForest S} {j : Nat} (h : Holds H F st j) (hnode : st' j = st j)
    (hgrows : ∀ j, (st j).memo.length ≤ (st' j).memo.length) : Holds H F st' j := by
  obtain ⟨n, hm, hq, hf⟩ := h
  exact ⟨n, by rw [hnode, hm], by rw [hnode, hq], by rw [hnode]; exact hf.mono hgrows⟩

/-- **A node's answers do not depend on who asked before**: asked for the next entry of its memo, or one that is there,
node `i` answers with `best`, and the memos still hold the answers. -/
theorem getBest_spec (i : Nat) : ∀ {st : LazyForest S} {n : Nat}, (∀ j ≤ i, Holds H F st j) → n ≤ (st i).memo.length →
    ∃ st', getBest H i n st = (best H F i n, st') ∧ (∀ j ≤ i, Holds H F st' j) ∧ (∀ j, i < j → st' j = st j) ∧
      (∀ j, (st j).memo.length ≤ (st' j).memo.length) ∧ n < (st' i).memo.length := by
  induction i using Nat.strong_induction_on with
  | h i ih =>
  intro st n hst hn
  have hchild : ChildSpec H F i fun c m => if c < i then getBest H c m else pure none := by
    intro c m st1 hb hm
    by_cases hc : c < i
    · obtain ⟨st', hrun, hholds, habove, hgrows, hlen⟩ := ih c hc (fun j hj => hb j (by omega)) (hm hc)
      refine ⟨st', ?_, ⟨fun _ j hj => ?_, fun j hj => habove j (by omega), ?_, hgrows⟩, ?_, fun _ => hlen⟩
      · simp only [answers, if_pos hc, hrun]
      · by_cases hjc : j ≤ c
        · exact hholds j hjc
        · exact (hb j hj).frame (habove j (by omega)) hgrows
      · rw [habove i hc]
      · rw [habove i hc]
    · refine ⟨st1, ?_, ⟨fun h => h, fun _ _ => rfl, rfl, fun _ => le_rfl⟩, rfl, fun h => absurd h hc⟩
      simp only [answers, if_neg hc]
      rfl
  obtain ⟨n', hmemo, hpq, hfound⟩ := hst i le_rfl
  have hlen : (st i).memo.length = n' + 1 := by rw [hmemo]; simp
  rw [getBest]
  unfold getBestWith
  rw [run_bind (run_get st)]
  by_cases hn' : n < n' + 1
  · -- the entry is there
    have hentry : (st i).memo[n]? = some (.ofOption (best H F i n)) := by
      rw [hmemo]
      simp [hn']
    refine ⟨st, ?_, hst, fun _ _ => rfl, fun _ => le_rfl, by omega⟩
    rw [hentry]
    cases best H F i n <;> rfl
  · have hnext : n = n' + 1 := by omega
    have hentry : (st i).memo[n]? = none := getElem?_eq_none (by omega)
    rw [hentry]
    dsimp only
    rw [run_bind (run_modify _ st)]
    -- the node with the entry pending
    obtain ⟨st1, hst1⟩ : ∃ st1, st1 = update st i { st i with memo := (st i).memo ++ [.pending] } := ⟨_, rfl⟩
    have hnode1 : st1 i = { st i with memo := (st i).memo ++ [.pending] } := by rw [hst1, update_self]
    have hother1 : ∀ j, j ≠ i → st1 j = st j := fun j hj => by rw [hst1, update_of_ne hj]
    have hgrows1 : ∀ j, (st j).memo.length ≤ (st1 j).memo.length := by
      intro j
      by_cases hj : j = i
      · subst hj
        rw [hnode1]
        simp
      · rw [hother1 j hj]
    rw [← hst1]
    have hbelow1 : ∀ j < i, Holds H F st1 j := fun j hj => (hst j hj.le).frame (hother1 j hj.ne) hgrows1
    have hfound1 : Founded st1 i (st1 i).pq := by
      rw [hnode1]
      exact hfound.mono hgrows1
    obtain ⟨st2, hrun2, hmoves2, hpq2, hfound2⟩ := nextBest_spec hchild hbelow1 hfound1
    have hpq1 : (st1 i).pq = queue H F i n' := by rw [hnode1]; exact hpq
    rw [hpq1, ← queue_succ] at hrun2 hpq2
    rw [← best_eq] at hrun2
    rw [run_bind hrun2]
    obtain ⟨st3, hst3⟩ : ∃ st3, st3 = update st2 i
      { st2 i with memo := (st2 i).memo.dropLast ++ [.ofOption (best H F i (n' + 1))] } := ⟨_, rfl⟩
    have hnode3 : st3 i = { st2 i with memo := (st2 i).memo.dropLast ++ [.ofOption (best H F i (n' + 1))] } := by
      rw [hst3, update_self]
    have hother3 : ∀ j, j ≠ i → st3 j = st2 j := fun j hj => by rw [hst3, update_of_ne hj]
    have hmemo3 : (st3 i).memo = (range (n' + 1 + 1)).map fun m => MemoEntry.ofOption (best H F i m) := by
      rw [hnode3]
      rw [hmoves2.memo, hnode1]
      rw [dropLast_concat, hmemo, range_succ (n := n' + 1), map_append]
      rfl
    have hgrows3 : ∀ j, (st2 j).memo.length ≤ (st3 j).memo.length := by
      intro j
      by_cases hj : j = i
      · subst hj
        rw [hmemo3, hmoves2.memo, hnode1]
        simp [hlen]
      · rw [hother3 j hj]
    have hgrows : ∀ j, (st j).memo.length ≤ (st3 j).memo.length := fun j =>
      (hgrows1 j).trans ((hmoves2.grows j).trans (hgrows3 j))
    refine ⟨st3, ?_, fun j hj => ?_, fun j hj => ?_, hgrows, ?_⟩
    · rw [hnext, hst3]
      rfl
    · rcases hj.lt_or_eq with hj | rfl
      · have hb1 : ∀ j < i, Holds H F st1 j := fun j hj => (hst j hj.le).frame (hother1 j hj.ne) hgrows1
        exact (hmoves2.below hb1 j hj).frame (hother3 j hj.ne) hgrows3
      · refine ⟨n' + 1, hmemo3, by rw [hnode3]; exact hpq2, ?_⟩
        rw [hnode3]
        exact hfound2.mono hgrows3
    · rw [hother3 j hj.ne', hmoves2.above j hj, hother1 j hj.ne']
    · rw [hmemo3]
      simp [hnext]

end

end

end Sbmt.Forest
