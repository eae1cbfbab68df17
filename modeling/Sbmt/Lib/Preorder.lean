import Mathlib
/-!
# Trees in an array, in preorder and with relative links

A node is followed by its first child, to which its link is 1, and the link of a child that another follows leads over
its own subtree; a link that leads nowhere is 0.  Who follows the links finds the tree again (`read_encode`), and its leaves
from left to right (`visit_eq`).
-/

namespace Sbmt.Lib

open Option

inductive Rose (α : Type) where
  | node (a : α) (children : List (Rose α))

/-- Nodes that have a label and two links. -/
structure Layout (ν α : Type) where
  node : α → Nat → Nat → ν
  label : ν → α
  next : ν → Nat
  first : ν → Nat
  label_node : ∀ a i j, label (node a i j) = a
  next_node : ∀ a i j, next (node a i j) = i
  first_node : ∀ a i j, first (node a i j) = j

namespace Rose

variable {ν α : Type}

mutual

def size : Rose α → Nat
  | .node _ ks => 1 + sizes ks

def sizes : List (Rose α) → Nat
  | [] => 0
  | k :: ks => size k + sizes ks

end

mutual

/-- The labels of the leaves from left to right. -/
def leaves : Rose α → List α
  | .node a [] => [a]
  | .node _ (k :: ks) => leaves k ++ leavesOf ks

def leavesOf : List (Rose α) → List α
  | [] => []
  | k :: ks => leaves k ++ leavesOf ks

end

theorem size_pos (T : Rose α) : 0 < size T := by
  cases T with
  | node a ks =>
    rw [size]
    omega

variable (L : Layout ν α)

mutual

/-- A tree in preorder, where `next` is the link of its root. -/
def encode : Nat → Rose α → List ν
  | next, .node a ks => L.node a next (if ks = [] then 0 else 1) :: encodes ks

/-- Siblings in preorder. -/
def encodes : List (Rose α) → List ν
  | [] => []
  | k :: ks => encode (if ks = [] then 0 else size k) k ++ encodes ks

end

mutual

theorem length_encode : ∀ (T : Rose α) (next : Nat), (encode L next T).length = size T
  | .node a ks, next => by
    rw [encode, size, List.length_cons, length_encodes ks]
    omega

theorem length_encodes : ∀ ks : List (Rose α), (encodes L ks).length = sizes ks
  | [] => rfl
  | k :: ks => by rw [encodes, sizes, List.length_append, length_encode k, length_encodes ks]

end

mutual

/-- No link leads out of the array. -/
theorem links_encode : ∀ (T : Rose α) (next j : Nat) (c : ν), (encode L next T)[j]? = some c →
    (j = 0 ∧ L.next c = next ∨ j + L.next c < size T) ∧ j + L.first c < size T
  | .node a ks, next, 0, c, h => by
    obtain rfl := Option.some.inj h
    refine ⟨.inl ⟨rfl, L.next_node _ _ _⟩, ?_⟩
    rw [L.first_node, size]
    cases ks with
    | nil => rw [if_pos rfl]; omega
    | cons k ks =>
      have hk := size_pos k
      rw [if_neg (by simp), sizes]
      omega
  | .node a ks, next, j + 1, c, h => by
    obtain ⟨hnext, hfirst⟩ := links_encodes ks j c h
    rw [size]
    exact ⟨.inr (by omega), by omega⟩

theorem links_encodes : ∀ (ks : List (Rose α)) (j : Nat) (c : ν), (encodes L ks)[j]? = some c →
    j + L.next c < sizes ks ∧ j + L.first c < sizes ks
  | [], j, c, h => by simp [encodes] at h
  | k :: ks, j, c, h => by
    rw [encodes, List.getElem?_append, length_encode] at h
    rw [sizes]
    split at h
    · obtain ⟨hnext, hfirst⟩ := links_encode k _ j c h
      rcases hnext with ⟨rfl, hnext⟩ | hnext
      · -- the link of a child is that to the next, which is not behind the last
        rw [hnext]
        cases ks with
        | nil =>
          rw [if_pos rfl]
          omega
        | cons k' ks =>
          have hk' := size_pos k'
          rw [if_neg (by simp), sizes]
          omega
      · omega
    · obtain ⟨hnext, hfirst⟩ := links_encodes ks _ c h
      exact ⟨by omega, by omega⟩

end

/-! ## Following the links -/

mutual

/-- The tree at `pos`; each call is further down or to the right. -/
def read (vec : List ν) : Nat → Nat → Option (Rose α)
  | 0, _ => none
  | n + 1, pos => vec[pos]?.bind fun c =>
    if L.first c = 0 then some (.node (L.label c) [])
    else (reads vec n (pos + L.first c)).map (.node (L.label c))

/-- The siblings from `pos` on. -/
def reads (vec : List ν) : Nat → Nat → Option (List (Rose α))
  | 0, _ => none
  | n + 1, pos => vec[pos]?.bind fun c => (read vec n pos).bind fun k =>
    if L.next c = 0 then some [k] else (reads vec n (pos + L.next c)).map (k :: ·)

end

mutual

/-- The leaves below `pos`, numbered from `p` on, and the number behind the last. -/
def visit (vec : List ν) : Nat → Nat → Nat → Option (List (α × Nat) × Nat)
  | 0, _, _ => none
  | n + 1, pos, p => vec[pos]?.bind fun c =>
    if L.first c = 0 then some ([(L.label c, p)], p + 1) else visits vec n (pos + L.first c) p

def visits (vec : List ν) : Nat → Nat → Nat → Option (List (α × Nat) × Nat)
  | 0, _, _ => none
  | n + 1, pos, p => vec[pos]?.bind fun c => (visit vec n pos p).bind fun v =>
    if L.next c = 0 then some v else (visits vec n (pos + L.next c) v.2).map fun w => (v.1 ++ w.1, w.2)

end

variable {L}

theorem encode_cons (T : Rose α) (next : Nat) : ∃ c rest, encode L next T = c :: rest ∧ L.next c = next := by
  cases T with
  | node a ks => exact ⟨_, _, by rw [encode], L.next_node _ _ _⟩

mutual

/-- Twice as many calls as there are nodes are enough. -/
theorem read_append : ∀ (T : Rose α) (vec : List ν) (n next : Nat) (pre post : List ν),
    vec = pre ++ encode L next T ++ post → 2 * size T ≤ n + 1 → read L vec n pre.length = some T
  | .node a ks, vec, n, next, pre, post, hvec, hn => by
    rw [size] at hn
    obtain ⟨n, rfl⟩ := Nat.exists_eq_succ_of_ne_zero (by omega : n ≠ 0)
    have hget : vec[pre.length]? = some (L.node a next (if ks = [] then 0 else 1)) := by simp [hvec, encode]
    rw [read, hget, bind_some, L.first_node, L.label_node]
    by_cases hks : ks = []
    · rw [if_pos hks, if_pos rfl, hks]
    · have hmore := reads_append ks hks vec n (pre ++ [L.node a next (if ks = [] then 0 else 1)]) post
        (by simp [hvec, encode]) (by omega)
      rw [List.length_append, List.length_singleton] at hmore
      rw [if_neg hks, hmore]
      rfl

theorem reads_append : ∀ ks : List (Rose α), ks ≠ [] → ∀ (vec : List ν) (n : Nat) (pre post : List ν),
    vec = pre ++ encodes L ks ++ post → 2 * sizes ks ≤ n → reads L vec n pre.length = some ks
  | [], hne, _, _, _, _, _, _ => absurd rfl hne
  | k :: ks, _, vec, n, pre, post, hvec, hn => by
    rw [sizes] at hn
    have hk := size_pos k
    obtain ⟨n, rfl⟩ := Nat.exists_eq_succ_of_ne_zero (by omega : n ≠ 0)
    rw [encodes] at hvec
    have hread := read_append k vec n (if ks = [] then 0 else size k) pre (encodes L ks ++ post)
      (by rw [hvec]; simp) (by omega)
    obtain ⟨c, rest, hc, hnext⟩ := encode_cons (L := L) k (if ks = [] then 0 else size k)
    have hget : vec[pre.length]? = some c := by simp [hvec, hc]
    rw [reads, hget, bind_some, hread, bind_some, hnext]
    by_cases hks : ks = []
    · rw [if_pos hks, if_pos rfl, hks]
    · have hmore := reads_append ks hks vec n (pre ++ encode L (if ks = [] then 0 else size k) k) post
        (by rw [hvec]; simp) (by omega)
      rw [List.length_append, length_encode] at hmore
      rw [if_neg hks, if_neg hk.ne', hmore]
      rfl

end

/-- **The links of an array give the tree** that it was made of. -/
theorem read_encode (T : Rose α) {n : Nat} (hn : 2 * size T ≤ n + 1) : read L (encode L 0 T) n 0 = some T :=
  read_append T _ n 0 [] [] (by simp) hn

theorem encode_injective {T T' : Rose α} (h : encode L 0 T = encode L 0 T') : T = T' := by
  have hread := read_encode (L := L) T (n := 2 * size T + 2 * size T') (by omega)
  rw [h, read_encode T' (by omega)] at hread
  exact (Option.some.inj hread).symm

theorem reads_ne_nil {vec : List ν} {n pos : Nat} {ks : List (Rose α)} (h : reads L vec n pos = some ks) : ks ≠ [] := by
  cases n with
  | zero => simp [reads] at h
  | succ n =>
    simp only [reads, bind_eq_some_iff] at h
    obtain ⟨c, _, k, _, h⟩ := h
    split at h
    · rw [← Option.some.inj h]
      simp
    · obtain ⟨ks', _, rfl⟩ := map_eq_some_iff.1 h
      simp

/-- A leaf is visited where the tree that is read has it. -/
theorem visit_eq (vec : List ν) (n : Nat) :
    (∀ pos p, visit L vec n pos p = (read L vec n pos).map fun T => ((leaves T).zipIdx p, p + (leaves T).length)) ∧
      ∀ pos p, visits L vec n pos p =
        (reads L vec n pos).map fun ks => ((leavesOf ks).zipIdx p, p + (leavesOf ks).length) := by
  induction n with
  | zero => exact ⟨fun _ _ => rfl, fun _ _ => rfl⟩
  | succ n ih =>
    obtain ⟨ihvisit, ihvisits⟩ := ih
    constructor
    · intro pos p
      rw [visit, read]
      cases vec[pos]? with
      | none => rfl
      | some c =>
        simp only [bind_some]
        split
        · rfl
        · rw [ihvisits]
          cases hks : reads L vec n (pos + L.first c) with
          | none => rfl
          | some ks =>
            cases ks with
            | nil => exact absurd rfl (reads_ne_nil hks)
            | cons k ks => simp [leaves, leavesOf]
    · intro pos p
      rw [visits, reads]
      cases vec[pos]? with
      | none => rfl
      | some c =>
        simp only [bind_some, ihvisit]
        cases read L vec n pos with
        | none => rfl
        | some k =>
          simp only [map_some, bind_some]
          split
          · simp [leavesOf]
          · rw [ihvisits]
            cases reads L vec n (pos + L.next c) with
            | none => rfl
            | some ks =>
              simp only [map_some, leavesOf, List.zipIdx_append, List.length_append, Nat.add_assoc]

/-- **The leaves of an array are numbered** from left to right. -/
theorem visit_encode (T : Rose α) {n : Nat} (hn : 2 * size T ≤ n + 1) (p : Nat) :
    visit L (encode L 0 T) n 0 p = some ((leaves T).zipIdx p, p + (leaves T).length) := by
  rw [(visit_eq _ n).1, read_encode T hn]
  rfl

end Rose

end Sbmt.Lib
