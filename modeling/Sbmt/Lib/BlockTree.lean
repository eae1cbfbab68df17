import Mathlib

/-!
# Binary trees whose nodes all cover an interval

The combinatorics under every shift-reduce parser of permutations. A tree is *interval-wise* when the leaves
under each node form an order-connected set. `exists_joinable` is the confluence fact: any partition of such a
tree's leaves into at least two consecutive order-connected blocks, **whatever** the partition, has two
neighbouring blocks whose union is order-connected again. A greedy reducer therefore never paints itself into a
corner.
-/

namespace Sbmt.Lib

open List

variable {α : Type*}

/-- Binary trees with labelled leaves. -/
inductive BinTree (α : Type*)
  | leaf (a : α)
  | node (l r : BinTree α)

namespace BinTree

/-- The leaves, left to right. -/
def leaves : BinTree α → List α
  | leaf a => [a]
  | node l r => l.leaves ++ r.leaves

theorem leaves_ne_nil : ∀ t : BinTree α, t.leaves ≠ []
  | leaf _ => by simp [leaves]
  | node l r => by simp [leaves, leaves_ne_nil l]

end BinTree

/-! ## Blocks: nonempty lists covering an interval -/

/-- A nonempty list whose set of elements has no gap. -/
structure Block [Preorder α] (l : List α) : Prop where
  ne : l ≠ []
  conn : {x | x ∈ l}.OrdConnected

theorem Block.singleton [PartialOrder α] (a : α) : Block [a] := by
  refine ⟨by simp, ?_⟩
  simpa using Set.ordConnected_singleton (a := a)

/-- Two order-connected sets that share a point have an order-connected union. -/
theorem ordConnected_union [LinearOrder α] {s t : Set α} (hs : s.OrdConnected) (ht : t.OrdConnected) {c : α}
    (hcs : c ∈ s) (hct : c ∈ t) : (s ∪ t).OrdConnected := by
  refine ⟨fun x hx y hy z hz => ?_⟩
  rcases le_total z c with hzc | hzc
  · rcases hx with hx | hx
    · exact .inl (hs.out hx hcs ⟨hz.1, hzc⟩)
    · exact .inr (ht.out hx hct ⟨hz.1, hzc⟩)
  · rcases hy with hy | hy
    · exact .inl (hs.out hcs hy ⟨hzc, hz.2⟩)
    · exact .inr (ht.out hct hy ⟨hzc, hz.2⟩)

theorem Block.join [LinearOrder α] {x c d : List α} (hc : c ≠ []) (hxc : Block (x ++ c)) (hcd : Block (c ++ d)) :
    Block (x ++ (c ++ d)) := by
  obtain ⟨a, ha⟩ := exists_mem_of_ne_nil c hc
  have h := ordConnected_union (c := a) hxc.conn hcd.conn (by simp [ha]) (by simp [ha])
  refine ⟨by simp [hc], ?_⟩
  convert h using 1
  ext y
  simp only [mem_append, Set.mem_ofPred_eq, Set.mem_union]
  tauto

/-- The part of a block that lies in another block, when the two only overlap there. -/
theorem Block.part [LinearOrder α] {b l c : List α} (hb : Block b) (hl : Block l) (hc : c ≠ [])
    (h : ∀ x, x ∈ c ↔ x ∈ b ∧ x ∈ l) : Block c := by
  refine ⟨hc, ?_⟩
  have : {x | x ∈ c} = {x | x ∈ b} ∩ {x | x ∈ l} := by ext x; exact h x
  rw [this]
  exact hb.conn.inter hl.conn

/-- A partition cut in two: the cut falls between two blocks, or splits one into two nonempty parts. -/
theorem flatten_cut {bs : List (List α)} {l r : List α} (h : bs.flatten = l ++ r) :
    (∃ bs1 bs2, bs = bs1 ++ bs2 ∧ bs1.flatten = l ∧ bs2.flatten = r) ∨
    ∃ bs1 c d bs2, bs = bs1 ++ (c ++ d) :: bs2 ∧ c ≠ [] ∧ d ≠ [] ∧ l = bs1.flatten ++ c ∧ r = d ++ bs2.flatten := by
  rcases flatten_eq_append_iff.1 h with ⟨bs1, bs2, rfl, h1, h2⟩ | ⟨bs1, c, x, d, bs2, rfl, h1, h2⟩
  · exact .inl ⟨bs1, bs2, rfl, h1.symm, h2.symm⟩
  · by_cases hc : c = []
    · subst hc
      exact .inl ⟨bs1, (x :: d) :: bs2, rfl, by simpa using h1.symm, by simpa using h2.symm⟩
    · exact .inr ⟨bs1, c, x :: d, bs2, rfl, hc, by simp, h1, h2⟩

/-! ## Interval-wise trees and the confluence of block joining -/

namespace BinTree

variable [LinearOrder α]

/-- Every node of the tree covers a block. -/
def Intervalwise : BinTree α → Prop
  | leaf _ => True
  | node l r => l.Intervalwise ∧ r.Intervalwise ∧ Block (l.leaves ++ r.leaves)

theorem Intervalwise.block : ∀ {t : BinTree α}, t.Intervalwise → Block t.leaves
  | leaf a, _ => Block.singleton a
  | node _ _, h => h.2.2

/-- Two neighbouring blocks of the partition that may be joined. -/
def Joinable (bs : List (List α)) : Prop :=
  ∃ pre x y post, bs = pre ++ x :: y :: post ∧ Block (x ++ y)

variable {bs : List (List α)}

theorem Joinable.append (h : Joinable bs) (cs : List (List α)) : Joinable (bs ++ cs) := by
  obtain ⟨pre, x, y, post, rfl, hxy⟩ := h
  exact ⟨pre, x, y, post ++ cs, by simp, hxy⟩

theorem Joinable.prepend (h : Joinable bs) (cs : List (List α)) : Joinable (cs ++ bs) := by
  obtain ⟨pre, x, y, post, rfl, hxy⟩ := h
  exact ⟨cs ++ pre, x, y, post, by simp, hxy⟩

/-- A pair joinable after the last block was cut short is joinable with the whole block. -/
theorem Joinable.extend_last {c d : List α} (hc : c ≠ []) (hcd : Block (c ++ d))
    (h : Joinable (bs ++ [c])) : Joinable (bs ++ [c ++ d]) := by
  obtain ⟨pre, x, y, post, he, hxy⟩ := h
  rcases eq_nil_or_concat post with rfl | ⟨post, p, rfl⟩
  · obtain ⟨rfl, rfl⟩ : bs = pre ++ [x] ∧ c = y := by
      have : bs ++ [c] = (pre ++ [x]) ++ [y] := by simpa using he
      simpa using append_inj' this (by simp)
    exact ⟨pre, x, c ++ d, [], by simp, hxy.join hc hcd⟩
  · obtain ⟨rfl, -⟩ : bs = pre ++ x :: y :: post ∧ c = p := by
      have : bs ++ [c] = (pre ++ x :: y :: post) ++ [p] := by simpa using he
      simpa using append_inj' this (by simp)
    exact ⟨pre, x, y, post ++ [c ++ d], by simp, hxy⟩

/-- A pair joinable after the first block was cut short is joinable with the whole block. -/
theorem Joinable.extend_head {c d : List α} (hd : d ≠ []) (hcd : Block (c ++ d))
    (h : Joinable (d :: bs)) : Joinable ((c ++ d) :: bs) := by
  obtain ⟨pre, x, y, post, he, hxy⟩ := h
  cases pre with
  | nil =>
    obtain ⟨rfl, rfl⟩ : d = x ∧ bs = y :: post := by simpa using he
    exact ⟨[], c ++ d, y, post, rfl, by simpa using hcd.join hd hxy⟩
  | cons p pre =>
    obtain ⟨rfl, rfl⟩ : d = p ∧ bs = pre ++ x :: y :: post := by simpa using he
    exact ⟨(c ++ d) :: pre, x, y, post, rfl, hxy⟩

theorem length_le_one_of_flatten_singleton {a : α} :
    ∀ {bs : List (List α)}, (∀ b ∈ bs, Block b) → bs.flatten = [a] → bs.length ≤ 1
  | [], _, _ => by simp
  | [_], _, _ => by simp
  | x :: y :: bs, hb, h => by
    have hx := length_pos_of_ne_nil (hb x (by simp)).ne
    have hy := length_pos_of_ne_nil (hb y (by simp)).ne
    have := congrArg List.length h
    simp only [flatten_cons, length_append, length_singleton] at this
    omega

/-- Both parts of a block cut by the boundary between two disjoint blocks are blocks. -/
theorem Block.cut {b1 c d b2 : List α} (hl : Block (b1 ++ c)) (hr : Block (d ++ b2)) (hcd : Block (c ++ d))
    (hc : c ≠ []) (hd : d ≠ []) (hdisj : ∀ x ∈ b1 ++ c, ∀ y ∈ d ++ b2, x ≠ y) : Block c ∧ Block d := by
  refine ⟨hcd.part hl hc fun x => ⟨fun h => by simp [h], fun ⟨h, h'⟩ => ?_⟩,
    hcd.part hr hd fun x => ⟨fun h => by simp [h], fun ⟨h, h'⟩ => ?_⟩⟩
  · rcases mem_append.1 h with h | h
    · exact h
    · exact absurd rfl (hdisj x h' x (by simp [h]))
  · rcases mem_append.1 h with h | h
    · exact absurd rfl (hdisj x (by simp [h]) x h')
    · exact h

/-- **Confluence.** Any partition of an interval-wise tree's leaves into two or more consecutive blocks has two
neighbours that join to a block. -/
theorem exists_joinable : ∀ {t : BinTree α} {bs : List (List α)}, t.Intervalwise → t.leaves.Nodup →
    bs.flatten = t.leaves → (∀ b ∈ bs, Block b) → 2 ≤ bs.length → Joinable bs
  | leaf a, bs, _, _, hf, hb, hlen => by
    have := length_le_one_of_flatten_singleton hb (by simpa [leaves] using hf)
    omega
  | node l r, bs, ⟨hl, hr, hlr⟩, hnd, hf, hb, hlen => by
    simp only [leaves, nodup_append] at hnd
    obtain ⟨hndl, hndr, hdisj⟩ := hnd
    rcases flatten_cut hf with ⟨bs1, bs2, rfl, h1, h2⟩ | ⟨bs1, c, d, bs2, rfl, hc, hd, h1, h2⟩
    · by_cases hlen1 : 2 ≤ bs1.length
      · exact (exists_joinable hl hndl h1 (fun b h => hb b (by simp [h])) hlen1).append _
      by_cases hlen2 : 2 ≤ bs2.length
      · exact (exists_joinable hr hndr h2 (fun b h => hb b (by simp [h])) hlen2).prepend _
      -- one block per subtree: the two blocks are the subtrees, and the node itself joins them
      have hne1 : bs1 ≠ [] := by rintro rfl; exact leaves_ne_nil l h1.symm
      have hne2 : bs2 ≠ [] := by rintro rfl; exact leaves_ne_nil r h2.symm
      obtain ⟨x, rfl⟩ : ∃ x, bs1 = [x] := by
        rw [← length_eq_one_iff]
        have := length_pos_of_ne_nil hne1
        omega
      obtain ⟨y, rfl⟩ : ∃ y, bs2 = [y] := by
        rw [← length_eq_one_iff]
        have := length_pos_of_ne_nil hne2
        omega
      refine ⟨[], x, y, [], rfl, ?_⟩
      rw [← h1, ← h2] at hlr
      simpa using hlr
    · -- the boundary falls inside `c ++ d`: shrink that block to the side that still has another block
      have hcd : Block (c ++ d) := hb _ (by simp)
      obtain ⟨hbc, hbd⟩ := Block.cut (h1 ▸ hl.block) (h2 ▸ hr.block) hcd hc hd (by rwa [← h1, ← h2])
      by_cases hlen1 : bs1 = []
      · have hlen2 : 2 ≤ (d :: bs2).length := by
          subst hlen1
          simpa using hlen
        have hf2 : (d :: bs2).flatten = r.leaves := by simp [h2]
        have ih := exists_joinable hr hndr hf2 (by simpa [hbd] using fun b h => hb b (by simp [h])) hlen2
        exact (ih.extend_head hd hcd).prepend _
      · have hlen2 : 2 ≤ (bs1 ++ [c]).length := by
          have := length_pos_of_ne_nil hlen1
          simp only [length_append, length_singleton]
          omega
        have hf1 : (bs1 ++ [c]).flatten = l.leaves := by simp [h1]
        have ih := exists_joinable hl hndl hf1 (fun b h => ?_) hlen2
        · simpa using (ih.extend_last hc hcd).append bs2
        · rcases mem_append.1 h with h | h
          · exact hb b (by simp [h])
          · obtain rfl : b = c := by simpa using h
            exact hbc

end BinTree

end Sbmt.Lib
