import Mathlib
/-!
# Exploring positions behind a frontier

A search visits the positions of a finite `box`, and keeps a list of those it may visit next.  All it owes is
that the list `Covers` what is left: behind every unvisited position outside the list stands an
unvisited predecessor.  Then the search visits every position exactly once, in whatever order it picks
from the list (`Search.complete`), and best first, when it picks the best and predecessors are at least
as good as their successors (`Search.sorted`).

Two kinds of list are kept here.  On a `Frontier` a position waits for all its predecessors; on a `Spread`
it comes with the first of them, and whoever keeps the list has to remember what has been on it.
-/

namespace Sbmt.Lib

open List

variable {Q K St : Type}

/-- `D` has been visited, and there is no way into the rest of the box but through `front`. -/
structure Covers (box : Finset Q) (preds : Q → Finset Q) (D : Finset Q) (front : List Q) : Prop where
  fresh : ∀ p ∈ front, p ∈ box ∧ p ∉ D
  behind : ∀ p ∈ box, p ∉ D → p ∉ front → ∃ q ∈ preds p, q ∈ box ∧ q ∉ D

/-- Behind every position that is left there is one in front that is at least as good. -/
theorem Covers.exists_best [Preorder K] {box : Finset Q} {preds : Q → Finset Q} {D : Finset Q} {front : List Q}
    (h : Covers box preds D front) {rank : Q → Nat} (hrank : ∀ p, ∀ q ∈ preds p, rank q < rank p) {value : Q → K}
    (hmono : ∀ p ∈ box, ∀ q ∈ preds p, value p ≤ value q) (p : Q) (hp : p ∈ box) (hD : p ∉ D) :
    ∃ q ∈ front, value p ≤ value q := by
  induction hr : rank p using Nat.strong_induction_on generalizing p with
  | _ r ih =>
    by_cases hpf : p ∈ front
    · exact ⟨p, hpf, le_rfl⟩
    · obtain ⟨q, hq, hqb, hqD⟩ := h.behind p hp hD hpf
      obtain ⟨q', hq', hle⟩ := ih (rank q) (hr ▸ hrank p q hq) q hqb hqD rfl
      exact ⟨q', hq', (hmono p hp q hq).trans hle⟩

/-- `D` has been visited and `front` may be visited next. -/
structure Frontier (box : Finset Q) (preds : Q → Finset Q) (D : Finset Q) (front : List Q) : Prop where
  visited : D ⊆ box
  closed : ∀ p ∈ D, preds p ⊆ D
  nodup : front.Nodup
  mem : ∀ p, p ∈ front ↔ p ∈ box ∧ p ∉ D ∧ preds p ⊆ D

namespace Frontier

variable {box : Finset Q} {preds : Q → Finset Q} {D : Finset Q} {front : List Q} {pos : Q} {rest : List Q}

/-- Before the first visit the frontier is what has no predecessor. -/
theorem start (hn : front.Nodup) (hmem : ∀ p, p ∈ front ↔ p ∈ box ∧ preds p = ∅) : Frontier box preds ∅ front where
  visited := Finset.empty_subset _
  closed _ h := absurd h (Finset.notMem_empty _)
  nodup := hn
  mem p := by simp [hmem, Finset.subset_empty]

theorem perm (h : Frontier box preds D front) {front' : List Q} (hp : front'.Perm front) : Frontier box preds D front' :=
  ⟨h.visited, h.closed, hp.nodup_iff.mpr h.nodup, fun p => hp.mem_iff.trans (h.mem p)⟩

theorem covers (h : Frontier box preds D front) (hbox : ∀ p ∈ box, preds p ⊆ box) : Covers box preds D front where
  fresh p hp := ⟨((h.mem p).mp hp).1, ((h.mem p).mp hp).2.1⟩
  behind p hp hD hpf := by
    have hpp : ¬ preds p ⊆ D := fun hpp => hpf ((h.mem p).mpr ⟨hp, hD, hpp⟩)
    obtain ⟨q, hq, hqD⟩ := Finset.not_subset.mp hpp
    exact ⟨q, hq, hbox p hp hq, hqD⟩

variable [DecidableEq Q]

/-- Visiting one position: `new` are the positions it makes ready. -/
theorem visit (h : Frontier box preds D (pos :: rest)) (hself : pos ∉ preds pos) {new : List Q} (hn : new.Nodup)
    (hnew : ∀ p, p ∈ new ↔ p ∈ box ∧ pos ∈ preds p ∧ preds p ⊆ insert pos D) :
    Frontier box preds (insert pos D) (new ++ rest) := by
  obtain ⟨hbox, hD, hpreds⟩ := (h.mem pos).mp mem_cons_self
  obtain ⟨hpos, hrest⟩ := nodup_cons.mp h.nodup
  -- a position with an unvisited predecessor is neither visited nor ready
  have hfresh : ∀ p ∈ new, p ∉ D ∧ p ∉ pos :: rest := by
    intro p hp
    have hmem := ((hnew p).mp hp).2.1
    exact ⟨fun hpD => hD (h.closed p hpD hmem), fun hpf => hD (((h.mem p).mp hpf).2.2 hmem)⟩
  refine ⟨?_, ?_, ?_, ?_⟩
  · exact Finset.insert_subset hbox h.visited
  · intro p hp
    rcases Finset.mem_insert.mp hp with rfl | hp
    · exact hpreds.trans (Finset.subset_insert _ _)
    · exact (h.closed p hp).trans (Finset.subset_insert _ _)
  · refine Nodup.append hn hrest fun p hp hp' => ?_
    exact (hfresh p hp).2 (mem_cons_of_mem pos hp')
  · intro p
    rw [mem_append]
    constructor
    · rintro (hp | hp)
      · obtain ⟨hpb, -, hpp⟩ := (hnew p).mp hp
        refine ⟨hpb, fun hpD => ?_, hpp⟩
        rcases Finset.mem_insert.mp hpD with rfl | hpD
        · exact (hfresh p hp).2 mem_cons_self
        · exact (hfresh p hp).1 hpD
      · obtain ⟨hpb, hpD, hpp⟩ := (h.mem p).mp (mem_cons_of_mem pos hp)
        refine ⟨hpb, fun hpD' => ?_, hpp.trans (Finset.subset_insert _ _)⟩
        rcases Finset.mem_insert.mp hpD' with rfl | hpD'
        · exact hpos hp
        · exact hpD hpD'
    · rintro ⟨hpb, hpD, hpp⟩
      by_cases hmem : pos ∈ preds p
      · exact .inl ((hnew p).mpr ⟨hpb, hmem, hpp⟩)
      · have hpp' : preds p ⊆ D := fun q hq => by
          rcases Finset.mem_insert.mp (hpp hq) with rfl | hq'
          · exact absurd hq hmem
          · exact hq'
        have hpf := (h.mem p).mpr ⟨hpb, fun hp => hpD (Finset.mem_insert_of_mem hp), hpp'⟩
        rcases mem_cons.mp hpf with rfl | hpf
        · exact absurd (Finset.mem_insert_self p D) hpD
        · exact .inr hpf

end Frontier

/-- `D` has been visited, and `front` is what has been come across since: what has no predecessor, and what has one in
`D`. -/
structure Spread (box : Finset Q) (preds : Q → Finset Q) (D : Finset Q) (front : List Q) : Prop where
  nodup : front.Nodup
  fresh : ∀ p ∈ front, p ∈ box ∧ p ∉ D
  start : ∀ p ∈ box, preds p = ∅ → p ∈ D ∨ p ∈ front
  next : ∀ p ∈ box, ∀ q ∈ preds p, q ∈ D → p ∈ D ∨ p ∈ front

namespace Spread

variable {box : Finset Q} {preds : Q → Finset Q} {D : Finset Q} {front : List Q} {pos : Q} {rest : List Q}

theorem perm (h : Spread box preds D front) {front' : List Q} (hp : front'.Perm front) : Spread box preds D front' := by
  obtain ⟨hn, hfresh, hstart, hnext⟩ := h
  refine ⟨hp.nodup_iff.mpr hn, fun p hpf => hfresh p (hp.mem_iff.mp hpf), fun p hb h0 => ?_, fun p hb q hq hqD => ?_⟩
  · exact (hstart p hb h0).imp_right hp.mem_iff.mpr
  · exact (hnext p hb q hq hqD).imp_right hp.mem_iff.mpr

theorem covers (h : Spread box preds D front) (hbox : ∀ p ∈ box, preds p ⊆ box) : Covers box preds D front where
  fresh := h.fresh
  behind p hp hD hpf := by
    have hne : (preds p).Nonempty := by
      rw [Finset.nonempty_iff_ne_empty]
      exact fun h0 => (h.start p hp h0).elim hD hpf
    obtain ⟨q, hq⟩ := hne
    exact ⟨q, hq, hbox p hp hq, fun hqD => (h.next p hp q hq hqD).elim hD hpf⟩

variable [DecidableEq Q]

/-- Visiting one position: `new` are the positions after it that have not been come across. -/
theorem visit (h : Spread box preds D (pos :: rest)) {new : List Q} (hn : new.Nodup)
    (hnew : ∀ p, p ∈ new ↔ p ∈ box ∧ pos ∈ preds p ∧ p ∉ D ∧ p ∉ pos :: rest) :
    Spread box preds (insert pos D) (new ++ rest) := by
  obtain ⟨hpos, hrest⟩ := nodup_cons.mp h.nodup
  -- what had been come across still is
  have hkeep : ∀ p, p ∈ D ∨ p ∈ pos :: rest → p ∈ insert pos D ∨ p ∈ new ++ rest := by
    rintro p (hp | hp)
    · exact .inl (Finset.mem_insert_of_mem hp)
    · rcases mem_cons.mp hp with rfl | hp
      · exact .inl (Finset.mem_insert_self p D)
      · exact .inr (mem_append_right new hp)
  refine ⟨?_, ?_, ?_, ?_⟩
  · refine Nodup.append hn hrest fun p hp hp' => ?_
    exact ((hnew p).mp hp).2.2.2 (mem_cons_of_mem pos hp')
  · intro p hp
    rw [Finset.mem_insert, not_or]
    rcases mem_append.mp hp with hp | hp
    · obtain ⟨hb, -, hD, hpf⟩ := (hnew p).mp hp
      exact ⟨hb, fun heq => hpf (heq ▸ mem_cons_self), hD⟩
    · obtain ⟨hb, hD⟩ := h.fresh p (mem_cons_of_mem pos hp)
      exact ⟨hb, fun heq => hpos (heq ▸ hp), hD⟩
  · intro p hb h0
    exact hkeep p (h.start p hb h0)
  · intro p hb q hq hqD
    rcases Finset.mem_insert.mp hqD with rfl | hqD
    · by_cases hold : p ∈ D ∨ p ∈ q :: rest
      · exact hkeep p hold
      · rw [not_or] at hold
        exact .inr (mem_append_left rest ((hnew p).mpr ⟨hb, hq, hold.1, hold.2⟩))
    · exact hkeep p (h.next p hb q hq hqD)

end Spread

/-! ## Machines that keep a frontier -/

/-- The positions a machine visits, always the first of its frontier. -/
def explore (front : St → List Q) (step : St → St) : Nat → St → List Q
  | 0, _ => []
  | fuel + 1, s =>
    match front s with
    | [] => []
    | pos :: _ => pos :: explore front step fuel (step s)

/-- If nothing follows an empty frontier, the `n`-th visit is to the first of the frontier after `n` steps. -/
theorem explore_getElem? {front : St → List Q} {step : St → St} (hend : ∀ s, front s = [] → front (step s) = []) :
    ∀ {fuel n : Nat} (s : St), n < fuel → (explore front step fuel s)[n]? = (front (step^[n] s)).head?
  | 0, _, _, h => absurd h (Nat.not_lt_zero _)
  | fuel + 1, n, s, h => by
    have hempty : ∀ m s, front s = [] → front (step^[m] s) = [] := by
      intro m
      induction m with
      | zero => exact fun _ hs => hs
      | succ m ih => exact fun s hs => ih (step s) (hend s hs)
    unfold explore
    cases hf : front s with
    | nil => rw [hempty n s hf]; rfl
    | cons pos rest =>
      cases n with
      | zero => simp [hf]
      | succ n => exact explore_getElem? hend (step s) (Nat.lt_of_succ_lt_succ h)

/-- A machine whose steps keep what it has not visited covered. -/
structure Search [DecidableEq Q] (box : Finset Q) (preds : Q → Finset Q) (front : St → List Q) (step : St → St) where
  Inv : Finset Q → St → Prop
  rank : Q → Nat
  rank_lt : ∀ p, ∀ q ∈ preds p, rank q < rank p
  covers : ∀ D s, Inv D s → Covers box preds D (front s)
  step : ∀ D s pos rest, Inv D s → front s = pos :: rest → Inv (insert pos D) (step s)

namespace Search

variable [DecidableEq Q] {box : Finset Q} {preds : Q → Finset Q} {front : St → List Q} {step : St → St}
  (M : Search box preds front step)

/-- With nothing left in front every position has been visited. -/
theorem done {D : Finset Q} {s : St} (hs : M.Inv D s) (hf : front s = []) : ∀ p ∈ box, p ∈ D := by
  intro p hp
  by_contra hD
  have hvalue : ∀ p ∈ box, ∀ q ∈ preds p, (fun _ : Q => 0) p ≤ (fun _ : Q => 0) q := fun _ _ _ _ => Nat.le_refl 0
  obtain ⟨q, hq, -⟩ := (M.covers D s hs).exists_best M.rank_lt hvalue p hp hD
  exact absurd (hf ▸ hq) not_mem_nil

/-- **Every position exactly once.** -/
theorem complete : ∀ {fuel : Nat} {D : Finset Q} {s : St}, M.Inv D s → (box \ D).card ≤ fuel →
    (explore front step fuel s).Nodup ∧ ∀ p, p ∈ explore front step fuel s ↔ p ∈ box ∧ p ∉ D
  | 0, D, s, hs, hfuel => by
    refine ⟨nodup_nil, fun p => ?_⟩
    have hempty := Finset.card_eq_zero.mp (Nat.le_zero.mp hfuel)
    rw [← Finset.mem_sdiff, hempty]
    simp [explore]
  | fuel + 1, D, s, hs, hfuel => by
    cases hf : front s with
    | nil =>
      simp only [explore, hf, nodup_nil, not_mem_nil, false_iff, true_and]
      exact fun p ⟨hp, hD⟩ => hD (M.done hs hf p hp)
    | cons pos rest =>
      obtain ⟨hpb, hpD⟩ := (M.covers D s hs).fresh pos (hf ▸ mem_cons_self)
      have hcard : (box \ insert pos D).card < (box \ D).card := by
        refine Finset.card_lt_card (Finset.ssubset_iff_of_subset ?_ |>.mpr ⟨pos, ?_, ?_⟩)
        · exact Finset.sdiff_subset_sdiff le_rfl (Finset.subset_insert pos D)
        · exact Finset.mem_sdiff.mpr ⟨hpb, hpD⟩
        · simp
      obtain ⟨hn, hmem⟩ := complete (M.step D s pos rest hs hf) (by omega : _ ≤ fuel)
      simp only [explore, hf, nodup_cons, mem_cons, hmem, Finset.mem_insert, not_or]
      refine ⟨⟨fun h => h.2.1 trivial, hn⟩, fun p => ?_⟩
      by_cases hp : p = pos
      · simp [hp, hpb, hpD]
      · simp [hp]

theorem length_le {s : St} (hs : M.Inv ∅ s) {fuel : Nat} (hfuel : box.card ≤ fuel) :
    (explore front step fuel s).length ≤ box.card := by
  have hcard : (box \ ∅).card ≤ fuel := by rwa [Finset.sdiff_empty]
  obtain ⟨hnodup, hmem⟩ := M.complete hs hcard
  rw [← toFinset_card_of_nodup hnodup]
  exact Finset.card_le_card fun p hp => ((hmem p).mp (mem_toFinset.mp hp)).1

/-- The visits, listed, are what stands first in the frontier step after step. -/
theorem visits_eq (hend : ∀ s, front s = [] → front (step s) = []) {s : St} (hs : M.Inv ∅ s) (n : Nat) :
    (explore front step box.card s)[n]? = (front (step^[n] s)).head? := by
  by_cases hn : n < box.card
  · exact explore_getElem? hend s hn
  · -- a longer search finds no more
    have hn := Nat.le_of_not_lt hn
    rw [← explore_getElem? hend s (Nat.lt_succ_self n), getElem?_eq_none ((M.length_le hs le_rfl).trans hn),
      getElem?_eq_none ((M.length_le hs (hn.trans (Nat.le_succ n))).trans hn)]

/-- **Best first**, when the first of the frontier is its best and predecessors are at least as good. -/
theorem sorted [Preorder K] {value : Q → K} (hmono : ∀ p ∈ box, ∀ q ∈ preds p, value p ≤ value q)
    (hbest : ∀ D s pos rest, M.Inv D s → front s = pos :: rest → ∀ q ∈ rest, value q ≤ value pos) :
    ∀ {fuel : Nat} {D : Finset Q} {s : St}, M.Inv D s →
    (explore front step fuel s).Pairwise (fun p q => value q ≤ value p) ∧
      ∀ p ∈ explore front step fuel s, p ∈ box ∧ p ∉ D
  | 0, D, s, _ => ⟨List.Pairwise.nil, fun p hp => absurd hp not_mem_nil⟩
  | fuel + 1, D, s, hs => by
    have hcovers := M.covers D s hs
    cases hf : front s with
    | nil => simp [explore, hf]
    | cons pos rest =>
      rw [hf] at hcovers
      obtain ⟨hpb, hpD⟩ := hcovers.fresh pos mem_cons_self
      obtain ⟨hsorted, hmem⟩ := sorted hmono hbest (M.step D s pos rest hs hf)
      have hmem' : ∀ p ∈ explore front step fuel (step s), p ∈ box ∧ p ∉ D := fun p hp =>
        ⟨(hmem p hp).1, fun h => (hmem p hp).2 (Finset.mem_insert_of_mem h)⟩
      simp only [explore, hf, pairwise_cons, mem_cons, forall_eq_or_imp]
      refine ⟨⟨fun p hp => ?_, hsorted⟩, ⟨hpb, hpD⟩, hmem'⟩
      -- something in the frontier is at least as good as `p`, and `pos` is the best of the frontier
      obtain ⟨hb, hD⟩ := hmem' p hp
      obtain ⟨q, hq, hle⟩ := hcovers.exists_best M.rank_lt hmono p hb hD
      rcases mem_cons.mp hq with rfl | hq
      · exact hle
      · exact hle.trans (hbest D s pos rest hs hf q hq)

end Search

/-- A machine whose steps keep the frontier. -/
structure Explorer [DecidableEq Q] (box : Finset Q) (preds : Q → Finset Q) (front : St → List Q) (step : St → St) where
  Inv : Finset Q → St → Prop
  rank : Q → Nat
  rank_lt : ∀ p, ∀ q ∈ preds p, rank q < rank p
  preds_box : ∀ p ∈ box, preds p ⊆ box
  frontier : ∀ D s, Inv D s → Frontier box preds D (front s)
  step : ∀ D s pos rest, Inv D s → front s = pos :: rest → Inv (insert pos D) (step s)

def Explorer.search [DecidableEq Q] {box : Finset Q} {preds : Q → Finset Q} {front : St → List Q} {step : St → St}
    (M : Explorer box preds front step) : Search box preds front step :=
  { M with covers D s hs := (M.frontier D s hs).covers M.preds_box }

end Sbmt.Lib
