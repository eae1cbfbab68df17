import Mathlib

/-!
# A list in blocks, and a table changed block by block

`index` collects the elements of a list under their keys.  Taken key by key, the blocks are the list again in another
order (`blocks_perm`).  A step that changes a table at one block at a time finds each block as it was at first, when no
element is in two blocks (`foldl_block`), so what a run leaves there is what the one step does.
-/

namespace Sbmt.Lib.Blockwise

open List Function

variable {ι α κ : Type*}

section

variable [DecidableEq ι]

/-- A loop over a block that changes the entries that `c` picks. -/
def visit (c : ι → Bool) (f : ι → α → α) (w : ι → α) (g : List ι) : ι → α :=
  g.foldl (fun w p => if c p then update w p (f p (w p)) else w) w

variable {c : ι → Bool} {f : ι → α → α} {w : ι → α} {g : List ι} {q : ι}

theorem visit_cons (p : ι) (g : List ι) :
    visit c f w (p :: g) = visit c f (if c p then update w p (f p (w p)) else w) g := rfl

theorem visit_append (g h : List ι) : visit c f w (g ++ h) = visit c f (visit c f w g) h := foldl_append

theorem visit_of_false (hc : ∀ p ∈ g, p = q → c p = false) : visit c f w g q = w q := by
  induction g generalizing w with
  | nil => rfl
  | cons p g ih =>
    rw [visit_cons, ih fun r hr => hc r (mem_cons_of_mem _ hr)]
    by_cases hp : p = q
    · rw [if_neg (by simp [hc p mem_cons_self hp])]
    · split
      · exact update_of_ne (Ne.symm hp) _ _
      · rfl

theorem visit_of_not_mem (hq : q ∉ g) : visit c f w g q = w q :=
  visit_of_false fun _ hp hpq => absurd (hpq ▸ hp) hq

theorem visit_of_mem (hnodup : g.Nodup) (hq : q ∈ g) (hc : c q = true) : visit c f w g q = f q (w q) := by
  induction g generalizing w with
  | nil => cases hq
  | cons p g ih =>
    obtain ⟨hp, hnodup⟩ := nodup_cons.1 hnodup
    rw [visit_cons]
    rcases mem_cons.1 hq with rfl | hmem
    · rw [visit_of_not_mem hp, if_pos hc, update_self]
    · have hne : q ≠ p := fun h => hp (h ▸ hmem)
      rw [ih hnodup hmem]
      split
      · rw [update_of_ne hne]
      · rfl

end

theorem foldl_frame {F : (ι → α) → List ι → ι → α} (hframe : ∀ w g p, p ∉ g → F w g p = w p) {gs : List (List ι)}
    (w : ι → α) {p : ι} (hp : p ∉ gs.flatten) : gs.foldl F w p = w p := by
  induction gs generalizing w with
  | nil => rfl
  | cons h gs ih =>
    rw [flatten_cons, mem_append, not_or] at hp
    rw [foldl_cons, ih (F w h) hp.2, hframe w h p hp.1]

/-- Blocks with no element in common do not see what is done to the others. -/
theorem foldl_block {F : (ι → α) → List ι → ι → α} (hframe : ∀ w g p, p ∉ g → F w g p = w p) :
    ∀ {gs : List (List ι)} (w : ι → α) {g : List ι}, gs.flatten.Nodup → g ∈ gs →
      ∃ w', (∀ p ∈ g, w' p = w p) ∧ ∀ p ∈ g, gs.foldl F w p = F w' g p
  | h :: gs, w, g, hnodup, hg => by
    rw [flatten_cons, nodup_append] at hnodup
    obtain ⟨-, hrest, hdisj⟩ := hnodup
    rcases mem_cons.1 hg with rfl | hg
    · refine ⟨w, fun _ _ => rfl, ?_⟩
      intro p hp
      exact foldl_frame hframe _ fun hmem => hdisj p hp p hmem rfl
    · obtain ⟨w', hw', hrun⟩ := foldl_block hframe (F w h) hrest hg
      refine ⟨w', ?_, hrun⟩
      intro p hp
      have hout : p ∉ h := fun hmem => hdisj p hmem p (mem_flatten_of_mem hg hp) rfl
      rw [hw' p hp, hframe w h p hout]

/-! ## The elements under each key -/

section

variable [DecidableEq κ]

def index (key : ι → κ) (l : List ι) : κ → List ι :=
  l.foldl (fun m p => update m (key p) (p :: m (key p))) fun _ => []

variable {key : ι → κ}

theorem index_eq (key : ι → κ) (l : List ι) (k : κ) : index key l k = (l.filter fun p => key p = k).reverse := by
  have hrun : ∀ m : κ → List ι, l.foldl (fun m p => update m (key p) (p :: m (key p))) m k =
      (l.filter fun p => key p = k).reverse ++ m k := by
    induction l with
    | nil => exact fun m => rfl
    | cons p l ih =>
      intro m
      rw [foldl_cons, ih]
      by_cases hp : key p = k
      · rw [filter_cons_of_pos (by simpa using hp), hp, update_self, reverse_cons, append_assoc]
        rfl
      · rw [filter_cons_of_neg (by simpa using hp), update_of_ne (Ne.symm hp)]
  rw [index, hrun, append_nil]

theorem mem_index {l : List ι} {k : κ} {p : ι} : p ∈ index key l k ↔ p ∈ l ∧ key p = k := by
  rw [index_eq, mem_reverse, mem_filter, decide_eq_true_eq]

theorem blocks_perm {l : List ι} {ks : List κ} (hnodup : ks.Nodup) (hks : ∀ p ∈ l, key p ∈ ks) :
    (ks.map (index key l)).flatten.Perm l := by
  induction ks generalizing l with
  | nil =>
    cases l with
    | nil => exact .refl _
    | cons p l => cases hks p mem_cons_self
  | cons k ks ih =>
    obtain ⟨hk, hnodup⟩ := nodup_cons.1 hnodup
    rw [map_cons]
    -- the other keys see only what is not under `k`
    have hrest : ks.map (index key l) = ks.map (index key (l.filter fun p => !decide (key p = k))) := by
      apply map_congr_left
      intro j hj
      have hne : j ≠ k := fun h => hk (h ▸ hj)
      rw [index_eq, index_eq, filter_filter]
      congr 1
      apply filter_congr
      intro p _
      by_cases hp : key p = j
      · simp [hp, hne]
      · simp [hp]
    rw [hrest, index_eq]
    refine ((reverse_perm _).append (ih hnodup ?_)).trans (filter_append_perm _ l)
    intro p hp
    obtain ⟨hp, hpk⟩ := mem_filter.1 hp
    rcases mem_cons.1 (hks p hp) with h | h
    · simp [h] at hpk
    · exact h

end

end Sbmt.Lib.Blockwise
