import Mathlib
/-!
# Listing every object once

`Enumerates R P l`: the list `l` shows the objects in `P`, one entry for each object, where `R w x` says that the
entry `x` shows the object `w`.  Two objects may be shown by equal entries, and then the entry stands twice in the
list.
-/

namespace Sbmt.Lib

variable {ω ω' γ γ' : Type*} {R : ω → γ → Prop} {P : ω → Prop} {l l' : List γ}

/-- `l` shows exactly the objects in `P`, each once. -/
def Enumerates (R : ω → γ → Prop) (P : ω → Prop) (l : List γ) : Prop :=
  ∃ order : List ω, order.Nodup ∧ (∀ w, w ∈ order ↔ P w) ∧ List.Forall₂ R order l

theorem forall₂_pmap_map {δ : Type*} {D : δ → Prop} {f : ∀ a, D a → ω} {g : δ → γ} (h : ∀ a ha, R (f a ha) (g a)) :
    ∀ (as : List δ) (has : ∀ a ∈ as, D a), List.Forall₂ R (as.pmap f has) (as.map g)
  | [], _ => .nil
  | a :: as, _ => .cons (h a _) (forall₂_pmap_map h as _)

namespace Enumerates

theorem singleton {w : ω} {x : γ} (h : R w x) : Enumerates R (· = w) [x] :=
  ⟨[w], List.nodup_singleton w, fun _ => List.mem_singleton, .cons h .nil⟩

section

variable (h : Enumerates R P l)
include h

theorem congr {Q : ω → Prop} (hPQ : ∀ w, P w ↔ Q w) : Enumerates R Q l := by
  obtain ⟨order, hn, hmem, hR⟩ := h
  exact ⟨order, hn, fun w => (hmem w).trans (hPQ w), hR⟩

/-- The list with its entries mapped, read as one of other objects. -/
theorem map {R' : ω' → γ' → Prop} {f : ω → ω'} (hf : Function.Injective f) (g : γ → γ')
    (hR : ∀ w x, P w → R w x → R' (f w) (g x)) : Enumerates R' (fun w' => ∃ w, P w ∧ f w = w') (l.map g) := by
  obtain ⟨order, hn, hmem, hl⟩ := h
  refine ⟨order.map f, hn.map hf, fun w' => ?_, ?_⟩
  · simp only [List.mem_map, hmem]
  · rw [List.forall₂_map_left_iff, List.forall₂_map_right_iff]
    have hP : List.Forall₂ (fun w x => P w ∧ R w x) order l :=
      (List.forall₂_and_left order l).mpr ⟨fun w hw => (hmem w).mp hw, hl⟩
    exact hP.imp fun w x ⟨hw, hx⟩ => hR w x hw hx

theorem mapEntries {R' : ω → γ' → Prop} (g : γ → γ') (hR : ∀ w x, P w → R w x → R' w (g x)) :
    Enumerates R' P (l.map g) :=
  (h.map Function.injective_id g hR).congr fun w => by simp

theorem perm (hl : l'.Perm l) : Enumerates R P l' := by
  obtain ⟨order, hn, hmem, hR⟩ := h
  obtain ⟨order', hR', hperm⟩ := List.perm_comp_forall₂ hl hR.flip
  exact ⟨order', hperm.nodup_iff.mpr hn, fun w => hperm.mem_iff.trans (hmem w), hR'.flip⟩

theorem append {Q : ω → Prop} (h' : Enumerates R Q l') (hPQ : ∀ w, P w → ¬ Q w) :
    Enumerates R (fun w => P w ∨ Q w) (l ++ l') := by
  obtain ⟨order, hn, hmem, hR⟩ := h
  obtain ⟨order', hn', hmem', hR'⟩ := h'
  refine ⟨order ++ order', ?_, fun w => ?_, List.rel_append hR hR'⟩
  · exact hn.append hn' fun w hw hw' => hPQ w ((hmem w).mp hw) ((hmem' w).mp hw')
  · rw [List.mem_append, hmem, hmem']

end

/-- Lists of disjoint families, one after the other. -/
theorem flatten : ∀ {gens : List (List γ)} {P : Nat → ω → Prop}, (∀ k g, gens[k]? = some g → Enumerates R (P k) g) →
    (∀ k k' w, P k w → P k' w → k = k') → Enumerates R (fun w => ∃ k, k < gens.length ∧ P k w) gens.flatten
  | [], P, _, _ => ⟨[], List.nodup_nil, fun w => by simp, .nil⟩
  | g :: gens, P, h, hdisj => by
    have hhead : Enumerates R (P 0) g := h 0 g rfl
    have htail : Enumerates R (fun w => ∃ k, k < gens.length ∧ P (k + 1) w) gens.flatten := by
      apply flatten
      · intro k g' hg'
        exact h (k + 1) g' hg'
      · intro k k' w hk hk'
        exact Nat.succ.inj (hdisj _ _ w hk hk')
    have happ := hhead.append htail fun w hw ⟨k, _, hk⟩ => absurd (hdisj _ _ w hw hk) (Nat.succ_ne_zero k).symm
    refine happ.congr fun w => ?_
    constructor
    · rintro (hw | ⟨k, hk, hw⟩)
      · exact ⟨0, Nat.succ_pos _, hw⟩
      · exact ⟨k + 1, Nat.succ_lt_succ hk, hw⟩
    · rintro ⟨k, hk, hw⟩
      cases k with
      | zero => exact .inl hw
      | succ k => exact .inr ⟨k, Nat.lt_of_succ_lt_succ hk, hw⟩

end Enumerates

end Sbmt.Lib
