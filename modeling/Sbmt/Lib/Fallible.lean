import Mathlib
/-!
# A step that may fail, over a list
-/

namespace Sbmt.Lib

open List

variable {α β : Type} {f : α → Option β} {l : List α} {r : List β}

/-- All steps succeed, one result for each element. -/
theorem mapM_eq_some_iff : l.mapM f = some r ↔ Forall₂ (fun x y => f x = some y) l r := by
  induction l generalizing r with
  | nil =>
    rw [List.forall₂_nil_left_iff]
    exact ⟨fun h => (Option.some.inj h).symm, fun h => h ▸ rfl⟩
  | cons x l ih =>
    rw [mapM_cons, List.forall₂_cons_left_iff]
    constructor
    · intro h
      obtain ⟨y, hy, h⟩ := Option.bind_eq_some_iff.mp h
      obtain ⟨ys, hys, h⟩ := Option.bind_eq_some_iff.mp h
      exact ⟨y, ys, hy, ih.mp hys, (Option.some.inj h).symm⟩
    · rintro ⟨y, ys, hy, hys, rfl⟩
      rw [hy, ih.mpr hys]
      rfl

theorem mapM_some {g : α → β} (h : ∀ x ∈ l, f x = some (g x)) : l.mapM f = some (l.map g) := by
  rw [mapM_eq_some_iff, List.forall₂_map_right_iff, List.forall₂_same]
  exact h

variable {R : α → β → Prop}

theorem exists_mapM (h : ∀ x ∈ l, ∃ y, f x = some y ∧ R x y) :
    ∃ l', l.mapM f = some l' ∧ Forall₂ R l l' := by
  induction l with
  | nil => exact ⟨[], rfl, .nil⟩
  | cons x l ih =>
    obtain ⟨y, hy, hxy⟩ := h x mem_cons_self
    obtain ⟨l', hl', hall⟩ := ih fun z hz => h z (mem_cons_of_mem x hz)
    refine ⟨y :: l', ?_, .cons hxy hall⟩
    rw [mapM_cons, hy, hl']
    rfl

theorem exists_of_mem_right (h : Forall₂ R l r) {y : β} (hy : y ∈ r) : ∃ x ∈ l, R x y := by
  induction h with
  | nil => cases hy
  | cons hxy _ ih =>
    rcases mem_cons.1 hy with rfl | hy
    · exact ⟨_, mem_cons_self, hxy⟩
    · obtain ⟨x, hx, hxy⟩ := ih hy
      exact ⟨x, mem_cons_of_mem _ hx, hxy⟩

theorem exists_of_mem_left (h : Forall₂ R l r) {x : α} (hx : x ∈ l) : ∃ y ∈ r, R x y :=
  exists_of_mem_right h.flip hx

/-- Two relations between the same lists relate an element to one and the same. -/
theorem exists_of_mem_both {R S : α → β → Prop} (h : Forall₂ R l r) (h' : Forall₂ S l r) {x : α}
    (hx : x ∈ l) : ∃ y ∈ r, R x y ∧ S x y := by
  induction h with
  | nil => cases hx
  | @cons x' y l r hxy _ ih =>
    obtain ⟨hxy', htail⟩ := List.forall₂_cons.1 h'
    rcases mem_cons.1 hx with rfl | hx
    · exact ⟨y, mem_cons_self, hxy, hxy'⟩
    · obtain ⟨z, hz, hboth⟩ := ih htail hx
      exact ⟨z, mem_cons_of_mem _ hz, hboth⟩

theorem forall₂_imp_of_mem {R S : α → β → Prop} (h : Forall₂ R l r) (himp : ∀ x ∈ l, ∀ y, R x y → S x y) :
    Forall₂ S l r := by
  induction h with
  | nil => exact .nil
  | cons hxy _ ih =>
    exact .cons (himp _ mem_cons_self _ hxy) (ih fun x hx => himp x (mem_cons_of_mem _ hx))

/-! ## A loop that may stop -/

section Loop

variable {σ ε : Type} {step : σ → α → Except ε σ} {s s' : σ}

theorem foldlM_cons_ok {x : α} : (x :: l).foldlM step s = .ok s' ↔
    ∃ s1, step s x = .ok s1 ∧ l.foldlM step s1 = .ok s' := by
  rw [foldlM_cons]
  cases hx : step s x with
  | error e => exact ⟨nofun, fun ⟨_, h, _⟩ => by cases h⟩
  | ok s1 => exact ⟨fun h => ⟨s1, rfl, h⟩, fun ⟨_, h, h'⟩ => by cases h; exact h'⟩

/-- A loop whose steps go through, and keep what they need, goes through. -/
theorem foldlM_ok_of_forall {I : σ → Prop} (h : ∀ x ∈ l, ∀ s, I s → ∃ s', step s x = .ok s' ∧ I s') (hs : I s) :
    ∃ s', l.foldlM step s = .ok s' ∧ I s' := by
  induction l generalizing s with
  | nil => exact ⟨s, rfl, hs⟩
  | cons x l ih =>
    obtain ⟨s1, hx, hs1⟩ := h x mem_cons_self s hs
    obtain ⟨s', hl, hs'⟩ := ih (fun y hy => h y (mem_cons_of_mem x hy)) hs1
    exact ⟨s', foldlM_cons_ok.2 ⟨s1, hx, hl⟩, hs'⟩

/-- What every step achieves and no later step undoes has been achieved for every element in the end. -/
theorem foldlM_ok_steps {I : σ → Prop} {R : σ → σ → Prop} {P : α → σ → Prop} (hrefl : ∀ s, R s s)
    (htrans : ∀ {s1 s2 s3}, R s1 s2 → R s2 s3 → R s1 s3) (hkeep : ∀ {x s1 s2}, P x s1 → R s1 s2 → P x s2)
    (h : ∀ x ∈ l, ∀ s s', I s → step s x = .ok s' → I s' ∧ R s s' ∧ P x s') (hs : I s)
    (hrun : l.foldlM step s = .ok s') : I s' ∧ R s s' ∧ ∀ x ∈ l, P x s' := by
  induction l generalizing s with
  | nil =>
    obtain rfl : s = s' := Except.ok.inj hrun
    exact ⟨hs, hrefl s, fun x hx => by cases hx⟩
  | cons x l ih =>
    obtain ⟨s1, hx, hl⟩ := foldlM_cons_ok.1 hrun
    obtain ⟨hs1, hR, hP⟩ := h x mem_cons_self s s1 hs hx
    obtain ⟨hs', hR', hP'⟩ := ih (fun y hy => h y (mem_cons_of_mem x hy)) hs1 hl
    exact ⟨hs', htrans hR hR', forall_mem_cons.2 ⟨hkeep hP hR', hP'⟩⟩

end Loop

end Sbmt.Lib
