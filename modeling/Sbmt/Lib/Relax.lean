import Mathlib

/-!
# One sweep of relaxations in a topological order

A list of weighted arcs is relaxed once, front to back: the value at an arc's head is raised to the value at its
tail times the arc's weight. If the arcs are listed so that no arc enters the tail of an earlier one, one sweep
reaches the fixed point: no arc is left to relax (`sweep_relaxed`) and every value is its initial one or is passed
on by some arc (`sweep_attained`).
-/

namespace Sbmt.Lib

open Function

variable {ι S : Type*}

/-- An arc that passes `weight` times the value at `src` on to `dst`. -/
structure Arc (ι S : Type*) where
  weight : S
  src : ι
  dst : ι

/-- No arc enters its own tail or the tail of an arc listed before it. -/
structure Topological (arcs : List (Arc ι S)) : Prop where
  irrefl : ∀ a ∈ arcs, a.dst ≠ a.src
  order : arcs.Pairwise fun a b => b.dst ≠ a.src

theorem Topological.tail {a : Arc ι S} {arcs : List (Arc ι S)} (h : Topological (a :: arcs)) : Topological arcs :=
  ⟨fun b hb => h.irrefl b (by simp [hb]), (List.pairwise_cons.1 h.order).2⟩

variable [DecidableEq ι] [LinearOrder S] [Mul S] (f : ι → S)

/-- Raise the value at the head of `a`. -/
def relax (a : Arc ι S) : ι → S :=
  Function.update f a.dst (max (f a.dst) (f a.src * a.weight))

/-- Relax every arc once, front to back. -/
def sweep (arcs : List (Arc ι S)) : ι → S := arcs.foldl relax f

@[simp] theorem sweep_nil : sweep f [] = f := rfl

@[simp] theorem sweep_cons (a : Arc ι S) (arcs : List (Arc ι S)) :
    sweep f (a :: arcs) = sweep (relax f a) arcs := rfl

theorem le_relax (a : Arc ι S) (x : ι) : f x ≤ relax f a x := by
  by_cases hx : x = a.dst
  · subst hx
    simp [relax]
  · simp [relax, update_of_ne hx]

theorem le_sweep : ∀ (arcs : List (Arc ι S)) (f : ι → S) (x : ι), f x ≤ sweep f arcs x
  | [], _, _ => le_rfl
  | a :: arcs, f, x => (le_relax f a x).trans (le_sweep arcs (relax f a) x)

/-- A value that no arc enters is never touched. -/
theorem sweep_of_forall_ne : ∀ {arcs : List (Arc ι S)} (f : ι → S) {x : ι}, (∀ a ∈ arcs, a.dst ≠ x) →
    sweep f arcs x = f x
  | [], _, _, _ => rfl
  | a :: arcs, f, x, h => by
    rw [sweep_cons, sweep_of_forall_ne (relax f a) fun b hb => h b (by simp [hb])]
    exact update_of_ne (h a (by simp)).symm _ _

/-- The tail of the first arc keeps its value through the whole sweep. -/
theorem sweep_src {a : Arc ι S} {arcs : List (Arc ι S)} (h : Topological (a :: arcs)) (f : ι → S) :
    sweep f (a :: arcs) a.src = f a.src := by
  refine sweep_of_forall_ne f fun b hb => ?_
  rcases List.mem_cons.1 hb with rfl | hb
  · exact h.irrefl b (by simp)
  · exact (List.pairwise_cons.1 h.order).1 b hb

/-- **After the sweep no arc is left to relax.** -/
theorem sweep_relaxed : ∀ {arcs : List (Arc ι S)}, Topological arcs → ∀ (f : ι → S), ∀ a ∈ arcs,
    sweep f arcs a.src * a.weight ≤ sweep f arcs a.dst
  | a :: arcs, h, f, b, hb => by
    rcases List.mem_cons.1 hb with rfl | hb
    · rw [sweep_src h f]
      refine le_trans ?_ (le_sweep arcs (relax f b) b.dst)
      simp [relax]
    · exact sweep_relaxed h.tail (relax f a) b hb

/-- **Every value is the initial one or is passed on by some arc.** -/
theorem sweep_attained : ∀ {arcs : List (Arc ι S)}, Topological arcs → ∀ (f : ι → S) (x : ι),
    sweep f arcs x = f x ∨ ∃ a ∈ arcs, a.dst = x ∧ sweep f arcs x = sweep f arcs a.src * a.weight
  | [], _, _, _ => .inl rfl
  | a :: arcs, h, f, x => by
    rcases sweep_attained h.tail (relax f a) x with he | ⟨b, hb, hbx, he⟩
    · by_cases hx : x = a.dst
      · subst hx
        rcases le_total (f a.src * a.weight) (f a.dst) with hle | hle
        · exact .inl (by rw [sweep_cons, he]; simp [relax, hle])
        · refine .inr ⟨a, by simp, rfl, ?_⟩
          rw [sweep_src h f, sweep_cons, he]
          simp [relax, hle]
      · exact .inl (by rw [sweep_cons, he, relax, update_of_ne hx])
    · exact .inr ⟨b, by simp [hb], hbx, he⟩

end Sbmt.Lib
