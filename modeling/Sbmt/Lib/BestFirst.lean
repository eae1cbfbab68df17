import Mathlib

/-!
# Best-first search that looks for duplicates in its queue only

The search takes a least object of its queue, adds what comes next to it, unless the queue has it already, and closes
it. It never looks among the closed objects, and need not where what comes next is strictly larger: an object that is
closed is at most as large as all that wait (`Swept.visit`). With nothing small left in the queue, every small object
that can be reached has been closed (`Swept.done`).
-/

namespace Sbmt.Lib

open Relation List

variable {Q K : Type*} [LinearOrder K] {start : Q} {next : Q → Q → Prop} {rank : Q → K}

/-- `closed` has been visited, and `queue` is what has been come across since. -/
structure Swept (start : Q) (next : Q → Q → Prop) (rank : Q → K) (closed queue : List Q) : Prop where
  nodup : (queue ++ closed).Nodup
  known : start ∈ queue ++ closed
  expanded : ∀ p ∈ closed, ∀ q, next p q → q ∈ queue ++ closed
  below : ∀ p ∈ closed, ∀ q ∈ queue, rank p ≤ rank q
  reached : ∀ p ∈ queue ++ closed, ReflTransGen next start p

namespace Swept

variable {closed queue : List Q}

theorem init : Swept start next rank [] [start] where
  nodup := nodup_singleton start
  known := mem_cons_self
  expanded _ hp := absurd hp not_mem_nil
  below _ hp := absurd hp not_mem_nil
  reached p hp := by
    rw [append_nil, mem_singleton] at hp
    rw [hp]

variable {closed' queue' : List Q} {cur : Q}

/-- **One visit.** -/
theorem visit (h : Swept start next rank closed queue) (hcur : cur ∈ queue)
    (hleast : ∀ q ∈ queue, rank cur ≤ rank q) (hlt : ∀ q, next cur q → rank cur < rank q) (hnodup : queue'.Nodup)
    (hmem : ∀ q, q ∈ queue' ↔ q ≠ cur ∧ (q ∈ queue ∨ next cur q)) (hclosed : closed'.Perm (cur :: closed)) :
    Swept start next rank closed' queue' := by
  obtain ⟨-, hclosedNodup, hdisjoint⟩ := nodup_append.mp h.nodup
  have hnotClosed : ∀ q ∈ queue, q ∉ closed := fun q hq hqc => hdisjoint q hq q hqc rfl
  -- what was known stays known
  have hkeep : ∀ q, q ∈ queue ++ closed → q ∈ queue' ++ closed' := by
    intro q hq
    rw [mem_append, hclosed.mem_iff, mem_cons, hmem]
    by_cases heq : q = cur
    · exact .inr (.inl heq)
    · rcases mem_append.mp hq with hq | hq
      · exact .inl ⟨heq, .inl hq⟩
      · exact .inr (.inr hq)
  refine ⟨?_, hkeep _ h.known, ?_, ?_, ?_⟩
  · refine nodup_append.mpr ⟨hnodup, hclosed.nodup_iff.mpr ?_, ?_⟩
    · exact nodup_cons.mpr ⟨hnotClosed cur hcur, hclosedNodup⟩
    · rintro p hp q hq rfl
      obtain ⟨hne, hp⟩ := (hmem p).mp hp
      rcases mem_cons.mp (hclosed.mem_iff.mp hq) with heq | hq
      · exact hne heq
      · rcases hp with hp | hp
        · exact hnotClosed p hp hq
        -- a closed object that comes next to `cur` would be larger than `cur`
        · exact absurd (hlt p hp) (not_lt_of_ge (h.below p hq cur hcur))
  · intro p hp q hpq
    rcases mem_cons.mp (hclosed.mem_iff.mp hp) with rfl | hp
    · have hne : q ≠ p := fun heq => absurd (hlt q hpq) (heq ▸ lt_irrefl _)
      exact mem_append_left _ ((hmem q).mpr ⟨hne, .inr hpq⟩)
    · exact hkeep q (h.expanded p hp q hpq)
  · intro p hp q hq
    have hcurq : rank cur ≤ rank q := by
      rcases ((hmem q).mp hq).2 with hq | hq
      · exact hleast q hq
      · exact (hlt q hq).le
    rcases mem_cons.mp (hclosed.mem_iff.mp hp) with rfl | hp
    · exact hcurq
    · exact (h.below p hp cur hcur).trans hcurq
  · intro p hp
    rcases mem_append.mp hp with hp | hp
    · rcases ((hmem p).mp hp).2 with hp | hp
      · exact h.reached p (mem_append_left _ hp)
      · exact (h.reached cur (mem_append_left _ hcur)).tail hp
    · rcases mem_cons.mp (hclosed.mem_iff.mp hp) with rfl | hp
      · exact h.reached p (mem_append_left _ hcur)
      · exact h.reached p (mem_append_right _ hp)

/-- **Nothing small is missed**, when what leads to a small object is small. -/
theorem done (h : Swept start next rank closed queue) (small : Q → Prop) (hbig : ∀ q ∈ queue, ¬ small q)
    (hsmall : ∀ p q, next p q → small q → small p) {q : Q} (hq : ReflTransGen next start q) (hs : small q) :
    q ∈ closed := by
  have hknown : ∀ p, p ∈ queue ++ closed → small p → p ∈ closed := by
    intro p hp hps
    rcases mem_append.mp hp with hp | hp
    · exact absurd hps (hbig p hp)
    · exact hp
  induction hq with
  | refl => exact hknown start h.known hs
  | tail _ hpq ih => exact hknown _ (h.expanded _ (ih (hsmall _ _ hpq hs)) _ hpq) hs

end Swept

end Sbmt.Lib
