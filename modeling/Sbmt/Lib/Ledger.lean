import Mathlib
/-!
# Accounting for claims in a shared set

Several parties take claims from one shared set, each claim at most once, and deliver the goods the
claims are worth.  A party's `Stake` is what it owes for claims it has already taken and the claims it
may still take (is open to).  `Turn` says what an action on the shared set may do to the stakes:
every claim taken is paid into what is owed, and a claim that stops being open has been taken by
somebody.  When nothing is owed and nothing is open any more, exactly the goods of all claims that
were open at the start have been delivered, whoever took which of them and in whatever order
(`Turn.settle`).

`Keeps` lifts this to actions in the state monad over the shared set, with the rules that let a
compound action be accounted for step by step.
-/

namespace Sbmt.Lib

open Finset

variable {P E β γ : Type}

/-- What a party owes and which claims it is open to. -/
@[ext]
structure Stake (P E : Type) where
  owes : Multiset E
  opens : Set P

namespace Stake

instance : Zero (Stake P E) := ⟨⟨0, ∅⟩⟩

instance : Add (Stake P E) := ⟨fun x y => ⟨x.owes + y.owes, x.opens ∪ y.opens⟩⟩

@[simp] theorem zero_owes : (0 : Stake P E).owes = 0 := rfl

@[simp] theorem zero_opens : (0 : Stake P E).opens = ∅ := rfl

@[simp] theorem add_owes (x y : Stake P E) : (x + y).owes = x.owes + y.owes := rfl

@[simp] theorem add_opens (x y : Stake P E) : (x + y).opens = x.opens ∪ y.opens := rfl

instance : AddCommMonoid (Stake P E) where
  add_assoc x y z := Stake.ext (add_assoc _ _ _) (Set.union_assoc _ _ _)
  zero_add x := Stake.ext (zero_add _) (Set.empty_union _)
  add_zero x := Stake.ext (add_zero _) (Set.union_empty _)
  add_comm x y := Stake.ext (add_comm _ _) (Set.union_comm _ _)
  nsmul := nsmulRec

/-- Goods delivered or held ready, with no claim open. -/
def goods (m : Multiset E) : Stake P E := ⟨m, ∅⟩

@[simp] theorem goods_zero : (goods 0 : Stake P E) = 0 := rfl

@[simp] theorem goods_add (m n : Multiset E) : (goods (m + n) : Stake P E) = goods m + goods n :=
  Stake.ext rfl (Set.union_empty _).symm

/-- Nothing owed yet for the claims of a set. -/
def claims (T : Set P) : Stake P E := ⟨0, T⟩

end Stake

/-- An action took the shared set from `s` to `s'` and the stakes from `x` to `y`. -/
structure Turn (worth : P → Multiset E) (s : Finset P) (x : Stake P E) (s' : Finset P) (y : Stake P E) : Prop where
  grows : s ⊆ s'
  taken : ∀ p ∈ s', p ∈ s ∨ p ∈ x.opens
  balance : y.owes + ∑ p ∈ s, worth p = x.owes + ∑ p ∈ s', worth p
  covered : ∀ p ∈ x.opens, p ∈ y.opens ∨ p ∈ s'
  shrinks : y.opens ⊆ x.opens

namespace Turn

variable {worth : P → Multiset E} {s s' s'' : Finset P} {x y z : Stake P E}

variable (s x) in
theorem refl : Turn worth s x s x :=
  ⟨subset_rfl, fun _ h => .inl h, rfl, fun _ h => .inl h, subset_rfl⟩

theorem trans (h : Turn worth s x s' y) (h' : Turn worth s' y s'' z) : Turn worth s x s'' z where
  grows := h.grows.trans h'.grows
  taken p hp := by
    rcases h'.taken p hp with hp | hp
    · exact h.taken p hp
    · exact .inr (h.shrinks hp)
  balance := by
    apply add_right_cancel (b := ∑ p ∈ s', worth p)
    rw [add_right_comm, h'.balance, add_right_comm, h.balance, add_right_comm]
  covered p hp := by
    rcases h.covered p hp with hp | hp
    · exact h'.covered p hp
    · exact .inr (h'.grows hp)
  shrinks := h'.shrinks.trans h.shrinks

/-- What a turn does not touch stays as it is. -/
theorem frame (z : Stake P E) (h : Turn worth s x s' y) : Turn worth s (x + z) s' (y + z) where
  grows := h.grows
  taken p hp := (h.taken p hp).imp_right Or.inl
  balance := by
    rw [Stake.add_owes, Stake.add_owes, add_right_comm, h.balance, add_right_comm]
  covered p hp := by
    rcases hp with hp | hp
    · exact (h.covered p hp).imp_left Or.inl
    · exact .inl (.inr hp)
  shrinks := Set.union_subset_union_left _ h.shrinks

/-- Taking one claim. -/
theorem take [DecidableEq P] {p : P} (hp : p ∉ s) (T : Set P) :
    Turn worth s (.claims ({p} ∪ T)) (insert p s) (.goods (worth p) + .claims T) where
  grows := subset_insert p s
  taken q hq := by
    rcases mem_insert.mp hq with rfl | hq
    · exact .inr (.inl rfl)
    · exact .inl hq
  balance := by
    rw [sum_insert hp]
    simp [Stake.goods, Stake.claims]
  covered q hq := by
    rcases hq with rfl | hq
    · exact .inr (mem_insert_self q s)
    · exact .inl (.inr hq)
  shrinks q hq := .inr (hq.resolve_left id)

/-- Passing over a claim that somebody has taken. -/
theorem pass {p : P} (hp : p ∈ s) (T : Set P) : Turn worth s (.claims ({p} ∪ T)) s (.claims T) where
  grows := subset_rfl
  taken _ h := .inl h
  balance := rfl
  covered q hq := by
    rcases hq with rfl | hq
    · exact .inr hp
    · exact .inl hq
  shrinks := Set.subset_union_right

/-- Two parties open to the same claims are as good as one. -/
theorem share {T : Set P} (h : Turn worth s (.claims T + .claims T) s' y) : Turn worth s (.claims T) s' y := by
  have hT : (Stake.claims T + Stake.claims T : Stake P E) = .claims T := Stake.ext (add_zero 0) (Set.union_self T)
  rwa [hT] at h

/-- **Settlement.** Once nothing is open, what has been delivered is worth exactly the claims that were
open at the start. -/
theorem settle {T : Set P} {m : Multiset E} (h : Turn worth ∅ (.claims T) s' (.goods m)) :
    (∀ p, p ∈ s' ↔ p ∈ T) ∧ m = ∑ p ∈ s', worth p := by
  refine ⟨fun p => ⟨fun hp => ?_, fun hp => ?_⟩, ?_⟩
  · exact (h.taken p hp).resolve_left (notMem_empty p)
  · exact (h.covered p hp).resolve_left id
  · have := h.balance
    simpa [Stake.goods, Stake.claims] using this

end Turn

/-- The action takes stakes `x` to stakes `y` and ends in a result that satisfies `Q`. -/
def Keeps (worth : P → Multiset E) (m : StateM (Finset P) β) (x : Stake P E) (y : β → Stake P E) (Q : β → Prop) : Prop :=
  ∀ s, Turn worth s x (m s).2 (y (m s).1) ∧ Q (m s).1

namespace Keeps

variable {worth : P → Multiset E} {m : StateM (Finset P) β} {x : Stake P E} {y : β → Stake P E} {Q R : β → Prop}

theorem pure {b : β} (hx : x = y b) (h : Q b) : Keeps worth (Pure.pure b) x y Q := fun s => by
  rw [hx]
  exact ⟨.refl s _, h⟩

theorem bind {f : β → StateM (Finset P) γ} {z : γ → Stake P E} {R : γ → Prop} (h : Keeps worth m x y Q)
    (hf : ∀ b, Q b → Keeps worth (f b) (y b) z R) : Keeps worth (m >>= f) x z R := fun s => by
  obtain ⟨ht, hq⟩ := h s
  obtain ⟨ht', hr⟩ := hf _ hq (m s).2
  exact ⟨ht.trans ht', hr⟩

theorem frame (z : Stake P E) (h : Keeps worth m x y Q) : Keeps worth m (x + z) (fun b => y b + z) Q :=
  fun s => ⟨(h s).1.frame z, (h s).2⟩

theorem mono (h : Keeps worth m x y Q) (hQ : ∀ b, Q b → R b) : Keeps worth m x y R :=
  fun s => ⟨(h s).1, hQ _ (h s).2⟩

/-- Stakes may be regrouped. -/
theorem congr {x' : Stake P E} {y' : β → Stake P E} (h : Keeps worth m x y Q) (hx : x' = x)
    (hy : ∀ b, Q b → y' b = y b) : Keeps worth m x' y' Q := fun s => by
  obtain ⟨ht, hq⟩ := h s
  rw [hx, hy _ hq]
  exact ⟨ht, hq⟩

/-- Take a claim, or pass over it if it is taken. -/
theorem claim [DecidableEq P] {p : P} {T : Set P} {taken fresh : StateM (Finset P) β}
    (htaken : Keeps worth taken (.claims T) y Q) (hfresh : Keeps worth fresh (.goods (worth p) + .claims T) y Q) :
    Keeps worth (do
      let s ← get
      if p ∈ s then taken else do
        set (insert p s)
        fresh) (.claims ({p} ∪ T)) y Q := fun s => by
  by_cases hp : p ∈ s
  · obtain ⟨ht, hq⟩ := htaken s
    have hrun : (do let s ← get; if p ∈ s then taken else do set (insert p s); fresh : StateM (Finset P) β) s = taken s := by
      show (if p ∈ s then taken else _) s = taken s
      rw [if_pos hp]
    rw [hrun]
    exact ⟨(Turn.pass hp T).trans ht, hq⟩
  · obtain ⟨ht, hq⟩ := hfresh (insert p s)
    have hrun : (do let s ← get; if p ∈ s then taken else do set (insert p s); fresh : StateM (Finset P) β) s =
        fresh (insert p s) := by
      show (if p ∈ s then taken else do set (insert p s); fresh : StateM (Finset P) β) s = fresh (insert p s)
      rw [if_neg hp]
      rfl
    rw [hrun]
    exact ⟨(Turn.take hp T).trans ht, hq⟩

end Keeps

end Sbmt.Lib
