import Sbmt.Lib.TopoSort

/-!
# Longest walks

`Longest next u v d`: the longest walk from `u` to `v` has `d` edges, where none at all counts as 0. In a graph without
cycles a walk of 0 edges is the only one from a node to itself, so 0 says that no edge leads on from `u` to `v`.
`Longest.step` is the recursion over the edges out of `u`.
-/

namespace Sbmt.Lib

variable {V : Type*} (next : V → List V)

inductive EdgeWalk : V → Nat → V → Prop
  | nil (u : V) : EdgeWalk u 0 u
  | cons {u z v : V} {n : Nat} (h : z ∈ next u) (rest : EdgeWalk z n v) : EdgeWalk u (n + 1) v

def Longest (u v : V) (d : Nat) : Prop := IsGreatest {n | n = 0 ∨ EdgeWalk next u n v} d

variable {next} {u v z : V} {d n : Nat}

theorem EdgeWalk.eq_of_zero (h : EdgeWalk next u 0 v) : u = v := by
  cases h
  rfl

theorem EdgeWalk.of_succ (h : EdgeWalk next u (n + 1) v) : ∃ z ∈ next u, EdgeWalk next z n v := by
  cases h with
  | cons hz rest => exact ⟨_, hz, rest⟩

/-- A walk does not leave what its nodes do not leave. -/
theorem EdgeWalk.mem_closed {S : V → Prop} (hclosed : ∀ s, S s → ∀ t ∈ next s, S t) (h : EdgeWalk next u n v) (hu : S u) : S v := by
  induction h with
  | nil => exact hu
  | cons hz _ ih => exact ih (hclosed _ hu _ hz)

theorem Longest.of_none (h : ∀ n, ¬ EdgeWalk next u (n + 1) v) : Longest next u v 0 := by
  refine ⟨.inl rfl, fun n hn => ?_⟩
  rcases hn with rfl | hn
  · exact le_rfl
  · cases n with
    | zero => exact le_rfl
    | succ n => exact absurd hn (h n)

theorem Longest.pos_of_edge (h : Longest next u v d) (hv : v ∈ next u) : 0 < d :=
  h.2 (.inr (.cons hv (.nil v)))

/-- What is not 0 is the longest walk. -/
theorem Longest.isGreatest (h : Longest next u v d) (hd : 0 < d) : IsGreatest {n | EdgeWalk next u n v} d := by
  refine ⟨?_, fun n hn => h.2 (.inr hn)⟩
  rcases h.1 with rfl | hwalk
  · cases hd
  · exact hwalk

theorem Longest.eq_zero_iff (h : Longest next u v d) : d = 0 ↔ ∀ n, ¬ EdgeWalk next u (n + 1) v := by
  constructor
  · rintro rfl n hn
    have hle : n + 1 ≤ 0 := h.2 (.inr hn)
    cases hle
  · intro hnone
    cases d with
    | zero => rfl
    | succ d => exact absurd (h.isGreatest (Nat.succ_pos d)).1 (hnone d)

/-- One edge and the longest walk from there, where one leads on, or the edge alone. -/
theorem Longest.step {D : V → Nat} (hD : ∀ z ∈ next u, Longest next z v (D z))
    (hle : ∀ z ∈ next u, 0 < D z ∨ z = v → 1 + D z ≤ d)
    (hmem : d = 0 ∨ ∃ z ∈ next u, (0 < D z ∨ z = v) ∧ d = 1 + D z) : Longest next u v d := by
  refine ⟨?_, fun n hn => ?_⟩
  · rcases hmem with rfl | ⟨z, hz, hgo, rfl⟩
    · exact .inl rfl
    · right
      rw [Nat.add_comm]
      refine .cons hz ?_
      rcases Nat.eq_zero_or_pos (D z) with hzero | hpos
      · obtain rfl := hgo.resolve_left (by omega)
        rw [hzero]
        exact .nil z
      · exact ((hD z hz).isGreatest hpos).1
  · rcases hn with rfl | hn
    · exact Nat.zero_le d
    · cases n with
      | zero => exact Nat.zero_le d
      | succ n =>
        obtain ⟨z, hz, hwalk⟩ := hn.of_succ
        have hlen : n ≤ D z := (hD z hz).2 (.inr hwalk)
        cases n with
        | zero =>
          have := hle z hz (.inr hwalk.eq_of_zero)
          omega
        | succ n =>
          have := hle z hz (.inl (by omega))
          omega

end Sbmt.Lib
