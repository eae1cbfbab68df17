import Sbmt.Lib.TopoSort

/-!
# Raising values below a node, without marks

`flood` goes down from a node to all that follows it and raises each value it
passes. It does not mark where it has been, so a node is passed once for every
way down to it and the recursion ends only where there is no cycle.
-/

namespace Sbmt.Lib

open List

variable {V S : Type} [LinearOrder S]

def raise [DecidableEq V] (val : V → S) (v : V) (h : S) : V → S := if val v < h then Function.update val v h else val

def flood [DecidableEq V] (next : V → List V) (h : S) : Nat → V → (V → S) → Option (V → S)
  | 0, _, _ => none
  | fuel + 1, v, val => (next v).foldlM (fun val w => flood next h fuel w (raise val w h)) val

/-- The node is reached from `v`, in one step or more. -/
def Below (next : V → List V) (v : V) : V → Prop := Relation.TransGen (fun a b => b ∈ next a) v

/-- The values at the nodes of `P` are raised to `h`, the others are as before. -/
def Raised (P : V → Prop) (h : S) (val val' : V → S) : Prop :=
  ∀ w, (P w → val' w = max (val w) h) ∧ (¬ P w → val' w = val w)

theorem Raised.congr {P Q : V → Prop} {h : S} {val val' : V → S} (hr : Raised P h val val') (hPQ : ∀ w, P w ↔ Q w) :
    Raised Q h val val' :=
  fun w => ⟨fun hw => (hr w).1 ((hPQ w).2 hw), fun hw => (hr w).2 fun hP => hw ((hPQ w).1 hP)⟩

theorem Raised.trans {P Q : V → Prop} {h : S} {val val' val'' : V → S} (h1 : Raised P h val val')
    (h2 : Raised Q h val' val'') : Raised (fun w => P w ∨ Q w) h val val'' := by
  intro w
  by_cases hP : P w
  · by_cases hQ : Q w
    · refine ⟨fun _ => ?_, fun hno => absurd (.inl hP) hno⟩
      rw [(h2 w).1 hQ, (h1 w).1 hP, max_assoc, max_self]
    · refine ⟨fun _ => ?_, fun hno => absurd (.inl hP) hno⟩
      rw [(h2 w).2 hQ, (h1 w).1 hP]
  · by_cases hQ : Q w
    · refine ⟨fun _ => ?_, fun hno => absurd (.inr hQ) hno⟩
      rw [(h2 w).1 hQ, (h1 w).2 hP]
    · refine ⟨fun hyes => (hyes.elim hP hQ).elim, fun _ => ?_⟩
      rw [(h2 w).2 hQ, (h1 w).2 hP]

theorem raised_raise [DecidableEq V] (val : V → S) (v : V) (h : S) : Raised (· = v) h val (raise val v h) := by
  intro w
  unfold raise
  split
  · next hlt =>
    constructor
    · rintro rfl
      rw [Function.update_self, max_eq_right hlt.le]
    · intro hw
      exact Function.update_of_ne hw _ _
  · next hge =>
    constructor
    · rintro rfl
      exact (max_eq_left (not_lt.1 hge)).symm
    · exact fun _ => rfl

variable {next : V → List V}

theorem below_iff {v w : V} : Below next v w ↔ ∃ u ∈ next v, w = u ∨ Below next u w := by
  constructor
  · intro h
    obtain ⟨u, hu, hw⟩ := Relation.TransGen.head'_iff.1 h
    refine ⟨u, hu, ?_⟩
    rcases Relation.reflTransGen_iff_eq_or_transGen.1 hw with rfl | hw
    · exact .inl rfl
    · exact .inr hw
  · rintro ⟨u, hu, rfl | hw⟩
    · exact .single hu
    · exact .head hu hw

/-- **The recursion raises exactly what is below the node**: a flood that ends has raised it to `h`. -/
theorem flood_raised [DecidableEq V] (h : S) : ∀ (fuel : Nat) (v : V) (val val' : V → S), flood next h fuel v val = some val' →
    Raised (Below next v) h val val' := by
  intro fuel
  induction fuel with
  | zero =>
    intro v val val' hrun
    cases hrun
  | succ fuel ih =>
    intro v val val' hrun
    -- the loop over what follows the node
    have hloop : ∀ (ws : List V) (val val' : V → S),
        ws.foldlM (fun val w => flood next h fuel w (raise val w h)) val = some val' →
        Raised (fun w => ∃ u ∈ ws, w = u ∨ Below next u w) h val val' := by
      intro ws
      induction ws with
      | nil =>
        intro val val' hws
        cases hws
        exact fun w => ⟨fun ⟨_, hu, _⟩ => absurd hu not_mem_nil, fun _ => rfl⟩
      | cons w ws ihws =>
        intro val val' hws
        obtain ⟨val1, hfirst, hrest⟩ := Option.bind_eq_some_iff.1 hws
        refine (((raised_raise val w h).trans (ih w _ _ hfirst)).trans (ihws _ _ hrest)).congr fun x => ?_
        simp only [mem_cons, exists_eq_or_imp]
    exact (hloop _ _ _ hrun).congr fun w => below_iff.symm

/-- The recursion ends if there is no cycle: a chain of calls visits no node twice. -/
theorem flood_isSome [DecidableEq V] (hacyclic : TopoSort.Acyclic next) {nodes : List V} (hclosed : ∀ v ∈ nodes, ∀ w ∈ next v, w ∈ nodes)
    (h : S) {fuel : Nat} (hfuel : nodes.length ≤ fuel) {v : V} (hv : v ∈ nodes) (val : V → S) :
    (flood next h fuel v val).isSome = true := by
  -- `calls` are the nodes the recursion is in
  suffices hgo : ∀ (fuel : Nat) (calls : List V) (v : V) (val : V → S), v ∈ nodes → calls.Nodup →
      (∀ u ∈ calls, u ∈ nodes ∧ Below next u v) → nodes.length ≤ fuel + calls.length →
      (flood next h fuel v val).isSome = true by
    exact hgo _ [] v val hv nodup_nil (fun _ hu => absurd hu not_mem_nil) hfuel
  intro fuel
  induction fuel with
  | zero =>
    intro calls v val hv hnodup hcalls hlen
    have hfresh : v ∉ calls := fun hmem => hacyclic v (hcalls v hmem).2
    have hsub : v :: calls ⊆ nodes := cons_subset.2 ⟨hv, fun u hu => (hcalls u hu).1⟩
    have hle := (nodup_cons.2 ⟨hfresh, hnodup⟩).length_le_of_subset hsub
    rw [length_cons] at hle
    omega
  | succ fuel ih =>
    intro calls v val hv hnodup hcalls hlen
    have hfresh : v ∉ calls := fun hmem => hacyclic v (hcalls v hmem).2
    have hloop : ∀ (ws : List V) (val : V → S), (∀ w ∈ ws, w ∈ next v) →
        (ws.foldlM (fun val w => flood next h fuel w (raise val w h)) val).isSome = true := by
      intro ws
      induction ws with
      | nil => exact fun _ _ => rfl
      | cons w ws ihws =>
        intro val hws
        have hw := hws w mem_cons_self
        have hfirst := ih (v :: calls) w (raise val w h) (hclosed v hv w hw) (nodup_cons.2 ⟨hfresh, hnodup⟩)
          (forall_mem_cons.2 ⟨⟨hv, .single hw⟩, fun u hu => ⟨(hcalls u hu).1, (hcalls u hu).2.tail hw⟩⟩)
          (by rw [length_cons]; omega)
        obtain ⟨val1, hval1⟩ := Option.isSome_iff_exists.1 hfirst
        rw [foldlM_cons, hval1]
        exact ihws val1 fun u hu => hws u (mem_cons_of_mem w hu)
    exact hloop _ _ fun _ hw => hw

end Sbmt.Lib
