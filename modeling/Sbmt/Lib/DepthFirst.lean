import Mathlib

/-!
# Depth first search over marks

`search` marks a node and goes on to its successors, and turns back where a mark is already.  With as much fuel as there
are nodes it ends (`search_isSome`), and from no marks it marks exactly what can be reached (`search_spec`).
-/

namespace Sbmt.Lib.DepthFirst

open Function Finset

variable {V : Type*}

def Reachable (next : V → List V) : V → V → Prop := Relation.ReflTransGen fun v w => w ∈ next v

def search [DecidableEq V] (next : V → List V) : Nat → V → (V → Bool) → Option (V → Bool)
  | 0, _, _ => none
  | fuel + 1, v, visited =>
    if visited v then some visited
    else (next v).foldlM (fun visited w => search next fuel w visited) (update visited v true)

/-- What a search adds to the marks: nodes of `P`, with all that follow them. -/
structure Grown (next : V → List V) (P : V → Prop) (visited visited' : V → Bool) : Prop where
  kept : ∀ u, visited u = true → visited' u = true
  reached : ∀ u, visited' u = true → visited u = true ∨ P u
  closed : ∀ u, visited' u = true → visited u = false → ∀ w ∈ next u, visited' w = true

variable {next : V → List V} {P Q : V → Prop} {visited visited1 visited' : V → Bool}

namespace Grown

theorem refl : Grown next P visited visited := by
  refine ⟨fun _ h => h, fun _ h => .inl h, ?_⟩
  intro u hyes hno
  rw [hyes] at hno
  cases hno

theorem mono (h : Grown next P visited visited') (hPQ : ∀ u, P u → Q u) : Grown next Q visited visited' :=
  ⟨h.kept, fun u hu => (h.reached u hu).imp_right (hPQ u), h.closed⟩

theorem trans (h1 : Grown next P visited visited1) (h2 : Grown next P visited1 visited') :
    Grown next P visited visited' where
  kept u hu := h2.kept u (h1.kept u hu)
  reached u hu := (h2.reached u hu).elim (h1.reached u) .inr
  closed u hu hno w hw := by
    cases hmid : visited1 u with
    | true => exact h2.kept w (h1.closed u hmid hno w hw)
    | false => exact h2.closed u hu hmid w hw

/-- A node is marked before its successors are looked at. -/
theorem node [DecidableEq V] {v : V}
    (h : Grown next (fun u => ∃ w ∈ next v, Reachable next w u) (update visited v true) visited')
    (hnext : ∀ w ∈ next v, visited' w = true) :
    Grown next (Reachable next v) visited visited' ∧ visited' v = true := by
  have hv : visited' v = true := h.kept v (update_self ..)
  have hother : ∀ {u}, u ≠ v → update visited v true u = visited u := fun hu => update_of_ne hu _ _
  refine ⟨⟨?_, ?_, ?_⟩, hv⟩
  · intro u hu
    by_cases huv : u = v
    · rw [huv, hv]
    · exact h.kept u ((hother huv).trans hu)
  · intro u hu
    by_cases huv : u = v
    · exact .inr (huv ▸ .refl)
    · rcases h.reached u hu with hbefore | ⟨w, hw, hwu⟩
      · exact .inl ((hother huv).symm.trans hbefore)
      · exact .inr (.head hw hwu)
  · intro u hu hbefore w hw
    by_cases huv : u = v
    · exact hnext w (huv ▸ hw)
    · exact h.closed u hu ((hother huv).trans hbefore) w hw

end Grown

variable [DecidableEq V]

/-! ## Counting what is not marked -/

section Unmarked

variable {nodes : Finset V} {v : V}

def unmarked (nodes : Finset V) (visited : V → Bool) : Nat := (nodes.filter fun u => visited u = false).card

omit [DecidableEq V] in
theorem unmarked_mono (h : ∀ u, visited u = true → visited' u = true) :
    unmarked nodes visited' ≤ unmarked nodes visited := by
  refine card_le_card fun u hu => ?_
  obtain ⟨hmem, hun⟩ := mem_filter.1 hu
  refine mem_filter.2 ⟨hmem, Bool.eq_false_iff.2 fun hyes => ?_⟩
  rw [h u hyes] at hun
  cases hun

theorem unmarked_update (hv : v ∈ nodes) (hno : visited v ≠ true) :
    unmarked nodes (update visited v true) < unmarked nodes visited := by
  refine card_lt_card ((ssubset_iff_of_subset ?_).2 ⟨v, ?_, ?_⟩)
  · intro u hu
    obtain ⟨hmem, hun⟩ := mem_filter.1 hu
    have huv : u ≠ v := by
      rintro rfl
      rw [update_self] at hun
      cases hun
    exact mem_filter.2 ⟨hmem, (update_of_ne huv _ _).symm.trans hun⟩
  · exact mem_filter.2 ⟨hv, Bool.eq_false_iff.2 hno⟩
  · intro hmem
    have hun := (mem_filter.1 hmem).2
    rw [update_self] at hun
    cases hun

end Unmarked

theorem searchAll_grown {fuel : Nat}
    (hsearch : ∀ {w : V} {visited visited' : V → Bool}, search next fuel w visited = some visited' →
      Grown next (Reachable next w) visited visited' ∧ visited' w = true) :
    ∀ {ws : List V} {visited visited' : V → Bool},
      ws.foldlM (fun visited w => search next fuel w visited) visited = some visited' →
      Grown next (fun u => ∃ w ∈ ws, Reachable next w u) visited visited' ∧ ∀ w ∈ ws, visited' w = true
  | [], visited, visited', hrun => by
    obtain rfl : visited = visited' := Option.some.inj hrun
    exact ⟨.refl, fun w hw => by cases hw⟩
  | w :: ws, visited, visited', hrun => by
    obtain ⟨visited1, hfirst, hrest⟩ := Option.bind_eq_some_iff.1 hrun
    obtain ⟨hgrown1, hw⟩ := hsearch hfirst
    obtain ⟨hgrown2, hws⟩ := searchAll_grown hsearch hrest
    constructor
    · refine (hgrown1.mono ?_).trans (hgrown2.mono ?_)
      · exact fun u hu => ⟨w, List.mem_cons_self, hu⟩
      · exact fun u ⟨x, hx, hu⟩ => ⟨x, List.mem_cons_of_mem w hx, hu⟩
    · exact List.forall_mem_cons.2 ⟨hgrown2.kept w hw, hws⟩

theorem search_grown {fuel : Nat} : ∀ {v : V} {visited visited' : V → Bool},
    search next fuel v visited = some visited' → Grown next (Reachable next v) visited visited' ∧ visited' v = true := by
  induction fuel with
  | zero =>
    intro v visited visited' hrun
    cases hrun
  | succ fuel ih =>
    intro v visited visited' hrun
    unfold search at hrun
    split at hrun
    · next hyes =>
      obtain rfl : visited = visited' := Option.some.inj hrun
      exact ⟨.refl, hyes⟩
    · obtain ⟨hgrown, hnext⟩ := searchAll_grown ih hrun
      exact hgrown.node hnext

/-- Every call that goes further has marked one more of the nodes. -/
theorem search_isSome {nodes : Finset V} (hclosed : ∀ v ∈ nodes, ∀ w ∈ next v, w ∈ nodes) {fuel : Nat} :
    ∀ {v : V} {visited : V → Bool}, v ∈ nodes → (nodes.filter fun u => visited u = false).card < fuel →
      ∃ visited', search next fuel v visited = some visited' := by
  induction fuel with
  | zero =>
    intro v visited _ hfuel
    exact absurd hfuel (Nat.not_lt_zero _)
  | succ fuel ih =>
    intro v visited hv hfuel
    unfold search
    split
    · exact ⟨visited, rfl⟩
    · next hno =>
      have hloop : ∀ (ws : List V) (visited1 : V → Bool), (∀ w ∈ ws, w ∈ nodes) →
          (nodes.filter fun u => visited1 u = false).card < fuel →
          ∃ visited', ws.foldlM (fun visited w => search next fuel w visited) visited1 = some visited' := by
        intro ws
        induction ws with
        | nil => exact fun visited1 _ _ => ⟨visited1, rfl⟩
        | cons w ws ihws =>
          intro visited1 hws hcard
          obtain ⟨visited2, hfirst⟩ := ih (hws w List.mem_cons_self) hcard
          have hkept := (search_grown hfirst).1.kept
          obtain ⟨visited', hrest⟩ := ihws visited2 (fun u hu => hws u (List.mem_cons_of_mem w hu))
            (Nat.lt_of_le_of_lt (unmarked_mono hkept) hcard)
          exact ⟨visited', by rw [List.foldlM_cons, hfirst]; exact hrest⟩
      exact hloop _ _ (hclosed v hv) (Nat.lt_of_lt_of_le (unmarked_update hv hno) (Nat.lt_succ_iff.1 hfuel))

/-- **From no marks, the search marks exactly what can be reached.** -/
theorem search_spec {nodes : Finset V} (hclosed : ∀ v ∈ nodes, ∀ w ∈ next v, w ∈ nodes) {v : V} (hv : v ∈ nodes) :
    ∃ visited, search next (nodes.card + 1) v (fun _ => false) = some visited ∧
      ∀ u, visited u = true ↔ Reachable next v u := by
  obtain ⟨visited, hrun⟩ := search_isSome hclosed hv
    (Nat.lt_succ_of_le (card_filter_le nodes fun _ => false = false))
  obtain ⟨hgrown, hstart⟩ := search_grown hrun
  refine ⟨visited, hrun, fun u => ⟨fun hu => ?_, fun hu => ?_⟩⟩
  · rcases hgrown.reached u hu with hbefore | hreach
    · cases hbefore
    · exact hreach
  · induction hu with
    | refl => exact hstart
    | tail _ hmem ih => exact hgrown.closed _ ih rfl _ hmem

end Sbmt.Lib.DepthFirst
