import Mathlib

/-!
# Depth first topological sort

`orderFrom` visits what can be reached from a node and puts each node in front of
what was put out before it, once all that follows it is out. On a graph without
cycles the result is sorted: what follows a node stands behind it.
-/

namespace Sbmt.Lib

open List

variable {V : Type*}

/-- The nodes begun, and those done, the last one first. -/
structure TopoSort (V : Type*) where
  begun : List V
  out : List V
  backEdges : Nat

namespace TopoSort

def empty : TopoSort V := ⟨[], [], 0⟩

section Order

variable [DecidableEq V] (next : V → List V)

def orderFrom : Nat → V → TopoSort V → Option (TopoSort V)
  | 0, _, _ => none
  | fuel + 1, s, σ =>
    if s ∈ σ.out then some σ
    else if s ∈ σ.begun then some { σ with backEdges := σ.backEdges + 1 }
    else
      ((next s).foldlM (fun σ t => orderFrom fuel t σ) { σ with begun := s :: σ.begun }).map fun σ =>
        { σ with out := s :: σ.out }

/-- The nodes of a list one after the other. -/
def order (fuel : Nat) (roots : List V) (σ : TopoSort V) : Option (TopoSort V) :=
  roots.foldlM (fun σ s => orderFrom next fuel s σ) σ

end Order

/-! ## Sorted lists -/

/-- What follows a node stands behind it. -/
inductive Sorted (next : V → List V) : List V → Prop
  | nil : Sorted next []
  | cons {s : V} {l : List V} (after : ∀ t ∈ next s, t ∈ l) (fresh : s ∉ l) (rest : Sorted next l) :
      Sorted next (s :: l)

section Sorted

variable {next : V → List V} {l : List V}

theorem Sorted.of_append {l' : List V} : ∀ {l : List V}, Sorted next (l ++ l') → Sorted next l'
  | [], h => h
  | _ :: _, .cons _ _ rest => rest.of_append

variable (h : Sorted next l)
include h

theorem Sorted.nodup : l.Nodup := by
  induction h with
  | nil => exact nodup_nil
  | cons _ fresh _ ih => exact nodup_cons.2 ⟨fresh, ih⟩

theorem Sorted.closed : ∀ s ∈ l, ∀ t ∈ next s, t ∈ l := by
  induction h with
  | nil =>
    intro s hs
    cases hs
  | cons after _ _ ih =>
    intro s hs t ht
    rcases mem_cons.1 hs with rfl | hs
    · exact mem_cons_of_mem _ (after t ht)
    · exact mem_cons_of_mem _ (ih s hs t ht)

theorem Sorted.irrefl : ∀ s ∈ l, s ∉ next s := by
  induction h with
  | nil =>
    intro s hs
    cases hs
  | cons after fresh _ ih =>
    intro s hs
    rcases mem_cons.1 hs with rfl | hs
    · exact fun hnext => fresh (after _ hnext)
    · exact ih s hs

/-- No node leads to one before it. -/
theorem Sorted.pairwise : l.Pairwise fun s t => s ∉ next t := by
  induction h with
  | nil => exact List.Pairwise.nil
  | cons _ fresh rest ih =>
    refine pairwise_cons.2 ⟨?_, ih⟩
    intro t ht hnext
    exact fresh (rest.closed t ht _ hnext)

/-- From the last node to the first. -/
theorem Sorted.induction {P : V → Prop} (step : ∀ s ∈ l, (∀ t ∈ next s, P t) → P s) : ∀ s ∈ l, P s := by
  induction h with
  | nil =>
    intro s hs
    cases hs
  | cons after _ _ ih =>
    have hrest := ih fun s hs => step s (mem_cons_of_mem _ hs)
    intro s hs
    rcases mem_cons.1 hs with rfl | hs
    · exact step _ (mem_cons_self ..) fun t ht => hrest t (after t ht)
    · exact hrest s hs

theorem Sorted.congr {next' : V → List V} (hsame : ∀ s ∈ l, next' s = next s) : Sorted next' l := by
  induction h with
  | nil => exact .nil
  | cons after fresh _ ih =>
    refine .cons ?_ fresh (ih fun s hs => hsame s (mem_cons_of_mem _ hs))
    rw [hsame _ mem_cons_self]
    exact after

theorem Sorted.closed_trans {s t : V} (hs : s ∈ l) (hst : Relation.TransGen (fun a b => b ∈ next a) s t) : t ∈ l := by
  induction hst with
  | single hst => exact h.closed s hs _ hst
  | tail _ hst ih => exact h.closed _ ih _ hst

theorem Sorted.trans_irrefl : ∀ s ∈ l, ¬ Relation.TransGen (fun a b => b ∈ next a) s s := by
  induction h with
  | nil =>
    intro s hs
    cases hs
  | @cons r l after fresh rest ih =>
    intro s hs hcycle
    rcases mem_cons.1 hs with rfl | hs
    · obtain ⟨t, hst, hts⟩ := Relation.TransGen.head'_iff.1 hcycle
      rcases Relation.reflTransGen_iff_eq_or_transGen.1 hts with rfl | hts
      · exact fresh (after _ hst)
      · exact fresh (rest.closed_trans (after t hst) hts)
    · exact ih s hs hcycle

end Sorted

/-! ## The sort -/

/-- There is no cycle. -/
def Acyclic (next : V → List V) : Prop := ∀ s, ¬ Relation.TransGen (fun a b => b ∈ next a) s s

/-- A graph is without cycles where the nodes that lead anywhere can be sorted. -/
theorem Sorted.acyclic {next : V → List V} {l : List V} (h : Sorted next l) (hout : ∀ s, next s ≠ [] → s ∈ l) :
    Acyclic next := by
  intro s hcycle
  obtain ⟨t, hst, -⟩ := Relation.TransGen.head'_iff.1 hcycle
  exact h.trans_irrefl s (hout s (ne_nil_of_mem hst)) hcycle

/-- From `σ` to `σ'`: the nodes that are begun and not done are those of before. -/
structure Visits (next : V → List V) (nodes : List V) (σ σ' : TopoSort V) : Prop where
  sorted : Sorted next σ'.out
  kept : ∀ t ∈ σ.out, t ∈ σ'.out
  within : ∀ t ∈ σ'.out, t ∈ σ.out ∨ t ∈ nodes
  begun : ∀ t ∈ σ.begun, t ∈ σ'.begun
  pending : ∀ t ∈ σ'.begun, t ∉ σ'.out → t ∈ σ.begun ∧ t ∉ σ.out
  still : ∀ t ∈ σ.begun, t ∉ σ.out → t ∉ σ'.out
  backEdges : σ'.backEdges = σ.backEdges

section Spec

variable {next : V → List V} {nodes : List V} {σ σ' σ'' : TopoSort V}

theorem Visits.refl (h : Sorted next σ.out) : Visits next nodes σ σ :=
  ⟨h, fun _ ht => ht, fun _ ht => .inl ht, fun _ ht => ht, fun _ ht hout => ⟨ht, hout⟩, fun _ _ hout => hout, rfl⟩

theorem Visits.trans (h : Visits next nodes σ σ') (h' : Visits next nodes σ' σ'') : Visits next nodes σ σ'' where
  sorted := h'.sorted
  kept := fun t ht => h'.kept t (h.kept t ht)
  within := by
    intro t ht
    rcases h'.within t ht with ht | ht
    · exact h.within t ht
    · exact .inr ht
  begun := fun t ht => h'.begun t (h.begun t ht)
  pending := by
    intro t ht hout
    obtain ⟨ht, hout⟩ := h'.pending t ht hout
    exact h.pending t ht hout
  still := fun t ht hout => h'.still t (h.begun t ht) (h.still t ht hout)
  backEdges := h'.backEdges.trans h.backEdges

variable [DecidableEq V]

/-- The nodes that are not begun. -/
def unbegun (nodes : List V) (σ : TopoSort V) : Nat := (nodes.filter fun s => s ∉ σ.begun).length

theorem Visits.unbegun_le (h : Visits next nodes σ σ') : unbegun nodes σ' ≤ unbegun nodes σ := by
  refine Sublist.length_le (monotone_filter_right nodes ?_)
  intro s hs
  rw [decide_eq_true_eq] at *
  exact fun hbegun => hs (h.begun s hbegun)

theorem unbegun_begin {s : V} (hs : s ∈ nodes) (hfresh : s ∉ σ.begun) :
    unbegun nodes { σ with begun := s :: σ.begun } < unbegun nodes σ := by
  unfold unbegun
  have hsub : nodes.filter (fun t => t ∉ s :: σ.begun) = (nodes.filter fun t => t ∉ σ.begun).filter fun t => t ≠ s := by
    simp
  rw [hsub, length_filter_lt_length_iff_exists]
  exact ⟨s, mem_filter.2 ⟨hs, by simpa using hfresh⟩, by simp⟩

/-- Whatever is begun and not done leads to `s`. -/
def Open (next : V → List V) (σ : TopoSort V) (s : V) : Prop :=
  ∀ t ∈ σ.begun, t ∉ σ.out → Relation.TransGen (fun a b => b ∈ next a) t s

/-- What a visit with this much fuel does. -/
def Spec (next : V → List V) (nodes : List V) (fuel : Nat) : Prop :=
  ∀ s ∈ nodes, ∀ σ : TopoSort V, Sorted next σ.out → Open next σ s → unbegun nodes σ < fuel →
    ∃ σ', orderFrom next fuel s σ = some σ' ∧ Visits next nodes σ σ' ∧ s ∈ σ'.out

theorem order_spec {fuel : Nat} (hvisit : Spec next nodes fuel) (roots : List V) (hroots : ∀ s ∈ roots, s ∈ nodes)
    (hsorted : Sorted next σ.out) (hopen : ∀ s ∈ roots, Open next σ s) (hfuel : unbegun nodes σ < fuel) :
    ∃ σ', order next fuel roots σ = some σ' ∧ Visits next nodes σ σ' ∧ ∀ s ∈ roots, s ∈ σ'.out := by
  induction roots generalizing σ with
  | nil =>
    refine ⟨σ, rfl, .refl hsorted, ?_⟩
    intro s hs
    cases hs
  | cons s roots ih =>
    obtain ⟨σ1, h1, hv1, hs1⟩ := hvisit s (hroots s (mem_cons_self ..)) σ hsorted (hopen s (mem_cons_self ..)) hfuel
    have hopen1 : ∀ t ∈ roots, Open next σ1 t := by
      intro t ht u hu hout
      obtain ⟨hu, hout⟩ := hv1.pending u hu hout
      exact hopen t (mem_cons_of_mem _ ht) u hu hout
    obtain ⟨σ2, h2, hv2, hs2⟩ := ih (fun t ht => hroots t (mem_cons_of_mem _ ht)) hv1.sorted hopen1
      (Nat.lt_of_le_of_lt hv1.unbegun_le hfuel)
    refine ⟨σ2, ?_, hv1.trans hv2, ?_⟩
    · unfold order
      rw [foldlM_cons, h1]
      exact h2
    · intro t ht
      rcases mem_cons.1 ht with rfl | ht
      · exact hv2.kept _ hs1
      · exact hs2 t ht

theorem orderFrom_spec (hacyclic : Acyclic next) (hclosed : ∀ s ∈ nodes, ∀ t ∈ next s, t ∈ nodes) (fuel : Nat) :
    Spec next nodes fuel := by
  induction fuel with
  | zero =>
    intro s _ σ _ _ hfuel
    cases hfuel
  | succ fuel ih =>
    intro s hs σ hsorted hopen hfuel
    unfold orderFrom
    split
    · exact ⟨σ, rfl, .refl hsorted, ‹_›⟩
    · rename_i hout
      split
      · -- begun and not done: the node would lead to itself
        rename_i hbegun
        exact absurd (hopen s hbegun hout) (hacyclic s)
      · rename_i hfresh
        have hopen' : ∀ t ∈ next s, Open next { σ with begun := s :: σ.begun } t := by
          intro t ht u hu hout
          rcases mem_cons.1 hu with rfl | hu
          · exact .single ht
          · exact (hopen u hu hout).tail ht
        obtain ⟨σ', hσ', hv, hnext⟩ := order_spec ih (next s) (hclosed s hs)
          (σ := { σ with begun := s :: σ.begun }) hsorted hopen'
          (Nat.lt_of_lt_of_le (unbegun_begin hs hfresh) (Nat.le_of_lt_succ hfuel))
        unfold order at hσ'
        rw [hσ']
        have hmem : s ∉ σ'.out := hv.still s (mem_cons_self ..) hout
        refine ⟨{ σ' with out := s :: σ'.out }, rfl, ?_, mem_cons_self ..⟩
        refine ⟨.cons hnext hmem hv.sorted, fun t ht => mem_cons_of_mem _ (hv.kept t ht), ?_,
          fun t ht => hv.begun t (mem_cons_of_mem _ ht), ?_, ?_, hv.backEdges⟩
        · intro t ht
          rcases mem_cons.1 ht with rfl | ht
          · exact .inr hs
          · exact hv.within t ht
        · intro t ht hnot
          obtain ⟨hne, hnot⟩ := not_or.1 fun h => hnot (mem_cons.2 h)
          obtain ⟨ht, hout⟩ := hv.pending t ht hnot
          rcases mem_cons.1 ht with rfl | ht
          · exact absurd rfl hne
          · exact ⟨ht, hout⟩
        · intro t ht hnot hmem'
          rcases mem_cons.1 hmem' with rfl | hmem'
          · exact hfresh ht
          · exact hv.still t (mem_cons_of_mem _ ht) hnot hmem'

/-- **The sort of a graph without cycles ends**, sorted, without a back edge, with
all the roots. -/
theorem order_sorted (hacyclic : Acyclic next) (hclosed : ∀ s ∈ nodes, ∀ t ∈ next s, t ∈ nodes) {fuel : Nat}
    (hfuel : nodes.length < fuel) (roots : List V) (hroots : ∀ s ∈ roots, s ∈ nodes) :
    ∃ σ, order next fuel roots .empty = some σ ∧ Sorted next σ.out ∧ (∀ s ∈ roots, s ∈ σ.out) ∧
      (∀ s ∈ σ.out, s ∈ nodes) ∧ σ.backEdges = 0 := by
  have hopen : ∀ s ∈ roots, Open next .empty s := by
    intro s _ t ht
    cases ht
  obtain ⟨σ, hσ, hv, hout⟩ := order_spec (orderFrom_spec hacyclic hclosed fuel) roots hroots .nil hopen
    (Nat.lt_of_le_of_lt (length_filter_le ..) hfuel)
  refine ⟨σ, hσ, hv.sorted, hout, ?_, hv.backEdges⟩
  intro s hs
  rcases hv.within s hs with hs | hs
  · cases hs
  · exact hs

/-- The same from a single node. -/
theorem orderFrom_sorted (hacyclic : Acyclic next) (hclosed : ∀ s ∈ nodes, ∀ t ∈ next s, t ∈ nodes) {fuel : Nat}
    (hfuel : nodes.length < fuel) {s : V} (hs : s ∈ nodes) :
    ∃ σ, orderFrom next fuel s .empty = some σ ∧ Sorted next σ.out ∧ s ∈ σ.out ∧ (∀ t ∈ σ.out, t ∈ nodes) := by
  obtain ⟨σ, hσ, hsorted, hout, hwithin, -⟩ := order_sorted hacyclic hclosed hfuel [s] (by simpa using hs)
  refine ⟨σ, ?_, hsorted, hout s (mem_cons_self ..), hwithin⟩
  rw [← hσ]
  unfold order
  simp

end Spec

end TopoSort

end Sbmt.Lib
