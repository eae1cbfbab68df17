import Sbmt.Carmel.Train
import Sbmt.Lib.PathSums

/-!
# The matrix holds the sums over the matching paths

The matrix is a push over the states `(i, s, o)` of the search in an order in which
nothing leads back, cell by cell and inside a cell along the epsilon arcs. The
backward matrix is one of the reversed strings, turned around. So both solve the
equations of `Lib.PathSums` (`matrixForward_solves`, `matrixBackward_solves`), and
what is counted are the uses of the arcs (`matrixCounts_eq`).
-/

namespace Sbmt.Carmel

open Sbmt.Lib List

variable {W F : Type} {x : Wfst W} {inp out : SymSeq}

/-! ## Acyclic transducers -/

/-- There is no cycle of epsilon:epsilon arcs. -/
def EpsAcyclic (x : Wfst W) : Prop :=
  ∀ s ps, x.Path s ps s → (∀ a ∈ x.taken ps, a.inp = epsilonIndex ∧ a.out = epsilonIndex) → ps = []

/-- An epsilon:epsilon arc from a state to a state. -/
def EpsArc (x : Wfst W) (s t : Nat) : Prop :=
  ∃ p a, x.arc? p = some a ∧ p.src = s ∧ a.dest = t ∧ a.inp = epsilonIndex ∧ a.out = epsilonIndex

theorem EpsAcyclic.irrefl (h : EpsAcyclic x) (s : Nat) : ¬ Relation.TransGen (EpsArc x) s s := by
  have hpath : ∀ {s t : Nat}, Relation.TransGen (EpsArc x) s t →
      ∃ ps, ps ≠ [] ∧ x.Path s ps t ∧ ∀ a ∈ x.taken ps, a.inp = epsilonIndex ∧ a.out = epsilonIndex := by
    intro s t hst
    induction hst using Relation.TransGen.head_induction_on with
    | single harc =>
      obtain ⟨p, a, ha, rfl, rfl, hin, hout⟩ := harc
      refine ⟨[p], by simp, .cons ha (.nil _), ?_⟩
      rw [Wfst.taken_cons ha]
      intro b hb
      rcases mem_cons.1 hb with rfl | hb
      · exact ⟨hin, hout⟩
      · cases hb
    | head harc _ ih =>
      obtain ⟨p, a, ha, rfl, rfl, hin, hout⟩ := harc
      obtain ⟨ps, -, hps, htaken⟩ := ih
      refine ⟨p :: ps, by simp, .cons ha hps, ?_⟩
      rw [Wfst.taken_cons ha]
      intro b hb
      rcases mem_cons.1 hb with rfl | hb
      · exact ⟨hin, hout⟩
      · exact htaken b hb
  intro hcycle
  obtain ⟨ps, hne, hps, htaken⟩ := hpath hcycle
  exact hne (h s ps hps htaken)

variable {s : Nat}

theorem mem_arcs {a : FSTArc W} : a ∈ x.arcs s ↔ ∃ p, x.arc? p = some a ∧ p.src = s := by
  constructor
  · intro ha
    obtain ⟨i, hi⟩ := mem_iff_getElem?.1 ha
    exact ⟨⟨s, i⟩, hi, rfl⟩
  · rintro ⟨p, hp, rfl⟩
    exact mem_of_getElem? hp

variable {t : Nat}

theorem mem_eNext : t ∈ eNext x s ↔ EpsArc x s t := by
  unfold eNext EpsArc
  simp only [mem_reverse, mem_map, mem_filter, Bool.and_eq_true, beq_iff_eq, mem_arcs]
  constructor
  · rintro ⟨a, ⟨⟨p, hp, hs⟩, hin, hout⟩, rfl⟩
    exact ⟨p, a, hp, hs, rfl, hin, hout⟩
  · rintro ⟨p, a, hp, hs, rfl, hin, hout⟩
    exact ⟨a, ⟨⟨p, hp, hs⟩, hin, hout⟩, rfl⟩

theorem EpsArc.lt (h : EpsArc x s t) : s < x.numStates ∧ t < x.numStates := by
  obtain ⟨p, a, ha, rfl, rfl, -, -⟩ := h
  exact Wfst.arc?_lt ha

theorem mem_eNextReversed : t ∈ eNextReversed x s ↔ EpsArc x t s := by
  unfold eNextReversed
  simp only [mem_reverse, mem_flatMap, mem_range, mem_map, mem_filter, decide_eq_true_eq,
    mem_eNext]
  constructor
  · rintro ⟨r, -, d, ⟨hd, rfl⟩, rfl⟩
    exact hd
  · intro h
    exact ⟨t, h.lt.1, s, ⟨h, rfl⟩, rfl⟩

/-- An order of the epsilon arcs of an acyclic transducer, from one end or the other. -/
structure EpsOrder (x : Wfst W) (next : Nat → List Nat) (e : List Nat) : Prop where
  sorted : TopoSort.Sorted next e
  within : ∀ s ∈ e, s < x.numStates
  covers : ∀ s, next s ≠ [] → s ∈ e

theorem eTopo_isSome {next : Nat → List Nat} (hacyclic : TopoSort.Acyclic next)
    (hnext : ∀ s t, t ∈ next s → s < x.numStates ∧ t < x.numStates) : ∃ e, eTopo x next = some e ∧ EpsOrder x next e := by
  have hclosed : ∀ s ∈ range x.numStates, ∀ t ∈ next s, t ∈ range x.numStates := by
    intro s _ t ht
    exact mem_range.2 (hnext s t ht).2
  obtain ⟨σ, hσ, hsorted, hroots, hwithin, -⟩ := TopoSort.order_sorted hacyclic hclosed
    (show (range x.numStates).length < x.numStates + 1 by simp) ((range x.numStates).filter fun s => !(next s).isEmpty)
    fun s hs => (mem_filter.1 hs).1
  refine ⟨σ.out, by unfold eTopo; rw [hσ]; rfl, hsorted, fun s hs => mem_range.1 (hwithin s hs), ?_⟩
  intro s hs
  obtain ⟨t, ht⟩ := exists_mem_of_ne_nil _ hs
  refine hroots s (mem_filter.2 ⟨mem_range.2 (hnext s t ht).1, ?_⟩)
  simpa using hs

theorem EpsAcyclic.forward (h : EpsAcyclic x) : ∃ e, eTopo x (eNext x) = some e ∧ EpsOrder x (eNext x) e := by
  refine eTopo_isSome ?_ fun s t ht => (mem_eNext.1 ht).lt
  intro s hs
  exact h.irrefl s (Relation.TransGen.mono (fun a b hab => mem_eNext.1 hab) s s hs)

theorem EpsAcyclic.backward (h : EpsAcyclic x) :
    ∃ e, eTopo x (eNextReversed x) = some e ∧ EpsOrder x (eNextReversed x) e := by
  refine eTopo_isSome ?_ fun s t ht => (mem_eNextReversed.1 ht).lt.symm
  intro s hs
  refine h.irrefl s (Relation.transGen_swap.1 ?_)
  exact Relation.TransGen.mono (fun a b hab => mem_eNextReversed.1 hab) s s hs

/-! ## The states of the search -/

variable {d e : DerivState}

/-- One step stays, moves on, or is an epsilon arc. -/
theorem step_le (h : e ∈ steps (successors x inp out) d) :
    d.i ≤ e.i ∧ d.o ≤ e.o ∧ (d.i = e.i → d.o = e.o → EpsArc x d.s e.s) := by
  obtain ⟨id, hid⟩ := mem_steps.1 h
  obtain ⟨-, hsrc, a, ha, hdest, hI, hO⟩ := mem_successors.1 hid
  rcases hI with ⟨hin, hi⟩ | ⟨-, hi⟩
  · rcases hO with ⟨hout, ho⟩ | ⟨-, ho⟩
    · exact ⟨hi.ge, ho.ge, fun _ _ => ⟨_, a, ha, hsrc, hdest.symm, hin, hout⟩⟩
    · exact ⟨hi.ge, by omega, fun _ h => by omega⟩
  · rcases hO with ⟨-, ho⟩ | ⟨-, ho⟩ <;> omega

theorem steps_le (h : Relation.TransGen (fun a b => b ∈ steps (successors x inp out) a) d e) :
    d.i ≤ e.i ∧ d.o ≤ e.o ∧ (d.i = e.i → d.o = e.o → Relation.TransGen (EpsArc x) d.s e.s) := by
  induction h with
  | single hstep =>
    obtain ⟨hi, ho, heps⟩ := step_le hstep
    exact ⟨hi, ho, fun h h' => .single (heps h h')⟩
  | tail _ hstep ih =>
    obtain ⟨hi, ho, heps⟩ := step_le hstep
    obtain ⟨hi', ho', heps'⟩ := ih
    refine ⟨hi'.trans hi, ho'.trans ho, fun h h' => ?_⟩
    exact (heps' (by omega) (by omega)).tail (heps (by omega) (by omega))

theorem EpsAcyclic.acyclic (h : EpsAcyclic x) (inp out : SymSeq) : TopoSort.Acyclic (steps (successors x inp out)) :=
  fun d hd => h.irrefl d.s ((steps_le hd).2.2 rfl rfl)

theorem EpsAcyclic.dag (h : EpsAcyclic x) (inp out : SymSeq) : Dag (successors x inp out) (allStates x inp out) where
  closed := successors_closed
  nodup := fun d _ => successors_nodup d
  sorted := by
    have hclosed : ∀ d ∈ (allStates x inp out).toList, ∀ e ∈ steps (successors x inp out) d,
        e ∈ (allStates x inp out).toList := by
      intro d hd e he
      obtain ⟨id, hid⟩ := mem_steps.1 he
      exact Finset.mem_toList.2 (successors_closed d (Finset.mem_toList.1 hd) _ hid)
    obtain ⟨σ, -, hsorted, hroots, -, -⟩ := TopoSort.order_sorted (h.acyclic inp out) hclosed (Nat.lt_succ_self _)
      (allStates x inp out).toList fun d hd => hd
    exact ⟨σ.out, hsorted, fun d hd => hroots d (Finset.mem_toList.2 hd)⟩

/-! ## The matrix as a push -/

section MatrixPush

variable [Semiring W] {wt : Nat → W}

/-- The edges of `matrix_forward_prop`. -/
def propEdges (fio : List DWPair) (s i o dI dO : Nat) : List (Edge DerivState Nat) :=
  fio.map fun dw => ⟨⟨i, s, o⟩, dw.id, ⟨i + dI, dw.dest, o + dO⟩⟩

theorem matrixForwardProp_eq (m : Matrix W) (fio : List DWPair) (s i o dI dO : Nat) :
    matrixForwardProp wt m fio s i o dI dO = push wt m (propEdges fio s i o dI dO) := by
  unfold matrixForwardProp push propEdges
  rw [foldl_map]
  rfl

variable (io : Nat → Nat → Nat → List DWPair) (inLet outLet : List Nat) (i o : Nat)

def epsEdges (s : Nat) : List (Edge DerivState Nat) := propEdges (io s epsilonIndex epsilonIndex) s i o 0 0

def stateEdges (s : Nat) : List (Edge DerivState Nat) :=
  (if o < outLet.length then propEdges (io s epsilonIndex (outLet.getD o 0)) s i o 0 1 else []) ++
    ((if i < inLet.length ∧ o < outLet.length then propEdges (io s (inLet.getD i 0) (outLet.getD o 0)) s i o 1 1 else []) ++
      (if i < inLet.length then propEdges (io s (inLet.getD i 0) epsilonIndex) s i o 1 0 else []))

def cellEdges (nSt : Nat) (e : List Nat) : List (Edge DerivState Nat) :=
  e.flatMap (epsEdges io i o) ++ (range nSt).flatMap (stateEdges io inLet outLet i o)

def matrixEdges (nSt : Nat) (e : List Nat) : List (Edge DerivState Nat) :=
  (range (inLet.length + 1)).flatMap fun i =>
    (range (outLet.length + 1)).flatMap fun o => cellEdges io inLet outLet i o nSt e

variable {io inLet outLet i o}

theorem src_propEdges {fio : List DWPair} {s dI dO : Nat} {e : Edge DerivState Nat} (h : e ∈ propEdges fio s i o dI dO) :
    e.src = ⟨i, s, o⟩ ∧ e.dest.i = i + dI ∧ e.dest.o = o + dO ∧ ⟨e.dest.s, e.label⟩ ∈ fio := by
  obtain ⟨dw, hdw, rfl⟩ := mem_map.1 h
  exact ⟨rfl, rfl, rfl, hdw⟩

theorem src_stateEdges {e : Edge DerivState Nat} (h : e ∈ stateEdges io inLet outLet i o s) :
    e.src = ⟨i, s, o⟩ ∧ i ≤ e.dest.i ∧ o ≤ e.dest.o ∧ ¬ (e.dest.i = i ∧ e.dest.o = o) := by
  unfold stateEdges at h
  rw [mem_append, mem_append, mem_ite_nil_right, mem_ite_nil_right, mem_ite_nil_right] at h
  rcases h with ⟨-, h⟩ | ⟨-, h⟩ | ⟨-, h⟩
  all_goals
    obtain ⟨hsrc, hi, ho, -⟩ := src_propEdges h
    exact ⟨hsrc, by omega, by omega, by omega⟩

variable [DecidableEq W]

/-- Nothing is pushed from a zero, so skipping it changes nothing. -/
theorem matrixState_eq (w : Matrix W) (s : Nat) :
    matrixState wt io inLet outLet i o w s = push wt w (stateEdges io inLet outLet i o s) := by
  unfold matrixState
  split
  · rename_i hzero
    refine (push_zero ?_).symm
    intro e he
    rw [(src_stateEdges he).1, hzero]
  · unfold stateEdges
    simp only [matrixForwardProp_eq, push_append]
    by_cases ho : o < outLet.length
    · by_cases hi : i < inLet.length
      · simp only [ho, hi, and_self, if_true]
      · simp only [ho, hi, false_and, if_true, if_false, push_nil]
    · by_cases hi : i < inLet.length
      · simp only [ho, hi, and_false, if_true, if_false, push_nil]
      · simp only [ho, hi, and_self, if_false, push_nil]

theorem matrixCompute_eq (start nSt : Nat) (e : List Nat) :
    matrixCompute wt io inLet outLet start nSt e =
      push wt (fun c => if c = ⟨0, start, 0⟩ then 1 else 0) (matrixEdges io inLet outLet nSt e) := by
  have hcell : ∀ i o (w : Matrix W),
      matrixCell wt io inLet outLet i o nSt e w = push wt w (cellEdges io inLet outLet i o nSt e) := by
    intro i o w
    unfold matrixCell cellEdges
    simp only [push_append, push_flatMap, matrixForwardProp_eq, epsEdges]
    congr 1
    funext w s
    exact matrixState_eq w s
  unfold matrixCompute matrixEdges
  simp only [push_flatMap, hcell]

end MatrixPush

/-! ## The edges of the matrix -/

section MatrixEdges

variable {io : Nat → Nat → Nat → List DWPair} {inLet outLet : List Nat} {nSt : Nat} {next : Nat → List Nat} {e : List Nat}

variable {a : Edge DerivState Nat}

theorem src_cellEdges {i o : Nat} (h : a ∈ cellEdges io inLet outLet i o nSt e) :
    a.src.i = i ∧ a.src.o = o ∧ i ≤ a.dest.i ∧ o ≤ a.dest.o := by
  rcases mem_append.1 h with h | h
  · obtain ⟨s, -, h⟩ := mem_flatMap.1 h
    obtain ⟨hsrc, hi, ho, -⟩ := src_propEdges h
    rw [hsrc]
    exact ⟨rfl, rfl, hi.ge, ho.ge⟩
  · obtain ⟨s, -, h⟩ := mem_flatMap.1 h
    obtain ⟨hsrc, hi, ho, -⟩ := src_stateEdges h
    rw [hsrc]
    exact ⟨rfl, rfl, hi, ho⟩

theorem mem_epsEdges {i o s : Nat} (h : a ∈ epsEdges io i o s) :
    a.src = ⟨i, s, o⟩ ∧ a.dest = ⟨i, a.dest.s, o⟩ ∧ ⟨a.dest.s, a.label⟩ ∈ io s epsilonIndex epsilonIndex := by
  obtain ⟨dw, hdw, rfl⟩ := mem_map.1 h
  exact ⟨rfl, rfl, hdw⟩

/-- Inside a cell, along the order of the epsilon arcs. -/
theorem cellEdges_inOrder (hsorted : TopoSort.Sorted next e)
    (hnext : ∀ s dw, dw ∈ io s epsilonIndex epsilonIndex → dw.dest ∈ next s) (i o : Nat) :
    (cellEdges io inLet outLet i o nSt e).Pairwise (fun a a' => a'.dest ≠ a.src) ∧
      ∀ a ∈ cellEdges io inLet outLet i o nSt e, a.dest ≠ a.src := by
  have hstate : ∀ {s : Nat} {a a' : Edge DerivState Nat}, a' ∈ stateEdges io inLet outLet i o s →
      a.src.i = i → a.src.o = o → a'.dest ≠ a.src := by
    intro s a a' ha' hi ho heq
    refine (src_stateEdges ha').2.2.2 ⟨?_, ?_⟩
    · rw [heq, hi]
    · rw [heq, ho]
  have heps : ∀ {s s' : Nat} {a a' : Edge DerivState Nat}, a ∈ epsEdges io i o s → a' ∈ epsEdges io i o s' →
      s ∉ next s' → a'.dest ≠ a.src := by
    intro s s' a a' ha ha' hs heq
    obtain ⟨hsrc, -, -⟩ := mem_epsEdges ha
    obtain ⟨-, -, hio⟩ := mem_epsEdges ha'
    have hdest : a'.dest.s = s := by rw [heq, hsrc]
    rw [hdest] at hio
    exact hs (hnext s' _ hio)
  have hsrc : ∀ {s : Nat} {a : Edge DerivState Nat}, a ∈ epsEdges io i o s → a.src.i = i ∧ a.src.o = o := by
    intro s a ha
    rw [(mem_epsEdges ha).1]
    exact ⟨rfl, rfl⟩
  have hsrc' : ∀ {s : Nat} {a : Edge DerivState Nat}, a ∈ stateEdges io inLet outLet i o s → a.src.i = i ∧ a.src.o = o := by
    intro s a ha
    rw [(src_stateEdges ha).1]
    exact ⟨rfl, rfl⟩
  constructor
  · refine pairwise_append.2 ⟨?_, ?_, ?_⟩
    · refine pairwise_flatMap.2 ⟨?_, ?_⟩
      · intro s hs
        refine pairwise_of_forall_mem_list fun a ha a' ha' => ?_
        exact heps ha ha' (hsorted.irrefl s hs)
      · refine hsorted.pairwise.imp ?_
        intro s s' hs a ha a' ha'
        exact heps ha ha' hs
    · refine pairwise_of_forall_mem_list fun a ha a' ha' => ?_
      obtain ⟨s, -, ha⟩ := mem_flatMap.1 ha
      obtain ⟨s', -, ha'⟩ := mem_flatMap.1 ha'
      exact hstate ha' (hsrc' ha).1 (hsrc' ha).2
    · intro a ha a' ha'
      obtain ⟨s, -, ha⟩ := mem_flatMap.1 ha
      obtain ⟨s', -, ha'⟩ := mem_flatMap.1 ha'
      exact hstate ha' (hsrc ha).1 (hsrc ha).2
  · intro a ha
    rcases mem_append.1 ha with ha | ha
    · obtain ⟨s, hs, ha⟩ := mem_flatMap.1 ha
      exact heps ha ha (hsorted.irrefl s hs)
    · obtain ⟨s, -, ha⟩ := mem_flatMap.1 ha
      exact hstate ha (hsrc' ha).1 (hsrc' ha).2

theorem matrixEdges_inOrder (hsorted : TopoSort.Sorted next e)
    (hnext : ∀ s dw, dw ∈ io s epsilonIndex epsilonIndex → dw.dest ∈ next s) :
    InOrder (matrixEdges io inLet outLet nSt e) := by
  constructor
  · refine pairwise_flatMap.2 ⟨?_, ?_⟩
    · intro i _
      refine pairwise_flatMap.2 ⟨fun o _ => (cellEdges_inOrder hsorted hnext i o).1, ?_⟩
      refine pairwise_lt_range.imp ?_
      intro o o' hlt a ha a' ha' heq
      have hsrc := src_cellEdges ha
      have hdest := src_cellEdges ha'
      rw [heq] at hdest
      omega
    · refine pairwise_lt_range.imp ?_
      intro i i' hlt a ha a' ha' heq
      obtain ⟨o, -, ha⟩ := mem_flatMap.1 ha
      obtain ⟨o', -, ha'⟩ := mem_flatMap.1 ha'
      have hsrc := src_cellEdges ha
      have hdest := src_cellEdges ha'
      rw [heq] at hdest
      omega
  · intro a ha
    obtain ⟨i, -, ha⟩ := mem_flatMap.1 ha
    obtain ⟨o, -, ha⟩ := mem_flatMap.1 ha
    exact (cellEdges_inOrder hsorted hnext i o).2 a ha

theorem propEdges_nodup {fio : List DWPair} (h : fio.Nodup) (s i o dI dO : Nat) : (propEdges fio s i o dI dO).Nodup := by
  refine h.map ?_
  intro dw dw' heq
  have hlabel := congrArg Edge.label heq
  have hdest := congrArg (fun a => a.dest.s) heq
  cases dw
  simp only at hlabel hdest
  rw [hlabel, hdest]

theorem stateEdges_nodup (hio : ∀ s a b, (io s a b).Nodup) (i o s : Nat) : (stateEdges io inLet outLet i o s).Nodup := by
  have hpart : ∀ {c : Prop} [Decidable c] {l : List (Edge DerivState Nat)}, l.Nodup → (if c then l else []).Nodup := by
    intro c _ l hl
    split
    · exact hl
    · exact nodup_nil
  refine nodup_append'.2 ⟨hpart (propEdges_nodup (hio ..) ..), nodup_append'.2
    ⟨hpart (propEdges_nodup (hio ..) ..), hpart (propEdges_nodup (hio ..) ..), ?_⟩, ?_⟩
  · intro a ha ha'
    have h := src_propEdges (mem_ite_nil_right.1 ha).2
    have h' := src_propEdges (mem_ite_nil_right.1 ha').2
    omega
  · intro a ha ha'
    have h := src_propEdges (mem_ite_nil_right.1 ha).2
    rcases mem_append.1 ha' with ha' | ha'
    · have h' := src_propEdges (mem_ite_nil_right.1 ha').2
      omega
    · have h' := src_propEdges (mem_ite_nil_right.1 ha').2
      omega

theorem matrixEdges_nodup (hio : ∀ s a b, (io s a b).Nodup) (he : e.Nodup) :
    (matrixEdges io inLet outLet nSt e).Nodup := by
  have hsrc : ∀ {l : List Nat} {f : Nat → List (Edge DerivState Nat)} (key : DerivState → Nat), l.Nodup →
      (∀ s a, a ∈ f s → key a.src = s) → l.Pairwise fun s s' => List.Disjoint (f s) (f s') := by
    intro l f key hl hf
    refine hl.imp ?_
    intro s s' hne a ha ha'
    exact hne ((hf s a ha).symm.trans (hf s' a ha'))
  refine nodup_flatMap.2 ⟨?_, hsrc DerivState.i nodup_range ?_⟩
  · intro i _
    refine nodup_flatMap.2 ⟨?_, hsrc DerivState.o nodup_range fun o a ha => (src_cellEdges ha).2.1⟩
    intro o _
    refine nodup_append'.2 ⟨?_, ?_, ?_⟩
    · refine nodup_flatMap.2 ⟨fun s _ => propEdges_nodup (hio ..) .., hsrc DerivState.s he ?_⟩
      intro s a ha
      rw [(mem_epsEdges ha).1]
    · refine nodup_flatMap.2 ⟨fun s _ => stateEdges_nodup hio i o s, hsrc DerivState.s nodup_range ?_⟩
      intro s a ha
      rw [(src_stateEdges ha).1]
    · intro a ha ha'
      obtain ⟨s, -, ha⟩ := mem_flatMap.1 ha
      obtain ⟨s', -, ha'⟩ := mem_flatMap.1 ha'
      have h := (mem_epsEdges ha).2.1
      refine (src_stateEdges ha').2.2.2 ⟨?_, ?_⟩
      · rw [h]
      · rw [h]
  · intro i a ha
    obtain ⟨o, -, ha⟩ := mem_flatMap.1 ha
    exact (src_cellEdges ha).1

/-- The edges of the matrix are the steps of the search. -/
theorem mem_matrixEdges {q r : SymSeq} (hcovers : ∀ s dw, dw ∈ io s epsilonIndex epsilonIndex → s ∈ e)
    (hio : ∀ s a b dw, dw ∈ io s a b → s < nSt) :
    a ∈ matrixEdges io q r nSt e ↔ a.src.i ≤ q.length ∧ a.src.o ≤ r.length ∧
      ∃ sIn sOut, ⟨a.dest.s, a.label⟩ ∈ io a.src.s sIn sOut ∧ Reads q a.src.i sIn a.dest.i ∧ Reads r a.src.o sOut a.dest.o := by
  have hprop : ∀ {fio : List DWPair} {s i o dI dO : Nat}, a ∈ propEdges fio s i o dI dO ↔
      a.src = ⟨i, s, o⟩ ∧ a.dest.i = i + dI ∧ a.dest.o = o + dO ∧ ⟨a.dest.s, a.label⟩ ∈ fio := by
    intro fio s i o dI dO
    refine ⟨src_propEdges, ?_⟩
    rintro ⟨hsrc, hi, ho, hmem⟩
    refine mem_map.2 ⟨_, hmem, ?_⟩
    obtain ⟨src, label, ⟨i', s', o'⟩⟩ := a
    simp only at hsrc hi ho
    rw [hsrc, hi, ho]
  unfold matrixEdges cellEdges stateEdges epsEdges
  simp only [mem_flatMap, mem_range, mem_append, mem_ite_nil_right, hprop, Nat.lt_succ_iff]
  constructor
  · rintro ⟨i, hi, o, ho, ⟨s, -, hsrc, hdi, hdo, hmem⟩ | ⟨s, -, ⟨hO, hsrc, hdi, hdo, hmem⟩ |
      ⟨⟨hI, hO⟩, hsrc, hdi, hdo, hmem⟩ | ⟨hI, hsrc, hdi, hdo, hmem⟩⟩⟩
    · rw [hsrc]
      exact ⟨hi, ho, _, _, hmem, .inl ⟨rfl, hdi⟩, .inl ⟨rfl, hdo⟩⟩
    · rw [hsrc]
      exact ⟨hi, ho, _, _, hmem, .inl ⟨rfl, hdi⟩, .inr (reads_symbol.1 ⟨hO, rfl, hdo⟩)⟩
    · rw [hsrc]
      exact ⟨hi, ho, _, _, hmem, .inr (reads_symbol.1 ⟨hI, rfl, hdi⟩), .inr (reads_symbol.1 ⟨hO, rfl, hdo⟩)⟩
    · rw [hsrc]
      exact ⟨hi, ho, _, _, hmem, .inr (reads_symbol.1 ⟨hI, rfl, hdi⟩), .inl ⟨rfl, hdo⟩⟩
  · rintro ⟨hi, ho, sIn, sOut, hmem, hreadIn, hreadOut⟩
    refine ⟨a.src.i, hi, a.src.o, ho, ?_⟩
    rcases hreadIn with ⟨rfl, hdi⟩ | hreadIn
    · rcases hreadOut with ⟨rfl, hdo⟩ | hreadOut
      · exact .inl ⟨a.src.s, hcovers _ _ hmem, rfl, hdi, hdo, hmem⟩
      · obtain ⟨hO, rfl, hdo⟩ := reads_symbol.2 hreadOut
        exact .inr ⟨a.src.s, hio _ _ _ _ hmem, .inl ⟨hO, rfl, hdi, hdo, hmem⟩⟩
    · obtain ⟨hI, rfl, hdi⟩ := reads_symbol.2 hreadIn
      rcases hreadOut with ⟨rfl, hdo⟩ | hreadOut
      · exact .inr ⟨a.src.s, hio _ _ _ _ hmem, .inr (.inr ⟨hI, rfl, hdi, hdo, hmem⟩)⟩
      · obtain ⟨hO, rfl, hdo⟩ := reads_symbol.2 hreadOut
        exact .inr ⟨a.src.s, hio _ _ _ _ hmem, .inr (.inl ⟨⟨hI, hO⟩, rfl, hdi, hdo, hmem⟩)⟩

end MatrixEdges

/-! ## The forward matrix -/

/-- The arc `id` leads from `s` to `t` and has these labels. -/
def ArcIs (x : Wfst W) (id s sIn sOut t : Nat) : Prop :=
  id < x.visitArcs.length ∧ (x.ptrOf id).src = s ∧ ∃ a, x.arc? (x.ptrOf id) = some a ∧ a.inp = sIn ∧ a.out = sOut ∧ a.dest = t

variable {sIn sOut id : Nat}

theorem mem_forwardIo : ⟨t, id⟩ ∈ forwardIo x s sIn sOut ↔ ArcIs x id s sIn sOut t := by
  simp only [forwardIo, mem_map, DWPair.mk.injEq, mem_forIo]
  constructor
  · rintro ⟨id', ⟨hid, hsrc, a, ha, hin, hout⟩, rfl, rfl⟩
    exact ⟨hid, hsrc, a, ha, hin, hout, by rw [Wfst.destOf, ha]; rfl⟩
  · rintro ⟨hid, hsrc, a, ha, hin, hout, rfl⟩
    exact ⟨id, ⟨hid, hsrc, a, ha, hin, hout⟩, by rw [Wfst.destOf, ha]; rfl, rfl⟩

theorem mem_backwardIo : ⟨s, id⟩ ∈ backwardIo x t sIn sOut ↔ ArcIs x id s sIn sOut t := by
  simp only [backwardIo, mem_map, DWPair.mk.injEq, mem_filter, mem_range, Option.any_eq_true,
    Bool.and_eq_true, beq_iff_eq]
  constructor
  · rintro ⟨id', ⟨hid, a, ha, ⟨hdest, hin⟩, hout⟩, rfl, rfl⟩
    exact ⟨hid, rfl, a, ha, hin, hout, hdest⟩
  · rintro ⟨hid, rfl, a, ha, hin, hout, hdest⟩
    exact ⟨id, ⟨hid, a, ha, ⟨hdest, hin⟩, hout⟩, rfl, rfl⟩

theorem ArcIs.lt (h : ArcIs x id s sIn sOut t) : s < x.numStates ∧ t < x.numStates := by
  obtain ⟨-, rfl, a, ha, -, -, rfl⟩ := h
  exact Wfst.arc?_lt ha

theorem ArcIs.eps (h : ArcIs x id s epsilonIndex epsilonIndex t) : EpsArc x s t := by
  obtain ⟨-, hsrc, a, ha, hin, hout, hdest⟩ := h
  exact ⟨_, a, ha, hsrc, hdest, hin, hout⟩

theorem mem_successors_iff : (id, e) ∈ successors x inp out d ↔
    ∃ sIn sOut, ArcIs x id d.s sIn sOut e.s ∧ Reads inp d.i sIn e.i ∧ Reads out d.o sOut e.o := by
  rw [mem_successors]
  constructor
  · rintro ⟨hid, hsrc, a, ha, hdest, hI, hO⟩
    exact ⟨_, _, ⟨hid, hsrc, a, ha, rfl, rfl, hdest.symm⟩, hI, hO⟩
  · rintro ⟨_, _, ⟨hid, hsrc, a, ha, rfl, rfl, hdest⟩, hI, hO⟩
    exact ⟨hid, hsrc, a, ha, hdest.symm, hI, hO⟩

theorem forwardIo_nodup (s sIn sOut : Nat) : (forwardIo x s sIn sOut).Nodup := by
  refine Nodup.of_map DWPair.id ?_
  unfold forwardIo
  rw [map_map]
  refine (Nodup.map (f := fun id => id) (fun _ _ h => h) ?_)
  exact nodup_range.filter _

theorem backwardIo_nodup (s sIn sOut : Nat) : (backwardIo x s sIn sOut).Nodup := by
  refine Nodup.of_map DWPair.id ?_
  unfold backwardIo
  rw [map_map]
  refine (Nodup.map (f := fun id => id) (fun _ _ h => h) ?_)
  exact nodup_range.filter _

section Solve

variable [Semifield W] [DecidableEq W]

/-- **The forward matrix solves the forward equations.** -/
theorem matrixForward_solves (h : EpsAcyclic x) {e : List Nat} (he : EpsOrder x (eNext x) e) (n : IOSymSeq F) :
    Forward (successors x n.i n.o) (arcWeight x) (allStates x n.i n.o) ⟨0, 0, 0⟩ (matrixForward x e n) := by
  have hnext : ∀ s dw, dw ∈ forwardIo x s epsilonIndex epsilonIndex → dw.dest ∈ eNext x s := by
    intro s dw hdw
    exact mem_eNext.2 (mem_forwardIo.1 hdw).eps
  unfold matrixForward
  rw [matrixCompute_eq]
  refine Forward.of_push (h.dag n.i n.o) (matrixEdges_inOrder he.sorted hnext)
    (matrixEdges_nodup forwardIo_nodup he.sorted.nodup) ?_ fun _ _ => rfl
  intro a
  rw [mem_matrixEdges (fun s dw hdw => he.covers s (ne_nil_of_mem (hnext s dw hdw)))
    (fun s sIn sOut dw hdw => (mem_forwardIo.1 hdw).lt.1), mem_allStates]
  constructor
  · rintro ⟨hi, ho, sIn, sOut, hmem, hI, hO⟩
    have harc := mem_forwardIo.1 hmem
    exact ⟨⟨hi, harc.lt.1, ho⟩, mem_successors_iff.2 ⟨sIn, sOut, harc, hI, hO⟩⟩
  · rintro ⟨⟨hi, -, ho⟩, hmem⟩
    obtain ⟨sIn, sOut, harc, hI, hO⟩ := mem_successors_iff.1 hmem
    exact ⟨hi, ho, sIn, sOut, mem_forwardIo.2 harc, hI, hO⟩

end Solve

/-! ## The backward matrix -/

theorem reads_reverse {q : SymSeq} {i l j : Nat} (hi : i ≤ q.length) (hj : j ≤ q.length) :
    Reads q.reverse i l j ↔ Reads q (q.length - j) l (q.length - i) := by
  constructor
  · rintro (⟨hl, rfl⟩ | ⟨hget, rfl⟩)
    · exact .inl ⟨hl, rfl⟩
    · refine .inr ⟨?_, by omega⟩
      rw [getElem?_reverse (by omega)] at hget
      rw [← hget]
      congr 1
      omega
  · rintro (⟨hl, heq⟩ | ⟨hget, heq⟩)
    · exact .inl ⟨hl, by omega⟩
    · refine .inr ⟨?_, by omega⟩
      rw [getElem?_reverse (by omega), ← hget]
      congr 1
      omega

/-- One swap of the loops of `matrix_reverse_io`. -/
def swapEnds {α : Type} (n : Nat) (f : Nat → α) (i : Nat) : Nat → α :=
  fun p => f (if p = i then n - i else if p = n - i then i else p)

/-- The swaps up to the middle turn the row around. -/
theorem swapEnds_loop {α : Type} (n k : Nat) (hk : k ≤ n / 2 + 1) (f : Nat → α) (p : Nat) (hp : p ≤ n) :
    (range k).foldl (swapEnds n) f p = if p < k ∨ n - p < k then f (n - p) else f p := by
  induction k generalizing p with
  | zero => simp
  | succ k ih =>
    have hstep : ∀ g : Nat → α, swapEnds n g k p = g (if p = k then n - k else if p = n - k then k else p) := fun _ => rfl
    rw [range_succ, foldl_append, foldl_cons, foldl_nil, hstep]
    by_cases hfirst : p = k
    · rw [if_pos hfirst, ih (by omega) _ (by omega), if_neg (by omega), if_pos (by omega), hfirst]
    · rw [if_neg hfirst]
      by_cases hsecond : p = n - k
      · rw [if_pos hsecond, ih (by omega) _ (by omega), if_neg (by omega), if_pos (by omega)]
        congr 1
        omega
      · rw [if_neg hsecond, ih (by omega) _ hp]
        by_cases hin : p < k ∨ n - p < k
        · rw [if_pos hin, if_pos (by omega)]
        · rw [if_neg hin, if_neg (by omega)]

theorem swapEnds_reverse {α : Type} (n : Nat) (f : Nat → α) (p : Nat) (hp : p ≤ n) :
    (range (n / 2 + 1)).foldl (swapEnds n) f p = f (n - p) := by
  rw [swapEnds_loop n _ (Nat.le_refl _) f p hp, if_pos (by omega)]

theorem matrixReverseIo_eq (w : Matrix W) {maxI maxO : Nat} {c : DerivState} (hi : c.i ≤ maxI) (ho : c.o ≤ maxO) :
    matrixReverseIo w maxI maxO c = w ⟨maxI - c.i, c.s, maxO - c.o⟩ := by
  obtain ⟨i, s, o⟩ := c
  have hin : ∀ (l : List Nat) (w : Matrix W) (o' : Nat), l.foldl (fun w i => swapIn w i (maxI - i)) w ⟨i, s, o'⟩ =
      l.foldl (swapEnds maxI) (fun p => w ⟨p, s, o'⟩) i := by
    intro l w o'
    induction l generalizing w with
    | nil => rfl
    | cons k l ih => exact ih (swapIn w k (maxI - k))
  have hout : ∀ (l : List Nat) (w : Matrix W), l.foldl (fun w o => swapOut w i o (maxO - o)) w ⟨i, s, o⟩ =
      l.foldl (swapEnds maxO) (fun p => w ⟨i, s, p⟩) o := by
    intro l w
    induction l generalizing w with
    | nil => rfl
    | cons k l ih =>
      have hrow : (fun p => swapOut w i k (maxO - k) ⟨i, s, p⟩) = swapEnds maxO (fun p => w ⟨i, s, p⟩) k :=
        funext fun p => if_pos rfl
      rw [foldl_cons, foldl_cons, ih, hrow]
  have hother : ∀ (l : List Nat) (w : Matrix W) {row : Nat}, i ≠ row →
      ∀ p, l.foldl (fun w o => swapOut w row o (maxO - o)) w ⟨i, s, p⟩ = w ⟨i, s, p⟩ := by
    intro l w row hrow p
    induction l generalizing w with
    | nil => rfl
    | cons k l ih =>
      rw [foldl_cons, ih]
      exact if_neg hrow
  have hrows : ∀ (rows : List Nat) (w : Matrix W), rows.Nodup → i ∈ rows →
      rows.foldl (fun w i => (range (maxO / 2 + 1)).foldl (fun w o => swapOut w i o (maxO - o)) w) w ⟨i, s, o⟩ =
        w ⟨i, s, maxO - o⟩ := by
    intro rows w hnodup hmem
    have hskip : ∀ (rows : List Nat) (w : Matrix W), i ∉ rows → ∀ p,
        rows.foldl (fun w i => (range (maxO / 2 + 1)).foldl (fun w o => swapOut w i o (maxO - o)) w) w ⟨i, s, p⟩ =
          w ⟨i, s, p⟩ := by
      intro rows w hnot p
      induction rows generalizing w with
      | nil => rfl
      | cons row rows ih =>
        obtain ⟨hne, hnot⟩ := not_or.1 fun h => hnot (mem_cons.2 h)
        rw [foldl_cons, ih _ hnot, hother _ _ hne]
    induction rows generalizing w with
    | nil => cases hmem
    | cons row rows ih =>
      obtain ⟨hfresh, hnodup⟩ := nodup_cons.1 hnodup
      rw [foldl_cons]
      by_cases hrow : i = row
      · subst hrow
        rw [hskip _ _ hfresh, hout, swapEnds_reverse _ _ _ ho]
      · rw [ih _ hnodup ((mem_cons.1 hmem).resolve_left hrow), hother _ _ hrow]
  unfold matrixReverseIo
  rw [hrows _ _ nodup_range (mem_range.2 (Nat.lt_succ_of_le hi)), hin, swapEnds_reverse _ _ _ hi]

/-- A state seen from the other end. -/
def turned (inp out : SymSeq) (c : DerivState) : DerivState := ⟨inp.length - c.i, c.s, out.length - c.o⟩

section Solve

variable [Semifield W] [DecidableEq W]

/-- **The backward matrix solves the backward equations.** -/
theorem matrixBackward_solves (h : EpsAcyclic x) {e : List Nat} (he : EpsOrder x (eNextReversed x) e) (n : IOSymSeq F) :
    Backward (successors x n.i n.o) (arcWeight x) (allStates x n.i n.o) (goal x n.i n.o) (matrixBackward x e n) := by
  have hnext : ∀ s dw, dw ∈ backwardIo x s epsilonIndex epsilonIndex → dw.dest ∈ eNextReversed x s := by
    intro s dw hdw
    exact mem_eNextReversed.2 (mem_backwardIo.1 hdw).eps
  have hturned : ∀ {c : DerivState}, c ∈ allStates x n.i n.o → turned n.i n.o (turned n.i n.o c) = c := by
    intro c hc
    obtain ⟨hi, -, ho⟩ := mem_allStates.1 hc
    obtain ⟨i, s, o⟩ := c
    simp only [turned, DerivState.mk.injEq, true_and]
    simp only at hi ho
    omega
  have hsolve : Backward (successors x n.i n.o) (arcWeight x) (allStates x n.i n.o) (goal x n.i n.o) fun c =>
      matrixCompute (arcWeight x) (backwardIo x) n.i.reverse n.o.reverse x.final x.numStates e
        (turned n.i n.o c) := by
    rw [matrixCompute_eq]
    refine Backward.of_push (h.dag n.i n.o) (matrixEdges_inOrder he.sorted hnext)
      (matrixEdges_nodup backwardIo_nodup he.sorted.nodup) (turned n.i n.o) ?_ ?_ ?_
    · intro c hc c' hc' heq
      rw [← hturned hc, heq, hturned hc']
    · intro v hv u id
      obtain ⟨hvi, -, hvo⟩ := mem_allStates.1 hv
      rw [mem_matrixEdges (fun s dw hdw => he.covers s (ne_nil_of_mem (hnext s dw hdw)))
        (fun s sIn sOut dw hdw => (mem_backwardIo.1 hdw).lt.2)]
      simp only [length_reverse]
      constructor
      · rintro ⟨hi, ho, sIn, sOut, hmem, hI, hO⟩
        have harc := mem_backwardIo.1 hmem
        refine ⟨turned n.i n.o u, mem_successors_iff.2 ⟨sIn, sOut, harc, ?_, ?_⟩, ?_⟩
        · have hread := (reads_reverse hi (Nat.sub_le _ _)).1 hI
          rwa [Nat.sub_sub_self hvi] at hread
        · have hread := (reads_reverse ho (Nat.sub_le _ _)).1 hO
          rwa [Nat.sub_sub_self hvo] at hread
        · exact (hturned (mem_allStates.2 ⟨hi, harc.lt.2, ho⟩)).symm
      · rintro ⟨t, ht, rfl⟩
        obtain ⟨sIn, sOut, harc, hI, hO⟩ := mem_successors_iff.1 ht
        have hti := hI.le_iff.1 hvi
        have hto := hO.le_iff.1 hvo
        refine ⟨Nat.sub_le _ _, Nat.sub_le _ _, sIn, sOut, mem_backwardIo.2 harc, ?_, ?_⟩
        · refine (reads_reverse (Nat.sub_le _ _) (Nat.sub_le _ _)).2 ?_
          rwa [Nat.sub_sub_self hvi, Nat.sub_sub_self hti]
        · refine (reads_reverse (Nat.sub_le _ _) (Nat.sub_le _ _)).2 ?_
          rwa [Nat.sub_sub_self hvo, Nat.sub_sub_self hto]
    · intro v hv
      obtain ⟨hi, -, ho⟩ := mem_allStates.1 hv
      have hiff : turned n.i n.o v = ⟨0, x.final, 0⟩ ↔ v = goal x n.i n.o := by
        obtain ⟨i, s, o⟩ := v
        simp only [turned, goal, DerivState.mk.injEq]
        simp only at hi ho
        omega
      simp only [hiff]
  intro v hv
  have heq : ∀ c ∈ allStates x n.i n.o, matrixBackward x e n c =
      matrixCompute (arcWeight x) (backwardIo x) n.i.reverse n.o.reverse x.final x.numStates e
        (turned n.i n.o c) := by
    intro c hc
    obtain ⟨hi, -, ho⟩ := mem_allStates.1 hc
    exact matrixReverseIo_eq _ hi ho
  refine (heq v hv).trans ((hsolve v hv).trans ?_)
  congr 1
  unfold outflow
  congr 1
  apply map_congr_left
  intro p hp
  rw [heq p.2 (successors_closed v hv p hp)]

end Solve

/-! ## The counts of the matrix -/

section Counts

variable [Semifield W]

/-- What an arc adds to its count. -/
def stepAmount (x : Wfst W) (f b : Matrix W) (d : DerivState) (p : Nat × DerivState) : Nat × W :=
  (p.1, f d * arcWeight x p.1 * b p.2)

variable (f b : Matrix W)

theorem matrixCount_eq (scratch : Nat → W) (s i o sIn sOut dI dO : Nat) :
    matrixCount (arcWeight x) f b scratch (forwardIo x s sIn sOut) s i o dI dO =
      deposit scratch ((matching x s sIn sOut (i + dI) (o + dO)).map (stepAmount x f b ⟨i, s, o⟩)) := by
  unfold matrixCount deposit forwardIo matching
  rw [map_map, foldl_map, foldl_map]
  rfl

/-- What a state deposits, in the order of the loop. -/
def stateAmounts (x : Wfst W) (f b : Matrix W) (inp out : SymSeq) (d : DerivState) : List (Nat × W) :=
  (((if d.i < inp.length ∧ d.o < out.length then
      matching x d.s (inp.getD d.i 0) (out.getD d.o 0) (d.i + 1) (d.o + 1) else []) ++
    (if d.i < inp.length then matching x d.s (inp.getD d.i 0) epsilonIndex (d.i + 1) d.o else [])) ++
    (if d.o < out.length then matching x d.s epsilonIndex (out.getD d.o 0) d.i (d.o + 1) else []) ++
    matching x d.s epsilonIndex epsilonIndex d.i d.o).map (stepAmount x f b d)

theorem matrixCountState_eq (scratch : Nat → W) (i o s : Nat) :
    matrixCountState x f b inp out i o scratch s = deposit scratch (stateAmounts x f b inp out ⟨i, s, o⟩) := by
  unfold matrixCountState stateAmounts
  simp only [matrixCount_eq, deposit_append, map_append]
  have hnil : ∀ c : Nat → W, deposit c [] = c := fun _ => rfl
  by_cases hi : i < inp.length
  · by_cases ho : o < out.length
    · simp only [hi, ho, and_self, if_true, Nat.add_zero]
    · simp only [hi, ho, and_false, if_true, if_false, Nat.add_zero, map_nil, hnil]
  · by_cases ho : o < out.length
    · simp only [hi, ho, false_and, if_true, if_false, Nat.add_zero, map_nil, hnil]
    · simp only [hi, ho, and_self, if_false, Nat.add_zero, map_nil, hnil]

theorem stateAmounts_perm (d : DerivState) :
    (stateAmounts x f b inp out d).Perm ((successors x inp out d).map (stepAmount x f b d)) := by
  refine Perm.map _ ?_
  refine perm_append_comm.trans (Perm.append_left _ ?_)
  refine perm_append_comm.trans (Perm.append_left _ ?_)
  exact perm_append_comm

/-- The states in the order of the loops. -/
def stateList (x : Wfst W) (inp out : SymSeq) : List DerivState :=
  (range (inp.length + 1)).flatMap fun i => (range (out.length + 1)).flatMap fun o =>
    (range x.numStates).map fun s => ⟨i, s, o⟩

omit [Semifield W] in
theorem stateList_perm (x : Wfst W) (inp out : SymSeq) : (stateList x inp out).Perm (allStates x inp out).toList := by
  have hkey : ∀ {l : List Nat} {f : Nat → List DerivState} (key : DerivState → Nat), l.Nodup →
      (∀ s d, d ∈ f s → key d = s) → l.Pairwise fun s s' => List.Disjoint (f s) (f s') := by
    intro l f key hl hf
    refine hl.imp ?_
    intro s s' hne d hd hd'
    exact hne ((hf s d hd).symm.trans (hf s' d hd'))
  refine (perm_ext_iff_of_nodup ?_ (Finset.nodup_toList _)).2 ?_
  · refine nodup_flatMap.2 ⟨?_, hkey DerivState.i nodup_range ?_⟩
    · intro i _
      refine nodup_flatMap.2 ⟨?_, hkey DerivState.o nodup_range ?_⟩
      · intro o _
        refine nodup_range.map ?_
        intro s s' heq
        exact congrArg DerivState.s heq
      · intro o d hd
        obtain ⟨s, -, rfl⟩ := mem_map.1 hd
        rfl
    · intro i d hd
      obtain ⟨o, -, hd⟩ := mem_flatMap.1 hd
      obtain ⟨s, -, rfl⟩ := mem_map.1 hd
      rfl
  · intro d
    rw [Finset.mem_toList, mem_allStates]
    unfold stateList
    simp only [mem_flatMap, mem_map, mem_range, Nat.lt_succ_iff]
    constructor
    · rintro ⟨i, hi, o, ho, s, hs, rfl⟩
      exact ⟨hi, hs, ho⟩
    · rintro ⟨hi, hs, ho⟩
      exact ⟨d.i, hi, d.o, ho, d.s, hs, rfl⟩

/-- **The matrix counts of an arc are the forward times the backward sums at its
steps.** -/
theorem matrixCounts_eq (n : IOSymSeq F) (id : Nat) : matrixCounts x f b n id =
    ∑ d ∈ allStates x n.i n.o, (((successors x n.i n.o d).filter fun p => p.1 = id).map fun p =>
      f d * (arcWeight x p.1 * b p.2)).sum := by
  have hloops : matrixCounts x f b n = deposit (fun _ => 0) ((stateList x n.i n.o).flatMap (stateAmounts x f b n.i n.o)) := by
    have hstate : ∀ i o, matrixCountState x f b n.i n.o i o =
        fun scratch s => deposit scratch (stateAmounts x f b n.i n.o ⟨i, s, o⟩) := by
      intro i o
      funext scratch s
      exact matrixCountState_eq f b scratch i o s
    unfold matrixCounts stateList
    simp only [flatMap_assoc, flatMap_map, deposit_flatMap, hstate]
  have hstate : ∀ d, (((stateAmounts x f b n.i n.o d).filter fun a => a.1 = id).map Prod.snd).sum =
      (((successors x n.i n.o d).filter fun p => p.1 = id).map fun p => f d * (arcWeight x p.1 * b p.2)).sum := by
    intro d
    rw [(((stateAmounts_perm f b d).filter _).map _).sum_eq, filter_map, map_map]
    congr 1
    apply map_congr_left
    intro p _
    exact mul_assoc _ _ _
  rw [hloops, deposit_eq, zero_add, filter_flatMap, map_flatMap, flatMap_def, sum_flatten,
    map_map, ← Finset.sum_map_toList, ((stateList_perm x n.i n.o).map _).sum_eq]
  congr 1
  apply map_congr_left
  intro d _
  exact hstate d

end Counts

end Sbmt.Carmel
