import Sbmt.Lib.AndOr
import Sbmt.Ghkm.Frontier
import Sbmt.Ghkm.BinarizeTree

/-!
# The forest of a parallel binarization

Every alternative in the forest branches to the parts of a group with the
signature of its OR node (`Sound`), in whatever order the groups are filed. The
binarizer returns within its fuel and keeps that (`genOR_spec`). Where signatures
tell the groups apart, their ranks fall along each branch, and what unfolds from
an OR node spells the group's nodes (`unbar_eq`). A node above another one with
its label and span has the same OR node, which then leads to itself
(`transGen_of_chain`). So the parse comes back from an acyclic forest just where
no node stands above another one with its label and span (`restruct_keeps_tree`).
-/

namespace Sbmt.Ghkm

open Sbmt.Lib Sbmt.Lib.AndOr TreeNode Labelled List Option

namespace PackedForest

/-- An AND node at the OR node `k`. -/
def Taken (F : PackedForest) (k : Nat) (p : LabSpanSig × List Nat) : Prop :=
  ∃ o, F.nodes[k]? = some o ∧ (⟨p.1, p.2⟩ : AndNode) ∈ o.alternatives

/-- One AND node for each OR node. -/
def IsChoice (F : PackedForest) (choice : Nat → LabSpanSig × List Nat) : Prop := ∀ k < F.nodes.length, F.Taken k (choice k)

/-- What is filed stays where it is. -/
def Extends (F F' : PackedForest) : Prop := ∀ s k, F.getNode s = some k → F'.getNode s = some k

theorem Extends.refl (F : PackedForest) : Extends F F := fun _ _ h => h

theorem Extends.trans {F F' F'' : PackedForest} (h : Extends F F') (h' : Extends F' F'') : Extends F F'' :=
  fun _ _ hk => h' _ _ (h _ _ hk)

end PackedForest

open PackedForest

/-- The OR nodes of some groups. -/
def Filed (srt : IntervalSort) (F : PackedForest) (gs : List (TreeNode × List TreeNode)) (ks : List Nat) : Prop :=
  Forall₂ (fun g k => F.getNode (labSpanSig srt g.1 g.2).text = some k) gs ks

/-- An AND node with the signature of a group that branches to its parts. -/
structure Stands (srt : IntervalSort) (root : TreeNode) (F : PackedForest) (p : TreeNode) (sibs : List TreeNode)
    (a : AndNode) : Prop where
  sig : a.sig = labSpanSig srt p sibs
  parts : ∃ gs, Parts srt root p sibs gs ∧ Filed srt F gs a.branches

structure Sound (srt : IntervalSort) (root : TreeNode) (F : PackedForest) : Prop where
  bounded : ∀ s k, F.getNode s = some k → k < F.nodes.length
  apart : ∀ s s' k, F.getNode s = some k → F.getNode s' = some k → s = s'
  filled : ∀ (k : Nat) (o : OrNode), F.nodes[k]? = some o → o.alternatives ≠ []
  stands : ∀ (k : Nat) (o : OrNode), F.nodes[k]? = some o → ∀ a ∈ o.alternatives, F.getNode a.sig.text = some k ∧
    ∃ p sibs, Group root p sibs ∧ Stands srt root F p sibs a

variable {srt : IntervalSort} {pol : Policy} {root p p' t : TreeNode} {sibs sibs' : List TreeNode} {F F' : PackedForest}

theorem Filed.mono {gs : List (TreeNode × List TreeNode)} {ks : List Nat} (h : Filed srt F gs ks) (hext : Extends F F') :
    Filed srt F' gs ks := h.imp fun _ _ hk => hext _ _ hk

theorem Stands.mono {a : AndNode} (h : Stands srt root F p sibs a) (hext : Extends F F') : Stands srt root F' p sibs a := by
  obtain ⟨hsig, gs, hparts, hfiled⟩ := h
  exact ⟨hsig, gs, hparts, hfiled.mono hext⟩

theorem sound_empty : Sound srt root .empty where
  bounded s k h := by simp [getNode, PackedForest.empty, find] at h
  apart s s' k h := by simp [getNode, PackedForest.empty, find] at h
  filled k o h := by simp [PackedForest.empty] at h
  stands k o h := by simp [PackedForest.empty] at h

/-! ## Adding an AND node -/

variable (a : AndNode)

theorem getNode_addNodeBySig : (F.addNodeBySig a).2.getNode a.sig.text = some (F.addNodeBySig a).1 := by
  unfold addNodeBySig
  split
  case h_1 k hk => exact hk
  case h_2 => simp [getNode, find_upsert]

theorem extends_addNodeBySig : Extends F (F.addNodeBySig a).2 := by
  intro s k hs
  unfold addNodeBySig
  split
  case h_1 => exact hs
  case h_2 hnone =>
    have hne : s ≠ a.sig.text := by
      rintro rfl
      rw [hnone] at hs
      cases hs
    simpa [getNode, find_upsert, hne] using hs

theorem push_alternatives (o : OrNode) (a : AndNode) : (OrNode.push o a).alternatives ≠ [] ∧
    ∀ b ∈ (OrNode.push o a).alternatives, b ∈ o.alternatives ∨ b = a := by
  unfold OrNode.push
  split
  case isTrue h =>
    obtain ⟨b, hb, _⟩ := any_eq_true.1 h
    exact ⟨ne_nil_of_mem hb, fun b hb => .inl hb⟩
  case isFalse => simp

/-- Where the alternatives come from. -/
theorem alternatives_addNodeBySig {k : Nat} {o : OrNode} (ho : (F.addNodeBySig a).2.nodes[k]? = some o) :
    ((∃ o', F.nodes[k]? = some o' ∧ (o'.alternatives ≠ [] → o.alternatives ≠ [])) ∨ o.alternatives ≠ []) ∧
      ∀ b ∈ o.alternatives, (∃ o', F.nodes[k]? = some o' ∧ b ∈ o'.alternatives) ∨ (b = a ∧ k = (F.addNodeBySig a).1) := by
  revert ho
  unfold addNodeBySig
  split
  case h_1 j hj =>
    intro ho
    simp only [getElem?_modify] at ho
    obtain ⟨o', ho', rfl⟩ := map_eq_some_iff.1 ho
    by_cases hjk : j = k
    · rw [if_pos hjk]
      obtain ⟨hne, hpush⟩ := push_alternatives o' a
      exact ⟨.inr hne, fun b hb => (hpush b hb).imp (fun hb => ⟨o', ho', hb⟩) fun hb => ⟨hb, hjk.symm⟩⟩
    · rw [if_neg hjk]
      exact ⟨.inl ⟨o', ho', id⟩, fun b hb => .inl ⟨o', ho', hb⟩⟩
  case h_2 =>
    intro ho
    rcases Nat.lt_or_ge k F.nodes.length with hk | hk
    · rw [getElem?_append_left hk] at ho
      exact ⟨.inl ⟨o, ho, id⟩, fun b hb => .inl ⟨o, ho, hb⟩⟩
    · rw [getElem?_append_right hk, getElem?_singleton] at ho
      split at ho
      case isTrue hzero =>
        obtain rfl := Option.some.inj ho
        refine ⟨.inr (by simp), fun b hb => .inr ⟨by simpa using hb, ?_⟩⟩
        omega
      case isFalse => cases ho

/-- What the index of the new forest knows. -/
theorem getNode_addNodeBySig_inv {s : Phrase.Text} {k : Nat}
    (hs : (F.addNodeBySig a).2.getNode s = some k) : F.getNode s = some k ∨
      (s = a.sig.text ∧ k = F.nodes.length ∧ F.nodes.length < (F.addNodeBySig a).2.nodes.length) := by
  revert hs
  unfold addNodeBySig
  split
  case h_1 => exact .inl
  case h_2 =>
    intro hs
    simp only [getNode, find_upsert] at hs
    split at hs
    case isTrue hsa => exact .inr ⟨hsa, (Option.some.inj hs).symm, by simp⟩
    case isFalse => exact .inl hs

theorem length_addNodeBySig : F.nodes.length ≤ (F.addNodeBySig a).2.nodes.length := by
  unfold addNodeBySig
  split <;> simp

theorem Sound.addNodeBySig (h : Sound srt root F) {a : AndNode} (hgroup : Group root p sibs) (ha : Stands srt root F p sibs a) :
    Sound srt root (F.addNodeBySig a).2 := by
  have hext := extends_addNodeBySig (F := F) a
  have hlength := length_addNodeBySig (F := F) a
  refine ⟨fun s k hs => ?_, fun s s' k hs hs' => ?_, fun k o ho => ?_, fun k o ho b hb => ?_⟩
  · rcases getNode_addNodeBySig_inv a hs with hs | ⟨_, rfl, hlt⟩
    · exact Nat.lt_of_lt_of_le (h.bounded s k hs) hlength
    · exact hlt
  · rcases getNode_addNodeBySig_inv a hs with hold | ⟨rfl, rfl, _⟩ <;>
      rcases getNode_addNodeBySig_inv a hs' with hold' | ⟨rfl, hk', _⟩
    · exact h.apart s s' k hold hold'
    · exact absurd (h.bounded s k hold) (by omega)
    · exact absurd (h.bounded s' _ hold') (lt_irrefl _)
    · rfl
  · rcases (alternatives_addNodeBySig a ho).1 with ⟨o', ho', hne⟩ | hne
    · exact hne (h.filled k o' ho')
    · exact hne
  · rcases (alternatives_addNodeBySig a ho).2 b hb with ⟨o', ho', hb⟩ | ⟨rfl, rfl⟩
    · obtain ⟨hk, q, qs, hgroup, hb⟩ := h.stands k o' ho' b hb
      exact ⟨hext _ _ hk, q, qs, hgroup, hb.mono hext⟩
    · exact ⟨getNode_addNodeBySig b, p, sibs, hgroup, ha.mono hext⟩

theorem addNodes_spec {andNodes : List AndNode} (hgroup : Group root p sibs) : ∀ {F : PackedForest} (r : Option Nat), Sound srt root F →
    (∀ a ∈ andNodes, Stands srt root F p sibs a) → (∀ k, r = some k → F.getNode (labSpanSig srt p sibs).text = some k) →
    (r = none → andNodes ≠ []) → ∃ k F', andNodes.foldl
      (fun r a => (some (r.2.addNodeBySig a).1, (r.2.addNodeBySig a).2)) (r, F) = (some k, F') ∧
      Sound srt root F' ∧ Extends F F' ∧ F'.getNode (labSpanSig srt p sibs).text = some k := by
  induction andNodes with
  | nil =>
    intro F r hF _ hr hne
    cases r with
    | none => exact absurd rfl (hne rfl)
    | some k => exact ⟨k, F, rfl, hF, .refl F, hr k rfl⟩
  | cons a as ih =>
    intro F r hF hall hr hne
    obtain ⟨ha, has⟩ := forall_mem_cons.1 hall
    have hext := extends_addNodeBySig (F := F) a
    have hget := getNode_addNodeBySig (F := F) a
    rw [ha.sig] at hget
    obtain ⟨k, F', hrun, hF', hext', hk⟩ := ih (some (F.addNodeBySig a).1) (hF.addNodeBySig hgroup ha)
      (fun b hb => (has b hb).mono hext) (fun k hk => Option.some.inj hk ▸ hget) (fun h => nomatch h)
    exact ⟨k, F', hrun, hF', hext.trans hext', hk⟩

/-! ## The binarizer -/

/-- `gen` makes the OR node of a group, in any forest. -/
def Generates (srt : IntervalSort) (root : TreeNode) (gen : GenOR) (p : TreeNode) (sibs : List TreeNode) : Prop :=
  ∀ F ids, Sound srt root F → ∃ k F' ids', gen p sibs F ids = some (k, F', ids') ∧ Sound srt root F' ∧ Extends F F' ∧
    F'.getNode (labSpanSig srt p sibs).text = some k

section
variable {gen : GenOR}

theorem flatBranches_spec : ∀ {ts : List TreeNode}, (∀ t ∈ ts, Generates srt root gen t (flatGroup p sibs t)) →
    ∀ F ids tmp, Sound srt root F → ∃ ks F' ids', flatBranches gen p sibs ts F ids tmp = some (ks, F', ids') ∧
      Sound srt root F' ∧ Extends F F' ∧ Filed srt F' (ts.map fun t => (t, flatGroup p sibs t)) ks := by
  intro ts
  induction ts with
  | nil =>
    intro _ F ids tmp hF
    exact ⟨[], F, ids, rfl, hF, .refl F, .nil⟩
  | cons t ts ih =>
    intro hgen F ids tmp hF
    obtain ⟨ht, hts⟩ := forall_mem_cons.1 hgen
    unfold flatBranches
    split
    case isTrue hleaf =>
      have hgroup : flatGroup p sibs t = if sibs.head? = some p then [] else [t] := if_pos hleaf
      rw [hgroup] at ht
      obtain ⟨k, F1, tmp', hrun, hF1, hext1, hk⟩ := ht F tmp hF
      obtain ⟨ks, F2, ids', hrun', hF2, hext2, hks⟩ := ih hts F1 ids tmp' hF1
      refine ⟨k :: ks, F2, ids', ?_, hF2, hext1.trans hext2, .cons ?_ hks⟩
      · simp only [hrun, hrun', bind_eq_bind, bind_some]
      · dsimp only
        rw [hgroup]
        exact hext2 _ _ hk
    case isFalse hsub =>
      have hgroup : flatGroup p sibs t = t.subtrees := if_neg hsub
      rw [hgroup] at ht
      obtain ⟨k, F1, ids1, hrun, hF1, hext1, hk⟩ := ht F ∅ hF
      obtain ⟨ks, F2, ids', hrun', hF2, hext2, hks⟩ := ih hts F1 ids1 tmp hF1
      refine ⟨k :: ks, F2, ids', ?_, hF2, hext1.trans hext2, .cons ?_ hks⟩
      · simp only [hrun, hrun', bind_eq_bind, bind_some]
      · dsimp only
        rw [hgroup]
        exact hext2 _ _ hk

/-- AND nodes for a group, in a forest that still holds what it held. -/
def Factors (srt : IntervalSort) (root p : TreeNode) (sibs : List TreeNode) (F : PackedForest)
    (r : Option (List AndNode × PackedForest × Finset Nat)) : Prop :=
  ∃ andNodes F' ids', r = some (andNodes, F', ids') ∧ Sound srt root F' ∧ Extends F F' ∧ andNodes ≠ [] ∧
    ∀ a ∈ andNodes, Stands srt root F' p sibs a

variable (hspans : ∀ m ∈ root.nodes, m.Contiguous)
include hspans

theorem flat_spec (h : Group root p sibs)
    (hgen : ∀ q qs, Group root q qs → rank q qs < rank p sibs → Generates srt root gen q qs) (ids tmp : Finset Nat)
    (hF : Sound srt root F) : Factors srt root p sibs F (flat srt gen p sibs F ids tmp) := by
  have hparts := parts_flat srt hspans h
  have hall : ∀ t ∈ sibs, Generates srt root gen t (flatGroup p sibs t) := by
    intro t ht
    exact hgen _ _ (hparts.group _ (mem_map_of_mem ht)) (hparts.falls _ (mem_map_of_mem ht))
  obtain ⟨ks, F', ids', hrun, hF', hext, hfiled⟩ := flatBranches_spec hall F ids tmp hF
  refine ⟨[⟨labSpanSig srt p sibs, ks⟩], F', ids', ?_, hF', hext, cons_ne_nil _ _, ?_⟩
  · simp only [flat, hrun, bind_eq_bind, bind_some]
  · intro a ha
    obtain rfl := mem_singleton.1 ha
    exact ⟨rfl, _, hparts, hfiled⟩

variable (pol) in
theorem factorRight_spec {us : List TreeNode} (h : Group root p (t :: us)) (hlong : 2 ≤ us.length)
    (hgen : ∀ q qs, Group root q qs → rank q qs < rank p (t :: us) → Generates srt root gen q qs) (tmp : Finset Nat)
    (hF : Sound srt root F) : ∃ f F' tmp', factorRight srt pol gen p t (t :: us) F tmp = some (f, F', tmp') ∧
      Sound srt root F' ∧ Extends F F' ∧ Stands srt root F' p (t :: us) f.andNode := by
  have hparts := parts_right srt hspans h hlong
  have hfirst : (t, branchOf t) ∈ [(t, branchOf t), (p, us)] := by simp
  have hrest : (p, us) ∈ [(t, branchOf t), (p, us)] := by simp
  obtain ⟨k, F1, tmp', hrun, hF1, hext1, hk⟩ := hgen _ _ (hparts.group _ hfirst) (hparts.falls _ hfirst) F tmp hF
  obtain ⟨k', F2, ids, hrun', hF2, hext2, hk'⟩ := hgen _ _ (hparts.group _ hrest) (hparts.falls _ hrest) F1 ∅ hF1
  refine ⟨⟨pol.factorizable p us, pol.withinLimit p us, ⟨labSpanSig srt p (t :: us), [k, k']⟩, F2.idOf k' ≠ 0, ids⟩,
    F2, tmp', ?_, hF2, hext1.trans hext2, ?_⟩
  · simp only [factorRight, hrun, tail_cons, hrun', bind_eq_bind, bind_some]
  · exact ⟨rfl, _, hparts, .cons (hext2 _ _ hk) (.cons hk' .nil)⟩

theorem factorLeft_spec {us : List TreeNode} (h : Group root p (us ++ [t])) (hlong : 2 ≤ us.length)
    (hgen : ∀ q qs, Group root q qs → rank q qs < rank p (us ++ [t]) → Generates srt root gen q qs) (tmp : Finset Nat)
    (hF : Sound srt root F) : ∃ f F' tmp', factorLeft srt pol gen p t (us ++ [t]) F tmp = some (f, F', tmp') ∧
      Sound srt root F' ∧ Extends F F' ∧ Stands srt root F' p (us ++ [t]) f.andNode := by
  have hparts := parts_left srt hspans h hlong
  have hrest : (p, us) ∈ [(p, us), (t, branchOf t)] := by simp
  have hlast : (t, branchOf t) ∈ [(p, us), (t, branchOf t)] := by simp
  obtain ⟨k, F1, ids, hrun, hF1, hext1, hk⟩ := hgen _ _ (hparts.group _ hrest) (hparts.falls _ hrest) F ∅ hF
  obtain ⟨k', F2, tmp', hrun', hF2, hext2, hk'⟩ := hgen _ _ (hparts.group _ hlast) (hparts.falls _ hlast) F1 tmp hF1
  refine ⟨⟨pol.factorizable p us, pol.withinLimit p us, ⟨labSpanSig srt p (us ++ [t]), [k, k']⟩, F2.idOf k ≠ 0, ids⟩,
    F2, tmp', ?_, hF2, hext1.trans hext2, ?_⟩
  · simp only [factorLeft, dropLast_concat, hrun, hrun', bind_eq_bind, bind_some]
  · exact ⟨rfl, _, hparts, .cons (hext2 _ _ hk) (.cons hk' .nil)⟩

omit hspans in
/-- No AND node is made up by the choice. -/
theorem mem_choose {right left : Factoring} {ids : Finset Nat} {a : AndNode} (ha : a ∈ (Factoring.choose right left ids).1) :
    a = right.andNode ∨ a = left.andNode := by
  have hkept : ∀ f : Factoring, ∀ a ∈ f.kept, a = f.andNode := by
    intro f a ha
    unfold Factoring.kept at ha
    split at ha
    · exact mem_singleton.1 ha
    · cases ha
  have hif : ∀ (c : Prop) [Decidable c] (f : Factoring), ∀ a ∈ (if c then f.kept else []), a = f.andNode := by
    intro c _ f a ha
    split at ha
    · exact hkept f a ha
    · cases ha
  unfold Factoring.choose Factoring.prefer at ha
  split at ha
  · rcases mem_append.1 ha with ha | ha
    · exact .inl (hkept _ _ ha)
    · exact .inr (hkept _ _ ha)
  · rcases mem_append.1 ha with ha | ha
    · exact .inr (hkept _ _ ha)
    · exact .inl (hif _ _ _ ha)
  · rcases mem_append.1 ha with ha | ha
    · exact .inl (hkept _ _ ha)
    · exact .inr (hif _ _ _ ha)
  · dsimp only at ha
    split at ha
    · exact .inl (hif _ _ _ ha)
    · rcases mem_append.1 ha with ha | ha
      · exact .inl (hif _ _ _ ha)
      · exact .inr (hif _ _ _ ha)

variable (pol) in
theorem factorize_spec (h : Group root p sibs)
    (hgen : ∀ q qs, Group root q qs → rank q qs < rank p sibs → Generates srt root gen q qs) (ids : Finset Nat)
    (hF : Sound srt root F) : Factors srt root p sibs F (factorize srt pol gen p sibs F ids) := by
  unfold factorize
  split
  case h_2 => exact flat_spec hspans h hgen ∅ ∅ hF
  case h_1 t u last more =>
    obtain ⟨right, F1, tmp1, hright, hF1, hext1, hr⟩ := factorRight_spec pol hspans h (by simp) hgen ∅ hF
    obtain ⟨us, hsplit⟩ : ∃ us, t :: u :: last :: more = us ++ [more.getLastD last] := by
      rcases eq_nil_or_concat more with rfl | ⟨init, x, rfl⟩
      · exact ⟨[t, u], rfl⟩
      · exact ⟨t :: u :: last :: init, by simp⟩
    have hlong : 2 ≤ us.length := by
      have := congrArg List.length hsplit
      simp at this
      omega
    obtain ⟨left, F2, tmp2, hleft, hF2, hext2, hl⟩ : ∃ f F' tmp',
        factorLeft srt pol gen p (more.getLastD last) (t :: u :: last :: more) F1 tmp1 = some (f, F', tmp') ∧
          Sound srt root F' ∧ Extends F1 F' ∧ Stands srt root F' p (t :: u :: last :: more) f.andNode := by
      rw [hsplit] at h hgen ⊢
      exact factorLeft_spec hspans h hlong hgen tmp1 hF1
    simp only [hright, hleft, bind_eq_bind, bind_some]
    split
    case h_1 ids' _ =>
      obtain ⟨as, F', ids'', hrun, hF', hext', hne, hall⟩ := flat_spec hspans h hgen ids' tmp2 hF2
      exact ⟨as, F', ids'', hrun, hF', (hext1.trans hext2).trans hext', hne, hall⟩
    case h_2 as ids' hne hchoose =>
      refine ⟨as, F2, ids', rfl, hF2, hext1.trans hext2, fun has => hne (by rw [has]), fun a ha => ?_⟩
      have hmem : a ∈ (Factoring.choose right left ids).1 := by rw [hchoose]; exact ha
      rcases mem_choose hmem with rfl | rfl
      · exact hr.mono hext2
      · exact hl

variable (pol) in
/-- `genOR` returns, and files the OR node of its group. -/
theorem genOR_spec (n : Nat) : ∀ {p : TreeNode} {sibs : List TreeNode}, Group root p sibs → rank p sibs < n →
    Generates srt root (genOR srt pol n) p sibs := by
  induction n with
  | zero => intro p sibs _ hn; omega
  | succ n ih =>
    intro p sibs h hn F ids hF
    unfold genOR
    split
    case h_1 k hk => exact ⟨k, F, ids, rfl, hF, .refl F, hk⟩
    case h_2 =>
      obtain ⟨as, F1, ids', hrun, hF1, hext, hne, hall⟩ := factorize_spec pol hspans h
        (fun q qs hgroup hlt => ih hgroup (by omega)) ids hF
      obtain ⟨k, F2, hadd, hF2, hext2, hk⟩ := addNodes_spec h none hF1 hall (fun _ hk => nomatch hk) fun _ => hne
      refine ⟨k, F2, ids', ?_, hF2, hext.trans hext2, hk⟩
      simp only [hrun, bind_eq_bind, bind_some, addNodes, hadd]

variable (srt pol) in
theorem restructBy_spec (hroot : root.subtrees ≠ []) : ∃ F k, restructBy srt pol root = some F ∧ F.root = some k ∧
    Sound srt root F ∧ F.getNode (labSpanSig srt root (branchOf root)).text = some k := by
  have hbranch : branchOf root = root.subtrees := if_neg hroot
  have hgroup := group_branchOf root.self_mem_nodes
  have hlt := rank_branchOf_lt root
  rw [hbranch] at hgroup hlt ⊢
  obtain ⟨k, F, ids, hrun, hF, _, hk⟩ := genOR_spec pol hspans _ hgroup hlt .empty ∅ sound_empty
  refine ⟨{ F with root := some k }, k, ?_, rfl, ⟨hF.bounded, hF.apart, hF.filled, ?_⟩, hk⟩
  · simp only [restructBy, hrun, bind_eq_bind, bind_some]
  · intro j o ho a ha
    obtain ⟨hj, q, qs, hgroup, hsig, gs, hparts, hfiled⟩ := hF.stands j o ho a ha
    exact ⟨hj, q, qs, hgroup, hsig, gs, hparts, hfiled⟩

end

/-! ## What the forest spells -/

mutual

/-- Each "-BAR" node is replaced by its children. -/
def unbar : Unfolded Nat LabSpanSig → List Labelled
  | .node _ sig ts => if sig.isInternal && isBar sig.label then unbarAll ts else [.node sig.label (unbarAll ts)]

def unbarAll : List (Unfolded Nat LabSpanSig) → List Labelled
  | [] => []
  | t :: ts => unbar t ++ unbarAll ts

end

theorem unbarAll_eq (ts : List (Unfolded Nat LabSpanSig)) : unbarAll ts = ts.flatMap unbar := by
  induction ts with
  | nil => rfl
  | cons t ts ih => rw [unbarAll, ih, flatMap_cons]

variable (srt) in
/-- What a group's AND node spells, once its branches spell the group's content. -/
theorem node_spells (hspans : ∀ m ∈ root.nodes, m.Contiguous) (hbar : ∀ m ∈ root.nodes, isBar m.data.cat = false)
    (h : Group root p sibs) :
    (if (labSpanSig srt p sibs).isInternal && isBar (labSpanSig srt p sibs).label then content p sibs
      else [Labelled.node (labSpanSig srt p sibs).label (content p sibs)]) = meaning p sibs := by
  have hp := h.mem
  rcases h.kinds with ⟨rfl, hleaf⟩ | rfl | ⟨hrow, hmany, hlt⟩
  · rw [labSpanSig_word srt hspans hp hleaf]
    simp [content, meaning]
  · rw [labSpanSig_branchOf srt hspans hp, meaning_branchOf]
    simp only [hbar p hp, Bool.and_false, Bool.false_eq_true, if_false]
    by_cases hleaf : p.subtrees = []
    · rw [shown_leaf hleaf]
      simp [content, branchOf, hleaf]
    · rw [shown_inner hleaf]
      simp [content, branchOf, hleaf]
  · have hne : sibs ≠ [] := by
      rintro rfl
      simp at hmany
    have hsub : p.subtrees ≠ [] := fun h => hne (infix_nil.1 (h ▸ hrow))
    rw [labSpanSig_part srt hspans hp hrow hmany hlt, meaning_part hmany hlt, content_row hne hsub]
    simp [isBar_append]

/-- The group that stands behind the top of an unfolded tree. -/
theorem Sound.top (h : Sound srt root F) {k : Nat} {sig : LabSpanSig} {ts : List (Unfolded Nat LabSpanSig)}
    (hfollows : Follows F.Taken (.node k sig ts)) : F.getNode sig.text = some k ∧ ∃ p sibs gs, Group root p sibs ∧
      sig = labSpanSig srt p sibs ∧ Parts srt root p sibs gs ∧ Filed srt F gs (ts.map Unfolded.item) := by
  obtain ⟨⟨o, ho, ha⟩, _⟩ := Follows.node_iff.1 hfollows
  obtain ⟨hk, p, sibs, hgroup, hsig, gs, hparts, hfiled⟩ := h.stands k o ho _ ha
  exact ⟨hk, p, sibs, gs, hgroup, hsig, hparts, hfiled⟩

theorem Sound.getNode_label (h : Sound srt root F) {t : Unfolded Nat LabSpanSig} (hfollows : Follows F.Taken t) :
    F.getNode t.label.text = some t.item := by
  cases t with
  | node k sig ts => exact (h.top hfollows).1

theorem Sound.label_eq (h : Sound srt root F) {t : Unfolded Nat LabSpanSig} (hfollows : Follows F.Taken t) {sig : LabSpanSig}
    (hk : F.getNode sig.text = some t.item) : t.label = sig :=
  LabSpanSig.text_injective (h.apart _ _ _ (h.getNode_label hfollows) hk)

/-- The subtrees of an unfolded tree compare to their groups, if each does. -/
theorem flatMap_unbar_rel {R : List Labelled → List Labelled → Prop} (hnil : R [] [])
    (happend : ∀ a b c d, R a b → R c d → R (a ++ c) (b ++ d)) :
    ∀ {gs : List (TreeNode × List TreeNode)} {ts : List (Unfolded Nat LabSpanSig)}, Filed srt F gs (ts.map Unfolded.item) →
    (∀ g ∈ gs, ∀ t ∈ ts, F.getNode (labSpanSig srt g.1 g.2).text = some t.item → R (unbar t) (meaning g.1 g.2)) →
    R (ts.flatMap unbar) (gs.flatMap fun g => meaning g.1 g.2) := by
  intro gs ts
  induction ts generalizing gs with
  | nil =>
    intro hfiled _
    cases hfiled
    exact hnil
  | cons t ts ih =>
    intro hfiled hrel
    rcases hfiled with _ | ⟨hg, hgs⟩
    rename_i g gs
    exact happend _ _ _ _ (hrel g (by simp) t (by simp) hg)
      (ih hgs fun g hg t ht => hrel g (mem_cons_of_mem _ hg) t (mem_cons_of_mem _ ht))

section
variable (hspans : ∀ m ∈ root.nodes, m.Contiguous) (hbar : ∀ m ∈ root.nodes, isBar m.data.cat = false)
  (hsound : Sound srt root F)
include hspans hbar hsound

omit hspans hbar in
theorem Sound.leads {a b : Nat} {l : LabSpanSig × List Nat} (hl : F.Taken a l) (hb : b ∈ l.2) :
    ∃ p sibs q qs, Group root p sibs ∧ F.getNode (labSpanSig srt p sibs).text = some a ∧ Group root q qs ∧
      F.getNode (labSpanSig srt q qs).text = some b ∧ rank q qs < rank p sibs := by
  obtain ⟨o, ho, hl⟩ := hl
  obtain ⟨ha, p, sibs, hgroup, hsig, gs, hparts, hfiled⟩ := hsound.stands a o ho _ hl
  obtain ⟨g, hg, hgb⟩ := exists_of_mem_right hfiled hb
  rw [hsig] at ha
  exact ⟨p, sibs, g.1, g.2, hgroup, ha, hparts.group g hg, hgb, hparts.falls g hg⟩

variable (hdistinct : root.Distinct)
include hdistinct

/-- Whichever alternatives are taken, what unfolds from the OR node of a group spells the group. -/
theorem unbar_eq (D : Unfolded Nat LabSpanSig) : Follows F.Taken D →
    ∀ {p : TreeNode} {sibs : List TreeNode}, Group root p sibs → F.getNode (labSpanSig srt p sibs).text = some D.item →
      unbar D = meaning p sibs := by
  induction D using Unfolded.induct with
  | h k sig ts ih =>
    intro hfollows p sibs hgroup hk
    obtain ⟨hk', q, qs, gs, hgroup', rfl, hparts, hfiled⟩ := hsound.top hfollows
    have hsame := LabSpanSig.text_injective (hsound.apart _ _ _ hk hk')
    rw [(eq_of_labSpanSig srt hspans hdistinct hbar hgroup hgroup' hsame).1, ← node_spells srt hspans hbar hgroup',
      unbar, unbarAll_eq]
    have hkids : ts.flatMap unbar = content q qs := by
      rw [← hparts.spells]
      exact flatMap_unbar_rel rfl (fun a b c d hab hcd => by rw [hab, hcd]) hfiled fun g hg t ht hitem =>
        ih t ht ((Follows.node_iff.1 hfollows).2 t ht) (hparts.group g hg) hitem
    rw [hkids]

/-- Where groups are known by their signatures, ranks fall along the branches. -/
theorem exists_rank : ∃ r : Nat → Nat, ∀ p sibs k, Group root p sibs →
    F.getNode (labSpanSig srt p sibs).text = some k → r k = rank p sibs := by
  have hone : ∀ k, ∃ n, ∀ p sibs, Group root p sibs → F.getNode (labSpanSig srt p sibs).text = some k → n = rank p sibs := by
    intro k
    by_cases hk : ∃ p sibs, Group root p sibs ∧ F.getNode (labSpanSig srt p sibs).text = some k
    · obtain ⟨p, sibs, hgroup, hfiled⟩ := hk
      refine ⟨rank p sibs, fun q qs hgroup' hfiled' => ?_⟩
      have hsame := LabSpanSig.text_injective (hsound.apart _ _ _ hfiled hfiled')
      exact (eq_of_labSpanSig srt hspans hdistinct hbar hgroup hgroup' hsame).2
    · exact ⟨0, fun q qs hgroup' hfiled' => absurd ⟨q, qs, hgroup', hfiled'⟩ hk⟩
  choose r hr using hone
  exact ⟨r, fun p sibs k => hr k p sibs⟩

theorem acyclic : Acyclic F.Taken := by
  obtain ⟨r, hr⟩ := exists_rank hspans hbar hsound hdistinct
  refine acyclic_of_rank r fun a b => ?_
  rintro ⟨l, hl, hb⟩
  obtain ⟨p, sibs, q, qs, hgroup, ha, hgroup', hb, hlt⟩ := hsound.leads hl hb
  rw [hr p sibs a hgroup ha, hr q qs b hgroup' hb]
  exact hlt

theorem exists_unfolding {choice : Nat → LabSpanSig × List Nat} (hchoice : F.IsChoice choice)
    {k : Nat} (hgroup : Group root p sibs) (hk : F.getNode (labSpanSig srt p sibs).text = some k) :
    ∃ D, D.item = k ∧ Follows (fun k l => l = choice k) D := by
  obtain ⟨r, hr⟩ := exists_rank hspans hbar hsound hdistinct
  refine exists_follows choice r (fun k => ∃ p sibs, Group root p sibs ∧ F.getNode (labSpanSig srt p sibs).text = some k)
    ?_ k ⟨p, sibs, hgroup, hk⟩
  rintro a ⟨p, sibs, hgroup, ha⟩ b hb
  obtain ⟨p, sibs, q, qs, hgroup, ha, hgroup', hb, hlt⟩ := hsound.leads (hchoice a (hsound.bounded _ _ ha)) hb
  refine ⟨⟨q, qs, hgroup', hb⟩, ?_⟩
  rw [hr p sibs a hgroup ha, hr q qs b hgroup' hb]
  exact hlt

end

/-! ## A node above another one with its label and span -/

namespace Labelled

def label : Labelled → String
  | node l _ => l

def kids : Labelled → List Labelled
  | node _ ts => ts

mutual

def nodes : Labelled → List Labelled
  | node l ts => node l ts :: nodesOf ts

def nodesOf : List Labelled → List Labelled
  | [] => []
  | t :: ts => t.nodes ++ nodesOf ts

end

variable {ts : List Labelled}

theorem mem_nodesOf {N : Labelled} : N ∈ nodesOf ts ↔ ∃ t ∈ ts, N ∈ t.nodes := by
  induction ts with
  | nil => simp [nodesOf]
  | cons t ts ih => simp [nodesOf, ih]

theorem mem_nodes {N : Labelled} {l : String} :
    N ∈ (node l ts).nodes ↔ N = node l ts ∨ ∃ t ∈ ts, N ∈ t.nodes := by
  rw [nodes, mem_cons, mem_nodesOf]

theorem leaves_pos (N : Labelled) : 0 < N.leaves := by
  rcases N with ⟨l, _ | ⟨t, ts⟩⟩
  · simp [leaves]
  · have := leaves_pos t
    rw [leaves]
    omega

theorem leavesOf_eq_zero (h : leavesOf ts = 0) : ts = [] := by
  cases ts with
  | nil => rfl
  | cons t ts =>
    have := leaves_pos t
    rw [leavesOf] at h
    omega

end Labelled

theorem shown_mem_nodes {m : TreeNode} (hm : m ∈ root.nodes) : m.shown ∈ root.shown.nodes := by
  induction root using TreeNode.induct with
  | h d ts ih =>
    rcases TreeNode.mem_nodes.1 hm with rfl | ⟨t, ht, hm⟩
    · cases h : (TreeNode.node d ts).shown with
      | node l us => exact Labelled.mem_nodes.2 (.inl rfl)
    · have hsub : (TreeNode.node d ts).subtrees ≠ [] := ne_nil_of_mem ht
      rw [shown_inner hsub]
      exact Labelled.mem_nodes.2 (.inr ⟨t.shown, mem_map_of_mem ht, ih t ht hm⟩)

theorem kids_shown {c m : TreeNode} (hc : c ∈ m.subtrees) : c.shown ∈ m.shown.kids := by
  rw [shown_inner (ne_nil_of_mem hc)]
  exact mem_map_of_mem hc

theorem label_shown (m : TreeNode) : m.shown.label = m.data.cat := by
  rcases m with ⟨d, _ | ⟨t, ts⟩⟩ <;> rfl

theorem kids_shown_ne_nil (m : TreeNode) : m.shown.kids ≠ [] := by
  rcases m with ⟨d, _ | ⟨t, ts⟩⟩ <;> simp [shown, Labelled.kids]

/-- A node of the tree that comes out was one of the unfolded tree. -/
theorem exists_of_mem_unbar {N : Labelled} (D : Unfolded Nat LabSpanSig) : ∀ {L : Labelled}, L ∈ unbar D → N ∈ L.nodes →
    ∃ x ∈ D.nodes, unbar x = [N] ∧ x.label.label = N.label ∧ x.kids.flatMap unbar = N.kids := by
  induction D using Unfolded.induct with
  | h k sig ts ih =>
    intro L hL hN
    have hbelow : ∀ t ∈ ts, ∀ M ∈ unbar t, N ∈ M.nodes → ∃ x ∈ (Unfolded.node k sig ts).nodes,
        unbar x = [N] ∧ x.label.label = N.label ∧ x.kids.flatMap unbar = N.kids := by
      intro t ht M hM hN
      obtain ⟨x, hx, h⟩ := ih t ht hM hN
      exact ⟨x, Unfolded.mem_nodes.2 (.inr ⟨t, ht, hx⟩), h⟩
    by_cases hb : (sig.isInternal && isBar sig.label) = true
    · rw [unbar, if_pos hb, unbarAll_eq] at hL
      obtain ⟨t, ht, hL⟩ := mem_flatMap.1 hL
      exact hbelow t ht L hL hN
    · have hself : unbar (.node k sig ts) = [.node sig.label (ts.flatMap unbar)] := by rw [unbar, if_neg hb, unbarAll_eq]
      rw [hself, mem_singleton] at hL
      subst hL
      rcases Labelled.mem_nodes.1 hN with rfl | ⟨M, hM, hN⟩
      · exact ⟨_, Unfolded.self_mem_nodes _, hself, rfl, rfl⟩
      · obtain ⟨t, ht, hM⟩ := mem_flatMap.1 hM
        exact hbelow t ht M hM hN

section
variable (hspans : ∀ m ∈ root.nodes, m.Contiguous) (hsound : Sound srt root F)
include hspans hsound

/-- An unfolded tree has as many words as its group. -/
theorem leavesOf_unbar (D : Unfolded Nat LabSpanSig) : Follows F.Taken D → leavesOf (unbar D) = width D.label.span ∧
    (D.kids.flatMap unbar ≠ [] → D.label.isInternal = true) ∧ 0 < width D.label.span := by
  induction D using Unfolded.induct with
  | h k sig ts ih =>
    intro hfollows
    obtain ⟨hk, p, sibs, gs, hgroup, rfl, hparts, hfiled⟩ := hsound.top hfollows
    have hmeaning := leavesOf_meaning srt hspans hgroup
    have hkids : leavesOf (ts.flatMap unbar) = leavesOf (content p sibs) := by
      rw [← hparts.spells]
      refine flatMap_unbar_rel (R := fun a b => leavesOf a = leavesOf b) rfl
        (fun a b c d hab hcd => by rw [leavesOf_append, leavesOf_append, hab, hcd]) hfiled fun g hg t ht hitem => ?_
      have hfollows' := (Follows.node_iff.1 hfollows).2 t ht
      rw [(ih t ht hfollows').1, hsound.label_eq hfollows' hitem, leavesOf_meaning srt hspans (hparts.group g hg)]
    have hpos : 0 < leavesOf (meaning p sibs) := by
      refine Nat.pos_of_ne_zero fun hzero => ?_
      have hnil := leavesOf_eq_zero hzero
      unfold meaning at hnil
      split at hnil
      · cases hnil
      · rename_i hne
        split at hnil
        · exact hne (map_eq_nil_iff.1 hnil)
        · cases hnil
    refine ⟨?_, fun hne => ?_, ?_⟩
    · rw [unbar, unbarAll_eq]
      by_cases hne : sibs = []
      · subst hne
        have hzero : ts.flatMap unbar = [] := leavesOf_eq_zero (by rw [hkids]; simp [content, leavesOf])
        have hint : (labSpanSig srt p []).isInternal = false := rfl
        rw [hint, hzero]
        exact Eq.trans (by simp [meaning, leavesOf, leaves]) hmeaning
      · rw [leavesOf_content hgroup hne] at hkids
        have hsome : ts.flatMap unbar ≠ [] := by
          intro hnil
          rw [hnil] at hkids
          rw [← hkids] at hpos
          exact absurd hpos (lt_irrefl _)
        split
        · rw [hkids]
          exact hmeaning
        · rw [leavesOf, leaves_node _ hsome, hkids]
          exact hmeaning
    · cases sibs with
      | nil =>
        have hzero : leavesOf (content p []) = 0 := by simp [content, leavesOf]
        exact absurd (leavesOf_eq_zero (hkids.trans hzero)) hne
      | cons t us => rfl
    · show 0 < width (labSpanSig srt p sibs).span
      rw [← hmeaning]
      exact hpos

omit hspans in
/-- The spans of an unfolded tree lie one within the other. -/
theorem label_within (D : Unfolded Nat LabSpanSig) : Follows F.Taken D → ∀ {x : Unfolded Nat LabSpanSig}, x ∈ D.nodes →
    Within x.label.span D.label.span := by
  induction D using Unfolded.induct with
  | h k sig ts ih =>
    intro hfollows x hx
    rcases Unfolded.mem_nodes.1 hx with rfl | ⟨t, ht, hxt⟩
    · exact ⟨le_rfl, le_rfl⟩
    · obtain ⟨hk, p, sibs, gs, hgroup, rfl, hparts, hfiled⟩ := hsound.top hfollows
      have hfollows' := (Follows.node_iff.1 hfollows).2 t ht
      have hbelow := ih t ht hfollows' hxt
      obtain ⟨g, hg, hitem⟩ := exists_of_mem_right hfiled (mem_map_of_mem ht)
      have hpart := hparts.within g hg
      rw [← hsound.label_eq hfollows' hitem] at hpart
      exact ⟨hpart.1.trans hbelow.1, hbelow.2.trans hpart.2⟩

/-- Where the parse comes out and a node stands above another one of its label and span, an OR node leads to itself. -/
theorem transGen_of_chain {D : Unfolded Nat LabSpanSig} (hD : Follows F.Taken D) (hshown : unbar D = [root.shown])
    {m m' : TreeNode} (hm : m ∈ root.nodes) (hm' : m' ∈ m.nodes) (hcat : m'.data.cat = m.data.cat)
    (hspan : m'.data.eSpan = m.data.eSpan) (hne : m' ≠ m) : ∃ k, Relation.TransGen (Leads F.Taken) k k := by
  obtain ⟨c, hc, hmc⟩ : ∃ c ∈ m.subtrees, m' ∈ c.nodes := by
    cases m with
    | node d ts => exact (TreeNode.mem_nodes.1 hm').resolve_left hne
  obtain ⟨x, hx, hxm, hxlabel, hxkids⟩ := exists_of_mem_unbar D (by rw [hshown]; exact mem_singleton_self _)
    (shown_mem_nodes hm)
  have hcx : c.shown ∈ x.kids.flatMap unbar := by
    rw [hxkids]
    exact kids_shown hc
  obtain ⟨t, ht, hct⟩ := mem_flatMap.1 hcx
  obtain ⟨y, hy, hym, hylabel, hykids⟩ := exists_of_mem_unbar t hct (shown_mem_nodes hmc)
  have habove : Unfolded.Above x y := ⟨t, ht, hy⟩
  have hxF := hD.of_mem hx
  have hyx : y ∈ x.nodes := by
    cases x with
    | node k sig ts => exact Unfolded.mem_nodes.2 (.inr ⟨t, ht, hy⟩)
  have hyF := hxF.of_mem hyx
  obtain ⟨hxleaves, hxint, hxpos⟩ := leavesOf_unbar hspans hsound x hxF
  obtain ⟨hyleaves, hyint, hypos⟩ := leavesOf_unbar hspans hsound y hyF
  have hwithin := label_within hsound x hxF hyx
  have hmleaves := leaves_shown (contiguous_of_mem hspans hm)
  have hmleaves' := leaves_shown (contiguous_of_mem hspans (mem_nodes_trans hm' hm))
  rw [hxm] at hxleaves
  rw [hym] at hyleaves
  simp only [leavesOf] at hxleaves hyleaves
  have hwidth : width x.label.span = width y.label.span := by
    have : width m'.eSpan = width m.eSpan := congrArg width hspan
    omega
  have hspans' : x.label.span = y.label.span := by
    obtain ⟨hw, hw'⟩ := hwithin
    unfold width at hwidth hxpos hypos
    ext
    · omega
    · omega
  have hlabels : x.label = y.label := by
    have hlabel : x.label.label = y.label.label := by rw [hxlabel, hylabel, label_shown, label_shown, hcat]
    have hint : x.label.isInternal = y.label.isInternal := by
      rw [hxint (by rw [hxkids]; exact kids_shown_ne_nil m), hyint (by rw [hykids]; exact kids_shown_ne_nil m')]
    revert hlabel hint hspans'
    generalize x.label = s
    generalize y.label = s'
    cases s
    simp_all
  have hitem : x.item = y.item := by
    have hxk := hsound.getNode_label hxF
    rw [hlabels, hsound.getNode_label hyF] at hxk
    exact (Option.some.inj hxk).symm
  exact ⟨x.item, hitem ▸ hxF.transGen habove⟩

end

/-! ## The tree kept -/

theorem Sound.exists_choice (h : Sound srt root F) : ∃ choice, F.IsChoice choice := by
  have hone : ∀ k, ∃ l, k < F.nodes.length → F.Taken k l := by
    intro k
    by_cases hk : k < F.nodes.length
    · obtain ⟨a, ha⟩ := exists_mem_of_ne_nil _ (h.filled k _ (getElem?_eq_getElem hk))
      exact ⟨(a.sig, a.branches), fun _ => ⟨_, getElem?_eq_getElem hk, ha⟩⟩
    · exact ⟨(⟨"", true, (0, 0)⟩, []), fun h => absurd h hk⟩
  choose choice hchoice using hone
  exact ⟨choice, hchoice⟩

/-- The forest is acyclic, and every choice of AND nodes yields the parse once the "-BAR" nodes are taken out. -/
def Keeps (root : TreeNode) (r : Option PackedForest) : Prop :=
  ∃ F k, r = some F ∧ F.root = some k ∧ Acyclic F.Taken ∧ ∀ choice, F.IsChoice choice →
    ∃ D : Unfolded Nat LabSpanSig, D.item = k ∧ Follows (fun k l => l = choice k) D ∧ unbar D = [root.shown]

variable (srt pol) in
/-- Whatever decides the factoring. -/
theorem restructBy_keeps_iff (hspans : ∀ m ∈ root.nodes, m.Contiguous)
    (hroot : root.subtrees ≠ []) (hbar : ∀ m ∈ root.nodes, isBar m.data.cat = false) :
    Keeps root (restructBy srt pol root) ↔ root.Distinct := by
  obtain ⟨F, k, hrun, hk, hsound, hfiled⟩ := restructBy_spec srt pol hspans hroot
  have hgroup := group_branchOf root.self_mem_nodes
  have hfollow : ∀ choice, F.IsChoice choice → ∀ D : Unfolded Nat LabSpanSig,
      Follows (fun k l => l = choice k) D → (∃ p sibs, Group root p sibs ∧ F.getNode (labSpanSig srt p sibs).text = some D.item) →
      Follows F.Taken D := by
    intro choice hchoice D
    induction D using Unfolded.induct with
    | h j sig ts ih =>
      rintro hD ⟨p, sibs, hgroup, hj⟩
      obtain ⟨htop, hkids⟩ := Follows.node_iff.1 hD
      have htaken : F.Taken j (sig, ts.map Unfolded.item) := by
        rw [htop]
        exact hchoice j (hsound.bounded _ _ hj)
      refine Follows.node_iff.2 ⟨htaken, fun t ht => ih t ht (hkids t ht) ?_⟩
      obtain ⟨_, _, q, qs, _, _, hgroup', hitem, _⟩ := hsound.leads htaken (mem_map_of_mem ht)
      exact ⟨q, qs, hgroup', hitem⟩
  constructor
  · rintro ⟨F', k', hrun', hk', hacyclic, hall⟩
    obtain rfl := mem_unique hrun hrun'
    obtain rfl := mem_unique hk hk'
    obtain ⟨choice, hchoice⟩ := hsound.exists_choice
    obtain ⟨D, rfl, hD, hshown⟩ := hall choice hchoice
    have hD := hfollow choice hchoice D hD ⟨_, _, hgroup, hfiled⟩
    intro m hm m' hm' hcat hspan
    by_contra hne
    obtain ⟨j, hcycle⟩ := transGen_of_chain hspans hsound hD hshown hm hm' hcat hspan hne
    exact hacyclic j hcycle
  · intro hdistinct
    refine ⟨F, k, hrun, hk, acyclic hspans hbar hsound hdistinct, fun choice hchoice => ?_⟩
    obtain ⟨D, rfl, hD⟩ := exists_unfolding hspans hbar hsound hdistinct hchoice hgroup hfiled
    refine ⟨D, rfl, hD, ?_⟩
    rw [unbar_eq hspans hbar hsound hdistinct D (hfollow choice hchoice D hD ⟨_, _, hgroup, hfiled⟩) hgroup hfiled,
      meaning_branchOf]

/-- **Parallel binarization**: the forest keeps the parse just where no node stands above another one with its label and span. -/
theorem restruct_keeps_iff (srt : IntervalSort) (headIndex : TreeNode → Nat) (b : ParallelBinarizer) {root : TreeNode}
    (hspans : ∀ m ∈ root.nodes, m.Contiguous) (hroot : root.subtrees ≠ [])
    (hbar : ∀ m ∈ root.nodes, isBar m.data.cat = false) : Keeps root (b.restruct srt headIndex root) ↔ root.Distinct :=
  restructBy_keeps_iff srt (b.policy srt headIndex) hspans hroot hbar

def wordsAbove (cat : String) (first last : Nat) (ts : List TreeNode) : TreeNode :=
  .node ⟨cat, "", (first, last), [], [], false, false⟩ ts

/-- `(NP (DT the) (JJ big) (NN dog))` under its root, marked by the links `crossed`. -/
def theDog : TreeNode :=
  .node ⟨"ROOT", "", (0, 2), [(0, 3)], [], false, true⟩ [.node ⟨"NP", "", (0, 2), [(0, 3)], [], false, true⟩
    [.node ⟨"DT", "the", (0, 0), [(0, 0)], [(1, 3)], false, true⟩ [],
      .node ⟨"JJ", "big", (1, 1), [(3, 3)], [(0, 1)], false, true⟩ [],
      .node ⟨"NN", "dog", (2, 2), [(1, 1)], [(0, 0), (3, 3)], false, true⟩ []]]

/-- `big dog` gets a node of its own. -/
theorem restruct_keeps_theDog : Keeps theDog (ParallelBinarizer.restruct .stable (fun _ => 0) ⟨crossed, 5, []⟩ theDog) ∧
    (ParallelBinarizer.restruct .stable (fun _ => 0) ⟨crossed, 5, []⟩ theDog).map
      (fun F => F.nodes[8]?.map fun o => o.alternatives.map AndNode.branches) = some (some [[1, 6]]) := by
  have hroot : theDog.subtrees ≠ [] := cons_ne_nil _ _
  refine ⟨(restruct_keeps_iff .stable (fun _ => 0) ⟨crossed, 5, []⟩ ?_ hroot ?_).2 ?_, by decide⟩
  · simp [theDog, TreeNode.nodes, TreeNode.nodesOf, TreeNode.Contiguous, innerSpan, TreeNode.data]
  · decide
  · unfold TreeNode.Distinct
    decide

/-- `(NP (NP (NNS dogs)))` under its root. -/
def npOverNp : TreeNode :=
  wordsAbove "ROOT" 0 0 [wordsAbove "NP" 0 0 [wordsAbove "NP" 0 0 [leafAt "NNS" "dogs" 0]]]

/-- The two noun phrases share an OR node, which then has itself for a child. -/
theorem not_restruct_keeps_npOverNp : (∀ m ∈ npOverNp.nodes, m.Contiguous) ∧ npOverNp.subtrees ≠ [] ∧
    (∀ m ∈ npOverNp.nodes, isBar m.data.cat = false) ∧
    ¬ Keeps npOverNp (ParallelBinarizer.restruct .stable (fun _ => 0) ⟨crossed, 5, []⟩ npOverNp) := by
  refine ⟨?_, cons_ne_nil _ _, by decide, ?_⟩
  · simp [npOverNp, wordsAbove, leafAt, TreeNode.nodes, TreeNode.nodesOf, TreeNode.Contiguous, innerSpan, TreeNode.data]
  · rintro ⟨F, k, hrun, _, hacyclic, _⟩
    have hself : (F.nodes[2]?.map fun o => o.alternatives.any fun a => decide (2 ∈ a.branches)) = some true := by
      have hrun' : (ParallelBinarizer.restruct .stable (fun _ => 0) ⟨crossed, 5, []⟩ npOverNp).map
          (fun F => F.nodes[2]?.map fun o => o.alternatives.any fun a => decide (2 ∈ a.branches)) = some (some true) := by
        decide
      rw [hrun] at hrun'
      exact Option.some.inj hrun'
    obtain ⟨o, ho, hany⟩ := map_eq_some_iff.1 hself
    obtain ⟨a, ha, hmem⟩ := any_eq_true.1 hany
    exact hacyclic 2 (.single ⟨(a.sig, a.branches), ⟨o, ho, ha⟩, of_decide_eq_true hmem⟩)

/-- A `Tree2ForestConverter` factors other groups, to the same end. -/
theorem convert_keeps_iff (srt : IntervalSort) (headIndex : TreeNode → Nat) (b : ParallelBinarizer) {root : TreeNode}
    (hspans : ∀ m ∈ root.nodes, m.Contiguous) (hroot : root.subtrees ≠ [])
    (hbar : ∀ m ∈ root.nodes, isBar m.data.cat = false) : Keeps root (convert srt headIndex b root) ↔ root.Distinct :=
  restructBy_keeps_iff srt _ hspans hroot hbar

theorem convert_keeps_theDog : Keeps theDog (convert .stable (fun _ => 0) ⟨crossed, 5, []⟩ theDog) := by
  have hroot : theDog.subtrees ≠ [] := cons_ne_nil _ _
  refine (convert_keeps_iff .stable (fun _ => 0) ⟨crossed, 5, []⟩ ?_ hroot (by decide)).2 ?_
  · simp [theDog, TreeNode.nodes, TreeNode.nodesOf, TreeNode.Contiguous, innerSpan, TreeNode.data]
  · unfold TreeNode.Distinct
    decide

end Sbmt.Ghkm
