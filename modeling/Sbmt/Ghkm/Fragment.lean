import Sbmt.Ghkm.Tree

/-!
# Fragments of a parse tree

A fragment rooted at `tn` is told by the paths from `tn` to its nodes that are expanded or, at a preterminal,
lexicalized; its other nodes are the variables right below these. It is admissible if `tn` is among them and only frontier
nodes are variables.

Admissible fragments are closed under intersection, so there is a least one above any set of paths (`exists_least`), and
each is reached from the least of all by opening one variable after the other (`Admissible.reached`).
-/

namespace Sbmt.Ghkm

open Relation List

namespace TreeNode

/-- The node at the end of a path of child numbers. -/
def get? : TreeNode → List Nat → Option TreeNode
  | t, [] => some t
  | t, i :: p => (t.subtrees[i]?).bind fun u => get? u p

@[simp] theorem get?_nil (t : TreeNode) : t.get? [] = some t := rfl

theorem get?_append (p q : List Nat) : ∀ t : TreeNode, t.get? (p ++ q) = (t.get? p).bind fun u => u.get? q := by
  induction p with
  | nil => exact fun _ => rfl
  | cons i p ih =>
    intro t
    rw [cons_append, get?, get?, Option.bind_assoc]
    simp only [ih]

theorem get?_concat (t : TreeNode) (p : List Nat) (i : Nat) :
    t.get? (p ++ [i]) = (t.get? p).bind fun u => u.subtrees[i]? := by
  rw [get?_append]
  simp [get?]

mutual

/-- The paths to the nodes of a tree. -/
def paths : TreeNode → List (List Nat)
  | node _ ts => [] :: pathsOf 0 ts

def pathsOf : Nat → List TreeNode → List (List Nat)
  | _, [] => []
  | k, t :: ts => t.paths.map (k :: ·) ++ pathsOf (k + 1) ts

end

theorem mem_pathsOf {p : List Nat} (ts : List TreeNode) : ∀ k, p ∈ pathsOf k ts ↔
    ∃ (i : Nat) (t : TreeNode) (q : List Nat), ts[i]? = some t ∧ q ∈ t.paths ∧ p = (k + i) :: q := by
  induction ts with
  | nil => simp [pathsOf]
  | cons t ts ih =>
    intro k
    rw [pathsOf, mem_append, mem_map, ih (k + 1)]
    constructor
    · rintro (⟨q, hq, rfl⟩ | ⟨i, u, q, hu, hq, rfl⟩)
      · exact ⟨0, t, q, rfl, hq, rfl⟩
      · exact ⟨i + 1, u, q, hu, hq, by rw [Nat.add_right_comm, Nat.add_assoc]⟩
    · rintro ⟨i, u, q, hu, hq, rfl⟩
      cases i with
      | zero =>
        cases hu
        exact .inl ⟨q, hq, rfl⟩
      | succ i => exact .inr ⟨i, u, q, hu, hq, by rw [Nat.add_right_comm, Nat.add_assoc]⟩

theorem mem_paths (t : TreeNode) : ∀ p, p ∈ t.paths ↔ ∃ u, t.get? p = some u := by
  induction t using TreeNode.induct with
  | h d ts ih =>
    intro p
    rw [paths, mem_cons, mem_pathsOf]
    cases p with
    | nil => simp
    | cons i p =>
      constructor
      · rintro (hp | ⟨j, t, q, ht, hq, heq⟩)
        · cases hp
        · cases heq
          obtain ⟨u, hu⟩ := (ih t (mem_of_getElem? ht) p).mp hq
          exact ⟨u, by simp [get?, subtrees, ht, hu]⟩
      · rintro ⟨u, hu⟩
        obtain ⟨t, ht, hu⟩ := Option.bind_eq_some_iff.mp hu
        exact .inr ⟨i, t, p, ht, (ih t (mem_of_getElem? ht) p).mpr ⟨u, hu⟩, by rw [Nat.zero_add]⟩

end TreeNode

/-! ## Fragments -/

variable {tn : TreeNode} {E F G H : Finset (List Nat)} {p : List Nat} {i : Nat}

/-- What is opened in a fragment rooted at `tn`. -/
structure Fragment (tn : TreeNode) (F : Finset (List Nat)) : Prop where
  inside : ∀ p ∈ F, ∃ t, tn.get? p = some t
  connected : ∀ p i, p ++ [i] ∈ F → p ∈ F

/-- `tn` itself is opened, and every node right below an opened one that is no frontier node. -/
structure Admissible (tn : TreeNode) (F : Finset (List Nat)) : Prop extends Fragment tn F where
  root : [] ∈ F
  forced : ∀ p ∈ F, ∀ i t, tn.get? (p ++ [i]) = some t → t.data.frontierNode = false → p ++ [i] ∈ F

/-- The number of expanded nodes. -/
def expansions (tn : TreeNode) (F : Finset (List Nat)) : Nat :=
  (F.filter fun p => (tn.get? p).any TreeNode.isInternal).card

/-- The number of lexicalized preterminals. -/
def lexicalized (tn : TreeNode) (F : Finset (List Nat)) : Nat :=
  (F.filter fun p => (tn.get? p).any fun t => !t.isInternal).card

theorem expansions_mono (tn : TreeNode) (h : F ⊆ G) : expansions tn F ≤ expansions tn G :=
  Finset.card_le_card (Finset.filter_subset_filter _ h)

theorem expansions_add_lexicalized (h : Fragment tn F) : expansions tn F + lexicalized tn F = F.card := by
  have hleaf : lexicalized tn F = (F.filter fun p => ¬ (tn.get? p).any TreeNode.isInternal = true).card := by
    unfold lexicalized
    congr 1
    apply Finset.filter_congr
    intro p hp
    obtain ⟨t, ht⟩ := h.inside p hp
    simp [ht]
  rw [hleaf, expansions, Finset.card_filter_add_card_filter_not]

theorem expansions_insert {t : TreeNode} (ht : tn.get? p = some t) (hp : p ∉ F) :
    expansions tn (insert p F) = expansions tn F + if t.isInternal then 1 else 0 := by
  unfold expansions
  rw [Finset.filter_insert, ht, Option.any_some]
  split
  · exact Finset.card_insert_of_notMem fun hmem => hp (Finset.mem_filter.mp hmem).1
  · rfl

theorem lexicalized_insert {t : TreeNode} (ht : tn.get? p = some t) (hp : p ∉ F) :
    lexicalized tn (insert p F) = lexicalized tn F + if t.isInternal then 0 else 1 := by
  unfold lexicalized
  rw [Finset.filter_insert, ht, Option.any_some]
  cases t.isInternal with
  | true => simp
  | false => simpa using Finset.card_insert_of_notMem fun hmem => hp (Finset.mem_filter.mp hmem).1

/-- First by the expanded nodes, then by the lexicalized ones. -/
def fragmentRank (tn : TreeNode) (F : Finset (List Nat)) : Nat ×ₗ Nat := toLex (expansions tn F, lexicalized tn F)

theorem fragmentRank_lt (hF : Fragment tn F) (hG : Fragment tn G) (h : F ⊂ G) :
    fragmentRank tn F < fragmentRank tn G := by
  have hcard := Finset.card_lt_card h
  rw [← expansions_add_lexicalized hF, ← expansions_add_lexicalized hG] at hcard
  have hexp := expansions_mono tn h.subset
  unfold fragmentRank
  rw [Prod.Lex.toLex_lt_toLex]
  rcases hexp.lt_or_eq with hlt | heq
  · exact .inl hlt
  · exact .inr ⟨heq, by simp only at heq ⊢; omega⟩

/-! ## The least admissible fragment -/

/-- Everything opened. -/
theorem admissible_paths (tn : TreeNode) : Admissible tn tn.paths.toFinset where
  inside p hp := (tn.mem_paths p).mp (mem_toFinset.mp hp)
  connected p i hp := by
    rw [mem_toFinset, TreeNode.mem_paths] at hp ⊢
    obtain ⟨u, hu⟩ := hp
    rw [TreeNode.get?_concat] at hu
    obtain ⟨t, ht, -⟩ := Option.bind_eq_some_iff.mp hu
    exact ⟨t, ht⟩
  root := mem_toFinset.mpr ((tn.mem_paths []).mpr ⟨tn, rfl⟩)
  forced p _ i t ht _ := mem_toFinset.mpr ((tn.mem_paths _).mpr ⟨t, ht⟩)

/-- The admissible fragments in which all of `E` is opened. -/
def Above (tn : TreeNode) (E : Finset (List Nat)) : Set (Finset (List Nat)) := {F | Admissible tn F ∧ E ⊆ F}

/-- What all admissible fragments above `E` have in common is admissible. -/
theorem exists_least (h : ∀ p ∈ E, ∃ t, tn.get? p = some t) : ∃ F, IsLeast (Above tn E) F := by
  classical
  have hall : tn.paths.toFinset ∈ Above tn E :=
    ⟨admissible_paths tn, fun p hp => mem_toFinset.mpr ((tn.mem_paths p).mpr (h p hp))⟩
  let F := tn.paths.toFinset.filter fun p => ∀ G ∈ Above tn E, p ∈ G
  have hmem : ∀ p, p ∈ F ↔ ∀ G ∈ Above tn E, p ∈ G := by
    intro p
    rw [Finset.mem_filter]
    exact ⟨fun hp => hp.2, fun hp => ⟨hp _ hall, hp⟩⟩
  refine ⟨F, ⟨⟨⟨?_, ?_⟩, ?_, ?_⟩, ?_⟩, ?_⟩
  · exact fun p hp => hall.1.inside p ((hmem p).mp hp _ hall)
  · exact fun p i hp => (hmem p).mpr fun G hG => hG.1.connected p i ((hmem _).mp hp G hG)
  · exact (hmem []).mpr fun G hG => hG.1.root
  · exact fun p hp i t ht hf => (hmem _).mpr fun G hG => hG.1.forced p ((hmem p).mp hp G hG) i t ht hf
  · exact fun p hp => (hmem p).mpr fun G hG => hG.2 hp
  · exact fun G hG p hp => (hmem p).mp hp G hG

/-! ## Opening one variable -/

/-- A variable of `F` is opened, and what has to be opened then. -/
def Grows (tn : TreeNode) (F G : Finset (List Nat)) : Prop :=
  ∃ p ∈ F, ∃ i t, tn.get? (p ++ [i]) = some t ∧ p ++ [i] ∉ F ∧ IsLeast (Above tn (insert (p ++ [i]) F)) G

theorem Grows.admissible (h : Grows tn F G) : Admissible tn G := by
  obtain ⟨p, -, i, t, -, -, hleast⟩ := h
  exact hleast.1.1

theorem Grows.ssubset (h : Grows tn F G) : F ⊂ G := by
  obtain ⟨p, -, i, t, -, hnew, hleast⟩ := h
  have hsub := hleast.1.2
  rw [Finset.ssubset_iff_of_subset ((Finset.subset_insert _ _).trans hsub)]
  exact ⟨p ++ [i], hsub (Finset.mem_insert_self _ _), hnew⟩

theorem Grows.rank_lt (h : Grows tn F G) (hF : Fragment tn F) : fragmentRank tn F < fragmentRank tn G :=
  fragmentRank_lt hF h.admissible.toFragment h.ssubset

/-- A larger fragment has a variable of the smaller one opened. -/
theorem exists_variable (hF : Admissible tn F) (hG : Admissible tn G) (h : F ⊂ G) :
    ∃ p ∈ F, ∃ i, p ++ [i] ∈ G ∧ p ++ [i] ∉ F := by
  -- a shortest path that is opened in `G` only
  have hne : (G \ F).Nonempty := Finset.sdiff_nonempty.mpr h.2
  obtain ⟨a, ha, hshortest⟩ := Finset.exists_min_image (G \ F) List.length hne
  obtain ⟨haG, haF⟩ := Finset.mem_sdiff.mp ha
  rcases eq_nil_or_concat a with rfl | ⟨p, i, rfl⟩
  · exact absurd hF.root haF
  · rw [concat_eq_append] at *
    refine ⟨p, ?_, i, haG, haF⟩
    by_contra hp
    have hle := hshortest p (Finset.mem_sdiff.mpr ⟨hG.connected p i haG, hp⟩)
    rw [length_append] at hle
    exact absurd hle (Nat.not_succ_le_self _)

/-- **Every admissible fragment is reached** from any admissible one inside it. -/
theorem Admissible.reached (hG : Admissible tn G) (hF : Admissible tn F) (h : F ⊆ G) :
    ReflTransGen (Grows tn) F G := by
  induction hn : (G \ F).card using Nat.strong_induction_on generalizing F with
  | _ n ih =>
    by_cases heq : F = G
    · rw [heq]
    · have hlt : F ⊂ G := lt_of_le_of_ne h heq
      obtain ⟨p, hp, i, hiG, hiF⟩ := exists_variable hF hG hlt
      obtain ⟨t, ht⟩ := hG.inside _ hiG
      have hinside : ∀ q ∈ insert (p ++ [i]) F, ∃ t, tn.get? q = some t := by
        intro q hq
        rcases Finset.mem_insert.mp hq with rfl | hq
        · exact ⟨t, ht⟩
        · exact hF.inside q hq
      obtain ⟨H, hH⟩ := exists_least hinside
      have hgrows : Grows tn F H := ⟨p, hp, i, t, ht, hiF, hH⟩
      have hHG : H ⊆ G := hH.2 ⟨hG, Finset.insert_subset hiG h⟩
      have hcard : (G \ H).card < n := by
        rw [← hn]
        refine Finset.card_lt_card ((Finset.ssubset_iff_of_subset ?_).mpr ⟨p ++ [i], ?_, ?_⟩)
        · exact Finset.sdiff_subset_sdiff le_rfl hgrows.ssubset.subset
        · exact Finset.mem_sdiff.mpr ⟨hiG, hiF⟩
        · exact fun hmem => (Finset.mem_sdiff.mp hmem).2 (hH.1.2 (Finset.mem_insert_self _ _))
      exact .head hgrows (ih _ hcard hgrows.admissible hHG rfl)

end Sbmt.Ghkm
