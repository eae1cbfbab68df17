import Mathlib

/-!
# The parse forest: edges and edge equivalences

A parse forest has edge equivalences (*items*) as OR nodes, each a list of AND nodes: nullary, unary or binary
edges (`sbmt/forest/dfs_forest.hpp`, `sbmt/edge/edge_equivalence.hpp`, `sbmt/edge/edge.hpp`).

| here | there |
|---|---|
| `Edge` | `edge_equivalence_impl::alt_edge`: `child[2]`, `inside`, `rule_id` |
| `EdgeEquiv` | `edge_equivalence_impl`: `m_rep`, `m_alts`; `begin()` yields the representative, then the alternatives |
| `EdgeEquiv.sort` | `sort_alts`: the alternatives by `better_score`, the representative stays in front |
| `ParseForest` | the items reachable through `child[]`; items are numbered bottom-up |

The score type is any linearly ordered commutative group with zero: `score_t` is a log number, whose product,
quotient and order are those of nonnegative reals.
-/

namespace Sbmt.Forest

/-- `token_type_id` (`sbmt/token/token.hpp:14`). -/
inductive TokenType
  | foreign
  | native
  | tag
  | virtualTag
  | top
  deriving DecidableEq, Repr

/-- `edge::child[2]`: an edge has no child, a first one, or both (`child_count`, `edge.ipp:180`). -/
inductive Kids
  | nullary
  | unary (c : Nat)
  | binary (c₀ c₁ : Nat)
  deriving DecidableEq, Repr

namespace Kids

def toList : Kids → List Nat
  | nullary => []
  | unary c => [c]
  | binary c₀ c₁ => [c₀, c₁]

end Kids

/-- `alt_edge` (`edge_equivalence.ipp:82`). `NULL_GRAMMAR_RULE_ID` is `none`. -/
structure Edge (S : Type*) where
  ruleId : Option Nat
  kids : Kids
  inside : S
  deriving DecidableEq

/-- `edge::child_count`. -/
def Edge.childCount {S : Type*} (e : Edge S) : Nat := e.kids.toList.length

/-- An item. Its edges share the root token; the representative is a best edge, which `insert_edge` keeps. -/
structure EdgeEquiv (S : Type*) [LE S] where
  root : TokenType
  rep : Edge S
  alts : List (Edge S)
  best : ∀ a ∈ alts, a.inside ≤ rep.inside

/-- What an item of one edge of score one has to show. -/
theorem unit_alone : ∀ a ∈ ([] : List (Edge NNRat)), a.inside ≤ 1 := by
  intro a ha
  cases ha

namespace EdgeEquiv

variable {S : Type*}

/-- The edges in iteration order. -/
def edges [LE S] (eq : EdgeEquiv S) : List (Edge S) := eq.rep :: eq.alts

/-- `inside_score(eq)`: that of the representative. -/
def inside [LE S] (eq : EdgeEquiv S) : S := eq.rep.inside

theorem inside_le [Preorder S] (eq : EdgeEquiv S) {e : Edge S} (he : e ∈ eq.edges) : e.inside ≤ eq.inside := by
  rcases List.mem_cons.1 he with rfl | he
  · exact le_rfl
  · exact eq.best e he

variable [LinearOrder S]

/-- `edge_equivalence_impl::sort`. -/
def sort (eq : EdgeEquiv S) : EdgeEquiv S where
  root := eq.root
  rep := eq.rep
  alts := eq.alts.mergeSort fun a b => decide (b.inside ≤ a.inside)
  best a ha := eq.best a (by simpa using ha)

@[simp] theorem mem_edges_sort (eq : EdgeEquiv S) (e : Edge S) : e ∈ eq.sort.edges ↔ e ∈ eq.edges := by
  simp [edges, sort]

@[simp] theorem inside_sort (eq : EdgeEquiv S) : eq.sort.inside = eq.inside := rfl

/-- After `sort` the edges come best first. -/
theorem edges_sorted (eq : EdgeEquiv S) : eq.sort.edges.Pairwise fun e e' => e'.inside ≤ e.inside := by
  refine List.pairwise_cons.mpr ⟨eq.sort.best, ?_⟩
  have hsorted : eq.sort.alts.Pairwise fun e e' => decide (e'.inside ≤ e.inside) = true := by
    apply List.pairwise_mergeSort
    · intro a b c hab hbc
      rw [decide_eq_true_eq] at hab hbc ⊢
      exact hbc.trans hab
    · intro a b
      rw [Bool.or_eq_true, decide_eq_true_eq, decide_eq_true_eq]
      exact le_total _ _
  exact hsorted.imp of_decide_eq_true

end EdgeEquiv

/-- A finite acyclic forest: every edge leads to items of a smaller number. -/
structure ParseForest (S : Type*) [LE S] where
  item : Nat → EdgeEquiv S
  acyclic : ∀ i, ∀ e ∈ (item i).edges, ∀ c ∈ e.kids.toList, c < i

/-! ## Derivations -/

section
variable {S : Type*} [LinearOrderedCommGroupWithZero S] (F : ParseForest S)

/-- `inside_score` of item `i`. -/
abbrev ParseForest.inside (i : Nat) : S := (F.item i).inside

/-- `edge::delta_inside_score` (`edge.hpp:103`): the edge's own factor of its inside score. -/
def deltaInsideScore (e : Edge S) : S :=
  match e.kids with
  | .nullary => e.inside
  | .unary c => e.inside / F.inside c
  | .binary c₀ c₁ => e.inside / F.inside c₀ / F.inside c₁

/-- A derivation of an item: one of its edges, and a derivation of each child of that edge. -/
inductive Deriv : Nat → Type _
  | nullary {i} (e : Edge S) (he : e ∈ (F.item i).edges) (hk : e.kids = .nullary) : Deriv i
  | unary {i c} (e : Edge S) (he : e ∈ (F.item i).edges) (hk : e.kids = .unary c) (d : Deriv c) : Deriv i
  | binary {i c₀ c₁} (e : Edge S) (he : e ∈ (F.item i).edges) (hk : e.kids = .binary c₀ c₁) (d₀ : Deriv c₀)
      (d₁ : Deriv c₁) : Deriv i

namespace Deriv

variable {F}

/-- The product of the edges' own factors. -/
def score : ∀ {i}, Deriv F i → S
  | _, nullary e _ _ => deltaInsideScore F e
  | _, unary e _ _ d => deltaInsideScore F e * d.score
  | _, binary e _ _ d₀ d₁ => deltaInsideScore F e * d₀.score * d₁.score

/-- `Sub d δ`: `δ` is a subderivation of `d`. -/
inductive Sub {t : Nat} (d : Deriv F t) : ∀ {i}, Deriv F i → Prop
  | refl : Sub d d
  | unary {i c} {e : Edge S} {he : e ∈ (F.item i).edges} {hk : e.kids = .unary c} {δ : Deriv F c} :
      Sub d (.unary e he hk δ) → Sub d δ
  | left {i c₀ c₁} {e : Edge S} {he : e ∈ (F.item i).edges} {hk : e.kids = .binary c₀ c₁} {δ₀ : Deriv F c₀}
      {δ₁ : Deriv F c₁} : Sub d (.binary e he hk δ₀ δ₁) → Sub d δ₀
  | right {i c₀ c₁} {e : Edge S} {he : e ∈ (F.item i).edges} {hk : e.kids = .binary c₀ c₁} {δ₀ : Deriv F c₀}
      {δ₁ : Deriv F c₁} : Sub d (.binary e he hk δ₀ δ₁) → Sub d δ₁

/-- The derivation goes through item `i`. -/
def Uses {t : Nat} (d : Deriv F t) (i : Nat) : Prop := ∃ δ : Deriv F i, Sub d δ

end Deriv

/-- Item `i` can be reached from `t` by following edges down. -/
inductive Reach (t : Nat) : Nat → Prop
  | refl : Reach t t
  | step {i c} (h : Reach t i) (e : Edge S) (he : e ∈ (F.item i).edges) (hc : c ∈ e.kids.toList) : Reach t c

section
variable {F}

/-- The edge's own factor and its children's scores give back its score. -/
theorem deltaInsideScore_mul {e : Edge S} (hnz : ∀ c ∈ e.kids.toList, F.inside c ≠ 0) :
    (e.kids.toList.map F.inside).prod * deltaInsideScore F e = e.inside := by
  unfold deltaInsideScore
  cases hk : e.kids with
  | nullary => exact one_mul _
  | unary c =>
    have hc : F.inside c ≠ 0 := hnz c (by simp [hk, Kids.toList])
    simp only [Kids.toList, List.map_cons, List.map_nil, List.prod_cons, List.prod_nil, mul_one, mul_div_cancel₀ _ hc]
  | binary c0 c1 =>
    have h0 : F.inside c0 ≠ 0 := hnz c0 (by simp [hk, Kids.toList])
    have h1 : F.inside c1 ≠ 0 := hnz c1 (by simp [hk, Kids.toList])
    simp only [Kids.toList, List.map_cons, List.map_nil, List.prod_cons, List.prod_nil, mul_one]
    rw [mul_assoc, mul_div_cancel₀ _ h1, mul_div_cancel₀ _ h0]

/-- No derivation of an item scores better than the item's inside score. -/
theorem Deriv.score_le_inside (hnz : ∀ i, F.inside i ≠ 0) : ∀ {i} (d : Deriv F i), d.score ≤ F.inside i
  | i, .nullary e he hk => by
    simpa [score, deltaInsideScore, hk] using (F.item i).inside_le he
  | i, .unary (c := c) e he hk d => by
    have ih := d.score_le_inside hnz
    calc deltaInsideScore F e * d.score ≤ deltaInsideScore F e * F.inside c := by gcongr
      _ = e.inside := by simp only [deltaInsideScore, hk]; exact div_mul_cancel₀ _ (hnz c)
      _ ≤ F.inside i := (F.item i).inside_le he
  | i, @Deriv.binary _ _ _ _ c0 c1 e he hk d0 d1 => by
    have ih0 := d0.score_le_inside hnz
    have ih1 := d1.score_le_inside hnz
    calc deltaInsideScore F e * d0.score * d1.score
        ≤ deltaInsideScore F e * F.inside c0 * F.inside c1 := by gcongr
      _ = e.inside := by
        simp only [deltaInsideScore, hk]
        rw [div_right_comm, div_mul_cancel₀ _ (hnz c0), div_mul_cancel₀ _ (hnz c1)]
      _ ≤ F.inside i := (F.item i).inside_le he

/-- Some derivation attains the inside score: take the representative, and best derivations below it. -/
theorem exists_best (hnz : ∀ i, F.inside i ≠ 0) (i : Nat) : ∃ d : Deriv F i, d.score = F.inside i := by
  induction i using Nat.strong_induction_on with
  | h i ih =>
    have he : (F.item i).rep ∈ (F.item i).edges := by simp [EdgeEquiv.edges]
    have hlt := F.acyclic i _ he
    cases hk : (F.item i).rep.kids with
    | nullary => exact ⟨.nullary _ he hk, by simp [Deriv.score, deltaInsideScore, hk]; rfl⟩
    | unary c =>
      obtain ⟨d, hd⟩ := ih c (hlt c (by simp [hk, Kids.toList]))
      refine ⟨.unary _ he hk d, ?_⟩
      simp only [Deriv.score, deltaInsideScore, hk, hd]
      exact div_mul_cancel₀ _ (hnz c)
    | binary c0 c1 =>
      obtain ⟨d0, hd0⟩ := ih c0 (hlt c0 (by simp [hk, Kids.toList]))
      obtain ⟨d1, hd1⟩ := ih c1 (hlt c1 (by simp [hk, Kids.toList]))
      refine ⟨.binary _ he hk d0 d1, ?_⟩
      simp only [Deriv.score, deltaInsideScore, hk, hd0, hd1]
      rw [div_right_comm, div_mul_cancel₀ _ (hnz c0), div_mul_cancel₀ _ (hnz c1)]
      rfl

end

end

end Sbmt.Forest
