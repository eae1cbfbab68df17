import Sbmt.Forest.Basic
import Sbmt.Gusc.Order
/-!
# Flattening the binarized forest (`sbmt/forest/implicit_xrs_forest.hpp`)

The grammar is binarized: between two syntax rules there are edges of virtual rules. An `xforest` hides them. Its
hyps are the ways to apply a syntax rule at an item and to go on through the virtual items below, down to the items
rooted by syntax rules, which become the children.

| here | there |
|---|---|
| `BinarizedForest` | the forest, and what `gram.get_syntax` says of its rules |
| `Scoring` | what the functions and their `_no_component` copies differ in |
| `ScoreOrNan` | `score_t` in the copies, which divide scores |
| `xplodeHyps`, `Xhyp` | `xplode_hyps` (`:651-718`), `xhyp_impl` (`:318-362`) |

An `xforest` stands for an item and is given by the item's number. A generator is given by all it yields.
-/

namespace Sbmt.Forest

open Sbmt.Lib Sbmt.Gusc List

/-- `indexed_syntax_rule`: for each symbol of the rhs, is it `indexed()`. -/
structure SyntaxRule where
  id : Nat
  indexed : List Bool
  deriving DecidableEq, Repr

/-- A forest over a binarized grammar. An item is virtual or rooted by syntax rules, which the root tells, and the
root also tells how many variables of a syntax rule it stands for. -/
structure BinarizedForest (S : Type) [LE S] extends ParseForest S where
  getSyntax : Nat → Option SyntaxRule
  vars : Nat → Nat
  uniform : ∀ i, ∀ e ∈ (item i).edges,
    (e.ruleId.bind getSyntax).isSome = ((item i).rep.ruleId.bind getSyntax).isSome
  vars_rooted : ∀ i, ((item i).rep.ruleId.bind getSyntax).isSome → vars i = 1
  vars_virtual : ∀ i, ∀ e ∈ (item i).edges, e.ruleId.bind getSyntax = none → vars i = (e.kids.toList.map vars).sum
  vars_rule : ∀ i, ∀ e ∈ (item i).edges, ∀ rule, e.ruleId.bind getSyntax = some rule →
    rule.indexed.count true = (e.kids.toList.map vars).sum

namespace BinarizedForest

variable {S : Type} [LE S] (B : BinarizedForest S)

/-- `get_syntax`; `none` is `NULL_SYNTAX_ID`. -/
def syntaxRule (e : Edge S) : Option SyntaxRule := e.ruleId.bind B.getSyntax

/-- `has_syntax_id` of the representative. -/
def rooted (i : Nat) : Bool := (B.syntaxRule (B.item i).rep).isSome

end BinarizedForest

section

variable {S φ T : Type} [LinearOrderedCommGroupWithZero S]

/-! ## Scores that are divided -/

/-- A score, or the NaN that zero divided by zero is. -/
inductive ScoreOrNan (S : Type)
  | score (s : S)
  | nan

namespace ScoreOrNan

instance : One (ScoreOrNan S) := ⟨score 1⟩

/-- What is multiplied by NaN is NaN. -/
def mul : ScoreOrNan S → ScoreOrNan S → ScoreOrNan S
  | score a, score b => score (a * b)
  | _, _ => nan

instance : CommMagma (ScoreOrNan S) where
  mul := mul
  mul_comm a b := by
    cases a <;> cases b <;> first | rfl | exact congrArg score (mul_comm _ _)

/-- NaN is not less than anything, nor is anything less than NaN. -/
def lt : ScoreOrNan S → ScoreOrNan S → Bool
  | score a, score b => decide (a < b)
  | _, _ => false

instance : LT (ScoreOrNan S) := ⟨fun a b => lt a b = true⟩

instance : DecidableLT (ScoreOrNan S) := fun a b => inferInstanceAs (Decidable (lt a b = true))

/-- `operator /`.  Here a score is divided by zero only if it is zero. -/
def divide : ScoreOrNan S → S → ScoreOrNan S
  | score a, b => if b = 0 then nan else score (a / b)
  | nan, _ => nan

theorem nan_mul (a : ScoreOrNan S) : nan * a = nan := rfl

theorem mul_nan (a : ScoreOrNan S) : a * nan = nan := by rw [mul_comm, nan_mul]

end ScoreOrNan

variable (F : ParseForest S)

/-- `edge::delta_inside_score` (`edge.hpp:103`) with its divisions. -/
def deltaInside (e : Edge S) : ScoreOrNan S :=
  match e.kids with
  | .nullary => .score e.inside
  | .unary c => .divide (.score e.inside) (F.inside c)
  | .binary c₀ c₁ => .divide (.divide (.score e.inside) (F.inside c₀)) (F.inside c₁)

theorem deltaInside_eq (e : Edge S) :
    deltaInside F e = if ∀ c ∈ e.kids.toList, F.inside c ≠ 0 then .score (deltaInsideScore F e) else .nan := by
  unfold deltaInside deltaInsideScore
  cases e.kids with
  | nullary => simp [Kids.toList]
  | unary c => simp [Kids.toList, ScoreOrNan.divide]
  | binary c0 c1 =>
    by_cases h0 : F.inside c0 = 0 <;> by_cases h1 : F.inside c1 = 0 <;> simp [Kids.toList, ScoreOrNan.divide, h0, h1]

/-! ## The expansion -/

/-- The feature scores `get<0>`, the children `get<1>` and the score `get<2>`. -/
structure XplodeT (φ T : Type) where
  feats : φ
  forests : List Nat
  score : T

/-- How edges are scored. -/
structure Scoring (φ S T : Type) where
  /-- `feature_vector()`, `score_t()` -/
  one : φ
  mul : φ → φ → φ
  /-- `component_scores(e,gram,ef)`, `e.delta_inside_score()` -/
  feats : Edge S → φ
  /-- `geom(feats, gram.get_weights())`, the score itself -/
  geom : φ → T
  /-- `f[0].score()` of an item -/
  ofItem : S → T

/-- The edge's own score factor. -/
def Scoring.factor (sc : Scoring φ S T) (e : Edge S) : T := sc.geom (sc.feats e)

/-- Feature vectors, weighed by `geom`. -/
def Scoring.component [Mul φ] [One φ] (componentScores : Edge S → φ) (geom : φ → S) : Scoring φ S S :=
  ⟨1, (· * ·), componentScores, geom, id⟩

/-- The `_no_component` copies. -/
def Scoring.noComponent : Scoring (ScoreOrNan S) S (ScoreOrNan S) :=
  ⟨1, (· * ·), deltaInside F, id, .score⟩

variable [CommMagma T] [One T] [LT T] [DecidableLT T]

/-- `lesser_xplode_score`, `lesser_xhyp_score`. -/
abbrev lesser {α : Type} (key : α → T) (a b : α) : Bool := decide (key a < key b)

section

variable (H : HeapAlg) (sc : Scoring φ S T)

/-- `mult_xplodes`. -/
def multXplodes (x1 x2 : XplodeT φ T) : XplodeT φ T :=
  ⟨sc.mul x1.feats x2.feats, x1.forests ++ x2.forests, x1.score * x2.score⟩

/-- `mult_feats`. -/
def multFeats (f : φ) (x : XplodeT φ T) : XplodeT φ T := ⟨sc.mul x.feats f, x.forests, x.score * sc.geom f⟩

variable (ornode : Nat → List (XplodeT φ T))

/-- `xplode`, given `xplode_ornode`. -/
def xplode (e : Edge S) : List (XplodeT φ T) :=
  match e.kids with
  | .nullary => []
  | .unary c => ornode c
  | .binary c₀ c₁ => productHeap₂ H (lesser XplodeT.score) (multXplodes sc) ⟨sc.one, [], 1⟩ (ornode c₀) (ornode c₁)

/-- `xplode_andnode`, given `xplode_ornode`. -/
def xplodeAndnode (e : Edge S) : List (XplodeT φ T) :=
  if e.childCount = 0 then [⟨sc.feats e, [], sc.geom (sc.feats e)⟩]
  else (xplode H sc ornode e).map (multFeats sc (sc.feats e))

variable (B : BinarizedForest S)

/-- `xplode_ornode`. The edges of an item lead to smaller items, so the test `c < i` never fails. -/
def xplodeOrnode (i : Nat) : List (XplodeT φ T) :=
  if B.rooted i then [⟨sc.one, [i], sc.ofItem (B.inside i)⟩]
  else unionHeap H (lesser XplodeT.score) ((B.item i).sort.edges.map
    (xplodeAndnode H sc fun c => if c < i then xplodeOrnode c else [])) 1
termination_by i

/-- `xhyp_impl`; `children` is `none` if an assertion of the constructor fails. -/
structure Xhyp (φ T : Type) where
  score : T
  rule : SyntaxRule
  scores : φ
  children : Option (List (Nat × Nat))

/-- The constructor's loop: the `x`-th symbol of the rhs takes the next child if it is indexed. -/
def assignChildren (x : Nat) : List Bool → List Nat → Option (List (Nat × Nat))
  | [], [] => some []
  | [], _ :: _ => none
  | false :: rhs, c => assignChildren (x + 1) rhs c
  | true :: _, [] => none
  | true :: rhs, i :: c => (assignChildren (x + 1) rhs c).map ((x, i) :: ·)

def Xhyp.make (s : T) (r : SyntaxRule) (v : φ) (c : List Nat) : Xhyp φ T := ⟨s, r, v, assignChildren 0 r.indexed c⟩

/-- `xhyp_from_xplode`. -/
def xhypFromXplode (rule : SyntaxRule) (scores : φ) (x : XplodeT φ T) : Xhyp φ T :=
  .make (sc.geom scores * x.score) rule (sc.mul scores x.feats) x.forests

/-- `xplode_hyps`; it is asked only for edges with a syntax rule. -/
def xplodeHyps (e : Edge S) : List (Xhyp φ T) :=
  match B.syntaxRule e with
  | none => []
  | some rule =>
    if e.childCount = 0 then [.make (sc.geom (sc.feats e)) rule (sc.feats e) []]
    else (xplode H sc (xplodeOrnode H sc B) e).map (xhypFromXplode sc rule (sc.feats e))

/-- `xforest_children` and its copy. -/
def xforestChildrenOf (i : Nat) : List (Xhyp φ T) :=
  unionHeap H (lesser Xhyp.score) ((B.item i).sort.edges.map (xplodeHyps H sc B)) 1

end

def xforestChildren [Mul φ] [One φ] (H : HeapAlg) (B : BinarizedForest S) (componentScores : Edge S → φ) (geom : φ → S)
    (i : Nat) : List (Xhyp φ S) :=
  xforestChildrenOf H (.component componentScores geom) B i

def xforestChildrenNoComponent (H : HeapAlg) (B : BinarizedForest S) (i : Nat) :
    List (Xhyp (ScoreOrNan S) (ScoreOrNan S)) :=
  xforestChildrenOf H (.noComponent B.toParseForest) B i

/-! ## The ways to flatten an item -/

/-- A way to go down from an item: stop at it, or take its `k`-th edge `e` and go on from the children of `e`. -/
inductive Way (S : Type)
  | stop (i : Nat)
  | nullary (k : Nat) (e : Edge S)
  | unary (k : Nat) (e : Edge S) (w : Way S)
  | binary (k : Nat) (e : Edge S) (w₀ w₁ : Way S)

namespace Way

/-- The items it stops at, from left to right. -/
def frontier : Way S → List Nat
  | stop i => [i]
  | nullary _ _ => []
  | unary _ _ w => w.frontier
  | binary _ _ w₀ w₁ => w₀.frontier ++ w₁.frontier

/-- The product of the edges' own factors and the scores of the items it stops at. -/
def score (inside : Nat → T) (factor : Edge S → T) : Way S → T
  | stop i => inside i
  | nullary _ e => factor e
  | unary _ e w => factor e * w.score inside factor
  | binary _ e w₀ w₁ => factor e * (w₀.score inside factor * w₁.score inside factor)

/-- The edge it takes first. -/
def edge : Way S → Option (Edge S)
  | stop _ => none
  | nullary _ e | unary _ e _ | binary _ e _ _ => some e

end Way

/-- The score of the way as the functions have it. -/
def Scoring.way (sc : Scoring φ S T) (B : BinarizedForest S) : Way S → T :=
  Way.score (fun i => sc.ofItem (B.inside i)) sc.factor

/-- `Expands B top i w`: `w` goes down from item `i` through virtual items and stops at the items rooted by syntax
rules. At the top it takes an edge of an item so rooted. -/
inductive Expands (B : BinarizedForest S) : Bool → Nat → Way S → Prop
  | stop {i} (hi : B.rooted i = true) : Expands B false i (.stop i)
  | nullary {top i k e} (hi : B.rooted i = top) (he : (B.item i).sort.edges[k]? = some e) (hk : e.kids = .nullary) :
      Expands B top i (.nullary k e)
  | unary {top i k e c w} (hi : B.rooted i = top) (he : (B.item i).sort.edges[k]? = some e) (hk : e.kids = .unary c)
      (hw : Expands B false c w) : Expands B top i (.unary k e w)
  | binary {top i k e c₀ c₁ w₀ w₁} (hi : B.rooted i = top) (he : (B.item i).sort.edges[k]? = some e)
      (hk : e.kids = .binary c₀ c₁) (hw₀ : Expands B false c₀ w₀) (hw₁ : Expands B false c₁ w₁) :
      Expands B top i (.binary k e w₀ w₁)

/-- The expansion of the item takes the edge. -/
inductive Visits (B : BinarizedForest S) : Bool → Nat → Edge S → Prop
  | here {top i e} (hi : B.rooted i = top) (he : e ∈ (B.item i).edges) : Visits B top i e
  | under {top i e c e'} (hi : B.rooted i = top) (he : e ∈ (B.item i).edges) (hc : c ∈ e.kids.toList)
      (h : Visits B false c e') : Visits B top i e'

theorem Visits.exists_item {B : BinarizedForest S} {top : Bool} {i : Nat} {e : Edge S} (h : Visits B top i e) :
    ∃ j, e ∈ (B.item j).edges := by
  induction h with
  | here _ he => exact ⟨_, he⟩
  | under _ _ _ _ ih => exact ih

/-- The hyp stands for the way: its rule is that of the first edge, its children are the frontier, given to the
indexed symbols of the rhs in their order, and its score is that of the way. -/
structure Renders (B : BinarizedForest S) (score : Way S → T) (w : Way S) (h : Xhyp φ T) : Prop where
  rule : w.edge.bind B.syntaxRule = some h.rule
  children : h.children = some ((h.rule.indexed.findIdxs id).zip w.frontier)
  arity : w.frontier.length = h.rule.indexed.count true
  score : h.score = score w

/-- The ways that take the `k`-th edge `e` first. -/
inductive Picks (B : BinarizedForest S) (k : Nat) (e : Edge S) : Way S → Prop
  | nullary (hk : e.kids = .nullary) : Picks B k e (.nullary k e)
  | unary {c w} (hk : e.kids = .unary c) (hw : Expands B false c w) : Picks B k e (.unary k e w)
  | binary {c₀ c₁ w₀ w₁} (hk : e.kids = .binary c₀ c₁) (hw₀ : Expands B false c₀ w₀) (hw₁ : Expands B false c₁ w₁) :
      Picks B k e (.binary k e w₀ w₁)

section

variable {B : BinarizedForest S}

variable {w : Way S} {i : Nat} {top : Bool}

theorem expands_iff_picks (hi : B.rooted i = top) :
    Expands B top i w ↔ ∃ k e, (B.item i).sort.edges[k]? = some e ∧ Picks B k e w := by
  constructor
  · intro h
    cases h with
    | stop hi' => rw [hi] at hi'; cases hi'
    | nullary _ he hk => exact ⟨_, _, he, .nullary hk⟩
    | unary _ he hk hw => exact ⟨_, _, he, .unary hk hw⟩
    | binary _ he hk hw0 hw1 => exact ⟨_, _, he, .binary hk hw0 hw1⟩
  · rintro ⟨k, e, he, hw⟩
    cases hw with
    | nullary hk => exact .nullary hi he hk
    | unary hk hw => exact .unary hi he hk hw
    | binary hk hw0 hw1 => exact .binary hi he hk hw0 hw1

variable {e : Edge S} {k : Nat}

theorem Picks.index_unique {k' : Nat} {e' : Edge S} (h : Picks B k e w) (h' : Picks B k' e' w) : k = k' := by
  cases h <;> cases h' <;> rfl

theorem mem_edges_of_getElem? (he : (B.item i).sort.edges[k]? = some e) : e ∈ (B.item i).edges :=
  (EdgeEquiv.mem_edges_sort _ _).mp (mem_of_getElem? he)

theorem isSome_syntaxRule (he : (B.item i).sort.edges[k]? = some e) :
    (B.syntaxRule e).isSome = B.rooted i := B.uniform i e (mem_edges_of_getElem? he)

theorem vars_of_virtual (hi : B.rooted i = false) (he : (B.item i).sort.edges[k]? = some e) :
    B.vars i = (e.kids.toList.map B.vars).sum := by
  apply B.vars_virtual i e (mem_edges_of_getElem? he)
  have hnone := isSome_syntaxRule he
  rw [hi] at hnone
  exact Option.not_isSome_iff_eq_none.mp (Bool.eq_false_iff.mp hnone)

/-- The frontier has as many items as the children of the first edge stand for variables, and, below the top, as
the item stands for. -/
theorem Expands.length_frontier (h : Expands B top i w) :
    (∀ e, w.edge = some e → w.frontier.length = (e.kids.toList.map B.vars).sum) ∧
      (top = false → w.frontier.length = B.vars i) := by
  induction h with
  | stop hi => exact ⟨fun e he => absurd he (Option.some_ne_none e).symm, fun _ => (B.vars_rooted _ hi).symm⟩
  | @nullary top i k e hi he hk =>
    have hsum : (Way.nullary k e).frontier.length = (e.kids.toList.map B.vars).sum := by rw [hk]; rfl
    refine ⟨?_, fun htop => hsum.trans (vars_of_virtual (hi.trans htop) he).symm⟩
    rintro _ ⟨⟩
    exact hsum
  | @unary top i k e c w hi he hk hw ih =>
    have hsum : (Way.unary k e w).frontier.length = (e.kids.toList.map B.vars).sum := by
      rw [hk, Way.frontier, ih.2 rfl]
      rfl
    refine ⟨?_, fun htop => hsum.trans (vars_of_virtual (hi.trans htop) he).symm⟩
    rintro _ ⟨⟩
    exact hsum
  | @binary top i k e c0 c1 w0 w1 hi he hk hw0 hw1 ih0 ih1 =>
    have hsum : (Way.binary k e w0 w1).frontier.length = (e.kids.toList.map B.vars).sum := by
      rw [hk, Way.frontier, length_append, ih0.2 rfl, ih1.2 rfl]
      simp [Kids.toList]
    refine ⟨?_, fun htop => hsum.trans (vars_of_virtual (hi.trans htop) he).symm⟩
    rintro _ ⟨⟩
    exact hsum

theorem assignChildren_eq : ∀ {rhs : List Bool} {c : List Nat} {x : Nat}, c.length = rhs.count true →
    assignChildren x rhs c = some ((rhs.findIdxs id x).zip c)
  | [], [], _, _ => rfl
  | [], _ :: _, _, h => by simp at h
  | false :: rhs, c, x, h => by
    rw [assignChildren, assignChildren_eq (by simpa using h)]
    simp [findIdxs_cons]
  | true :: rhs, [], _, h => by simp at h
  | true :: rhs, i :: c, x, h => by
    rw [assignChildren, assignChildren_eq (by simpa using h)]
    simp [findIdxs_cons]

/-! ## Every way is listed once -/

variable {H : HeapAlg} {sc : Scoring φ S T} {ornode : Nat → List (XplodeT φ T)}

/-- The value stands for the way. -/
def Shows (sc : Scoring φ S T) (B : BinarizedForest S) (w : Way S) (x : XplodeT φ T) : Prop :=
  x.forests = w.frontier ∧ x.score = sc.way B w

/-- The value stands for what is below the first edge `e` of the way. -/
def ShowsBelow (sc : Scoring φ S T) (B : BinarizedForest S) (e : Edge S) (w : Way S) (x : XplodeT φ T) : Prop :=
  x.forests = w.frontier ∧ sc.factor e * x.score = sc.way B w

theorem xplode_enumerates (k : Nat) (he : e.childCount ≠ 0)
    (hkids : ∀ c ∈ e.kids.toList, Enumerates (Shows sc B) (Expands B false c) (ornode c)) :
    Enumerates (ShowsBelow sc B e) (Picks B k e) (xplode H sc ornode e) := by
  unfold xplode
  cases hk : e.kids with
  | nullary => simp [Edge.childCount, hk, Kids.toList] at he
  | unary c =>
    rw [hk] at hkids
    have hinj : Function.Injective (Way.unary k e) := fun w w' h => (Way.unary.inj h).2.2
    have hmap : Enumerates (ShowsBelow sc B e) (fun w' => ∃ w, Expands B false c w ∧ .unary k e w = w') ((ornode c).map id) :=
      (hkids c (by simp [Kids.toList])).map hinj id fun w x _ hx =>
        ⟨hx.1, congrArg (sc.factor e * ·) hx.2⟩
    rw [map_id] at hmap
    refine hmap.congr fun w' => ?_
    constructor
    · rintro ⟨w, hw, rfl⟩
      exact .unary hk hw
    · intro h
      cases h with
      | nullary hk' => rw [hk] at hk'; cases hk'
      | unary hk' hw => rw [hk] at hk'; cases hk'; exact ⟨_, hw, rfl⟩
      | binary hk' => rw [hk] at hk'; cases hk'
  | binary c0 c1 =>
    rw [hk] at hkids
    let R (w : Way S × Way S) (x : XplodeT φ T) : Prop := x.forests = w.1.frontier ++ w.2.frontier ∧
      x.score = sc.way B w.1 * sc.way B w.2
    let l := productHeap₂ H (lesser XplodeT.score) (multXplodes sc) ⟨sc.one, [], 1⟩ (ornode c0) (ornode c1)
    have hproduct : Enumerates R (fun w => Expands B false c0 w.1 ∧ Expands B false c1 w.2) l :=
      productHeap₂_enumerates H _ _ _ (hkids c0 (by simp [Kids.toList])) (hkids c1 (by simp [Kids.toList]))
        fun w0 w1 x0 x1 h0 h1 => ⟨congrArg₂ (· ++ ·) h0.1 h1.1, congrArg₂ (· * ·) h0.2 h1.2⟩
    have hinj : Function.Injective fun w : Way S × Way S => Way.binary k e w.1 w.2 := fun w w' h =>
      Prod.ext (Way.binary.inj h).2.2.1 (Way.binary.inj h).2.2.2
    have hmap : Enumerates (ShowsBelow sc B e)
        (fun w' => ∃ w : Way S × Way S, (Expands B false c0 w.1 ∧ Expands B false c1 w.2) ∧ .binary k e w.1 w.2 = w') (l.map id) :=
      hproduct.map hinj id fun w x _ hx => ⟨hx.1, congrArg (sc.factor e * ·) hx.2⟩
    rw [map_id] at hmap
    refine hmap.congr fun w' => ?_
    constructor
    · rintro ⟨w, hw, rfl⟩
      exact .binary hk hw.1 hw.2
    · intro h
      cases h with
      | nullary hk' => rw [hk] at hk'; cases hk'
      | unary hk' => rw [hk] at hk'; cases hk'
      | binary hk' hw0 hw1 => rw [hk] at hk'; cases hk'; exact ⟨(_, _), ⟨hw0, hw1⟩, rfl⟩

theorem picks_nullary (he : e.childCount = 0) (w : Way S) : w = .nullary k e ↔ Picks B k e w := by
  have hk : e.kids = .nullary := by
    cases hk : e.kids <;> simp [Edge.childCount, hk, Kids.toList] at he ⊢
  constructor
  · rintro rfl
    exact .nullary hk
  · intro h
    cases h with
    | nullary => rfl
    | unary hk' => rw [hk] at hk'; cases hk'
    | binary hk' => rw [hk] at hk'; cases hk'

theorem xplodeAndnode_enumerates (k : Nat)
    (hkids : ∀ c ∈ e.kids.toList, Enumerates (Shows sc B) (Expands B false c) (ornode c)) :
    Enumerates (Shows sc B) (Picks B k e) (xplodeAndnode H sc ornode e) := by
  unfold xplodeAndnode
  split
  · rename_i he
    exact (Enumerates.singleton (w := .nullary k e) ⟨rfl, rfl⟩).congr (picks_nullary he)
  · rename_i he
    refine (xplode_enumerates k he hkids).mapEntries _ fun w x _ hx => ⟨hx.1, ?_⟩
    rw [← hx.2, mul_comm]
    rfl

theorem xplodeHyps_enumerates (k : Nat) (hi : B.rooted i = true) (hedge : (B.item i).sort.edges[k]? = some e)
    (hkids : ∀ c ∈ e.kids.toList, Enumerates (Shows sc B) (Expands B false c) (xplodeOrnode H sc B c)) :
    Enumerates (Renders B (sc.way B)) (Picks B k e) (xplodeHyps H sc B e) := by
  obtain ⟨rule, hrule⟩ := Option.isSome_iff_exists.mp ((isSome_syntaxRule hedge).trans hi)
  have hcount := B.vars_rule i e (mem_edges_of_getElem? hedge) rule hrule
  have hrenders {w : Way S} (hw : Picks B k e w) {s : T} {v : φ} (hs : s = sc.way B w) :
      Renders B (sc.way B) w (.make s rule v w.frontier) := by
    have hfirst : w.edge = some e := by cases hw <;> rfl
    have harity : w.frontier.length = rule.indexed.count true := by
      rw [hcount]
      exact ((expands_iff_picks hi).mpr ⟨k, e, hedge, hw⟩).length_frontier.1 e hfirst
    exact ⟨by rw [hfirst]; exact hrule, assignChildren_eq harity, harity, hs⟩
  unfold xplodeHyps
  rw [hrule]
  dsimp only
  split
  · rename_i he
    have hw : Picks B k e (.nullary k e) := (picks_nullary he _).mp rfl
    exact (Enumerates.singleton (hrenders hw rfl)).congr (picks_nullary he)
  · rename_i he
    refine (xplode_enumerates k he hkids).mapEntries _ fun w x hw hx => ?_
    rw [xhypFromXplode, hx.1]
    exact hrenders hw hx.2

/-- What holds of every edge's list holds of the item's. -/
theorem unionHeap_enumerates {γ : Type} {R : Way S → γ → Prop} {f : Edge S → List γ} {lt : γ → γ → Bool}
    (hi : B.rooted i = top)
    (h : ∀ k e, (B.item i).sort.edges[k]? = some e → Enumerates R (Picks B k e) (f e)) :
    Enumerates R (Expands B top i) (unionHeap H lt ((B.item i).sort.edges.map f) 1) := by
  have hflat : Enumerates R (fun w => ∃ k, k < ((B.item i).sort.edges.map f).length ∧
      ∃ e, (B.item i).sort.edges[k]? = some e ∧ Picks B k e w) ((B.item i).sort.edges.map f).flatten := by
    apply Enumerates.flatten
    · intro k g hg
      rw [getElem?_map] at hg
      obtain ⟨e, he, rfl⟩ := Option.map_eq_some_iff.mp hg
      refine (h k e he).congr fun w => ?_
      constructor
      · exact fun hw => ⟨e, he, hw⟩
      · rintro ⟨e', he', hw⟩
        rw [he] at he'
        cases he'
        exact hw
    · rintro k k' w ⟨e, _, hw⟩ ⟨e', _, hw'⟩
      exact hw.index_unique hw'
  refine (hflat.perm (unionHeap_perm H lt _ le_rfl)).congr fun w => ?_
  rw [expands_iff_picks hi]
  constructor
  · rintro ⟨k, -, e, he, hw⟩
    exact ⟨k, e, he, hw⟩
  · rintro ⟨k, e, he, hw⟩
    refine ⟨k, ?_, e, he, hw⟩
    rw [length_map]
    exact (List.getElem?_eq_some_iff.mp he).1

/-! ## All items -/

omit [LinearOrderedCommGroupWithZero S] in
theorem xplode_congr {ornode' : Nat → List (XplodeT φ T)} (h : ∀ c ∈ e.kids.toList, ornode c = ornode' c) :
    xplode H sc ornode e = xplode H sc ornode' e := by
  unfold xplode
  cases hk : e.kids with
  | nullary => rfl
  | unary c => exact h c (by simp [hk, Kids.toList])
  | binary c0 c1 => simp only [h c0 (by simp [hk, Kids.toList]), h c1 (by simp [hk, Kids.toList])]

theorem xplodeOrnode_virtual (hi : B.rooted i = false) : xplodeOrnode H sc B i =
    unionHeap H (lesser XplodeT.score) ((B.item i).sort.edges.map (xplodeAndnode H sc (xplodeOrnode H sc B))) 1 := by
  rw [xplodeOrnode, hi]
  refine congrArg (unionHeap H _ · 1) (map_congr_left fun e he => ?_)
  have hlt := B.acyclic i e ((EdgeEquiv.mem_edges_sort _ _).mp he)
  rw [xplodeAndnode, xplodeAndnode, xplode_congr fun c hc => if_pos (hlt c hc)]

theorem xplodeOrnode_rooted (hi : B.rooted i = true) : xplodeOrnode H sc B i = [⟨sc.one, [i], sc.ofItem (B.inside i)⟩] := by
  rw [xplodeOrnode, hi, if_pos rfl]

theorem kid_lt (he : (B.item i).sort.edges[k]? = some e) {c : Nat} (hc : c ∈ e.kids.toList) : c < i :=
  B.acyclic i e (mem_edges_of_getElem? he) c hc

/-- `xplode_ornode` lists the ways below the top. -/
theorem xplodeOrnode_enumerates (i : Nat) : Enumerates (Shows sc B) (Expands B false i) (xplodeOrnode H sc B i) := by
  induction i using Nat.strong_induction_on with
  | h i ih =>
    cases hi : B.rooted i with
    | true =>
      rw [xplodeOrnode_rooted hi]
      have hstop : ∀ w, w = Way.stop i ↔ Expands B false i w := by
        intro w
        constructor
        · rintro rfl
          exact .stop hi
        · intro h
          cases h with
          | stop => rfl
          | nullary hi' | unary hi' | binary hi' => rw [hi] at hi'; cases hi'
      refine (Enumerates.singleton ?_).congr hstop
      exact ⟨rfl, rfl⟩
    | false =>
      rw [xplodeOrnode_virtual hi]
      apply unionHeap_enumerates hi
      intro k e he
      exact xplodeAndnode_enumerates k fun c hc => ih c (kid_lt he hc)

variable (H sc) in
/-- The hyps are the ways to expand the item, each once, whatever the scores are. -/
theorem xforestChildrenOf_enumerates (hi : B.rooted i = true) :
    Enumerates (Renders B (sc.way B)) (Expands B true i) (xforestChildrenOf H sc B i) := by
  apply unionHeap_enumerates hi
  intro k e he
  exact xplodeHyps_enumerates k hi he fun c _ => xplodeOrnode_enumerates c

/-! ## Best first -/

section

variable {sc : Scoring φ S S} {ornode : Nat → List (XplodeT φ S)} (hitem : ∀ s, sc.ofItem s = s)

theorem xplode_tops (he : e.childCount ≠ 0) (hkids : ∀ c ∈ e.kids.toList, Tops XplodeT.score (B.inside c) (ornode c)) :
    Tops XplodeT.score (e.kids.toList.map B.inside).prod (xplode H sc ornode e) := by
  unfold xplode
  cases hk : e.kids with
  | nullary => simp [Edge.childCount, hk, Kids.toList] at he
  | unary c => simpa [Kids.toList] using hkids c (by simp [hk, Kids.toList])
  | binary c0 c1 =>
    have h0 := hkids c0 (by simp [hk, Kids.toList])
    have h1 := hkids c1 (by simp [hk, Kids.toList])
    simpa [Kids.toList] using tops_productHeap₂ H (⟨sc.one, [], 1⟩ : XplodeT φ S) (fun _ _ => rfl) h0 h1

theorem xplodeAndnode_tops (hinside : (e.kids.toList.map B.inside).prod * sc.factor e = e.inside)
    (hkids : ∀ c ∈ e.kids.toList, Tops XplodeT.score (B.inside c) (ornode c)) :
    Tops XplodeT.score e.inside (xplodeAndnode H sc ornode e) := by
  unfold xplodeAndnode
  split
  · rename_i he
    rw [eq_nil_of_length_eq_zero he, map_nil, prod_nil, one_mul] at hinside
    rw [← hinside]
    exact tops_singleton (⟨sc.feats e, [], sc.geom (sc.feats e)⟩ : XplodeT φ S)
  · rename_i he
    rw [← hinside]
    exact (xplode_tops he hkids).map (fun _ _ h => mul_le_mul_left h _) fun _ => rfl

theorem xplodeHyps_tops (hi : B.rooted i = true) (hedge : (B.item i).sort.edges[k]? = some e)
    (hinside : (e.kids.toList.map B.inside).prod * sc.factor e = e.inside)
    (hkids : ∀ c ∈ e.kids.toList, Tops XplodeT.score (B.inside c) (xplodeOrnode H sc B c)) :
    Tops Xhyp.score e.inside (xplodeHyps H sc B e) := by
  obtain ⟨rule, hrule⟩ := Option.isSome_iff_exists.mp ((isSome_syntaxRule hedge).trans hi)
  unfold xplodeHyps
  rw [hrule]
  dsimp only
  split
  · rename_i he
    rw [eq_nil_of_length_eq_zero he, map_nil, prod_nil, one_mul] at hinside
    rw [← hinside]
    exact tops_singleton (Xhyp.make (sc.geom (sc.feats e)) rule (sc.feats e) [] : Xhyp φ S)
  · rename_i he
    rw [← hinside, mul_comm]
    exact (xplode_tops he hkids).map (fun _ _ h => mul_le_mul_right h _) fun _ => rfl

include hitem

theorem xplodeOrnode_tops (hinside : ∀ i, ∀ e ∈ (B.item i).edges,
    (e.kids.toList.map B.inside).prod * sc.factor e = e.inside) (i : Nat) :
    Tops XplodeT.score (B.inside i) (xplodeOrnode H sc B i) := by
  induction i using Nat.strong_induction_on with
  | h i ih =>
    cases hi : B.rooted i with
    | true =>
      rw [xplodeOrnode_rooted hi, hitem]
      exact tops_singleton (⟨sc.one, [i], B.inside i⟩ : XplodeT φ S)
    | false =>
      rw [xplodeOrnode_virtual hi]
      apply tops_unionHeap H (m := Edge.inside) (B.item i).edges_sorted
      intro e he
      obtain ⟨k, hk⟩ := mem_iff_getElem?.mp he
      exact xplodeAndnode_tops (hinside i e (mem_edges_of_getElem? hk)) fun c hc => ih c (kid_lt hk hc)

variable (H sc) in
theorem xforestChildrenOf_tops (hinside : ∀ i, ∀ e ∈ (B.item i).edges,
    (e.kids.toList.map B.inside).prod * sc.factor e = e.inside) (hi : B.rooted i = true) :
    Tops Xhyp.score (B.inside i) (xforestChildrenOf H sc B i) := by
  apply tops_unionHeap H (m := Edge.inside) (B.item i).edges_sorted
  intro e he
  obtain ⟨k, hk⟩ := mem_iff_getElem?.mp he
  exact xplodeHyps_tops hi hk (hinside i e (mem_edges_of_getElem? hk)) fun c _ => xplodeOrnode_tops hitem hinside c

end

/-! ## The copies without components -/

/-- Without the feature scores. -/
def XplodeT.bare {U : Type} (f : T → U) (x : XplodeT φ T) : List Nat × U := (x.forests, f x.score)

def Xhyp.bare {U : Type} (f : T → U) (h : Xhyp φ T) : SyntaxRule × Option (List (Nat × Nat)) × U :=
  (h.rule, h.children, f h.score)

/-- Scores are multiplied and compared in the same way. -/
structure Embeds {T U : Type} [Mul T] [One T] [LT T] [Mul U] [One U] [LT U] (f : T → U) : Prop where
  map_mul : ∀ a b, f (a * b) = f a * f b
  map_one : f 1 = 1
  map_lt : ∀ a b, f a < f b ↔ a < b

theorem embeds_id {T : Type} [Mul T] [One T] [LT T] : Embeds (id : T → T) := ⟨fun _ _ => rfl, rfl, fun _ _ => .rfl⟩

theorem embeds_score : Embeds (ScoreOrNan.score : S → ScoreOrNan S) :=
  ⟨fun _ _ => rfl, rfl, fun _ _ => decide_eq_true_iff⟩

section

variable {ψ U : Type} [CommMagma U] [One U] [LT U] [DecidableLT U]

section

variable {f : T → U} (hf : Embeds f) (sc : Scoring φ S T) (e : Edge S) (l : List (XplodeT φ T))

include hf

omit [LinearOrderedCommGroupWithZero S] [DecidableLT T] [DecidableLT U]

theorem multFeats_bare : (l.map (multFeats sc (sc.feats e))).map (XplodeT.bare f) =
    (l.map (XplodeT.bare f)).map fun x => (x.1, x.2 * f (sc.factor e)) := by
  rw [map_map, map_map]
  exact map_congr_left fun x _ => congrArg (Prod.mk _) (hf.map_mul _ _)

theorem xhypFromXplode_bare (rule : SyntaxRule) : (l.map (xhypFromXplode sc rule (sc.feats e))).map (Xhyp.bare f) =
    (l.map (XplodeT.bare f)).map fun x => (rule, assignChildren 0 rule.indexed x.1, f (sc.factor e) * x.2) := by
  rw [map_map, map_map]
  exact map_congr_left fun x _ => congrArg (fun s => (rule, assignChildren 0 rule.indexed x.forests, s)) (hf.map_mul _ _)

end

variable {sc' : Scoring ψ S U} {ornode' : Nat → List (XplodeT ψ U)} {f : T → U} (hH : H.Uniform) (hf : Embeds f)

include hH hf

theorem unionHeap_bare (gens : List (List (XplodeT φ T))) :
    (unionHeap H (lesser XplodeT.score) gens 1).map (XplodeT.bare f) =
      unionHeap H (lesser Prod.snd) (gens.map (List.map (XplodeT.bare f))) 1 := by
  have hlt : ∀ a b : XplodeT φ T, lesser Prod.snd (a.bare f) (b.bare f) = lesser XplodeT.score a b :=
    fun _ _ => decide_eq_decide.2 (hf.map_lt _ _)
  exact (unionHeap_map hH hlt gens 1).symm

section
omit [LinearOrderedCommGroupWithZero S]

theorem productHeap₂_bare (sc : Scoring φ S T) (v1 v2 : List (XplodeT φ T)) :
    (productHeap₂ H (lesser XplodeT.score) (multXplodes sc) ⟨sc.one, [], 1⟩ v1 v2).map (XplodeT.bare f) =
      productHeap₂ H (lesser Prod.snd) (fun x1 x2 => (x1.1 ++ x2.1, x1.2 * x2.2)) ([], 1) (v1.map (XplodeT.bare f))
        (v2.map (XplodeT.bare f)) := by
  have hlt : ∀ a b : XplodeT φ T, lesser Prod.snd (a.bare f) (b.bare f) = lesser XplodeT.score a b :=
    fun _ _ => decide_eq_decide.2 (hf.map_lt _ _)
  have hmult : ∀ a b : XplodeT φ T, (multXplodes sc a b).bare f =
      ((a.bare f).1 ++ (b.bare f).1, (a.bare f).2 * (b.bare f).2) := fun _ _ => congrArg (Prod.mk _) (hf.map_mul _ _)
  rw [← productHeap₂_map (p := fun x1 x2 => (x1.1 ++ x2.1, x1.2 * x2.2)) hH hlt hmult ⟨sc.one, [], 1⟩ v1 v2,
    XplodeT.bare, hf.map_one]

theorem xplode_bare (h : ∀ c ∈ e.kids.toList, (ornode c).map (XplodeT.bare f) = (ornode' c).map (XplodeT.bare id)) :
    (xplode H sc ornode e).map (XplodeT.bare f) = (xplode H sc' ornode' e).map (XplodeT.bare id) := by
  unfold xplode
  cases hk : e.kids with
  | nullary => rfl
  | unary c => exact h c (by simp [hk, Kids.toList])
  | binary c0 c1 =>
    dsimp only
    rw [productHeap₂_bare hH hf, productHeap₂_bare hH embeds_id, h c0 (by simp [hk, Kids.toList]),
      h c1 (by simp [hk, Kids.toList])]

theorem xplodeAndnode_bare (hsc : f (sc.factor e) = sc'.factor e)
    (h : ∀ c ∈ e.kids.toList, (ornode c).map (XplodeT.bare f) = (ornode' c).map (XplodeT.bare id)) :
    (xplodeAndnode H sc ornode e).map (XplodeT.bare f) = (xplodeAndnode H sc' ornode' e).map (XplodeT.bare id) := by
  unfold xplodeAndnode
  split
  · exact congrArg (fun s => [([], s)]) hsc
  · rw [multFeats_bare hf, multFeats_bare embeds_id, hsc, xplode_bare hH hf h]
    rfl

end

theorem xplodeHyps_bare (hsc : f (sc.factor e) = sc'.factor e) (h : ∀ c ∈ e.kids.toList,
      (xplodeOrnode H sc B c).map (XplodeT.bare f) = (xplodeOrnode H sc' B c).map (XplodeT.bare id)) :
    (xplodeHyps H sc B e).map (Xhyp.bare f) = (xplodeHyps H sc' B e).map (Xhyp.bare id) := by
  unfold xplodeHyps
  cases B.syntaxRule e with
  | none => rfl
  | some rule =>
    dsimp only
    split
    · exact congrArg (fun s => [(rule, assignChildren 0 rule.indexed [], s)]) hsc
    · rw [xhypFromXplode_bare hf, xhypFromXplode_bare embeds_id, hsc, xplode_bare hH hf h]
      rfl

variable (hitem : ∀ s, f (sc.ofItem s) = sc'.ofItem s)

include hitem

/-- Without the feature scores, `xplode_ornode` depends on the factors of the edges that it takes only. -/
theorem xplodeOrnode_bare (i : Nat) (hsc : ∀ e, Visits B false i e → f (sc.factor e) = sc'.factor e) :
    (xplodeOrnode H sc B i).map (XplodeT.bare f) = (xplodeOrnode H sc' B i).map (XplodeT.bare id) := by
  induction i using Nat.strong_induction_on with
  | h i ih =>
    cases hi : B.rooted i with
    | true =>
      rw [xplodeOrnode_rooted hi, xplodeOrnode_rooted hi]
      exact congrArg (fun s => [([i], s)]) (hitem _)
    | false =>
      rw [xplodeOrnode_virtual hi, xplodeOrnode_virtual hi, unionHeap_bare hH hf, unionHeap_bare hH embeds_id, map_map, map_map]
      refine congrArg (unionHeap H _ · 1) (map_congr_left fun e he => ?_)
      have hmem := (EdgeEquiv.mem_edges_sort _ _).mp he
      exact xplodeAndnode_bare hH hf (hsc e (.here hi hmem)) fun c hc =>
        ih c (B.acyclic i e hmem c hc) fun e' he' => hsc e' (.under hi hmem hc he')

theorem xforestChildrenOf_bare (hi : B.rooted i = true) (hsc : ∀ e, Visits B true i e → f (sc.factor e) = sc'.factor e) :
    (xforestChildrenOf H sc B i).map (Xhyp.bare f) = (xforestChildrenOf H sc' B i).map (Xhyp.bare id) := by
  have hunion {χ V : Type} [CommMagma V] [One V] [LT V] [DecidableLT V] {g : V → U} (hg : Embeds g)
      (gens : List (List (Xhyp χ V))) : (unionHeap H (lesser Xhyp.score) gens 1).map (Xhyp.bare g) =
      unionHeap H (lesser fun h => h.2.2) (gens.map (List.map (Xhyp.bare g))) 1 := by
    have hlt : ∀ a b : Xhyp χ V, lesser (fun h => h.2.2) (a.bare g) (b.bare g) = lesser Xhyp.score a b :=
      fun _ _ => decide_eq_decide.2 (hg.map_lt _ _)
    exact (unionHeap_map hH hlt gens 1).symm
  rw [xforestChildrenOf, xforestChildrenOf, hunion hf, hunion embeds_id, map_map, map_map]
  refine congrArg (unionHeap H _ · 1) (map_congr_left fun e he => ?_)
  have hmem := (EdgeEquiv.mem_edges_sort _ _).mp he
  exact xplodeHyps_bare hH hf (hsc e (.here hi hmem)) fun c hc =>
    xplodeOrnode_bare hH hf hitem c fun e' he' => hsc e' (.under hi hmem hc he')

end

/-! ## What a score of zero does to the copies -/

/-- What is picked first, and a way to go on for each child. -/
def Way.over (k : Nat) (e : Edge S) (v : Nat → Way S) : Way S :=
  match e.kids with
  | .nullary => .nullary k e
  | .unary c => .unary k e (v c)
  | .binary c₀ c₁ => .binary k e (v c₀) (v c₁)

theorem expands_over {v : Nat → Way S} (hi : B.rooted i = top) (he : (B.item i).sort.edges[k]? = some e)
    (hv : ∀ c ∈ e.kids.toList, Expands B false c (v c)) : Expands B top i (.over k e v) := by
  unfold Way.over
  cases hk : e.kids with
  | nullary => exact .nullary hi he hk
  | unary c => exact .unary hi he hk (hv c (by simp [hk, Kids.toList]))
  | binary c0 c1 => exact .binary hi he hk (hv c0 (by simp [hk, Kids.toList])) (hv c1 (by simp [hk, Kids.toList]))

variable (B i) in
/-- Every item can be expanded. -/
theorem exists_expands : ∃ w, Expands B false i w := by
  induction i using Nat.strong_induction_on with
  | h i ih =>
    cases hi : B.rooted i with
    | true => exact ⟨_, .stop hi⟩
    | false =>
      have he : (B.item i).sort.edges[0]? = some (B.item i).rep := rfl
      have hex : ∀ c, ∃ w, c ∈ (B.item i).rep.kids.toList → Expands B false c w := by
        intro c
        by_cases hc : c ∈ (B.item i).rep.kids.toList
        · exact (ih c (kid_lt he hc)).imp fun w hw _ => hw
        · exact ⟨.stop c, fun h => absurd h hc⟩
      choose v hv using hex
      exact ⟨_, expands_over hi he hv⟩

/-- A NaN below or at the edge is the score of the way. -/
theorem score_over_nan {inside : Nat → ScoreOrNan S} {factor : Edge S → ScoreOrNan S} {v : Nat → Way S}
    (h : factor e = .nan ∨ ∃ c ∈ e.kids.toList, (v c).score inside factor = .nan) :
    (Way.over k e v).score inside factor = .nan := by
  unfold Way.over
  cases hk : e.kids with
  | nullary =>
    rw [hk] at h
    exact h.resolve_right fun ⟨_, hc, _⟩ => not_mem_nil hc
  | unary c =>
    simp only [hk, Kids.toList, mem_singleton, exists_eq_left] at h
    rcases h with h | h
    · rw [Way.score, h, ScoreOrNan.nan_mul]
    · rw [Way.score, h, ScoreOrNan.mul_nan]
  | binary c0 c1 =>
    simp only [hk, Kids.toList, mem_cons, not_mem_nil, or_false, exists_eq_or_imp, exists_eq_left] at h
    rcases h with h | h | h
    · rw [Way.score, h, ScoreOrNan.nan_mul]
    · rw [Way.score, h, ScoreOrNan.nan_mul, ScoreOrNan.mul_nan]
    · rw [Way.score, h, ScoreOrNan.mul_nan, ScoreOrNan.mul_nan]

/-- An edge that the expansion takes is on one of the ways, and makes its score NaN. -/
theorem Visits.exists_nan (inside : Nat → ScoreOrNan S) {factor : Edge S → ScoreOrNan S} (h : Visits B top i e)
    (hnan : factor e = .nan) : ∃ w, Expands B top i w ∧ w.score inside factor = .nan := by
  choose v hv using exists_expands B
  induction h with
  | @here top i e hi he =>
    obtain ⟨k, hk⟩ := mem_iff_getElem?.mp ((EdgeEquiv.mem_edges_sort _ _).mpr he)
    exact ⟨_, expands_over hi hk fun c _ => hv c, score_over_nan (.inl hnan)⟩
  | @under top i e c e' hi he hc h ih =>
    obtain ⟨k, hk⟩ := mem_iff_getElem?.mp ((EdgeEquiv.mem_edges_sort _ _).mpr he)
    obtain ⟨w, hw, hscore⟩ := ih hnan
    refine ⟨_, expands_over (v := Function.update v c w) hi hk fun c' _ => ?_, score_over_nan (.inr ⟨c, hc, ?_⟩)⟩
    · by_cases hcc : c' = c
      · rw [hcc, Function.update_self]
        exact hw
      · rw [Function.update_of_ne hcc]
        exact hv c'
    · rwa [Function.update_self]

/-- **The copies yield the same sequence** if and only if no edge that they take has a child of score zero. -/
theorem noComponent_same_iff [Mul φ] [One φ] (hH : H.Uniform) (B : BinarizedForest S) (componentScores : Edge S → φ)
    (geom : φ → S) (hinside : ∀ i, ∀ e ∈ (B.item i).edges,
      (e.kids.toList.map B.inside).prod * geom (componentScores e) = e.inside) (hi : B.rooted i = true) :
    (xforestChildrenNoComponent H B i).map (Xhyp.bare id) =
        (xforestChildren H B componentScores geom i).map (Xhyp.bare .score) ↔
      ∀ e, Visits B true i e → ∀ c ∈ e.kids.toList, B.inside c ≠ 0 := by
  constructor
  · intro hsame e hmeets
    by_contra hzero
    have hnan : deltaInside B.toParseForest e = .nan := by rw [deltaInside_eq, if_neg hzero]
    obtain ⟨w, hw, hscore⟩ := hmeets.exists_nan (fun i => .score (B.inside i)) hnan
    obtain ⟨ways, -, hmem, hall⟩ :=
      xforestChildrenOf_enumerates H (.noComponent B.toParseForest) hi
    obtain ⟨n, hn⟩ := mem_iff_getElem?.mp ((hmem w).2 hw)
    -- the hyp of this way has no score, and all others have one
    obtain ⟨h, hh, hrenders⟩ : ∃ h ∈ xforestChildrenNoComponent H B i, h.score = .nan := by
      obtain ⟨hlt, rfl⟩ := List.getElem?_eq_some_iff.mp hn
      exact ⟨_, getElem_mem _, (hall.get hlt (hall.length_eq ▸ hlt)).score.trans hscore⟩
    have hbare := mem_map_of_mem (f := Xhyp.bare id) hh
    rw [hsame] at hbare
    obtain ⟨h', -, heq⟩ := mem_map.1 hbare
    have hscores : ScoreOrNan.score h'.score = h.score := congrArg (fun x => x.2.2) heq
    rw [hrenders] at hscores
    cases hscores
  · intro hnz
    refine (xforestChildrenOf_bare hH embeds_score (fun _ => rfl) hi fun e he => ?_).symm
    have hprod : (e.kids.toList.map B.inside).prod ≠ 0 := by
      simpa using hnz e he
    have hfactor : geom (componentScores e) = deltaInsideScore B.toParseForest e := by
      refine mul_left_cancel₀ hprod ((?_ : _ = e.inside).trans (deltaInsideScore_mul (hnz e he)).symm)
      obtain ⟨j, hj⟩ := he.exists_item
      exact hinside j e hj
    show ScoreOrNan.score (geom (componentScores e)) = deltaInside B.toParseForest e
    rw [deltaInside_eq, if_pos (hnz e he), hfactor]

/-- **`xforest_children` flattens the binarized forest exactly.** For an item rooted by syntax rules, in a forest whose
edges were scored from their own factors and their children's scores: the hyps are the ways to expand the item, each
once, they come best first, and the first has the item's score. The copy without components, which gets an edge's factor
by division, yields the same sequence if and only if no edge of the expansion has a child of score zero. -/
theorem xforestChildren_exact [Mul φ] [One φ] {H : HeapAlg} (hH : H.Uniform) (B : BinarizedForest S)
    (componentScores : Edge S → φ) (geom : φ → S) (hinside : ∀ i, ∀ e ∈ (B.item i).edges,
      (e.kids.toList.map B.inside).prod * geom (componentScores e) = e.inside) {i : Nat} (hi : B.rooted i = true) :
    (∃ ways : List (Way S), ways.Nodup ∧ (∀ w, w ∈ ways ↔ Expands B true i w) ∧
      Forall₂ (Renders B (Way.score B.inside fun e => geom (componentScores e))) ways
        (xforestChildren H B componentScores geom i)) ∧
    (xforestChildren H B componentScores geom i).Pairwise (fun h h' => h'.score ≤ h.score) ∧
    (xforestChildren H B componentScores geom i).head?.map Xhyp.score = some (B.inside i) ∧
    ((xforestChildrenNoComponent H B i).map (Xhyp.bare id) =
        (xforestChildren H B componentScores geom i).map (Xhyp.bare .score) ↔
      ∀ e, Visits B true i e → ∀ c ∈ e.kids.toList, B.inside c ≠ 0) := by
  obtain ⟨hbest, hhead⟩ := xforestChildrenOf_tops H (.component componentScores geom) (fun _ => rfl) hinside hi
  have hways := xforestChildrenOf_enumerates H (.component componentScores geom) hi
  exact ⟨hways, hbest, hhead, noComponent_same_iff hH B componentScores geom hinside hi⟩

end

end

/-- A rule with two variables around a word, binarized: item 3 applies it to item 2, which is virtual and has two
edges, and to item 1. -/
def aroundWord : BinarizedForest NNRat where
  item
    | 1 => ⟨.tag, ⟨some 1, .unary 0, 1⟩, [], unit_alone⟩
    | 2 => ⟨.virtualTag, ⟨some 2, .binary 1 0, 1⟩, [⟨some 4, .binary 1 0, 1⟩], by simp⟩
    | 3 => ⟨.tag, ⟨some 3, .binary 2 1, 1⟩, [], unit_alone⟩
    | _ => ⟨.foreign, ⟨none, .nullary, 1⟩, [], unit_alone⟩
  acyclic
    | 0 | 1 | 2 | 3 | _ + 4 => by simp [EdgeEquiv.edges, Kids.toList]
  getSyntax
    | 1 => some ⟨1, [false]⟩
    | 3 => some ⟨3, [true, false, true]⟩
    | _ => none
  vars
    | 1 | 2 | 3 => 1
    | _ => 0
  uniform
    | 0 | 1 | 2 | 3 | _ + 4 => by simp [EdgeEquiv.edges]
  vars_rooted
    | 0 | 1 | 2 | 3 | _ + 4 => by simp
  vars_virtual
    | 0 | 1 | 2 | 3 | _ + 4 => by simp [EdgeEquiv.edges, Kids.toList]
  vars_rule
    | 0 | 1 | 2 | 3 | _ + 4 => by simp [EdgeEquiv.edges, Kids.toList]

theorem xforestChildren_exact_aroundWord :
    (∃ ways : List (Way NNRat), ways.Nodup ∧ (∀ w, w ∈ ways ↔ Expands aroundWord true 3 w) ∧
      Forall₂ (Renders aroundWord (Way.score aroundWord.inside (deltaInsideScore aroundWord.toParseForest))) ways
        (xforestChildren HeapAlg.sorted aroundWord (deltaInsideScore aroundWord.toParseForest) id 3)) ∧
    (xforestChildren HeapAlg.sorted aroundWord (deltaInsideScore aroundWord.toParseForest) id 3).head?.map Xhyp.score =
      some 1 ∧
    (xforestChildrenNoComponent HeapAlg.sorted aroundWord 3).map (Xhyp.bare id) =
      (xforestChildren HeapAlg.sorted aroundWord (deltaInsideScore aroundWord.toParseForest) id 3).map (Xhyp.bare .score) := by
  have hnz : ∀ i, aroundWord.inside i ≠ 0
    | 0 | 1 | 2 | 3 | _ + 4 => by simp [aroundWord, ParseForest.inside, EdgeEquiv.inside]
  have h := xforestChildren_exact HeapAlg.sorted_uniform aroundWord (deltaInsideScore aroundWord.toParseForest) id
    (fun i e _ => deltaInsideScore_mul fun c _ => hnz c) (show aroundWord.rooted 3 = true from rfl)
  exact ⟨h.1, h.2.2.1, h.2.2.2.2 fun e _ c _ => hnz c⟩

/-- A rule of score zero below a rule of score one: item 1 applies the one to a word, item 2 the other to item 1. -/
def zeroRule : BinarizedForest NNRat where
  item
    | 1 => ⟨.tag, ⟨some 1, .unary 0, 0⟩, [], by simp⟩
    | 2 => ⟨.tag, ⟨some 2, .unary 1, 0⟩, [], by simp⟩
    | _ => ⟨.foreign, ⟨none, .nullary, 1⟩, [], unit_alone⟩
  acyclic
    | 0 | 1 | 2 | _ + 3 => by simp [EdgeEquiv.edges, Kids.toList]
  getSyntax
    | 1 => some ⟨1, [false]⟩
    | 2 => some ⟨2, [true]⟩
    | _ => none
  vars
    | 1 | 2 => 1
    | _ => 0
  uniform
    | 0 | 1 | 2 | _ + 3 => by simp [EdgeEquiv.edges]
  vars_rooted
    | 0 | 1 | 2 | _ + 3 => by simp
  vars_virtual
    | 0 | 1 | 2 | _ + 3 => by simp [EdgeEquiv.edges, Kids.toList]
  vars_rule
    | 0 | 1 | 2 | _ + 3 => by simp [EdgeEquiv.edges, Kids.toList]

/-- The scores of its edges' rules. -/
def zeroRuleScores (e : Edge NNRat) : NNRat := if e.ruleId = some 1 then 0 else 1

/-- The score of the only hyp of item 2 is zero, and zero divided by zero in the copy. -/
theorem zeroRule_differs : ¬ ((∃ ways : List (Way NNRat), ways.Nodup ∧ (∀ w, w ∈ ways ↔ Expands zeroRule true 2 w) ∧
      Forall₂ (Renders zeroRule (Way.score zeroRule.inside zeroRuleScores)) ways
        (xforestChildren HeapAlg.sorted zeroRule zeroRuleScores id 2)) ∧
    (xforestChildren HeapAlg.sorted zeroRule zeroRuleScores id 2).Pairwise (fun h h' => h'.score ≤ h.score) ∧
    (xforestChildren HeapAlg.sorted zeroRule zeroRuleScores id 2).head?.map Xhyp.score = some (zeroRule.inside 2) ∧
    (xforestChildrenNoComponent HeapAlg.sorted zeroRule 2).map (Xhyp.bare id) =
      (xforestChildren HeapAlg.sorted zeroRule zeroRuleScores id 2).map (Xhyp.bare .score)) := by
  rintro ⟨-, -, -, hsame⟩
  have hinside : ∀ i, ∀ e ∈ (zeroRule.item i).edges,
      (e.kids.toList.map zeroRule.inside).prod * id (zeroRuleScores e) = e.inside
    | 0 | 1 | 2 | _ + 3 => by
      simp [zeroRule, EdgeEquiv.edges, Kids.toList, zeroRuleScores, ParseForest.inside, EdgeEquiv.inside]
  have hnz := (noComponent_same_iff HeapAlg.sorted_uniform zeroRule zeroRuleScores id hinside (i := 2) rfl).1 hsame
  exact hnz ⟨some 2, .unary 1, 0⟩ (.here rfl mem_cons_self) 1 mem_cons_self rfl

end Sbmt.Forest
