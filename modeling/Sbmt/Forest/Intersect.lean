import Sbmt.Forest.Basic

/-!
# Looking a derivation tree up in a forest: `intersect_tree_forest::intersect`

`sbmt/forest/intersect_tree_forest.hpp:140-191`. The recursion descends the tree and the forest together and
memoises on (item, tree node).

| here | there |
|---|---|
| `DerivTree` | `binary_derivation_tree`; a node's address in the tree stands for its pointer |
| `BestMatch` | `best_match`; a `match_p` is an `Option BestMatch` |
| `Memo` | `memo_t`: absent keys are `none`, a key inserted with a null `match_p` is `some none` |
| `Fault.nullMatch` | a member function called through a null `match_p` |
| `Fault.badTree` | `throw_bad_syntax_derivation_tree` |

A key is inserted with a null match, and only the nullary branches ever store one in its place. The branch for
edges with children looks its own entry up after the recursion, finds the null it inserted, and calls `improve` on
it. `intersect_meets_iff` states what is left of the intended behaviour.
-/

namespace Sbmt.Forest

open Function

variable {S : Type*}

/-! ## The code -/

/-- `binary_derivation_tree`: nodes labelled with grammar rule ids, `none` for a foreign word. -/
inductive DerivTree
  | leaf (id : Option Nat)
  | unary (id : Option Nat) (t₀ : DerivTree)
  | binary (id : Option Nat) (t₀ t₁ : DerivTree)

namespace DerivTree

/-- `t->label.id()`. -/
def id : DerivTree → Option Nat
  | leaf i => i
  | unary i _ => i
  | binary i _ _ => i

/-- `t->size()`: the number of children. -/
def size : DerivTree → Nat
  | leaf _ => 0
  | unary _ _ => 1
  | binary _ _ _ => 2

end DerivTree

/-- `best_match` (`intersect_tree_forest.hpp:43`). -/
inductive BestMatch (S : Type*)
  | mk (complete : Bool) (nMatch : Nat) (equiv : Nat) (edge : Edge S) (rankInEquiv childMaxRank : Nat)
      (child₀ child₁ : Option (BestMatch S))

namespace BestMatch

def complete : BestMatch S → Bool
  | mk c _ _ _ _ _ _ _ => c

def nMatch : BestMatch S → Nat
  | mk _ n _ _ _ _ _ _ => n

def rankInEquiv : BestMatch S → Nat
  | mk _ _ _ _ r _ _ _ => r

def childMaxRank : BestMatch S → Nat
  | mk _ _ _ _ _ r _ _ => r

/-- `best_match(f, e, r)`. -/
def new (f : Nat) (e : Edge S) (r : Nat) : BestMatch S := mk true 1 f e r 0 none none

/-- `improve(best_match const&)`. -/
def improve (m o : BestMatch S) : BestMatch S :=
  if (!m.complete && o.complete) || m.nMatch < o.nMatch then o else m

/-- `join_child(o, child_i)` for a match that is not null. -/
def joinChild (m o : BestMatch S) (childI : Nat) : BestMatch S :=
  match m with
  | mk c n f e r cr c₀ c₁ =>
    mk (c && o.complete) (n + o.nMatch) f e r (max (max cr o.childMaxRank) o.rankInEquiv)
      (if childI = 0 then some o else c₀) (if childI = 1 then some o else c₁)

end BestMatch

inductive Fault
  | nullMatch
  | badTree
  deriving DecidableEq, Repr

/-- A node of the tree, by the path to it from the root, last step first. -/
abbrev TreePtr := List Nat

/-- `memo_t`. -/
abbrev Memo (S : Type*) := Nat × TreePtr → Option (Option (BestMatch S))

/-- What a call returns: the match pointer and the memo it leaves behind. -/
abbrev Answer (S : Type*) := Except Fault (Option (BestMatch S) × Memo S)

/-- Dereferencing a `match_p`. -/
def deref (m : Option (BestMatch S)) : Except Fault (BestMatch S) :=
  match m with
  | some m => .ok m
  | none => .error .nullMatch

/-- The recursive calls for the children of an edge, and `join_child` of what they return. `child k c` is the call
on item `c` and the tree's `k`-th child. -/
def joinKids (child : Nat → Nat → Memo S → Answer S) (m : BestMatch S) (kids : Kids) (memo : Memo S) :
    Except Fault (BestMatch S × Memo S) :=
  match kids with
  | .nullary => .ok (m, memo)
  | .unary c => do
    let (m₀, memo) ← child 0 c memo
    let m := m.joinChild (← deref m₀) 0
    return (m, memo)
  | .binary c₀ c₁ => do
    let (m₀, memo) ← child 0 c₀ memo
    let m := m.joinChild (← deref m₀) 0
    let (m₁, memo) ← child 1 c₁ memo
    let m := m.joinChild (← deref m₁) 1
    return (m, memo)

/-- The end of the branch for an edge with children: the call's own key is looked up again, because the recursive
calls may have moved the entry, and the match found there is improved. -/
def improveEntry (f : Nat) (t : TreePtr) (m : BestMatch S) (memo : Memo S) : Except Fault (Option (BestMatch S) × Memo S) := do
  let ret₂ ← deref ((memo (f, t)).getD none)
  let ret₂ := ret₂.improve m
  return (some ret₂, update memo (f, t) (some (some ret₂)))

/-- The loop over the item's edges. -/
def intersectEdges (rootRule : Option Nat) (tsize : Nat) (root : TokenType) (f : Nat) (t : TreePtr)
    (child : Nat → Nat → Memo S → Answer S) : List (Edge S) → Nat → Memo S → Except Fault (Option (BestMatch S) × Memo S)
  | [], _, memo => .ok ((memo (f, t)).getD none, memo)
  | e :: es, rank, memo =>
    let m := BestMatch.new f e rank
    if rootRule = none ∧ root = .foreign then
      intersectEdges rootRule tsize root f t child es (rank + 1) (update memo (f, t) (some (some m)))
    else if e.ruleId = rootRule then
      if tsize ≠ e.childCount then .error .badTree
      else if e.kids = .nullary then
        intersectEdges rootRule tsize root f t child es (rank + 1) (update memo (f, t) (some (some m)))
      else do
        let (m, memo) ← joinKids child m e.kids memo
        improveEntry f t m memo
    else intersectEdges rootRule tsize root f t child es (rank + 1) memo

/-- One activation of `intersect` on the tree node `t`, given the calls on its children. -/
def intersectNode [LinearOrder S] (F : ParseForest S) (sorted : Bool) (rootRule : Option Nat) (tsize f : Nat) (t : TreePtr)
    (child : Nat → Nat → Memo S → Answer S) (memo : Memo S) : Answer S :=
  match memo (f, t) with
  | some ret => .ok (ret, memo)
  | none =>
    let eq := if sorted then (F.item f).sort else F.item f
    intersectEdges rootRule tsize eq.root f t child eq.edges 0 (update memo (f, t) (some none))

/-- `intersect(f, t, sorted)` (`intersect_tree_forest.hpp:149`). -/
def intersect [LinearOrder S] (F : ParseForest S) (sorted : Bool) : DerivTree → TreePtr → Nat → Memo S → Answer S
  | .leaf id, t, f, memo => intersectNode F sorted id 0 f t (fun _ _ _ => .error .badTree) memo
  | .unary id t₀, t, f, memo =>
    intersectNode F sorted id 1 f t (fun _ c memo => intersect F sorted t₀ (0 :: t) c memo) memo
  | .binary id t₀ t₁, t, f, memo =>
    intersectNode F sorted id 2 f t
      (fun k c memo => if k = 0 then intersect F sorted t₀ (0 :: t) c memo else intersect F sorted t₁ (1 :: t) c memo)
      memo

/-- `intersect(e, t)` on a fresh `intersect_tree_forest`, from the root of the tree. -/
def intersectTop [LinearOrder S] (F : ParseForest S) (sorted : Bool) (T : DerivTree) (f : Nat) :
    Except Fault (Option (BestMatch S)) :=
  (intersect F sorted T [] f fun _ => none).map Prod.fst

/-! ## What the answer is meant to say -/

/-- The edge carries the label: the same rule, or any edge of a foreign word against a null id. -/
def LabelMatches (root : TokenType) (e : Edge S) (id : Option Nat) : Prop :=
  (id = none ∧ root = .foreign) ∨ e.ruleId = id

instance (root : TokenType) (e : Edge S) (id : Option Nat) : Decidable (LabelMatches root e id) :=
  inferInstanceAs (Decidable (_ ∨ _))

section
variable [LE S] (F : ParseForest S)

/-- The tree is a derivation of item `f`. -/
def IsDeriv (f : Nat) : DerivTree → Prop
  | .leaf id => ∃ e ∈ (F.item f).edges, LabelMatches (F.item f).root e id ∧ e.kids = .nullary
  | .unary id t₀ => ∃ e ∈ (F.item f).edges, LabelMatches (F.item f).root e id ∧
      ∃ c, e.kids = .unary c ∧ IsDeriv c t₀
  | .binary id t₀ t₁ => ∃ e ∈ (F.item f).edges, LabelMatches (F.item f).root e id ∧
      ∃ c₀ c₁, e.kids = .binary c₀ c₁ ∧ IsDeriv c₀ t₀ ∧ IsDeriv c₁ t₁

/-- `n` nodes of the tree can be matched from item `f` downwards, along some choice of edges. -/
inductive MatchCount : Nat → DerivTree → Nat → Prop
  | stop (f t) : MatchCount f t 0
  | leaf {f id} {e : Edge S} (he : e ∈ (F.item f).edges) (hm : LabelMatches (F.item f).root e id)
      (hk : e.kids = .nullary) : MatchCount f (.leaf id) 1
  | unary {f id t₀ c n} {e : Edge S} (he : e ∈ (F.item f).edges) (hm : LabelMatches (F.item f).root e id)
      (hk : e.kids = .unary c) (h : MatchCount c t₀ n) : MatchCount f (.unary id t₀) (1 + n)
  | binary {f id t₀ t₁ c₀ c₁ n₀ n₁} {e : Edge S} (he : e ∈ (F.item f).edges)
      (hm : LabelMatches (F.item f).root e id) (hk : e.kids = .binary c₀ c₁) (h₀ : MatchCount c₀ t₀ n₀)
      (h₁ : MatchCount c₁ t₁ n₁) : MatchCount f (.binary id t₀ t₁) (1 + n₀ + n₁)

/-- The answer is a match, whose flag tells whether the tree is a derivation and whose count is the best one
possible if it is not. -/
def Meets (T : DerivTree) (f : Nat) (r : Except Fault (Option (BestMatch S))) : Prop :=
  ∃ m, r = .ok (some m) ∧ (m.complete = true ↔ IsDeriv F f T) ∧
    (¬ IsDeriv F f T → IsGreatest {n | MatchCount F f T n} m.nMatch)

/-- A forest over a grammar with the given rule arities: an edge has as many children as its rule, and the edges of
foreign words, which alone may lack a rule, have none. -/
structure OverGrammar (arity : Nat → Nat) : Prop where
  rule : ∀ i, ∀ e ∈ (F.item i).edges, ∀ r, e.ruleId = some r → e.childCount = arity r
  null : ∀ i, ∀ e ∈ (F.item i).edges, e.ruleId = none → e.kids = .nullary
  foreign : ∀ i, (F.item i).root = .foreign → ∀ e ∈ (F.item i).edges, e.kids = .nullary

end

/-- A tree over a grammar: a node has as many children as its rule, and null nodes are leaves. -/
def DerivTree.OverGrammar (arity : Nat → Nat) : DerivTree → Prop
  | .leaf id => ∀ r, id = some r → arity r = 0
  | .unary id t₀ => (∃ r, id = some r ∧ arity r = 1) ∧ t₀.OverGrammar arity
  | .binary id t₀ t₁ => (∃ r, id = some r ∧ arity r = 2) ∧ t₀.OverGrammar arity ∧ t₁.OverGrammar arity

/-! ## The memo entry of a call is out of reach of its recursive calls -/

theorem bind_ok.{u} {α β : Type u} {x : Except Fault α} {g : α → Except Fault β} {r : β} (h : x >>= g = .ok r) :
    ∃ a, x = .ok a ∧ g a = .ok r := by
  cases x with
  | error e => exact nomatch h
  | ok a => exact ⟨a, rfl, h⟩

/-- Calls under the node `t` leave the entries of all other nodes alone. -/
def FrameAt (t : TreePtr) (call : Memo S → Answer S) : Prop :=
  ∀ memo m memo', call memo = .ok (m, memo') → ∀ key : Nat × TreePtr, ¬ t <:+ key.2 → memo' key = memo key

variable {child : Nat → Nat → Memo S → Answer S}

theorem joinKids_frame {key : Nat × TreePtr}
    (hc : ∀ k c memo m memo', child k c memo = .ok (m, memo') → memo' key = memo key) {m m' : BestMatch S} {kids : Kids}
    {memo memo' : Memo S} (h : joinKids child m kids memo = .ok (m', memo')) : memo' key = memo key := by
  cases kids with
  | nullary =>
    obtain ⟨-, rfl⟩ : m = m' ∧ memo = memo' := by simpa [joinKids] using h
    rfl
  | unary c =>
    obtain ⟨⟨m0, memo0⟩, h0, h⟩ := bind_ok h
    obtain ⟨d0, -, h⟩ := bind_ok h
    obtain ⟨-, rfl⟩ : _ ∧ memo0 = memo' := by simpa [pure, Except.pure] using h
    exact hc 0 c memo m0 memo0 h0
  | binary c0 c1 =>
    obtain ⟨⟨m0, memo0⟩, h0, h⟩ := bind_ok h
    obtain ⟨d0, -, h⟩ := bind_ok h
    obtain ⟨⟨m1, memo1⟩, h1, h⟩ := bind_ok h
    obtain ⟨d1, -, h⟩ := bind_ok h
    obtain ⟨-, rfl⟩ : _ ∧ memo1 = memo' := by simpa [pure, Except.pure] using h
    rw [hc 1 c1 memo0 m1 memo1 h1, hc 0 c0 memo m0 memo0 h0]

variable {t : TreePtr} {f : Nat}

theorem intersectEdges_frame {rootRule : Option Nat} {tsize : Nat} {root : TokenType}
    (hc : ∀ k c, FrameAt t (child k c)) :
    ∀ (es : List (Edge S)) (rank : Nat), FrameAt t (intersectEdges rootRule tsize root f t child es rank)
  | [], _, memo, m, memo', h, key, _ => by
    obtain ⟨-, rfl⟩ : _ ∧ memo = memo' := by simpa [intersectEdges] using h
    rfl
  | e :: es, rank, memo, m, memo', h, key, hkey => by
    have hne : key ≠ (f, t) := by
      rintro rfl
      exact hkey (List.suffix_refl t)
    unfold intersectEdges at h
    split_ifs at h with h1 h2 h3 h4
    · rw [intersectEdges_frame hc es _ _ m memo' h key hkey, update_of_ne hne]
    · rw [intersectEdges_frame hc es _ _ m memo' h key hkey, update_of_ne hne]
    · obtain ⟨⟨m1, memo1⟩, hj, h⟩ := bind_ok h
      obtain ⟨d, -, h⟩ := bind_ok h
      obtain ⟨-, rfl⟩ : _ ∧ update memo1 (f, t) (some (some (d.improve m1))) = memo' := by
        simpa [pure, Except.pure] using h
      rw [update_of_ne hne, joinKids_frame (fun k c _ _ _ hm => hc k c _ _ _ hm key hkey) hj]
    · exact intersectEdges_frame hc es _ _ m memo' h key hkey

theorem FrameAt.mono {t' : TreePtr} {call : Memo S → Answer S} (h : FrameAt t' call) (ht : t <:+ t') : FrameAt t call :=
  fun memo m memo' hm key hkey => h memo m memo' hm key fun hs => hkey (ht.trans hs)

section
variable [LinearOrder S] (F : ParseForest S) (sorted : Bool)

theorem intersectNode_frame {rootRule : Option Nat} {tsize f : Nat} (hc : ∀ k c, FrameAt t (child k c)) :
    FrameAt t (intersectNode F sorted rootRule tsize f t child) := by
  intro memo m memo' h key hkey
  unfold intersectNode at h
  split at h
  · obtain ⟨-, rfl⟩ : _ ∧ memo = memo' := by simpa using h
    rfl
  · have hne : key ≠ (f, t) := by
      rintro rfl
      exact hkey (List.suffix_refl t)
    rw [intersectEdges_frame hc _ _ _ m memo' h key hkey, update_of_ne hne]

theorem intersect_frame : ∀ (T : DerivTree) (t : TreePtr) (f : Nat), FrameAt t (intersect F sorted T t f)
  | .leaf _, t, f => intersectNode_frame F sorted fun _ _ _ _ _ h => nomatch h
  | .unary _ t0, t, f =>
    intersectNode_frame F sorted fun _ c => (intersect_frame t0 (0 :: t) c).mono (List.suffix_cons 0 t)
  | .binary _ t0 t1, t, f => by
    refine intersectNode_frame F sorted fun k c => ?_
    by_cases hk : k = 0
    · simpa [hk] using (intersect_frame t0 (0 :: t) c).mono (List.suffix_cons 0 t)
    · simpa [hk] using (intersect_frame t1 (1 :: t) c).mono (List.suffix_cons 1 t)

/-- The entry of the tree's root is out of reach of the calls on its children. -/
theorem intersect_frame_root (T : DerivTree) (k c f : Nat) (memo : Memo S) (m : Option (BestMatch S)) (memo' : Memo S)
    (h : intersect F sorted T [k] c memo = .ok (m, memo')) : memo' (f, []) = memo (f, []) :=
  intersect_frame F sorted T [k] c memo m memo' h (f, []) (by simp)

end

/-! ## A node with children: no match ever comes back -/

theorem improveEntry_null {m : BestMatch S} {memo : Memo S} (h : memo (f, t) = some none) :
    improveEntry f t m memo = .error .nullMatch := by
  simp [improveEntry, h, deref, bind, Except.bind]

/-- With children to descend to, the loop fails at the first edge that matches and returns null if none does. -/
theorem intersectEdges_kids {r tsize : Nat} {root : TokenType}
    (hc : ∀ k c memo m memo', child k c memo = .ok (m, memo') → memo' (f, t) = memo (f, t)) (hpos : 0 < tsize) :
    ∀ (es : List (Edge S)) (rank : Nat) (memo : Memo S), memo (f, t) = some none → ∀ m memo',
      intersectEdges (some r) tsize root f t child es rank memo = .ok (m, memo') → m = none
  | [], _, memo, hnull, m, memo', h => by
    obtain ⟨hm, -⟩ : none = m ∧ memo = memo' := by simpa [intersectEdges, hnull] using h
    exact hm.symm
  | e :: es, rank, memo, hnull, m, memo', h => by
    unfold intersectEdges at h
    simp only [reduceCtorEq, false_and, if_false] at h
    split_ifs at h with h1 h2 h3
    · -- a nullary edge would have no room for the tree's children
      simp only [Edge.childCount, h3, Kids.toList, List.length_nil, ne_eq, not_not] at h2
      omega
    · obtain ⟨⟨m1, memo1⟩, hj, h⟩ := bind_ok h
      have hself : memo1 (f, t) = some none := by
        rw [← hnull]
        exact joinKids_frame hc hj
      rw [improveEntry_null hself] at h
      cases h
    · exact intersectEdges_kids hc hpos es _ memo hnull m memo' h

/-! ## A leaf: the last matching edge is returned -/

/-- A match of a single node. -/
def IsUnit (m : BestMatch S) : Prop := m.complete = true ∧ m.nMatch = 1

/-- At a leaf of the tree the loop returns a unit match iff some edge matches. -/
theorem intersectEdges_leaf (rootRule : Option Nat) (root : TokenType) (f : Nat) (t : TreePtr)
    (child : Nat → Nat → Memo S → Answer S) : ∀ (es : List (Edge S)) (rank : Nat) (memo : Memo S),
      (∀ e ∈ es, e.ruleId = rootRule → e.kids = .nullary) → (∀ m, memo (f, t) = some (some m) → IsUnit m) →
      ∃ ret memo', intersectEdges rootRule 0 root f t child es rank memo = .ok (ret, memo') ∧
        (∀ m, ret = some m → IsUnit m) ∧
        (ret = none ↔ (memo (f, t)).getD none = none ∧ ∀ e ∈ es, ¬ LabelMatches root e rootRule)
  | [], _, memo, _, hunit => by
    refine ⟨(memo (f, t)).getD none, memo, rfl, fun m hm => ?_, by simp⟩
    cases h : memo (f, t) with
    | none => simp [h] at hm
    | some o => exact hunit m (by simpa [h] using hm)
  | e :: es, rank, memo, hes, hunit => by
    have hes' : ∀ e ∈ es, e.ruleId = rootRule → e.kids = .nullary := fun e he => hes e (by simp [he])
    have hnew : ∀ m, update memo (f, t) (some (some (BestMatch.new f e rank))) (f, t) = some (some m) →
        IsUnit m := by
      intro m hm
      obtain rfl : BestMatch.new f e rank = m := by simpa using hm
      exact ⟨rfl, rfl⟩
    unfold intersectEdges
    by_cases hm : LabelMatches root e rootRule
    · obtain ⟨ret, memo', hr, hu, hn⟩ := intersectEdges_leaf rootRule root f t child es (rank + 1) _ hes' hnew
      refine ⟨ret, memo', ?_, hu, by simp [hn, hm]⟩
      by_cases hf : rootRule = none ∧ root = .foreign
      · rw [if_pos hf, hr]
      · have hid : e.ruleId = rootRule := hm.resolve_left hf
        have hk := hes e (by simp) hid
        rw [if_neg hf, if_pos hid, if_neg (by simp [Edge.childCount, hk, Kids.toList]), if_pos hk, hr]
    · obtain ⟨ret, memo', hr, hu, hn⟩ := intersectEdges_leaf rootRule root f t child es (rank + 1) memo hes' hunit
      refine ⟨ret, memo', ?_, hu, by simp [hn, hm]⟩
      rw [if_neg fun hf => hm (.inl hf), if_neg fun hid => hm (.inr hid), hr]

/-! ## The whole call -/

theorem Edge.kids_nullary_of_childCount {e : Edge S} (h : e.childCount = 0) : e.kids = .nullary := by
  cases hk : e.kids with
  | nullary => rfl
  | unary c => simp [Edge.childCount, hk, Kids.toList] at h
  | binary c0 c1 => simp [Edge.childCount, hk, Kids.toList] at h

section
variable [LinearOrder S] {F : ParseForest S} {arity : Nat → Nat}

/-- In a forest over the grammar, the edges that match a leaf of a tree over the grammar are nullary. -/
theorem OverGrammar.leaf (hF : OverGrammar F arity) {id : Option Nat} (hT : (DerivTree.leaf id).OverGrammar arity)
    {e : Edge S} (he : e ∈ (F.item f).edges) (hm : LabelMatches (F.item f).root e id) : e.kids = .nullary := by
  rcases hm with ⟨-, hroot⟩ | hid
  · exact hF.foreign f hroot e he
  · cases id with
    | none => exact hF.null f e he hid
    | some r => exact Edge.kids_nullary_of_childCount ((hF.rule f e he r hid).trans (hT r rfl))

/-- A node with children never yields a match. -/
theorem intersectTop_kids {r tsize f : Nat} {sorted : Bool}
    (hc : ∀ k c memo m memo', child k c memo = .ok (m, memo') → memo' (f, []) = memo (f, [])) (hpos : 0 < tsize)
    (m : BestMatch S) :
    (intersectNode F sorted (some r) tsize f [] child fun _ => none).map Prod.fst ≠ .ok (some m) := by
  intro h
  rcases hr : intersectNode F sorted (some r) tsize f [] child fun _ => none with err | ⟨ret, memo'⟩
  · rw [hr] at h
    exact nomatch h
  · rw [hr] at h
    obtain rfl : ret = some m := by simpa [Except.map] using h
    have := intersectEdges_kids hc hpos _ _ _ (by simp) _ _ hr
    exact nomatch this

/-- **When the lookup does what it is for.** Over one grammar, `intersect` returns a match with a truthful flag and
a truthful count exactly when the tree is a single node and some edge of the item carries its label. Every taller
tree ends in a null match being dereferenced or returned, whether the forest derives it or not. -/
theorem intersect_meets_iff (hF : OverGrammar F arity) (T : DerivTree) (hT : T.OverGrammar arity) (f : Nat)
    (sorted : Bool) :
    Meets F T f (intersectTop F sorted T f) ↔
      T.size = 0 ∧ ∃ e ∈ (F.item f).edges, LabelMatches (F.item f).root e T.id := by
  cases T with
  | leaf id =>
    simp only [DerivTree.size, DerivTree.id, true_and]
    have hedges : ∀ e, e ∈ (if sorted then (F.item f).sort else F.item f).edges ↔ e ∈ (F.item f).edges := by
      cases sorted <;> simp
    have hroot : (if sorted then (F.item f).sort else F.item f).root = (F.item f).root := by cases sorted <;> rfl
    obtain ⟨ret, memo', hr, hu, hn⟩ := intersectEdges_leaf id (F.item f).root f []
      (fun _ _ _ => .error .badTree) (if sorted then (F.item f).sort else F.item f).edges 0
      (update (fun _ => none) (f, []) (some none))
      (fun e he hid => hF.leaf hT ((hedges e).1 he) (.inr hid)) (by simp)
    have htop : intersectTop F sorted (.leaf id) f = .ok ret := by
      simp only [intersectTop, intersect, intersectNode, hroot, hr]
      rfl
    rw [htop]
    constructor
    · rintro ⟨m, hm, -⟩
      by_contra hno
      have : ret = none := hn.2 ⟨by simp, fun e he hm => hno ⟨e, (hedges e).1 he, hm⟩⟩
      rw [this] at hm
      exact nomatch hm
    · rintro ⟨e, he, hm⟩
      cases ret with
      | none => exact absurd hm ((hn.1 rfl).2 e ((hedges e).2 he))
      | some m =>
        have hd : IsDeriv F f (.leaf id) := ⟨e, he, hm, hF.leaf hT he hm⟩
        exact ⟨m, rfl, by simp [hd, (hu m rfl).1], fun hnot => absurd hd hnot⟩
  | unary id t0 =>
    obtain ⟨⟨r, rfl, -⟩, -⟩ := hT
    refine iff_of_false ?_ (by simp [DerivTree.size])
    rintro ⟨m, hm, -⟩
    exact intersectTop_kids (fun k c => intersect_frame_root F sorted t0 0 c f) (by decide) m hm
  | binary id t0 t1 =>
    obtain ⟨⟨r, rfl, -⟩, -⟩ := hT
    refine iff_of_false ?_ (by simp [DerivTree.size])
    rintro ⟨m, hm, -⟩
    refine intersectTop_kids (fun k c => ?_) (by decide) m hm
    by_cases hk : k = 0
    · simpa [hk] using intersect_frame_root F sorted t0 0 c f
    · simpa [hk] using intersect_frame_root F sorted t1 1 c f

end

/-- A unary rule 1 over a lexical item with rule 0. -/
def unaryForest : ParseForest NNRat where
  item i := if i = 1 then ⟨.tag, ⟨some 1, .unary 0, 1⟩, [], unit_alone⟩
    else ⟨.tag, ⟨some 0, .nullary, 1⟩, [], unit_alone⟩
  acyclic i e he c hc := by
    by_cases hi : i = 1
    · obtain rfl : e = ⟨some 1, .unary 0, 1⟩ := by simpa [EdgeEquiv.edges, hi] using he
      simp [Kids.toList] at hc
      rw [hc, hi]
      exact Nat.zero_lt_one
    · obtain rfl : e = ⟨some 0, .nullary, 1⟩ := by simpa [EdgeEquiv.edges, hi] using he
      simp [Kids.toList] at hc

theorem unaryForest_overGrammar : OverGrammar unaryForest fun r => if r = 1 then 1 else 0 where
  rule i e he r hr := by
    by_cases hi : i = 1
    · obtain rfl : e = ⟨some 1, .unary 0, 1⟩ := by simpa [unaryForest, EdgeEquiv.edges, hi] using he
      obtain rfl : 1 = r := by simpa using hr
      rfl
    · obtain rfl : e = ⟨some 0, .nullary, 1⟩ := by simpa [unaryForest, EdgeEquiv.edges, hi] using he
      obtain rfl : 0 = r := by simpa using hr
      rfl
  null i e he hr := by
    by_cases hi : i = 1
    · obtain rfl : e = ⟨some 1, .unary 0, 1⟩ := by simpa [unaryForest, EdgeEquiv.edges, hi] using he
      simp at hr
    · obtain rfl : e = ⟨some 0, .nullary, 1⟩ := by simpa [unaryForest, EdgeEquiv.edges, hi] using he
      rfl
  foreign i hr := by
    by_cases hi : i = 1 <;> simp [unaryForest, hi] at hr

/-- The one-node tree of rule 0 is found at item 0. -/
theorem intersect_meets_iff_lexical :
    Meets unaryForest (.leaf (some 0)) 0 (intersectTop unaryForest true (.leaf (some 0)) 0) := by
  refine (intersect_meets_iff unaryForest_overGrammar (.leaf (some 0)) ?_ 0 true).2 ⟨rfl, ?_⟩
  · simp [DerivTree.OverGrammar]
  · exact ⟨⟨some 0, .nullary, 1⟩, by simp [unaryForest, EdgeEquiv.edges], .inr rfl⟩

/-- The two-node tree `1(0)` is a derivation of item 1, over the same grammar; looking it up dereferences a null
match, so no answer meets the intended one. -/
theorem intersect_unary_null :
    OverGrammar unaryForest (fun r => if r = 1 then 1 else 0) ∧
    (DerivTree.unary (some 1) (.leaf (some 0))).OverGrammar (fun r => if r = 1 then 1 else 0) ∧
    IsDeriv unaryForest 1 (.unary (some 1) (.leaf (some 0))) ∧
    intersectTop unaryForest true (.unary (some 1) (.leaf (some 0))) 1 = .error .nullMatch ∧
    ¬ Meets unaryForest (.unary (some 1) (.leaf (some 0))) 1
      (intersectTop unaryForest true (.unary (some 1) (.leaf (some 0))) 1) := by
  have hrun : intersectTop unaryForest true (.unary (some 1) (.leaf (some 0))) 1 = .error .nullMatch := by
    simp [intersectTop, intersect, intersectNode, intersectEdges, EdgeEquiv.edges, EdgeEquiv.sort, unaryForest,
      Edge.childCount, Kids.toList, joinKids, improveEntry, deref, Except.map, bind, Except.bind, pure, Except.pure]
  refine ⟨unaryForest_overGrammar, by simp [DerivTree.OverGrammar], ?_, hrun, ?_⟩
  · refine ⟨⟨some 1, .unary 0, 1⟩, by simp [unaryForest, EdgeEquiv.edges], .inr rfl, 0, rfl, ?_⟩
    exact ⟨⟨some 0, .nullary, 1⟩, by simp [unaryForest, EdgeEquiv.edges], .inr rfl, rfl⟩
  · rw [hrun]
    rintro ⟨m, hm, -⟩
    cases hm

end Sbmt.Forest
