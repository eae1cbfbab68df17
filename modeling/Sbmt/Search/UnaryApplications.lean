import Sbmt.Lib.TopoSort

/-!
# Unary rules applied in a graph (`sbmt_decoder/include/sbmt/search/unary_applications.hpp`)

| here | there |
| --- | --- |
| `UnaryRules` | the rules by right hand side, `rhs_map->rules` and `toplevel_rules`, and the items of the edges that `concrete_edge_factory::create_edge` makes of a rule and an item |
| `KeepingFilter` | a `unary_filter_interface` that keeps everything: it gives the edges back in an order of its own |
| `Sorting` | the order of the items by score |
| `Dag` | `graph` and `color_map`; an item is a vertex, which `vertex_map` finds it by |
| `discover` | `creation_visitor::operator()` (`:381-404`), with `applyRules` (`:419-457`) |
| `visit`, `depthFirstSearch` | `boost::depth_first_search` with the two visitors |
| `applyAll` | `unary_applications::apply_rules` (`:296-355`) |
| `unaryApplications` | the constructor (`:221-291`) |

The search goes through a graph that grows meanwhile: a vertex gets its edges when it is discovered, if fewer than
`maxdepth` vertices are open then.  `depth` is counted up by `discover` and down when a vertex is finished, so it is
the number of open vertices.  Of the edges of an equivalence only the item is kept.
-/

namespace Sbmt.Search

open Sbmt.Lib List Function

structure UnaryRules (ι ρ : Type*) where
  rules : ι → List ρ
  toplevelRules : ι → List ρ
  create : ρ → ι → List ι

structure KeepingFilter {ι ρ : Type*} (g : UnaryRules ι ρ) where
  apply : ι → List ρ → List (ρ × ι)
  mem_apply : ∀ v rs r i, (r, i) ∈ apply v rs ↔ r ∈ rs ∧ i ∈ g.create r v

/-- `std::sort` by score, whatever the scores are. -/
structure Sorting (ι : Type*) where
  sort : List ι → List ι
  perm : ∀ l, (sort l).Perm l

inductive Color where
  | white
  | gray
  | black
deriving DecidableEq

structure Dag (ι ρ : Type*) where
  vertices : List ι
  out : ι → List (ρ × ι)
  color : ι → Color

variable {ι ρ : Type*}

/-- What the edges of a vertex lead to. -/
def Dag.next (s : Dag ι ρ) (v : ι) : List ι := (s.out v).map Prod.snd

section Functions

variable [DecidableEq ι]

/-- `put(color_map, v, c)`. -/
def Dag.paint (s : Dag ι ρ) (v : ι) (c : Color) : Dag ι ρ := { s with color := update s.color v c }

theorem Dag.paint_self (s : Dag ι ρ) (v : ι) (c : Color) : (s.paint v c).color v = c := update_self _ _ _

theorem Dag.paint_of_ne {v x : ι} (hx : x ≠ v) (s : Dag ι ρ) (c : Color) : (s.paint v c).color x = s.color x :=
  update_of_ne hx _ _

def vertexForEt (s : Dag ι ρ) (e : ι) : Dag ι ρ :=
  if e ∈ s.vertices then s
  else { s with vertices := s.vertices ++ [e], color := update s.color e .white }

/-- Only transitions that are not back edges are added. -/
def addTransition (v : ι) (s : Dag ι ρ) (e : ρ × ι) : Dag ι ρ :=
  let s := vertexForEt s e.2
  if s.color e.2 = .gray then s else { s with out := update s.out v (s.out v ++ [e]) }

section Create

variable {g : UnaryRules ι ρ} (filter : KeepingFilter g) (toplevel : Bool) (maxdepth : Nat)

def applyRules (v : ι) (rs : List ρ) (s : Dag ι ρ) : Dag ι ρ := (filter.apply v rs).foldl (addTransition v) s

def discover (depth : Nat) (v : ι) (s : Dag ι ρ) : Dag ι ρ :=
  if depth < maxdepth then
    let s := applyRules filter v (g.rules v) s
    if toplevel then applyRules filter v (g.toplevelRules v) s else s
  else s

def visit : Nat → Nat → ι → Dag ι ρ → Option (Dag ι ρ)
  | 0, _, _, _ => none
  | fuel + 1, depth, v, s =>
    let s := discover filter toplevel maxdepth depth v (s.paint v .gray)
    ((s.out v).foldlM (fun s e => if s.color e.2 = .white then visit fuel (depth + 1) e.2 s else some s) s).map
      fun s => s.paint v .black

/-- The vertices from the `i`-th on, and then those that were added meanwhile. -/
def visitFrom : Nat → Nat → Dag ι ρ → Option (Dag ι ρ)
  | 0, i, s => if s.vertices.length ≤ i then some s else none
  | rounds + 1, i, s =>
    ((s.vertices.drop i).foldlM (fun s u =>
      if s.color u = .white then visit filter toplevel maxdepth (maxdepth + 1) 0 u s else some s) s).bind
        (visitFrom rounds s.vertices.length)

/-- What a round adds is visited when it ends, so there is no third round. -/
def depthFirstSearch (s : Dag ι ρ) : Option (Dag ι ρ) := visitFrom filter toplevel maxdepth 2 0 s

end Create

def insertItem (set : List ι) (i : ι) : List ι := if i ∈ set then set else set ++ [i]

section Apply

variable {g : UnaryRules ι ρ} (filter : KeepingFilter g)

/-- The vertices sorted, none where `topological_sort` throws `not_a_dag`. -/
def topologicalSort (s : Dag ι ρ) : Option (Option (List ι)) :=
  (TopoSort.order s.next (s.vertices.length + 1) s.vertices .empty).map fun σ =>
    if σ.backEdges = 0 then some σ.out else none

def applyAll (s : Dag ι ρ) (sorted equivSet : List ι) : List ι :=
  sorted.foldl (fun set v =>
    (filter.apply v ((s.out v).map Prod.fst)).foldl (fun set e => insertItem set e.2) (insertItem set v)) equivSet

/-- The graph and the items, none where the sort throws. -/
def unaryApplications (byScore : Sorting ι) (toplevel : Bool) (start : List ι) : Option (Dag ι ρ × Option (List ι)) :=
  let startEdges := byScore.sort start
  let graph := startEdges.foldl vertexForEt ⟨[], fun _ => [], fun _ => .white⟩
  let equivSet := startEdges.foldl insertItem []
  if equivSet.isEmpty then some (graph, some equivSet)
  else
    (depthFirstSearch filter toplevel 2 graph).bind fun s =>
      (topologicalSort s).map fun sorted => (s, sorted.map fun vs => applyAll filter s vs equivSet)

end Apply

end Functions

/-! ## A vertex that is discovered -/

section Discover

variable {g : UnaryRules ι ρ} {filter : KeepingFilter g} {toplevel : Bool} {maxdepth : Nat}

/-- The items of the edges that one rule makes of an item. -/
def children (g : UnaryRules ι ρ) (toplevel : Bool) (v : ι) : List ι :=
  (g.rules v ++ if toplevel then g.toplevelRules v else []).flatMap fun r => g.create r v

/-- The edges that one rule makes of an item, in the order in which the filter gives them. -/
def made (filter : KeepingFilter g) (toplevel : Bool) (v : ι) : List (ρ × ι) :=
  filter.apply v (g.rules v) ++ if toplevel then filter.apply v (g.toplevelRules v) else []

/-- The items of these edges. -/
def madeItems (filter : KeepingFilter g) (toplevel : Bool) (v : ι) : List ι := (made filter toplevel v).map Prod.snd

theorem mem_made {v : ι} {e : ρ × ι} : e ∈ made filter toplevel v ↔
    e.1 ∈ (g.rules v ++ if toplevel then g.toplevelRules v else []) ∧ e.2 ∈ g.create e.1 v := by
  unfold made
  cases toplevel with
  | true => simp only [if_true, mem_append, filter.mem_apply, or_and_right]
  | false => simp only [Bool.false_eq_true, if_false, append_nil, filter.mem_apply]

theorem mem_madeItems {v x : ι} : x ∈ madeItems filter toplevel v ↔ x ∈ children g toplevel v := by
  rw [madeItems, children, mem_map, mem_flatMap]
  constructor
  · rintro ⟨e, he, rfl⟩
    exact ⟨e.1, (mem_made.1 he).1, (mem_made.1 he).2⟩
  · rintro ⟨r, hr, hx⟩
    exact ⟨(r, x), mem_made.2 ⟨hr, hx⟩, rfl⟩

/-- `s'` is `s` after `v` got these edges, where they are no back edges. -/
structure Discovers (v : ι) (es : List (ρ × ι)) (s s' : Dag ι ρ) : Prop where
  color : s'.color = s.color
  mem_vertices : ∀ x, x ∈ s'.vertices ↔ x ∈ s.vertices ∨ x ∈ es.map Prod.snd
  out_of_ne : ∀ x, x ≠ v → s'.out x = s.out x
  out : s'.out v = s.out v ++ es.filter fun e => s.color e.2 ≠ .gray

theorem Discovers.refl (v : ι) (s : Dag ι ρ) : Discovers v [] s s where
  color := rfl
  mem_vertices := fun _ => (or_iff_left not_mem_nil).symm
  out_of_ne := fun _ _ => rfl
  out := (append_nil _).symm

variable {s : Dag ι ρ} {es : List (ρ × ι)} {v : ι}

theorem Discovers.trans {es' : List (ρ × ι)} {s1 s2 : Dag ι ρ} (h1 : Discovers v es s s1)
    (h2 : Discovers v es' s1 s2) : Discovers v (es ++ es') s s2 where
  color := h2.color.trans h1.color
  mem_vertices := by
    intro x
    rw [h2.mem_vertices, h1.mem_vertices, map_append, mem_append, or_assoc]
  out_of_ne := fun x hx => (h2.out_of_ne x hx).trans (h1.out_of_ne x hx)
  out := by rw [h2.out, h1.out, h1.color, append_assoc, filter_append]

theorem Discovers.subset {s' : Dag ι ρ} (h : Discovers v es s s') : s.vertices ⊆ s'.vertices :=
  fun x hx => (h.mem_vertices x).2 (.inl hx)

theorem Discovers.white_of_not_mem {s' : Dag ι ρ} (h : Discovers v es s s')
    (hwhite : ∀ x, x ∉ s.vertices → s.color x = .white) : ∀ x, x ∉ s'.vertices → s'.color x = .white := by
  intro x hx
  rw [h.color]
  exact hwhite x fun hmem => hx (h.subset hmem)

variable [DecidableEq ι]

theorem vertexForEt_color (hwhite : ∀ x, x ∉ s.vertices → s.color x = .white) (e : ι) :
    (vertexForEt s e).color = s.color := by
  unfold vertexForEt
  split
  · rfl
  · rename_i he
    exact (update_eq_self_iff).2 (hwhite e he).symm

theorem mem_vertexForEt {e x : ι} : x ∈ (vertexForEt s e).vertices ↔ x ∈ s.vertices ∨ x = e := by
  unfold vertexForEt
  split
  · rename_i he
    exact ⟨.inl, fun h => h.elim id fun h => h ▸ he⟩
  · rw [mem_append, mem_singleton]

theorem vertexForEt_out (s : Dag ι ρ) (e : ι) : (vertexForEt s e).out = s.out := by
  unfold vertexForEt
  split
  · rfl
  · rfl

theorem addTransition_discovers (hwhite : ∀ x, x ∉ s.vertices → s.color x = .white) (v : ι) (e : ρ × ι) :
    Discovers v [e] s (addTransition v s e) := by
  have hcolor := vertexForEt_color hwhite e.2
  have hmem : ∀ x, x ∈ (vertexForEt s e.2).vertices ↔ x ∈ s.vertices ∨ x ∈ [e].map Prod.snd := by
    intro x
    rw [mem_vertexForEt, map_singleton, mem_singleton]
  simp only [addTransition, hcolor]
  split
  · rename_i hgray
    refine ⟨hcolor, hmem, fun x _ => by rw [vertexForEt_out], ?_⟩
    rw [vertexForEt_out]
    simp [hgray]
  · rename_i hgray
    refine ⟨rfl, hmem, fun x hx => ?_, ?_⟩
    · dsimp only
      rw [update_of_ne hx, vertexForEt_out]
    · rw [vertexForEt_out]
      simp [hgray]

theorem addTransitions_discovers (hwhite : ∀ x, x ∉ s.vertices → s.color x = .white) (v : ι)
    (es : List (ρ × ι)) : Discovers v es s (es.foldl (addTransition v) s) := by
  induction es generalizing s with
  | nil => exact .refl v s
  | cons e es ih =>
    have hstep := addTransition_discovers hwhite v e
    exact hstep.trans (ih (hstep.white_of_not_mem hwhite))

variable (filter toplevel maxdepth) in
/-- A vertex gets its transitions where there is depth left. -/
theorem discover_discovers (hwhite : ∀ x, x ∉ s.vertices → s.color x = .white) (depth : Nat) (v : ι) :
    Discovers v (if depth < maxdepth then made filter toplevel v else []) s
      (discover filter toplevel maxdepth depth v s) := by
  unfold discover made applyRules
  split
  · have hrules := addTransitions_discovers hwhite v (filter.apply v (g.rules v))
    cases toplevel with
    | true => exact hrules.trans (addTransitions_discovers (hrules.white_of_not_mem hwhite) v _)
    | false => rwa [if_neg Bool.false_ne_true, append_nil]
  · exact .refl v s

end Discover

end Sbmt.Search
