import Sbmt.Grammar.Dictionary
import Sbmt.Lib.LongestWalk

/-!
# Skip lattices (`sbmt_decoder/src/lattice_reader.cpp:37-95`)

| here | there |
| --- | --- |
| `Graph`, `addEdge` | `graph_t` (`search/lattice_reader.hpp:19-32`): vertices are their places, an edge to a vertex that is not there makes it |
| `WildcardArray` | `wildcard_array` with its `wildcard_generator` (`token/wildcard.hpp:12-35`) over a `lazy_sequence` |
| `DistanceMap` | `distance`, of all pairs of vertices |
| `relaxEdge`, `relaxColumn`, `sweep` | the loops over the edges out of `tx`, over `x` and over `y` (`:63-84`) |
| `addSkips` | the loop over `distance` (`:87-94`) |
| `ReverseTopological` | what `topological_sort` leaves in `topo` |

The order in which a `hash_map` is run through is any order.
-/

namespace Sbmt.Search

open Sbmt.Lib Sbmt.Grammar List Function

variable {I : Type}

structure GraphEdge where
  source : Nat
  target : Nat
  token : Token
deriving DecidableEq

structure Graph (I : Type) where
  vertices : List Nat
  edges : List GraphEdge
  info : I
  within : ∀ e ∈ edges, e.source < vertices.length ∧ e.target < vertices.length

namespace Graph

variable (g : Graph I)

def numVertices : Nat := g.vertices.length

def outEdges (v : Nat) : List GraphEdge := g.edges.filter fun e => e.source = v

def successors (v : Nat) : List Nat := (g.outEdges v).map GraphEdge.target

def addEdge (e : GraphEdge) : Graph I where
  vertices := g.vertices ++ replicate (max e.source e.target + 1 - g.vertices.length) 0
  edges := g.edges ++ [e]
  info := g.info
  within := by
    intro e' he'
    rw [length_append, length_replicate]
    rcases mem_append.1 he' with he' | he'
    · have := g.within e' he'
      omega
    · rw [mem_singleton.1 he']
      omega

end Graph

structure WildcardArray where
  x : Nat
  c : List Token
  dict : Dictionary

/-- The token that stands for `n` tokens. -/
def wildcard (n : Nat) : FatToken := .word .virtualTag (toString n)

namespace WildcardArray

def make (dict : Dictionary) : WildcardArray := ⟨0, [], dict⟩

variable (w : WildcardArray)

def generate : WildcardArray :=
  let o := w.dict.createToken (wildcard w.x)
  ⟨w.x + 1, w.c ++ [o.1], o.2⟩

def instantiate (n : Nat) : WildcardArray := generate^[n + 1 - w.c.length] w

/-- `operator[]`; there is always one more wildcard. -/
def index (n : Nat) : Token × WildcardArray := ((w.instantiate n).c.getD n .top, w.instantiate n)

end WildcardArray

abbrev DistanceMap := Nat × Nat → Nat

def relaxEdge (ty tx : Nat) (o : Nat × DistanceMap) (tz : Nat) : Nat × DistanceMap :=
  let distance := update o.2 (tx, tz) (max 1 (o.2 (tx, tz)))
  let dzy := distance (tz, ty)
  (if 0 < dzy ∨ tz = ty then max o.1 (1 + dzy) else o.1, distance)

def relaxColumn (tc : Graph I) (ty : Nat) (distance : DistanceMap) (tx : Nat) : DistanceMap :=
  let o := (tc.successors tx).foldl (relaxEdge ty tx) (distance (tx, ty), distance)
  update o.2 (tx, ty) o.1

def sweep (tc : Graph I) : List Nat → DistanceMap → DistanceMap
  | [], distance => distance
  | ty :: topo, distance => sweep tc topo (topo.foldl (relaxColumn tc ty) distance)

def addSkip (distance : DistanceMap) (o : Graph I × WildcardArray) (p : Nat × Nat) : Graph I × WildcardArray :=
  let d := distance p
  if 0 < d then
    let wc := o.2.index d
    (o.1.addEdge ⟨p.1, p.2, wc.1⟩, wc.2)
  else o

def skipLattice (topologicalSort : Graph I → List Nat) (order : List (Nat × Nat) → List (Nat × Nat)) (g : Graph I)
    (dict : Dictionary) : Graph I × Dictionary :=
  let topo := topologicalSort g
  let distance := sweep g topo fun _ => 0
  let o := (order (topo.flatMap fun y => topo.map fun x => (x, y))).foldl (addSkip distance) (g, .make dict)
  (o.1, o.2.dict)

/-- All vertices, what follows a vertex before it. -/
structure ReverseTopological (g : Graph I) (topo : List Nat) : Prop where
  mem_iff : ∀ v, v ∈ topo ↔ v < g.numVertices
  sorted : TopoSort.Sorted g.successors topo.reverse

/-! ## The sweep -/

section

variable {g : Graph I} {D : DistanceMap} {done todo topo seen : List Nat} {ty tx u v : Nat}

/-- What the loops leave before their turn: 1 for an edge they have met. -/
def Early (g : Graph I) (D : DistanceMap) (u v : Nat) : Prop := D (u, v) = 0 ∨ D (u, v) = 1 ∧ v ∈ g.successors u

theorem Early.longest (h : Early g D u v) (hnone : ∀ n, ¬ EdgeWalk g.successors u (n + 1) v) :
    Longest g.successors u v (D (u, v)) := by
  rcases h with hzero | ⟨-, hv⟩
  · rw [hzero]
    exact .of_none hnone
  · exact absurd (.cons hv (.nil v)) (hnone 0)

/-- While `x` runs through `todo`: the columns before `ty` are done, and `ty` but for `todo`. -/
structure Column (g : Graph I) (done : List Nat) (ty : Nat) (todo : List Nat) (D : DistanceMap) : Prop where
  before : ∀ v ∈ done, ∀ u, Longest g.successors u v (D (u, v))
  column : ∀ u, u ∉ todo → Longest g.successors u ty (D (u, ty))
  early : ∀ u v, v ∉ done → (v = ty → u ∈ todo) → Early g D u v

variable (ty tx) in
theorem relaxEdges_map : ∀ (zs : List Nat) (o : Nat × DistanceMap) (p : Nat × Nat),
    (zs.foldl (relaxEdge ty tx) o).2 p = if p.1 = tx ∧ p.2 ∈ zs then max 1 (o.2 p) else o.2 p
  | [], o, p => by simp
  | z :: zs, o, p => by
    rw [foldl_cons, relaxEdges_map zs]
    dsimp only [relaxEdge]
    by_cases hp : p = (tx, z)
    · subst hp
      simp
    · rw [update_of_ne hp]
      have hmem : (p.1 = tx ∧ p.2 ∈ z :: zs) ↔ p.1 = tx ∧ p.2 ∈ zs := by
        rw [mem_cons]
        constructor
        · rintro ⟨htx, hz | hzs⟩
          · exact absurd (Prod.ext htx hz) hp
          · exact ⟨htx, hzs⟩
        · exact fun h => ⟨h.1, .inr h.2⟩
      simp only [hmem]

variable (ty) in
/-- The largest of what it was and of 1 more than what the edges lead to. -/
theorem relaxEdges_dist : ∀ (zs : List Nat) (o : Nat × DistanceMap), (∀ z ∈ zs, z ≠ tx) →
    let d := (zs.foldl (relaxEdge ty tx) o).1
    o.1 ≤ d ∧ (∀ z ∈ zs, 0 < o.2 (z, ty) ∨ z = ty → 1 + o.2 (z, ty) ≤ d) ∧
      (d = o.1 ∨ ∃ z ∈ zs, (0 < o.2 (z, ty) ∨ z = ty) ∧ d = 1 + o.2 (z, ty))
  | [], o, _ => ⟨le_rfl, fun z hz => absurd hz not_mem_nil, .inl rfl⟩
  | z :: zs, o, hne => by
    have hne' : ∀ z' ∈ zs, z' ≠ tx := fun z' hz' => hne z' (mem_cons_of_mem z hz')
    have hkeep : ∀ z' ∈ z :: zs, (relaxEdge ty tx o z).2 (z', ty) = o.2 (z', ty) := fun z' hz' =>
      update_of_ne (fun h => hne z' hz' (congrArg Prod.fst h)) _ _
    have hfirst : (relaxEdge ty tx o z).1 =
        if 0 < o.2 (z, ty) ∨ z = ty then max o.1 (1 + o.2 (z, ty)) else o.1 := by
      have hz := hkeep z mem_cons_self
      dsimp only [relaxEdge] at hz ⊢
      rw [hz]
    obtain ⟨hle, hall, hsome⟩ := relaxEdges_dist zs (relaxEdge ty tx o z) hne'
    rw [foldl_cons]
    generalize (zs.foldl (relaxEdge ty tx) (relaxEdge ty tx o z)).1 = d at hle hall hsome
    refine ⟨?_, ?_, ?_⟩
    · refine le_trans ?_ hle
      rw [hfirst]
      split
      · exact le_max_left _ _
      · exact le_rfl
    · intro z' hz' hgo
      rcases mem_cons.1 hz' with rfl | hzs
      · rw [hfirst, if_pos hgo] at hle
        exact (le_max_right _ _).trans hle
      · have := hall z' hzs
        rw [hkeep z' hz'] at this
        exact this hgo
    · rcases hsome with heq | ⟨z', hz', hgo, heq⟩
      · rw [hfirst] at heq
        split at heq
        · rename_i hgo
          rcases le_total (1 + o.2 (z, ty)) o.1 with hmax | hmax
          · rw [max_eq_left hmax] at heq
            exact .inl heq
          · rw [max_eq_right hmax] at heq
            exact .inr ⟨z, mem_cons_self, hgo, heq⟩
        · exact .inl heq
      · rw [hkeep z' (mem_cons_of_mem z hz')] at hgo heq
        exact .inr ⟨z', mem_cons_of_mem z hz', hgo, heq⟩

/-- The column of `ty` at `tx`, when what follows `tx` is done. -/
theorem Column.relax (h : Column g done ty (tx :: todo) D) (hty : ty ∉ done) (htx : tx ∉ todo)
    (hnext : ∀ z ∈ g.successors tx, z ∉ tx :: todo) : Column g done ty todo (relaxColumn g ty D tx) := by
  have hne : ∀ z ∈ g.successors tx, z ≠ tx := fun z hz heq => hnext z hz (heq ▸ mem_cons_self)
  obtain ⟨-, hle, hmem⟩ := relaxEdges_dist ty (g.successors tx) (D (tx, ty), D) hne
  have hmap := relaxEdges_map ty tx (g.successors tx) (D (tx, ty), D)
  unfold relaxColumn
  dsimp only at hle hmem hmap ⊢
  generalize (g.successors tx).foldl (relaxEdge ty tx) (D (tx, ty), D) = o at hle hmem hmap
  have hother : ∀ u v, (u, v) ≠ (tx, ty) → update o.2 (tx, ty) o.1 (u, v) =
      if u = tx ∧ v ∈ g.successors tx then max 1 (D (u, v)) else D (u, v) := by
    intro u v hp
    rw [update_of_ne hp, hmap]
  refine ⟨?_, ?_, ?_⟩
  · intro v hv u
    have hp : (u, v) ≠ (tx, ty) := by
      rintro ⟨⟩
      exact hty hv
    rw [hother u v hp]
    have hlongest := h.before v hv u
    split
    · rename_i hedge
      rw [max_eq_right (hlongest.pos_of_edge (hedge.1 ▸ hedge.2))]
      exact hlongest
    · exact hlongest
  · intro u hu
    by_cases hutx : u = tx
    · subst hutx
      rw [update_self]
      refine Longest.step (fun z hz => h.column z (hnext z hz)) hle ?_
      rcases hmem with heq | hsome
      · rcases h.early u ty hty fun _ => mem_cons_self with hzero | ⟨hone, hedge⟩
        · exact .inl (heq.trans hzero)
        · -- the edge alone
          have hlow := hle ty hedge (.inr rfl)
          exact .inr ⟨ty, hedge, .inr rfl, by omega⟩
      · exact .inr hsome
    · rw [hother u ty fun hp => hutx (congrArg Prod.fst hp), if_neg fun hp => hutx hp.1]
      refine h.column u ?_
      rw [mem_cons, not_or]
      exact ⟨hutx, hu⟩
  · intro u v hv htodo
    rw [Early, hother u v]
    · split
      · rename_i hedge
        rcases h.early u v hv fun hvt => mem_cons_of_mem tx (htodo hvt) with hzero | ⟨hone, -⟩
        · rw [hzero]
          exact .inr ⟨rfl, hedge.1 ▸ hedge.2⟩
        · rw [hone]
          exact .inr ⟨rfl, hedge.1 ▸ hedge.2⟩
      · exact h.early u v hv fun hvt => mem_cons_of_mem tx (htodo hvt)
    · rintro ⟨⟩
      exact htx (htodo rfl)

theorem Column.run : ∀ {todo seen : List Nat} {D : DistanceMap}, Column g done ty todo D → ty ∉ done →
    TopoSort.Sorted g.successors (seen ++ todo).reverse → Column g done ty [] (todo.foldl (relaxColumn g ty) D)
  | [], _, _, h, _, _ => h
  | tx :: todo, seen, D, h, hty, hsorted => by
    have hnodup : (seen ++ tx :: todo).Nodup := nodup_reverse.1 hsorted.nodup
    have hlast := hsorted
    rw [reverse_append, reverse_cons, append_assoc] at hlast
    have hnext : ∀ z ∈ g.successors tx, z ∉ tx :: todo := by
      intro z hz htodo
      cases hlast.of_append with
      | cons after _ _ =>
        exact disjoint_of_nodup_append hnodup (mem_reverse.1 (after z hz)) htodo
    have htx : tx ∉ todo := (nodup_cons.1 (nodup_append.1 hnodup).2.1).1
    rw [append_cons] at hsorted
    rw [foldl_cons]
    exact Column.run (h.relax hty htx hnext) hty hsorted

/-- Between two turns of the loop over `y`. -/
structure Swept (g : Graph I) (done : List Nat) (D : DistanceMap) : Prop where
  before : ∀ v ∈ done, ∀ u, Longest g.successors u v (D (u, v))
  early : ∀ v, v ∉ done → ∀ u, Early g D u v

theorem Swept.turn (h : Swept g done D) (hsorted : TopoSort.Sorted g.successors (done ++ ty :: todo).reverse)
    (hall : ∀ u, g.successors u ≠ [] → u ∈ done ++ ty :: todo) :
    Swept g (done ++ [ty]) (todo.foldl (relaxColumn g ty) D) := by
  have hlast := hsorted
  rw [reverse_append, reverse_cons, append_assoc] at hlast
  cases hlast.of_append with
  | cons after fresh rest =>
    have hty : ty ∉ done := fun hmem => fresh (mem_reverse.2 hmem)
    have hclosed : ∀ s, s ∈ done → ∀ t ∈ g.successors s, t ∈ done := fun s hs t ht =>
      mem_reverse.1 (rest.closed s (mem_reverse.2 hs) t ht)
    -- what is not still to come leads to what is done only
    have hout : ∀ u, u ∉ todo → ∀ z ∈ g.successors u, z ∈ done := by
      intro u hu z hz
      rcases mem_append.1 (hall u (ne_nil_of_mem hz)) with hdone | hmem
      · exact hclosed u hdone z hz
      · rcases mem_cons.1 hmem with rfl | htodo
        · exact mem_reverse.1 (after z hz)
        · exact absurd htodo hu
    have hstart : Column g done ty todo D := by
      refine ⟨h.before, fun u hu => (h.early ty hty u).longest fun n hn => ?_, fun u v hv _ => h.early v hv u⟩
      obtain ⟨z, hz, hwalk⟩ := hn.of_succ
      exact hty (hwalk.mem_closed hclosed (hout u hu z hz))
    rw [append_cons] at hsorted
    have hrun := hstart.run hty hsorted
    refine ⟨fun v hv u => ?_, fun v hv u => ?_⟩
    · rcases mem_append.1 hv with hv | hv
      · exact hrun.before v hv u
      · rw [mem_singleton.1 hv]
        exact hrun.column u not_mem_nil
    · rw [mem_append, not_or, mem_singleton] at hv
      exact hrun.early u v hv.1 fun hvt => absurd hvt hv.2

theorem Swept.sweep : ∀ {topo done : List Nat} {D : DistanceMap}, Swept g done D →
    TopoSort.Sorted g.successors (done ++ topo).reverse → (∀ u, g.successors u ≠ [] → u ∈ done ++ topo) →
    Swept g (done ++ topo) (Search.sweep g topo D)
  | [], done, D, h, _, _ => by
    rw [append_nil]
    exact h
  | ty :: topo, done, D, h, hsorted, hall => by
    have hturn := h.turn hsorted hall
    rw [append_cons] at hsorted hall ⊢
    exact hturn.sweep hsorted hall

theorem successors_lt (h : v ∈ g.successors u) : u < g.numVertices ∧ v < g.numVertices := by
  obtain ⟨e, he, rfl⟩ := mem_map.1 h
  obtain ⟨he, hu⟩ := mem_filter.1 he
  have hlt := g.within e he
  rw [of_decide_eq_true hu] at hlt
  exact hlt

/-- **After the sweep `distance` has the longest walks.** -/
theorem sweep_longest (h : ReverseTopological g topo) (hv : v < g.numVertices) (u : Nat) :
    Longest g.successors u v (sweep g topo (fun _ => 0) (u, v)) := by
  have hstart : Swept g [] fun _ => 0 := ⟨fun v hv => absurd hv not_mem_nil, fun v _ u => .inl rfl⟩
  have hall : ∀ u, g.successors u ≠ [] → u ∈ [] ++ topo := by
    intro u hu
    obtain ⟨z, hz⟩ := exists_mem_of_ne_nil _ hu
    exact (h.mem_iff u).2 (successors_lt hz).1
  exact (hstart.sweep h.sorted hall).before v ((h.mem_iff v).2 hv) u

end

/-! ## Wildcards -/

namespace WildcardArray

variable {w : WildcardArray} {n : Nat}

/-- What has been generated stands for its place. -/
structure Good (w : WildcardArray) : Prop where
  x_eq : w.x = w.c.length
  names : ∀ (i : Nat) tok, w.c[i]? = some tok → w.dict.Names (wildcard i) tok

theorem make_good (dict : Dictionary) : (make dict).Good := ⟨rfl, fun i tok h => by simp [make] at h⟩

theorem older_generate (w : WildcardArray) : w.dict.Older w.generate.dict := Dictionary.older_createToken w.dict _

theorem Good.generate (h : w.Good) : w.generate.Good := by
  refine ⟨?_, fun i tok hi => ?_⟩
  · show w.x + 1 = (w.c ++ [_]).length
    rw [length_append, length_singleton, h.x_eq]
  · change (w.c ++ [_])[i]? = some tok at hi
    rcases Nat.lt_or_ge i w.c.length with hlt | hge
    · rw [getElem?_append_left hlt] at hi
      exact (h.names i tok hi).mono w.older_generate
    · rw [getElem?_append_right hge] at hi
      obtain ⟨hzero, htok⟩ := List.getElem?_eq_some_iff.1 hi
      rw [length_singleton] at hzero
      obtain rfl : i = w.x := by
        rw [h.x_eq]
        omega
      rw [← htok, getElem_singleton]
      exact Dictionary.names_createToken w.dict (wildcard w.x)

theorem generates_spec (h : w.Good) : ∀ k, (generate^[k] w).Good ∧ w.dict.Older (generate^[k] w).dict ∧
    (generate^[k] w).c.length = w.c.length + k
  | 0 => ⟨h, .refl _, rfl⟩
  | k + 1 => by
    obtain ⟨hgood, holder, hlen⟩ := generates_spec h k
    rw [iterate_succ_apply']
    refine ⟨hgood.generate, holder.trans (older_generate _), ?_⟩
    show (List.length (_ ++ [_])) = _
    rw [length_append, hlen, length_singleton, Nat.add_assoc]

/-- Position `n` has the wildcard of `n`. -/
theorem index_spec (h : w.Good) (n : Nat) : (w.index n).2.Good ∧ w.dict.Older (w.index n).2.dict ∧
    (w.index n).2.dict.Names (wildcard n) (w.index n).1 := by
  obtain ⟨hgood, holder, hlen⟩ := generates_spec h (n + 1 - w.c.length)
  have hlt : n < (w.instantiate n).c.length := by
    rw [instantiate]
    omega
  refine ⟨hgood, holder, hgood.names n _ ?_⟩
  show (w.instantiate n).c[n]? = some ((w.instantiate n).c.getD n .top)
  rw [getD_eq_getElem?_getD, getElem?_eq_getElem hlt]
  rfl

end WildcardArray

/-! ## The edges that are added -/

section

variable {g : Graph I} {D : DistanceMap} {dict dict' : Dictionary} {p : Nat × Nat} {e : GraphEdge} {u v : Nat}

/-- The edge that is added for a pair. -/
structure Skip (D : DistanceMap) (dict : Dictionary) (p : Nat × Nat) (e : GraphEdge) : Prop where
  ends : (e.source, e.target) = p
  names : dict.Names (wildcard (D p)) e.token

theorem addEdge_vertices (hu : e.source < g.numVertices) (hv : e.target < g.numVertices) :
    (g.addEdge e).vertices = g.vertices := by
  unfold Graph.numVertices at hu hv
  show g.vertices ++ replicate (max e.source e.target + 1 - g.vertices.length) 0 = g.vertices
  rw [show max e.source e.target + 1 - g.vertices.length = 0 by omega, replicate_zero, append_nil]

theorem addSkips_spec : ∀ (ps : List (Nat × Nat)) (o : Graph I × WildcardArray), o.2.Good →
    (∀ p ∈ ps, p.1 < o.1.numVertices ∧ p.2 < o.1.numVertices) →
    let o' := ps.foldl (addSkip D) o
    o'.1.vertices = o.1.vertices ∧ o'.1.info = o.1.info ∧ o.2.dict.Older o'.2.dict ∧
      ∃ added, o'.1.edges = o.1.edges ++ added ∧
        Forall₂ (Skip D o'.2.dict) (ps.filter fun p => 0 < D p) added
  | [], o, _, _ => ⟨rfl, rfl, .refl _, [], (append_nil _).symm, .nil⟩
  | p :: ps, o, hgood, hps => by
    rw [foldl_cons]
    have hps' : ∀ q ∈ ps, q.1 < o.1.numVertices ∧ q.2 < o.1.numVertices := fun q hq =>
      hps q (mem_cons_of_mem p hq)
    by_cases hp : 0 < D p
    · have hadd : addSkip D o p = (o.1.addEdge ⟨p.1, p.2, (o.2.index (D p)).1⟩, (o.2.index (D p)).2) := if_pos hp
      obtain ⟨hgood', holder, hnames⟩ := WildcardArray.index_spec hgood (D p)
      rw [hadd]
      generalize o.2.index (D p) = wc at hgood' holder hnames
      obtain ⟨hpu, hpv⟩ := hps p mem_cons_self
      have hvertices := addEdge_vertices (e := ⟨p.1, p.2, wc.1⟩) hpu hpv
      obtain ⟨hv, hi, hold, added, hedges, hskips⟩ :=
        addSkips_spec ps (o.1.addEdge ⟨p.1, p.2, wc.1⟩, wc.2) hgood' fun q hq => by
          show q.1 < (o.1.addEdge _).vertices.length ∧ q.2 < (o.1.addEdge _).vertices.length
          rw [hvertices]
          exact hps' q hq
      refine ⟨hv.trans hvertices, hi, holder.trans hold, ⟨p.1, p.2, wc.1⟩ :: added, ?_, ?_⟩
      · rw [hedges]
        exact append_assoc _ [_] added
      · rw [filter_cons_of_pos (p := fun p => decide (0 < D p)) (decide_eq_true hp)]
        exact .cons ⟨rfl, hnames.mono hold⟩ hskips
    · have hadd : addSkip D o p = o := if_neg hp
      rw [hadd, filter_cons_of_neg (p := fun p => decide (0 < D p)) fun h => hp (of_decide_eq_true h)]
      exact addSkips_spec ps o hgood hps'

theorem skips_absent {ps : List (Nat × Nat)} {added : List GraphEdge} (h : Forall₂ (Skip D dict) ps added)
    (hp : (u, v) ∉ ps) : added.filter (fun e => e.source = u ∧ e.target = v) = [] := by
  induction h with
  | nil => rfl
  | @cons q e ps added hskip _ ih =>
    rw [mem_cons, not_or] at hp
    rw [filter_cons_of_neg, ih hp.2]
    intro hkey
    obtain ⟨rfl, rfl⟩ := of_decide_eq_true hkey
    exact hp.1 hskip.ends

theorem skips_present {ps : List (Nat × Nat)} {added : List GraphEdge} (h : Forall₂ (Skip D dict) ps added)
    (hnodup : ps.Nodup) (hp : (u, v) ∈ ps) : ∃ token, dict.Names (wildcard (D (u, v))) token ∧
      added.filter (fun e => e.source = u ∧ e.target = v) = [⟨u, v, token⟩] := by
  induction h with
  | nil => cases hp
  | @cons q e ps added hskip hrest ih =>
    obtain ⟨hq, hnodup'⟩ := nodup_cons.1 hnodup
    obtain ⟨source, target, token⟩ := e
    obtain rfl : (source, target) = q := hskip.ends
    by_cases heq : (u, v) = (source, target)
    · obtain ⟨rfl, rfl⟩ := Prod.mk.inj heq
      refine ⟨token, hskip.names, ?_⟩
      rw [filter_cons_of_pos (by simp), skips_absent hrest hq]
    · rw [filter_cons_of_neg]
      · exact ih hnodup' ((mem_cons.1 hp).resolve_left heq)
      · intro hkey
        obtain ⟨hu, hv⟩ := of_decide_eq_true hkey
        exact heq (Prod.ext hu.symm hv.symm)

/-- For each pair of vertices one edge, with the wildcard of the longest walk, if there is a walk of an edge or more. -/
def SkipsAll (g : Graph I) (dict : Dictionary) (added : List GraphEdge) : Prop :=
  ∀ u v, ((∃ n, EdgeWalk g.successors u (n + 1) v) → ∃ d token, IsGreatest {n | EdgeWalk g.successors u n v} d ∧
      dict.Names (wildcard d) token ∧ added.filter (fun e => e.source = u ∧ e.target = v) = [⟨u, v, token⟩]) ∧
    ((∀ n, ¬ EdgeWalk g.successors u (n + 1) v) → added.filter (fun e => e.source = u ∧ e.target = v) = [])

theorem walk_lt {n : Nat} (h : EdgeWalk g.successors u (n + 1) v) : u < g.numVertices ∧ v < g.numVertices := by
  obtain ⟨z, hz, hwalk⟩ := h.of_succ
  exact ⟨(successors_lt hz).1, hwalk.mem_closed (S := fun w => w < g.numVertices)
    (fun s _ t ht => (successors_lt ht).2) (successors_lt hz).2⟩

/-- **The skip lattice of a graph without cycles: its vertices and edges, and the skips.** -/
theorem skipLattice_spec (hacyclic : TopoSort.Acyclic g.successors) (dict : Dictionary)
    {topologicalSort : Graph I → List Nat}
    (hsort : ∀ g : Graph I, TopoSort.Acyclic g.successors → ReverseTopological g (topologicalSort g))
    {order : List (Nat × Nat) → List (Nat × Nat)} (horder : ∀ l, (order l).Perm l) :
    (skipLattice topologicalSort order g dict).1.vertices = g.vertices ∧
      (skipLattice topologicalSort order g dict).1.info = g.info ∧
      ∃ added, (skipLattice topologicalSort order g dict).1.edges = g.edges ++ added ∧
        SkipsAll g (skipLattice topologicalSort order g dict).2 added := by
  have htopo := hsort g hacyclic
  unfold skipLattice
  dsimp only
  generalize topologicalSort g = topo at htopo
  have hlongest : ∀ u v, v < g.numVertices → _ := fun u v hv => sweep_longest htopo hv u
  generalize sweep g topo (fun _ => 0) = D at hlongest
  have hnodup : topo.Nodup := nodup_reverse.1 htopo.sorted.nodup
  have hpairs : ∀ p, p ∈ order (topo.flatMap fun y => topo.map fun x => (x, y)) ↔
      p.1 < g.numVertices ∧ p.2 < g.numVertices := by
    intro p
    rw [(horder _).mem_iff, mem_flatMap, ← htopo.mem_iff, ← htopo.mem_iff]
    constructor
    · rintro ⟨y, hy, hp⟩
      obtain ⟨x, hx, rfl⟩ := mem_map.1 hp
      exact ⟨hx, hy⟩
    · rintro ⟨hx, hy⟩
      exact ⟨p.2, hy, mem_map.2 ⟨p.1, hx, rfl⟩⟩
  have hpairsNodup : (order (topo.flatMap fun y => topo.map fun x => (x, y))).Nodup := by
    refine (horder _).nodup_iff.2 (nodup_flatMap.2 ⟨fun y _ => ?_, ?_⟩)
    · exact hnodup.map fun x x' h => congrArg Prod.fst h
    · refine hnodup.imp ?_
      intro y y' hne p hp hp'
      obtain ⟨x, -, rfl⟩ := mem_map.1 hp
      obtain ⟨x', -, hx'⟩ := mem_map.1 hp'
      exact hne (congrArg Prod.snd hx').symm
  generalize order (topo.flatMap fun y => topo.map fun x => (x, y)) = ps at hpairs hpairsNodup
  obtain ⟨hvertices, hinfo, -, added, hedges, hskips⟩ :=
    addSkips_spec (D := D) ps (g, .make dict) (WildcardArray.make_good dict) fun p hp => (hpairs p).1 hp
  refine ⟨hvertices, hinfo, added, hedges, fun u v => ⟨?_, ?_⟩⟩
  · rintro ⟨n, hn⟩
    have hlt := walk_lt hn
    have hright := hlongest u v hlt.2
    have hpos : 0 < D (u, v) := by
      rw [Nat.pos_iff_ne_zero]
      exact fun hzero => hright.eq_zero_iff.1 hzero n hn
    have hmem : (u, v) ∈ ps.filter fun p => 0 < D p :=
      mem_filter.2 ⟨(hpairs (u, v)).2 hlt, decide_eq_true hpos⟩
    obtain ⟨token, hnames, hone⟩ := skips_present hskips (hpairsNodup.filter _) hmem
    exact ⟨D (u, v), token, hright.isGreatest hpos, hnames, hone⟩
  · intro hnone
    refine skips_absent hskips fun hmem => ?_
    obtain ⟨hmem, hpos⟩ := mem_filter.1 hmem
    have hzero := (hlongest u v ((hpairs (u, v)).1 hmem).2).eq_zero_iff.2 hnone
    exact absurd hzero (Nat.ne_of_gt (of_decide_eq_true hpos))

/-- A depth first sort as `topological_sort` does it. -/
def depthFirstSort (g : Graph I) : List Nat :=
  ((TopoSort.order g.successors (g.numVertices + 1) (range g.numVertices) .empty).map fun σ => σ.out.reverse).getD []

theorem depthFirstSort_reverseTopological (hacyclic : TopoSort.Acyclic g.successors) :
    ReverseTopological g (depthFirstSort g) := by
  have hclosed : ∀ s ∈ range g.numVertices, ∀ t ∈ g.successors s, t ∈ range g.numVertices :=
    fun s _ t ht => mem_range.2 (successors_lt ht).2
  have hfuel : (range g.numVertices).length < g.numVertices + 1 := by
    rw [length_range]
    exact Nat.lt_succ_self _
  obtain ⟨σ, hσ, hsorted, hall, hwithin, -⟩ :=
    TopoSort.order_sorted hacyclic hclosed hfuel (range g.numVertices) fun s hs => hs
  have hsort : depthFirstSort g = σ.out.reverse := by
    rw [depthFirstSort, hσ]
    rfl
  rw [hsort]
  refine ⟨fun v => ?_, by rwa [reverse_reverse]⟩
  rw [mem_reverse, ← mem_range]
  exact ⟨hwithin v, hall v⟩

/-- Two edges to the end, one of them over a vertex between. -/
def shortcut : Graph Unit where
  vertices := [0, 1, 2]
  edges := [⟨0, 2, .indexed .foreign 6⟩, ⟨0, 1, .indexed .foreign 7⟩, ⟨1, 2, .indexed .foreign 8⟩]
  info := ()
  within := by decide

theorem shortcut_acyclic : TopoSort.Acyclic shortcut.successors := by
  have hsorted : TopoSort.Sorted shortcut.successors [0, 1, 2] := by
    refine .cons (by decide) (by decide) (.cons (by decide) (by decide) (.cons (by decide) (by decide) .nil))
  refine hsorted.acyclic fun s hs => ?_
  obtain ⟨t, ht⟩ := exists_mem_of_ne_nil _ hs
  have hlt : s < 3 := (successors_lt ht).1
  rw [mem_cons, mem_cons, mem_singleton]
  omega

theorem skipLattice_spec_shortcut :
    (skipLattice depthFirstSort List.reverse shortcut .reset).1.vertices = [0, 1, 2] ∧
      (skipLattice depthFirstSort List.reverse shortcut .reset).1.info = () ∧
      ∃ added, (skipLattice depthFirstSort List.reverse shortcut .reset).1.edges = shortcut.edges ++ added ∧
        SkipsAll shortcut (skipLattice depthFirstSort List.reverse shortcut .reset).2 added :=
  skipLattice_spec shortcut_acyclic .reset (fun _ h => depthFirstSort_reverseTopological h) reverse_perm

end

end Sbmt.Search
