import Sbmt.Search.UnaryApplications

/-!
# What the unary rules give (`sbmt_decoder/include/sbmt/search/unary_applications.hpp:221-457`)

The search does what `comeUp` does with the rules alone: there is no graph that grows, no colour and no count of the
open vertices, only the items in the order in which they come up, each with the rule applications that are left.
`Dag.Inv` relates the two all through the search; the finished vertices can be sorted, so the graph has no cycle.
-/

namespace Sbmt.Search

open Sbmt.Lib List Function

variable {ι ρ : Type*} {g : UnaryRules ι ρ} {filter : KeepingFilter g} {toplevel : Bool} {start : List ι}

/-! ## The items as they come up -/

/-- The items that have come up, and those of them that came up in time for the rules to be applied to them. -/
structure Coming (ι : Type*) where
  came : List ι
  inTime : List ι

section ComeUp

variable [DecidableEq ι] {next : ι → List ι} {m : Coming ι} {v x : ι}

/-- An item comes up with so many rule applications left.  It counts the first time: if there are any left, what the
rules make of it comes up after it. -/
def comeUp (next : ι → List ι) : Nat → Coming ι → ι → Coming ι
  | 0, m, v => if v ∈ m.came then m else ⟨v :: m.came, m.inTime⟩
  | n + 1, m, v => if v ∈ m.came then m else (next v).foldl (comeUp next n) ⟨v :: m.came, v :: m.inTime⟩

theorem comeUp_of_mem (n : Nat) (hv : v ∈ m.came) : comeUp next n m v = m := by
  cases n with
  | zero => exact if_pos hv
  | succ n => exact if_pos hv

/-- What has come up stays so. -/
theorem mem_came_comeUp {n : Nat} (hx : x ∈ m.came ∨ x = v) : x ∈ (comeUp next n m v).came := by
  induction n generalizing m v with
  | zero =>
    rw [comeUp]
    split
    · rename_i hv
      exact hx.elim id fun hxv => hxv ▸ hv
    · exact mem_cons.2 hx.symm
  | succ n ih =>
    have hall : ∀ (l : List ι) (m : Coming ι), x ∈ m.came → x ∈ (l.foldl (comeUp next n) m).came := by
      intro l
      induction l with
      | nil => exact fun m hx => hx
      | cons w l ihl => exact fun m hx => ihl _ (ih (.inl hx))
    rw [comeUp]
    split
    · rename_i hv
      exact hx.elim id fun hxv => hxv ▸ hv
    · exact hall _ _ (mem_cons.2 hx.symm)

theorem mem_came_foldl {n : Nat} {l : List ι} (hx : x ∈ m.came ∨ x ∈ l) : x ∈ (l.foldl (comeUp next n) m).came := by
  induction l generalizing m with
  | nil => exact hx.resolve_right not_mem_nil
  | cons v l ih =>
    rw [mem_cons, ← or_assoc] at hx
    exact ih (hx.imp_left mem_came_comeUp)

/-- What has come up before may be left out. -/
theorem comeUp_filter {n : Nat} {p : ι → Bool} {l : List ι} (hp : ∀ x, p x = false → x ∈ m.came) :
    (l.filter p).foldl (comeUp next n) m = l.foldl (comeUp next n) m := by
  induction l generalizing m with
  | nil => rfl
  | cons v l ih =>
    cases hv : p v with
    | true =>
      rw [filter_cons_of_pos hv]
      exact ih fun x hx => mem_came_comeUp (.inl (hp x hx))
    | false =>
      rw [filter_cons_of_neg (by rw [hv]; decide), foldl_cons, comeUp_of_mem n (hp v hv)]
      exact ih hp

end ComeUp

/-- From `s` to `s'` some vertices are discovered, and those finished. -/
structure Visited (s s' : Dag ι ρ) : Prop where
  gray : ∀ x, s'.color x = .gray ↔ s.color x = .gray
  black : ∀ x, s.color x = .black → s'.color x = .black
  subset : s.vertices ⊆ s'.vertices
  fresh : ∀ x ∈ s'.vertices, x ∈ s.vertices ∨ s'.color x = .black
  out : ∀ x, s.color x ≠ .white → s'.out x = s.out x

theorem Visited.refl (s : Dag ι ρ) : Visited s s :=
  ⟨fun _ => .rfl, fun _ h => h, Subset.refl _, fun _ h => .inl h, fun _ _ => rfl⟩

theorem Visited.trans {s s1 s2 : Dag ι ρ} (h1 : Visited s s1) (h2 : Visited s1 s2) : Visited s s2 where
  gray := fun x => (h2.gray x).trans (h1.gray x)
  black := fun x h => h2.black x (h1.black x h)
  subset := fun _ hx => h2.subset (h1.subset hx)
  fresh := by
    intro x hx
    rcases h2.fresh x hx with hx | hx
    · exact (h1.fresh x hx).imp_right (h2.black x)
    · exact .inr hx
  out := by
    intro x hx
    refine (h2.out x ?_).trans (h1.out x hx)
    intro hwhite
    cases hcolor : s.color x with
    | white => exact hx hcolor
    | gray => rw [(h1.gray x).2 hcolor] at hwhite; cases hwhite
    | black => rw [h1.black x hcolor] at hwhite; cases hwhite

/-! ## The graph and what has come up -/

/-- The graph of the search when this has come up. -/
structure Dag.Inv (filter : KeepingFilter g) (toplevel : Bool) (start : List ι) (m : Coming ι) (s : Dag ι ρ) : Prop where
  white_of_not_mem : ∀ x, x ∉ s.vertices → s.color x = .white
  out_white : ∀ x, s.color x = .white → s.out x = []
  out_mem : ∀ x, ∀ e ∈ s.out x, e ∈ made filter toplevel x ∧ x ∈ m.inTime
  finished : ∃ l, TopoSort.Sorted s.next l ∧ ∀ x, x ∈ l ↔ s.color x = .black
  came : ∀ x, x ∈ m.came ↔ s.color x ≠ .white
  mem_vertices : ∀ x, x ∈ s.vertices ↔ x ∈ start ∨ ∃ v ∈ m.inTime, x ∈ madeItems filter toplevel v

section Inv

variable {s s' : Dag ι ρ} {m : Coming ι} {v : ι}

theorem Dag.Inv.mem_next (h : s.Inv filter toplevel start m) {x t : ι} (ht : t ∈ s.next x) : t ∈ s.vertices := by
  obtain ⟨e, he, rfl⟩ := mem_map.1 ht
  obtain ⟨hmade, hx⟩ := h.out_mem x e he
  exact (h.mem_vertices _).2 (.inr ⟨x, hx, mem_map_of_mem hmade⟩)

/-- A vertex that gets its transitions. -/
theorem Dag.Inv.discovers (h : s.Inv filter toplevel start m) (hgray : s.color v = .gray)
    (hnone : s.out v = []) (hstep : Discovers v (made filter toplevel v) s s') :
    s'.Inv filter toplevel start ⟨m.came, v :: m.inTime⟩ where
  white_of_not_mem := hstep.white_of_not_mem h.white_of_not_mem
  out_white := by
    intro x hx
    rw [hstep.color] at hx
    have hne : x ≠ v := by
      rintro rfl
      rw [hgray] at hx
      cases hx
    rw [hstep.out_of_ne x hne]
    exact h.out_white x hx
  out_mem := by
    intro x e he
    by_cases hx : x = v
    · obtain rfl := hx
      rw [hstep.out, hnone] at he
      exact ⟨mem_of_mem_filter he, mem_cons_self⟩
    · rw [hstep.out_of_ne x hx] at he
      exact ⟨(h.out_mem x e he).1, mem_cons_of_mem _ (h.out_mem x e he).2⟩
  finished := by
    obtain ⟨l, hl, hblack⟩ := h.finished
    refine ⟨l, hl.congr ?_, fun x => by rw [hblack, hstep.color]⟩
    intro x hx
    have hne : x ≠ v := by
      rintro rfl
      rw [(hblack x).1 hx] at hgray
      cases hgray
    rw [Dag.next, hstep.out_of_ne x hne]
    rfl
  came := fun x => by rw [hstep.color, h.came]
  mem_vertices := by
    intro x
    rw [hstep.mem_vertices, h.mem_vertices, exists_mem_cons_iff, or_assoc]
    exact or_congr_right or_comm

variable [DecidableEq ι]

theorem Dag.paint_white_iff (hc : c ≠ .white) {x : ι} : (s.paint v c).color x = .white ↔ x ≠ v ∧ s.color x = .white := by
  by_cases hx : x = v
  · rw [hx, Dag.paint_self]
    exact ⟨fun h => absurd h hc, fun h => absurd rfl h.1⟩
  · rw [Dag.paint_of_ne hx]
    exact ⟨fun h => ⟨hx, h⟩, fun h => h.2⟩

/-- A vertex that comes up. -/
theorem Dag.Inv.open (h : s.Inv filter toplevel start m) (hv : v ∈ s.vertices) (hwhite : s.color v = .white) :
    (s.paint v .gray).Inv filter toplevel start ⟨v :: m.came, m.inTime⟩ where
  white_of_not_mem := fun x hx => (Dag.paint_white_iff (by decide)).2 ⟨fun hxv => hx (hxv ▸ hv), h.white_of_not_mem x hx⟩
  out_white := fun x hx => h.out_white x ((Dag.paint_white_iff (by decide)).1 hx).2
  out_mem := h.out_mem
  finished := by
    obtain ⟨l, hl, hblack⟩ := h.finished
    refine ⟨l, hl, fun x => ?_⟩
    rw [hblack]
    by_cases hx : x = v
    · rw [hx, Dag.paint_self, hwhite]
      decide
    · rw [Dag.paint_of_ne hx]
  came := by
    intro x
    rw [mem_cons, h.came, Ne, Ne, Dag.paint_white_iff (by decide), not_and_or, not_not]
  mem_vertices := h.mem_vertices

theorem Dag.Inv.finish (h : s.Inv filter toplevel start m) (hv : v ∈ s.vertices) (hgray : s.color v = .gray)
    (hnext : ∀ x ∈ s.next v, s.color x = .black) : (s.paint v .black).Inv filter toplevel start m where
  white_of_not_mem := fun x hx => (Dag.paint_white_iff (by decide)).2 ⟨fun hxv => hx (hxv ▸ hv), h.white_of_not_mem x hx⟩
  out_white := fun x hx => h.out_white x ((Dag.paint_white_iff (by decide)).1 hx).2
  out_mem := h.out_mem
  finished := by
    obtain ⟨l, hl, hblack⟩ := h.finished
    refine ⟨v :: l, .cons (fun x hx => (hblack x).2 (hnext x hx)) ?_ hl, fun x => ?_⟩
    · intro hmem
      rw [(hblack v).1 hmem] at hgray
      cases hgray
    · rw [mem_cons, hblack]
      by_cases hx : x = v
      · rw [hx, Dag.paint_self]
        exact ⟨fun _ => rfl, fun _ => .inl rfl⟩
      · rw [Dag.paint_of_ne hx]
        exact ⟨fun h => h.resolve_left hx, .inr⟩
  came := by
    intro x
    rw [h.came, Ne, Ne, Dag.paint_white_iff (by decide), not_and_or, not_not]
    refine ⟨.inr, fun hx => hx.elim (fun hxv => ?_) id⟩
    rw [hxv, hgray]
    decide
  mem_vertices := h.mem_vertices

end Inv

/-! ## The search -/

section Visit

variable [DecidableEq ι] {maxdepth : Nat} {s : Dag ι ρ} {m : Coming ι} {v : ι}

/-- The vertices one after the other, if one of them does to the graph what coming up with `n` applications left does. -/
theorem visitEach_spec {f : ι → Dag ι ρ → Option (Dag ι ρ)} {n : Nat}
    (hf : ∀ (s : Dag ι ρ) (m : Coming ι) (v : ι), s.Inv filter toplevel start m → v ∈ s.vertices → s.color v = .white →
      ∃ s', f v s = some s' ∧ Visited s s' ∧ s'.color v = .black ∧
        s'.Inv filter toplevel start (comeUp (madeItems filter toplevel) n m v))
    (vs : List ι) (hinv : s.Inv filter toplevel start m) (hvs : ∀ v ∈ vs, v ∈ s.vertices ∧ s.color v ≠ .gray) :
    ∃ s', vs.foldlM (fun s v => if s.color v = .white then f v s else some s) s = some s' ∧ Visited s s' ∧
      (∀ v ∈ vs, s'.color v = .black) ∧
      s'.Inv filter toplevel start (vs.foldl (comeUp (madeItems filter toplevel) n) m) := by
  induction vs generalizing s m with
  | nil => exact ⟨s, rfl, .refl s, fun v hv => absurd hv not_mem_nil, hinv⟩
  | cons v vs ih =>
    obtain ⟨hmem, hgray⟩ := hvs v mem_cons_self
    have hfirst : ∃ s1, (if s.color v = .white then f v s else some s) = some s1 ∧ Visited s s1 ∧
        s1.color v = .black ∧ s1.Inv filter toplevel start (comeUp (madeItems filter toplevel) n m v) := by
      by_cases hwhite : s.color v = .white
      · rw [if_pos hwhite]
        exact hf s m v hinv hmem hwhite
      · rw [if_neg hwhite, comeUp_of_mem n ((hinv.came v).2 hwhite)]
        refine ⟨s, rfl, .refl s, ?_, hinv⟩
        cases hcolor : s.color v with
        | white => exact absurd hcolor hwhite
        | gray => exact absurd hcolor hgray
        | black => rfl
    obtain ⟨s1, hs1, hv1, hblack1, hinv1⟩ := hfirst
    obtain ⟨s2, hs2, hv2, hblack2, hinv2⟩ := ih hinv1 fun v' hv' =>
      ⟨hv1.subset (hvs v' (mem_cons_of_mem _ hv')).1,
        fun h => (hvs v' (mem_cons_of_mem _ hv')).2 ((hv1.gray _).1 h)⟩
    refine ⟨s2, ?_, hv1.trans hv2, ?_, hinv2⟩
    · rw [foldlM_cons, hs1]
      exact hs2
    · intro v' hv'
      rcases mem_cons.1 hv' with rfl | hv'
      · exact hv2.black _ hblack1
      · exact hblack2 v' hv'

/-- A vertex that is finished when all that its transitions lead to is. -/
theorem finish_spec {s1 s2 : Dag ι ρ} {m2 : Coming ι} {es : List (ρ × ι)} (hinv : s.Inv filter toplevel start m)
    (hv : v ∈ s.vertices) (hwhite : s.color v = .white) (hstep : Discovers v es (s.paint v .gray) s1)
    (hv2 : Visited s1 s2) (hblack2 : ∀ x ∈ s1.next v, s2.color x = .black) (hinv2 : s2.Inv filter toplevel start m2) :
    Visited s (s2.paint v .black) ∧ (s2.paint v .black).Inv filter toplevel start m2 := by
  have hgray1 : s1.color v = .gray := by rw [hstep.color, Dag.paint_self]
  have hout : s2.out v = s1.out v := hv2.out v (by rw [hgray1]; decide)
  have hne : ∀ {x}, s.color x ≠ .white → x ≠ v := fun hx hxv => hx (hxv ▸ hwhite)
  refine ⟨⟨?_, ?_, fun _ hx => hv2.subset (hstep.subset hx), ?_, ?_⟩, ?_⟩
  · intro x
    by_cases hx : x = v
    · rw [hx, Dag.paint_self, hwhite]
      decide
    · rw [Dag.paint_of_ne hx, hv2.gray, hstep.color, Dag.paint_of_ne hx]
  · intro x hx
    have hxv := hne (x := x) (by rw [hx]; decide)
    rw [Dag.paint_of_ne hxv]
    apply hv2.black
    rwa [hstep.color, Dag.paint_of_ne hxv]
  · intro x hx
    by_cases hxs : x ∈ s.vertices
    · exact .inl hxs
    right
    have hxv : x ≠ v := fun hxv => hxs (hxv ▸ hv)
    rw [Dag.paint_of_ne hxv]
    rcases hv2.fresh x hx with hx | hx
    · -- it was made by this vertex, and no back edge leads to it
      obtain ⟨e, he, rfl⟩ := mem_map.1 (((hstep.mem_vertices x).1 hx).resolve_left hxs)
      refine hblack2 e.2 (mem_map_of_mem ?_)
      have hcolor : (s.paint v .gray).color e.2 = .white :=
        (hinv.open hv hwhite).white_of_not_mem _ hxs
      rw [hstep.out]
      exact mem_append_right _ (mem_filter.2 ⟨he, by rw [hcolor]; rfl⟩)
    · exact hx
  · intro x hx
    show s2.out x = s.out x
    rw [hv2.out x (by rwa [hstep.color, Dag.paint_of_ne (hne hx)]), hstep.out_of_ne x (hne hx)]
    rfl
  · refine hinv2.finish (hv2.subset (hstep.subset hv)) ((hv2.gray v).2 hgray1) ?_
    intro x hx
    rw [Dag.next, hout] at hx
    exact hblack2 x hx

/-- **A visit ends**, and does what coming up does. -/
theorem visit_spec (n : Nat) {depth : Nat} (hdepth : depth + n = maxdepth) (hinv : s.Inv filter toplevel start m)
    (hv : v ∈ s.vertices) (hwhite : s.color v = .white) :
    ∃ s', visit filter toplevel maxdepth (n + 1) depth v s = some s' ∧ Visited s s' ∧ s'.color v = .black ∧
      s'.Inv filter toplevel start (comeUp (madeItems filter toplevel) n m v) := by
  have hinv0 := hinv.open hv hwhite
  have hnew : v ∉ m.came := fun h => (hinv.came v).1 h hwhite
  have hnone : (s.paint v .gray).out v = [] := hinv.out_white v hwhite
  induction n generalizing depth s m v with
  | zero =>
    obtain ⟨hvisited, hclosed⟩ := finish_spec hinv hv hwhite (.refl v _) (.refl _) (by
      intro x hx
      rw [Dag.next, hnone] at hx
      cases hx) hinv0
    refine ⟨_, ?_, hvisited, Dag.paint_self _ v .black, ?_⟩
    · have hcut : discover filter toplevel maxdepth depth v (s.paint v .gray) = s.paint v .gray :=
        if_neg (by omega)
      rw [visit, hcut, hnone]
      rfl
    · rwa [comeUp, if_neg hnew]
  | succ n ih =>
    -- it gets its transitions
    have hstep := discover_discovers filter toplevel maxdepth hinv0.white_of_not_mem depth v
    rw [if_pos (by omega)] at hstep
    generalize hs1 : discover filter toplevel maxdepth depth v (s.paint v .gray) = s1 at hstep
    have hinv1 := hinv0.discovers (s.paint_self v .gray) hnone hstep
    have hnext : s1.next v = (madeItems filter toplevel v).filter fun x => s1.color x ≠ .gray := by
      rw [Dag.next, hstep.out, hnone, hstep.color, madeItems, filter_map]
      rfl
    -- which lead to vertices that come up after it, unless they are open
    obtain ⟨s2, hs2, hv2, hblack2, hinv2⟩ := visitEach_spec (f := visit filter toplevel maxdepth (n + 1) (depth + 1))
      (fun s m w hinv hw hwhite => ih (by omega) hinv hw hwhite (hinv.open hw hwhite)
        (fun h => (hinv.came w).1 h hwhite) (hinv.out_white w hwhite)) (s1.next v) hinv1 (by
      intro x hx
      refine ⟨hinv1.mem_next hx, ?_⟩
      rw [hnext] at hx
      exact of_decide_eq_true (mem_filter.1 hx).2)
    obtain ⟨hvisited, hclosed⟩ := finish_spec hinv hv hwhite hstep hv2 hblack2 hinv2
    refine ⟨_, ?_, hvisited, Dag.paint_self _ v .black, ?_⟩
    · rw [visit, hs1]
      have hmap : ∀ F : Dag ι ρ → ι → Option (Dag ι ρ), (s1.out v).foldlM (fun s e => F s e.2) s1 =
          (s1.next v).foldlM F s1 := fun F => foldlM_map.symm
      rw [hmap fun s x => if s.color x = .white then visit filter toplevel maxdepth (n + 1) (depth + 1) x s else some s,
        hs2]
      rfl
    · rw [comeUp, if_neg hnew]
      rw [hnext, comeUp_filter] at hclosed
      · exact hclosed
      · intro x hx
        rw [hinv1.came, of_not_not (of_decide_eq_false hx)]
        decide

variable (filter toplevel) in
/-- **The search ends** with all vertices finished, when its vertices have come up one after the other. -/
theorem depthFirstSearch_spec (maxdepth : Nat) (hinv : s.Inv filter toplevel start m) (hgray : ∀ x, s.color x ≠ .gray) :
    ∃ s', depthFirstSearch filter toplevel maxdepth s = some s' ∧ s.vertices ⊆ s'.vertices ∧
      (∀ x ∈ s'.vertices, s'.color x = .black) ∧
      s'.Inv filter toplevel start (s.vertices.foldl (comeUp (madeItems filter toplevel) maxdepth) m) := by
  have hf := fun (s : Dag ι ρ) (m : Coming ι) (v : ι) hinv hv hwhite =>
    visit_spec maxdepth (Nat.zero_add maxdepth) (hinv : s.Inv filter toplevel start m) (hv : v ∈ _) hwhite
  obtain ⟨s', hs', hv, hblack, hinv'⟩ := visitEach_spec hf s.vertices hinv fun v hv => ⟨hv, hgray v⟩
  have hall : ∀ x ∈ s'.vertices, s'.color x = .black := fun x hx => (hv.fresh x hx).elim (hblack x) id
  refine ⟨s', ?_, hv.subset, hall, hinv'⟩
  -- in the second round there is nothing left
  have hrest : ∀ us : List ι, (∀ u ∈ us, s'.color u = .black) → us.foldlM (fun s u =>
      if s.color u = .white then visit filter toplevel maxdepth (maxdepth + 1) 0 u s else some s) s' = some s' := by
    intro us hus
    induction us with
    | nil => rfl
    | cons u us ih =>
      rw [foldlM_cons, if_neg (by rw [hus u mem_cons_self]; decide)]
      exact ih fun u' hu' => hus u' (mem_cons_of_mem _ hu')
  unfold depthFirstSearch
  rw [visitFrom, drop_zero, hs', Option.bind_some, visitFrom, hrest _ fun u hu => hall u (mem_of_mem_drop hu),
    Option.bind_some, visitFrom, if_pos le_rfl]

end Visit

/-! ## The items -/

section Items

variable [DecidableEq ι]

theorem mem_insertItem {set : List ι} {i x : ι} : x ∈ insertItem set i ↔ x ∈ set ∨ x = i := by
  unfold insertItem
  split
  · rename_i hi
    exact ⟨.inl, fun h => h.elim id fun h => h ▸ hi⟩
  · rw [mem_append, mem_singleton]

theorem mem_insertItems {is set : List ι} {x : ι} : x ∈ is.foldl insertItem set ↔ x ∈ set ∨ x ∈ is := by
  induction is generalizing set with
  | nil => simp
  | cons i is ih => rw [foldl_cons, ih, mem_insertItem, mem_cons, or_assoc]

/-- The items are the vertices, and what the rules of the transitions make of them. -/
theorem mem_applyAll {s : Dag ι ρ} {sorted set : List ι} {x : ι} : x ∈ applyAll filter s sorted set ↔
    x ∈ set ∨ x ∈ sorted ∨ ∃ v ∈ sorted, x ∈ (filter.apply v ((s.out v).map Prod.fst)).map Prod.snd := by
  induction sorted generalizing set with
  | nil => simp [applyAll]
  | cons v sorted ih =>
    have hfold : ∀ set', (filter.apply v ((s.out v).map Prod.fst)).foldl (fun set e => insertItem set e.2) set' =
        ((filter.apply v ((s.out v).map Prod.fst)).map Prod.snd).foldl insertItem set' := fun set' => foldl_map.symm
    unfold applyAll at ih ⊢
    rw [foldl_cons, ih, hfold, mem_insertItems, mem_insertItem, mem_cons, exists_mem_cons_iff]
    tauto

theorem startVertices_spec (is : List ι) (s : Dag ι ρ) (hwhite : ∀ x, s.color x = .white) :
    (∀ x, x ∈ (is.foldl vertexForEt s).vertices ↔ x ∈ s.vertices ∨ x ∈ is) ∧
      (is.foldl vertexForEt s).color = s.color ∧ (is.foldl vertexForEt s).out = s.out := by
  induction is generalizing s with
  | nil => exact ⟨fun x => by simp, rfl, rfl⟩
  | cons i is ih =>
    have hcolor := vertexForEt_color (fun x _ => hwhite x) i
    obtain ⟨hmem, hcolor', hout⟩ := ih (vertexForEt s i) (by rwa [hcolor])
    refine ⟨?_, hcolor'.trans hcolor, hout.trans (vertexForEt_out s i)⟩
    intro x
    rw [foldl_cons, hmem, mem_vertexForEt, mem_cons, or_assoc]

end Items

/-- What some input item becomes by at most two rule applications, through distinct items. -/
inductive Obtained (g : UnaryRules ι ρ) (toplevel : Bool) (start : List ι) : ι → Prop
  | given {x : ι} (h : x ∈ start) : Obtained g toplevel start x
  | once {a x : ι} (ha : a ∈ start) (hx : x ∈ children g toplevel a) (hne : x ≠ a) : Obtained g toplevel start x
  | twice {a b x : ι} (ha : a ∈ start) (hb : b ∈ children g toplevel a) (hx : x ∈ children g toplevel b)
      (hdistinct : [x, b, a].Nodup) : Obtained g toplevel start x

section Main

variable [DecidableEq ι]

/-- The items that come up in time for the rules to be applied to them, from the input items in this order. -/
def itemsInTime (filter : KeepingFilter g) (toplevel : Bool) (order : List ι) : List ι :=
  (order.foldl (comeUp (madeItems filter toplevel) 2) ⟨[], []⟩).inTime

/-- That an item is given more than once does not matter. -/
theorem startVertices_comeUp (next : ι → List ι) (n : Nat) (is : List ι) (s : Dag ι ρ) (m : Coming ι) :
    (is.foldl vertexForEt s).vertices.foldl (comeUp next n) m = is.foldl (comeUp next n) (s.vertices.foldl (comeUp next n) m) := by
  induction is generalizing s with
  | nil => rfl
  | cons i is ih =>
    rw [foldl_cons, ih, foldl_cons]
    congr 1
    unfold vertexForEt
    split
    · rename_i hi
      exact (comeUp_of_mem n (mem_came_foldl (.inr hi))).symm
    · exact foldl_append

/-- **The unary rules give an acyclic graph and keep the items**; they give all that is obtained by at most two
applications if and only if each of these items that is not given is made of an item that comes up in time. -/
theorem unaryApplications_spec (filter : KeepingFilter g) (byScore : Sorting ι) (toplevel : Bool) (start : List ι) :
    ∃ s items, unaryApplications filter byScore toplevel start = some (s, some items) ∧ TopoSort.Acyclic s.next ∧
      (∀ i ∈ start, i ∈ items) ∧
      ((∀ x, Obtained g toplevel start x → x ∈ items) ↔
        ∀ x, Obtained g toplevel start x → x ∈ start ∨
          ∃ v ∈ itemsInTime filter toplevel (byScore.sort start), x ∈ children g toplevel v) := by
  have hsame : ∀ x, x ∈ byScore.sort start ↔ x ∈ start := fun x => (byScore.perm start).mem_iff
  -- it is enough to say which the items are
  suffices h : ∃ s items, unaryApplications filter byScore toplevel start = some (s, some items) ∧
      TopoSort.Acyclic s.next ∧ ∀ x, x ∈ items ↔ x ∈ start ∨
        ∃ v ∈ itemsInTime filter toplevel (byScore.sort start), x ∈ children g toplevel v by
    obtain ⟨s, items, hrun, hacyclic, hitems⟩ := h
    exact ⟨s, items, hrun, hacyclic, fun i hi => (hitems i).2 (.inl hi), by simp only [hitems]⟩
  obtain ⟨hmem, hcolor, hout⟩ := startVertices_spec (byScore.sort start)
    (⟨[], fun _ => [], fun _ => .white⟩ : Dag ι ρ) fun _ => rfl
  have hcame := startVertices_comeUp (madeItems filter toplevel) 2 (byScore.sort start)
    (⟨[], fun _ => [], fun _ => .white⟩ : Dag ι ρ) ⟨[], []⟩
  rw [foldl_nil] at hcame
  generalize hs0 : (byScore.sort start).foldl vertexForEt (⟨[], fun _ => [], fun _ => .white⟩ : Dag ι ρ) = s0
    at hmem hcolor hout hcame
  have hset : ∀ x, x ∈ (byScore.sort start).foldl insertItem [] ↔ x ∈ start := by
    intro x
    rw [mem_insertItems, hsame]
    exact or_iff_right not_mem_nil
  by_cases hempty : ((byScore.sort start).foldl insertItem []).isEmpty = true
  · have hnil : byScore.sort start = [] := by
      rw [eq_nil_iff_forall_not_mem]
      intro x hx
      rw [hsame, ← hset, List.isEmpty_iff.1 hempty] at hx
      cases hx
    refine ⟨s0, (byScore.sort start).foldl insertItem [], ?_, ?_, fun x => ?_⟩
    · simp only [unaryApplications, hs0]
      exact if_pos hempty
    · refine TopoSort.Sorted.nil.acyclic ?_
      intro x hx
      rw [Dag.next, hout] at hx
      exact absurd rfl hx
    · rw [hset, hnil]
      simp [itemsInTime]
  · have hinv0 : s0.Inv filter toplevel start ⟨[], []⟩ := by
      refine ⟨fun x _ => by rw [hcolor], fun x _ => by rw [hout], ?_, ⟨[], .nil, ?_⟩, ?_, ?_⟩
      · intro x e he
        rw [hout] at he
        cases he
      · intro x
        rw [hcolor]
        exact ⟨fun h => absurd h not_mem_nil, fun h => by cases h⟩
      · intro x
        rw [hcolor]
        exact ⟨fun h => absurd h not_mem_nil, fun h => absurd rfl h⟩
      · intro x
        rw [hmem, hsame]
        simp
    obtain ⟨s, hs, hkept, hblack, hinv⟩ := depthFirstSearch_spec filter toplevel 2 hinv0
      fun x h => by rw [hcolor] at h; cases h
    obtain ⟨l, hsorted, hl⟩ := hinv.finished
    have hacyclic : TopoSort.Acyclic s.next := by
      refine hsorted.acyclic ?_
      intro x hx
      rw [hl]
      by_contra hne
      apply hx
      have hwhite : s.color x = .white := by
        by_cases hxs : x ∈ s.vertices
        · exact absurd (hblack x hxs) hne
        · exact hinv.white_of_not_mem x hxs
      rw [Dag.next, hinv.out_white x hwhite]
      rfl
    obtain ⟨σ, hσ, -, hroots, hwithin, hback⟩ := TopoSort.order_sorted hacyclic (fun _ _ _ ht => hinv.mem_next ht)
      (Nat.lt_succ_self s.vertices.length) s.vertices fun x hx => hx
    have hsorted : ∀ x, x ∈ σ.out ↔ x ∈ s.vertices := fun x => ⟨hwithin x, hroots x⟩
    refine ⟨s, applyAll filter s σ.out ((byScore.sort start).foldl insertItem []), ?_, hacyclic, fun x => ?_⟩
    · simp only [unaryApplications, hs0]
      rw [if_neg hempty, hs, Option.bind_some, topologicalSort, hσ, Option.map_some, if_pos hback]
      rfl
    · have hvertices := hinv.mem_vertices x
      rw [hcame] at hvertices
      simp only [mem_madeItems] at hvertices
      rw [mem_applyAll, hset, hsorted, itemsInTime, ← hvertices]
      refine ⟨?_, fun hx => .inr (.inl hx)⟩
      rintro (hx | hx | ⟨v, -, hx⟩)
      · exact hvertices.2 (.inl hx)
      · exact hx
      · -- what a rule of a transition makes is made of a vertex that came up in time
        obtain ⟨e, he, rfl⟩ := mem_map.1 hx
        obtain ⟨hrule, hcreate⟩ := (filter.mem_apply v _ e.1 e.2).1 he
        obtain ⟨e', he', hrule'⟩ := mem_map.1 hrule
        obtain ⟨hmade, htime⟩ := hinv.out_mem v e' he'
        refine (hinv.mem_vertices _).2 (.inr ⟨v, htime, mem_map_of_mem (a := e) (mem_made.2 ⟨?_, hcreate⟩)⟩)
        rw [← hrule']
        exact (mem_made.1 hmade).1

end Main

/-! ## An input item that comes up too late -/

/-- Everything, in the order of the rules. -/
def inRuleOrder (g : UnaryRules ι ρ) : KeepingFilter g where
  apply v rs := rs.flatMap fun r => (g.create r v).map fun i => (r, i)
  mem_apply := by
    intro v rs r i
    simp [mem_flatMap]

/-- Rules that make 1 of 0, 2 of 1 and 3 of 2. -/
def chainRules : UnaryRules Nat Nat where
  rules i := if i < 3 then [i] else []
  toplevelRules _ := []
  create _ i := [i + 1]

/-- From the items 0 and 2, in this order, no rule is applied to 2. -/
theorem chainRules_misses : ¬ ∃ s items,
    unaryApplications (inRuleOrder chainRules) ⟨id, fun l => .refl l⟩ false [0, 2] = some (s, some items) ∧
      TopoSort.Acyclic s.next ∧ (∀ i ∈ [0, 2], i ∈ items) ∧
      ∀ x, Obtained chainRules false [0, 2] x → x ∈ items := by
  rintro ⟨s, items, hrun, -, -, hall⟩
  have hitems : (unaryApplications (inRuleOrder chainRules) ⟨id, fun l => .refl l⟩ false [0, 2]).map Prod.snd =
      some (some [0, 2, 1]) := by decide
  rw [hrun] at hitems
  obtain rfl : items = [0, 2, 1] := Option.some.inj (Option.some.inj hitems)
  have hthree : 3 ∈ [0, 2, 1] := hall 3 (.once (a := 2) (by decide) (by decide) (by decide))
  exact absurd hthree (by decide)

/-- With 2 before 0 it is in time. -/
example : itemsInTime (inRuleOrder chainRules) false [2, 0] = [1, 0, 3, 2] := by decide

end Sbmt.Search
