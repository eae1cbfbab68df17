import Sbmt.Carmel.Compose

/-!
# The paths of a composition

A transducer is drawn from a graph of keys when the arcs of a state are those
that leave its key, the last one first. Its paths are then the runs of the
graph, by the labels of the arcs (`Drawn.bijOn`). The graph of a composition has
the runs of the filter, and one more arc to the merged final state, if there is
one; the filter leaves one run for each two paths that agree on their letters.

The main results: the paths of a composition are the pairs of paths of `a` and
of `b` with one string between them (`threeState_paths`), and the two modes have
the same weighted relation (`modes_agree`).
-/

namespace Sbmt.Carmel

open Sbmt.Lib List

variable {W : Type}

/-! ## A transducer drawn from a graph -/

section Drawn

variable {K O : Type*} {c : Wfst W} {keys : List K} {out : K → List (O × K)} {draws : O → FSTArc W → Prop}

structure Drawn (c : Wfst W) (keys : List K) (out : K → List (O × K)) (draws : O → FSTArc W → Prop) : Prop where
  nodup : keys.Nodup
  labels : ∀ k, ((out k).map Prod.fst).Nodup
  arcs : ∀ j k, keys[j]? = some k →
    Forall₂ (fun x p => keys[x.dest]? = some p.2 ∧ draws p.1 x) (c.arcs j) (out k).reverse

/-- The label an arc was drawn from. -/
def labelAt (keys : List K) (out : K → List (O × K)) (p : ArcPtr) : Option O :=
  (keys[p.src]?).bind fun k => ((out k).reverse[p.pos]?).map Prod.fst

def Leaves (out : K → List (O × K)) (k : K) (o : O) (k' : K) : Prop := (o, k') ∈ out k

variable {i : Nat}

/-- Lists that go together go together at each place. -/
theorem forall₂_getElem? {α β : Type*} {R : α → β → Prop} {as : List α} {bs : List β} (h : Forall₂ R as bs)
    {x : α} (hx : as[i]? = some x) : ∃ y, bs[i]? = some y ∧ R x y := by
  induction h generalizing i with
  | nil => cases hx
  | cons hxy _ ih =>
    cases i with
    | zero => exact ⟨_, rfl, Option.some.inj hx ▸ hxy⟩
    | succ i => exact ih hx

theorem forall₂_imp_of_mem {α β : Type*} {R S : α → β → Prop} {as : List α} {bs : List β} (h : Forall₂ R as bs)
    (himp : ∀ x, ∀ y ∈ bs, R x y → S x y) : Forall₂ S as bs := by
  induction h with
  | nil => exact .nil
  | cons hxy _ ih =>
    exact .cons (himp _ _ (mem_cons_self ..) hxy) (ih fun x y hy => himp x y (mem_cons_of_mem _ hy))

variable {k : K}

/-- The arc at a pointer was drawn from a label that leaves the key. -/
theorem Drawn.arc_of_ptr (h : Drawn c keys out draws) {p : ArcPtr} {x : FSTArc W} (hk : keys[p.src]? = some k)
    (hx : c.arc? p = some x) :
    ∃ o k', labelAt keys out p = some o ∧ keys[x.dest]? = some k' ∧ draws o x ∧ Leaves out k o k' := by
  obtain ⟨⟨o, k'⟩, hget, hdest, hdraws⟩ := forall₂_getElem? (h.arcs _ _ hk) hx
  refine ⟨o, k', ?_, hdest, hdraws, mem_reverse.1 (mem_of_getElem? hget)⟩
  unfold labelAt
  rw [hk, Option.bind_some, hget]
  rfl

variable {k' : K} {j : Nat}

variable (h : Drawn c keys out draws)
include h

/-- A label that leaves a key was drawn. -/
theorem Drawn.ptr_of_label {o : O} (hk : keys[j]? = some k) (ho : Leaves out k o k') :
    ∃ p x, p.src = j ∧ c.arc? p = some x ∧ labelAt keys out p = some o ∧ keys[x.dest]? = some k' := by
  obtain ⟨i, hi⟩ := mem_iff_getElem?.1 (mem_reverse.2 ho)
  obtain ⟨x, hx, hdest, -⟩ := forall₂_getElem? (h.arcs j k hk).flip hi
  refine ⟨⟨j, i⟩, x, rfl, hx, ?_, hdest⟩
  unfold labelAt
  rw [hk, Option.bind_some, hi]
  rfl

/-- The labels of a state tell its arcs apart. -/
theorem Drawn.ptr_unique {p p' : ArcPtr} {o : O} (hsrc : p.src = p'.src)
    (hp : labelAt keys out p = some o) (hp' : labelAt keys out p' = some o) : p = p' := by
  obtain ⟨s, i⟩ := p
  obtain ⟨s', i'⟩ := p'
  obtain rfl : s = s' := hsrc
  obtain ⟨k, hk, hi⟩ := Option.bind_eq_some_iff.1 hp
  obtain ⟨k', hk', hi'⟩ := Option.bind_eq_some_iff.1 hp'
  obtain rfl : k = k' := Option.mem_unique hk hk'
  have hnodup : (((out k).reverse).map Prod.fst).Nodup := by
    rw [map_reverse, nodup_reverse]
    exact h.labels k
  rw [← getElem?_map] at hi hi'
  have hlt := (List.getElem?_eq_some_iff.1 hi).1
  exact congrArg (ArcPtr.mk s) ((getElem?_inj hlt hnodup).1 (hi.trans hi'.symm))

/-- A path is a run of the graph, by its labels. -/
theorem Drawn.run_of_path {ps : List ArcPtr} (hpath : c.Path i ps j)
    (hk : keys[i]? = some k) (hk' : keys[j]? = some k') :
    Run (Leaves out) k (ps.filterMap (labelAt keys out)) k' ∧
      Forall₂ draws (ps.filterMap (labelAt keys out)) (c.taken ps) := by
  induction hpath generalizing k with
  | nil s =>
    obtain rfl : k = k' := Option.mem_unique hk hk'
    exact ⟨.nil k, .nil⟩
  | cons harc _ ih =>
    obtain ⟨o, k1, hlabel, hdest, hdraws, hleaves⟩ := h.arc_of_ptr hk harc
    obtain ⟨hrun, hall⟩ := ih hdest hk'
    rw [filterMap_cons_some hlabel, Wfst.taken_cons harc]
    exact ⟨.cons hleaves hrun, .cons hdraws hall⟩

theorem Drawn.path_of_run {os : List O} (hrun : Run (Leaves out) k os k') (hk : keys[i]? = some k) :
    ∃ ps j, keys[j]? = some k' ∧ c.Path i ps j ∧ ps.filterMap (labelAt keys out) = os := by
  induction hrun generalizing i with
  | nil k => exact ⟨[], i, hk, .nil i, rfl⟩
  | cons hleaves _ ih =>
    obtain ⟨p, x, rfl, harc, hlabel, hdest⟩ := h.ptr_of_label hk hleaves
    obtain ⟨ps, j, hj, hpath, hps⟩ := ih hdest
    exact ⟨p :: ps, j, hj, .cons harc hpath, by rw [filterMap_cons_some hlabel, hps]⟩

theorem Drawn.path_unique {j' : Nat} {ps ps' : List ArcPtr} (hpath : c.Path i ps j)
    (hpath' : c.Path i ps' j') (hk : keys[i]? = some k)
    (heq : ps.filterMap (labelAt keys out) = ps'.filterMap (labelAt keys out)) : ps = ps' := by
  induction hpath generalizing ps' k with
  | nil s =>
    cases hpath' with
    | nil => rfl
    | cons harc' hrest' =>
      obtain ⟨o, -, hlabel, -⟩ := h.arc_of_ptr hk harc'
      rw [filterMap_cons_some hlabel] at heq
      cases heq
  | @cons p ps x t harc hrest ih =>
    obtain ⟨o, k1, hlabel, hdest, -⟩ := h.arc_of_ptr hk harc
    rw [filterMap_cons_some hlabel] at heq
    obtain ⟨s, hs⟩ : ∃ s, s = p.src := ⟨_, rfl⟩
    rw [← hs] at hpath'
    cases hpath' with
    | nil => cases heq
    | @cons p' ps'' x' t' harc' hrest' =>
      obtain ⟨o', -, hlabel', -⟩ := h.arc_of_ptr (hs ▸ hk) harc'
      rw [filterMap_cons_some hlabel'] at heq
      obtain ⟨rfl, htail⟩ := List.cons.inj heq
      obtain rfl := h.ptr_unique hs.symm hlabel hlabel'
      obtain rfl : x = x' := Option.mem_unique harc harc'
      rw [ih hrest' hdest htail]

/-- **The paths of a drawn transducer are the runs of its graph.** -/
theorem Drawn.bijOn (hk : keys[i]? = some k) (hk' : keys[j]? = some k') :
    Set.BijOn (List.filterMap (labelAt keys out)) {ps | c.Path i ps j} {os | Run (Leaves out) k os k'} := by
  refine ⟨?_, ?_, ?_⟩
  · intro ps hps
    exact (h.run_of_path hps hk hk').1
  · intro ps hps ps' hps' heq
    exact h.path_unique hps hps' hk heq
  · intro os hos
    obtain ⟨ps, j', hj', hpath, hps⟩ := h.path_of_run hos hk
    have hjj : j' = j :=
      (getElem?_inj (List.getElem?_eq_some_iff.1 hj').1 h.nodup).1 (hj'.trans hk'.symm)
    exact ⟨ps, hjj ▸ hpath, hps⟩

end Drawn

/-! ## Labels and weights of what is taken -/

variable (xs : List (FSTArc W))

def inputs : List Nat := xs.filterMap fun x => Wfst.nonEpsilon x.inp

def outputs : List Nat := xs.filterMap fun x => Wfst.nonEpsilon x.out

def weightOf [Monoid W] : W := (xs.map FSTArc.weight).prod

/-- An arc of a composition that has the origin, and a group that was given to it. -/
def Draws [Mul W] (stamp : Origin W → Nat → Prop) (o : Origin W) (x : FSTArc W) : Prop :=
  ∃ dest group, stamp o group ∧ x = composeArc dest group o

open Joint

/-- The arcs of `a` and of `b` that a run takes. -/
def leftArcs (os : List (Origin W)) : List (FSTArc W) := (lefts os).map HalfArc.arc

def rightArcs (os : List (Origin W)) : List (FSTArc W) := (rights os).map HalfArc.arc

/-- What a composition takes has the input of its left side, the output of its right side, and the weights of both. -/
theorem draws_taken [CommMonoid W] {stamp : Origin W → Nat → Prop} {os : List (Origin W)} {xs : List (FSTArc W)}
    (h : Forall₂ (Draws stamp) os xs) :
    inputs xs = inputs (leftArcs os) ∧ outputs xs = outputs (rightArcs os) ∧
      weightOf xs = weightOf (leftArcs os) * weightOf (rightArcs os) := by
  unfold inputs outputs weightOf leftArcs rightArcs
  induction h with
  | nil => simp
  | @cons o x os xs hox _ ih =>
    obtain ⟨dest, group, -, rfl⟩ := hox
    obtain ⟨ihin, ihout, ihweight⟩ := ih
    have hempty : Wfst.nonEpsilon epsilonIndex = none := rfl
    cases o with
    | left l => simp [composeArc, ihin, ihout, ihweight, hempty, filterMap_cons, mul_assoc]
    | right r => simp [composeArc, ihin, ihout, ihweight, hempty, filterMap_cons, mul_left_comm]
    | both l r => simp [composeArc, ihin, ihout, ihweight, filterMap_cons, mul_mul_mul_comm]

/-- The last of a list that goes with a longer one. -/
theorem forall₂_concat {final : Nat} {os : List (Option (Origin W))} {xs : List (FSTArc W)} [Mul W] [One W]
    {D : Option (Origin W) → FSTArc W → Prop} (hD : ∀ x, D none x → x = finalArc final)
    (h : Forall₂ D (os ++ [none]) xs) : ∃ ys, Forall₂ D os ys ∧ xs = ys ++ [finalArc final] := by
  induction os generalizing xs with
  | nil =>
    cases h with
    | cons hx hrest =>
      cases hrest
      exact ⟨[], .nil, congrArg (fun x => [x]) (hD _ hx)⟩
  | cons o os ih =>
    cases h with
    | @cons _ x _ _ hx hrest =>
      obtain ⟨ys, hys, rfl⟩ := ih hrest
      exact ⟨x :: ys, .cons hx hys, rfl⟩

theorem draws_finalArc [Monoid W] (final : Nat) :
    inputs (xs ++ [finalArc final]) = inputs xs ∧ outputs (xs ++ [finalArc final]) = outputs xs ∧
      weightOf (xs ++ [finalArc final]) = weightOf xs := by
  have hempty : Wfst.nonEpsilon epsilonIndex = none := rfl
  simp [inputs, outputs, weightOf, finalArc, hempty]

/-! ## The runs of a side -/

/-- The arcs at the pointers of a path. -/
def halfArcsAt (x : Wfst W) (ps : List ArcPtr) : List (HalfArc W) :=
  ps.filterMap fun p => (x.arc? p).map fun arc => ⟨p, arc⟩

variable {hs : List (HalfArc W)} {s t : Nat} {x : Wfst W}

theorem halfArcsAt_of_run (h : Run x.Takes s hs t) : halfArcsAt x (hs.map HalfArc.ptr) = hs := by
  induction h with
  | nil s => rfl
  | @cons _ _ _ l _ htakes _ ih =>
    have hl : (x.arc? l.ptr).map (fun arc => (⟨l.ptr, arc⟩ : HalfArc W)) = some l := by rw [htakes.2.1]; rfl
    unfold halfArcsAt at ih ⊢
    simp only [map_cons, filterMap_cons, hl, ih]

/-- A path is a run along arcs. -/
theorem takes_bijOn (x : Wfst W) (s t : Nat) :
    Set.BijOn (List.map HalfArc.ptr) {hs | Run x.Takes s hs t} {ps | x.Path s ps t} := by
  refine ⟨?_, ?_, ?_⟩
  · intro hs hrun
    induction hrun with
    | nil s => exact .nil s
    | cons htakes _ ih =>
      obtain ⟨rfl, harc, rfl⟩ := htakes
      exact .cons harc ih
  · intro hs hrun hs' hrun' heq
    rw [← halfArcsAt_of_run hrun, ← halfArcsAt_of_run hrun', heq]
  · intro ps hpath
    induction hpath with
    | nil s => exact ⟨[], .nil s, rfl⟩
    | @cons p ps arc t harc _ ih =>
      obtain ⟨hs, hrun, rfl⟩ := ih
      exact ⟨⟨p, arc⟩ :: hs, .cons ⟨rfl, harc, rfl⟩ hrun, rfl⟩

/-- What a run along arcs takes. -/
theorem taken_of_run (h : Run x.Takes s hs t) : x.taken (hs.map HalfArc.ptr) = hs.map HalfArc.arc := by
  induction h with
  | nil s => rfl
  | cons htakes _ ih =>
    rw [map_cons, Wfst.taken_cons htakes.2.1, ih]
    rfl

theorem pathOut_of_run (h : Run x.Takes s hs t) : x.pathOut (hs.map HalfArc.ptr) = hs.filterMap HalfArc.letterA := by
  unfold Wfst.pathOut
  rw [taken_of_run h, filterMap_map]
  rfl

theorem pathIn_of_run (h : Run x.Takes s hs t) : x.pathIn (hs.map HalfArc.ptr) = hs.filterMap HalfArc.letterB := by
  unfold Wfst.pathIn
  rw [taken_of_run h, filterMap_map]
  rfl

/-- The names of a string of symbols. -/
def Alphabet.spell (x : Alphabet) (ls : List Nat) : List (Option String) := ls.map fun l => x.names[l]?

variable (a b : Transducer W)

/-- Letters of the alphabet agree when they are spelled alike. -/
theorem agree_iff_spell {cs ds : List Nat} (hcs : ∀ c ∈ cs, c < a.outAlph.names.length) :
    Forall₂ (SameName a b) cs ds ↔ a.outAlph.spell cs = b.inAlph.spell ds := by
  induction cs generalizing ds with
  | nil =>
    cases ds with
    | nil => exact ⟨fun _ => rfl, fun _ => .nil⟩
    | cons d ds => exact ⟨fun h => (by cases h), fun h => (by cases h)⟩
  | cons c cs ih =>
    cases ds with
    | nil => exact ⟨fun h => (by cases h), fun h => (by cases h)⟩
    | cons d ds =>
      have hname := getElem?_eq_getElem (hcs c (mem_cons_self ..))
      have hsame : SameName a b c d ↔ a.outAlph.names[c]? = b.inAlph.names[d]? := by
        unfold SameName
        rw [mapTo_eq_some, hname]
        constructor
        · rintro ⟨name, hc, hd⟩
          exact hc.trans hd.symm
        · intro h
          exact ⟨_, rfl, h.symm⟩
      unfold Alphabet.spell at ih ⊢
      rw [List.forall₂_cons, ih (fun c' hc' => hcs c' (mem_cons_of_mem _ hc')), hsame, map_cons, map_cons,
        List.cons.injEq]

/-- The pairs of accepting paths with one string between them, by the names of its symbols. -/
def Composable : Set (List ArcPtr × List ArcPtr) :=
  {r | a.Accepting r.1 ∧ b.Accepting r.2 ∧ a.outAlph.spell (a.pathOut r.1) = b.inAlph.spell (b.pathIn r.2)}

/-- The pointers of two runs. -/
def ptrs (r : List (HalfArc W) × List (HalfArc W)) : List ArcPtr × List ArcPtr :=
  (r.1.map HalfArc.ptr, r.2.map HalfArc.ptr)

theorem letters_lt (h : Run a.Takes s hs t) :
    ∀ c ∈ hs.filterMap HalfArc.letterA, c < a.outAlph.names.length := by
  induction h with
  | nil s => exact fun c hc => by cases hc
  | @cons _ _ _ l _ htakes _ ih =>
    intro c hc
    obtain ⟨l', hl', hletter⟩ := mem_filterMap.1 hc
    rcases mem_cons.1 hl' with rfl | hl'
    · obtain ⟨-, rfl⟩ := nonEpsilon_eq_some.1 hletter
      exact a.arc?_out_lt htakes.2.1
    · exact ih c (mem_filterMap.2 ⟨l', hl', hletter⟩)

/-- Runs that agree on their letters are paths with one string between them. -/
theorem ptrs_bijOn :
    Set.BijOn ptrs {r | Run a.Takes 0 r.1 a.final ∧ Run b.Takes 0 r.2 b.final ∧
      Agree HalfArc.letterA HalfArc.letterB (SameName a b) r.1 r.2} (Composable a b) := by
  have ha := takes_bijOn a.toWfst 0 a.final
  have hb := takes_bijOn b.toWfst 0 b.final
  have hagree : ∀ {hs rs : List (HalfArc W)}, Run a.Takes 0 hs a.final → Run b.Takes 0 rs b.final →
      (Agree HalfArc.letterA HalfArc.letterB (SameName a b) hs rs ↔
        a.outAlph.spell (a.pathOut (hs.map HalfArc.ptr)) = b.inAlph.spell (b.pathIn (rs.map HalfArc.ptr))) := by
    intro hs rs hhs hrs
    unfold Agree
    rw [pathOut_of_run hhs, pathIn_of_run hrs, agree_iff_spell a b (letters_lt a hhs)]
  refine ⟨?_, ?_, ?_⟩
  · rintro ⟨hs, rs⟩ ⟨hhs, hrs, h⟩
    exact ⟨ha.mapsTo hhs, hb.mapsTo hrs, (hagree hhs hrs).1 h⟩
  · rintro ⟨hs, rs⟩ ⟨hhs, hrs, -⟩ ⟨hs', rs'⟩ ⟨hhs', hrs', -⟩ heq
    obtain ⟨hl, hr⟩ := Prod.mk.inj heq
    exact Prod.ext (ha.injOn hhs hhs' hl) (hb.injOn hrs hrs' hr)
  · rintro ⟨pa, pb⟩ ⟨hpa, hpb, h⟩
    obtain ⟨hs, hhs, rfl⟩ := ha.surjOn hpa
    obtain ⟨rs, hrs, rfl⟩ := hb.surjOn hpb
    exact ⟨(hs, rs), ⟨hhs, hrs, (hagree hhs hrs).2 h⟩, rfl⟩

/-! ## The table of a composition is drawn from its mode -/

theorem composeArc_dest [Mul W] (dest group : Nat) (o : Origin W) : (composeArc dest group o).dest = dest := by
  cases o <;> rfl

section Table

variable [Monoid W] {a b : Transducer W} {K Γ : Type} [DecidableEq K] (m : Mode a b K) {τ : Table K (Origin W) Γ Nat}

variable {j : Nat}

omit [DecidableEq K] in
theorem forall₂_tableArcs {stamp : Origin W → Nat → Prop}
    (h : Forall₂ (fun l g => stamp l.label g) (τ.links j) (τ.stamps j)) :
    Forall₂ (fun x l => ∃ group, stamp l.label group ∧ x = composeArc l.dest group l.label) (tableArcs τ j)
      (τ.links j) := by
  unfold tableArcs
  generalize τ.links j = ls at h ⊢
  generalize τ.stamps j = gs at h ⊢
  induction h with
  | nil => exact .nil
  | cons hstamp _ ih => exact .cons ⟨_, hstamp, rfl⟩ ih

/-- The graph with an arc from each final key to the merged final state. -/
def mergedOut (finals : List K) : Option K → List (Option (Origin W) × Option K)
  | none => []
  | some k => (m.out k).map (Prod.map some some) ++ if k ∈ finals then [(none, none)] else []

/-- What is drawn of a label, the arc to the merged final state having none. -/
def DrawsMerged (stamp : Origin W → Nat → Prop) (final : Nat) : Option (Origin W) → FSTArc W → Prop
  | none, x => x = finalArc final
  | some o, x => Draws stamp o x

/-- The keys of the final states. -/
def finalKeys : List K := [0, 1, 2].map fun f => m.trio ⟨a.final, b.final, f⟩

variable (hτ : Table.Built m.out (m.trio ⟨0, 0, 0⟩) τ) {stamp : Origin W → Nat → Prop}
  (hstamps : ∀ j, Forall₂ (fun l g => stamp l.label g) (τ.links j) (τ.stamps j))
include hτ hstamps

/-- The arcs of a numbered state are those that leave its key. -/
theorem drawn_arcs {k : K} (hk : τ.keys[j]? = some k) :
    Forall₂ (fun x p => τ.keys[x.dest]? = some p.2 ∧ Draws stamp p.1 x) (tableArcs τ j) (m.out k).reverse := by
  obtain ⟨hkeys, hlinks⟩ := hτ.full j k hk
  have hall := forall₂_tableArcs (hstamps j)
  rw [hlinks, ← map_reverse, List.forall₂_map_right_iff] at hall
  refine forall₂_imp_of_mem hall ?_
  rintro x p hp ⟨group, hstamp, rfl⟩
  refine ⟨?_, _, group, hstamp, rfl⟩
  rw [composeArc_dest]
  exact List.getElem?_idxOf (hkeys p (mem_reverse.1 hp))

theorem drawn_tableStates (hlabels : ∀ k, ((m.out k).map Prod.fst).Nodup) (c : Wfst W)
    (hc : c.states = tableStates τ) : Drawn c τ.keys m.out (Draws stamp) where
  nodup := hτ.nodup
  labels := hlabels
  arcs := by
    intro j k hk
    have hlt := (List.getElem?_eq_some_iff.1 hk).1
    have harcs : c.arcs j = tableArcs τ j := by
      unfold Wfst.arcs
      rw [hc, tableStates, getD_eq_getElem?_getD, getElem?_map, getElem?_range hlt]
      rfl
    rw [harcs]
    exact drawn_arcs m hτ hstamps hk

omit [Monoid W] hstamps in
theorem mem_finals {k : K} (hk : τ.keys[j]? = some k) : j ∈ m.finals τ ↔ k ∈ finalKeys m := by
  unfold Mode.finals finalKeys
  rw [mem_filterMap, mem_map]
  refine exists_congr fun f => and_congr_right fun _ => ?_
  rw [idxOf?_eq_some hτ.nodup, hk]
  exact ⟨fun h => (Option.some.inj h).symm, fun h => congrArg some h.symm⟩

theorem drawn_mergedStates (hlabels : ∀ k, ((m.out k).map Prod.fst).Nodup) (c : Wfst W)
    (hc : c.states = mergedStates τ (m.finals τ)) :
    Drawn c (τ.keys.map some ++ [none]) (mergedOut m (finalKeys m)) (DrawsMerged stamp τ.keys.length) where
  nodup := by
    refine nodup_append.2 ⟨hτ.nodup.map (Option.some_injective K), nodup_singleton _, ?_⟩
    intro x hx y hy heq
    obtain ⟨k, -, rfl⟩ := mem_map.1 hx
    obtain rfl := mem_singleton.1 hy
    cases heq
  labels := by
    intro k
    cases k with
    | none => exact nodup_nil
    | some k =>
      unfold mergedOut
      rw [map_append, map_map]
      refine nodup_append.2 ⟨?_, ?_, ?_⟩
      · have hmap : (m.out k).map (Prod.fst ∘ Prod.map some some) = ((m.out k).map Prod.fst).map some := by
          rw [map_map]
          rfl
        rw [hmap]
        exact (hlabels k).map (Option.some_injective _)
      · split
        · exact nodup_singleton _
        · exact nodup_nil
      · intro o ho o' ho' heq
        obtain ⟨p, -, rfl⟩ := mem_map.1 ho
        split at ho'
        · obtain rfl := mem_singleton.1 ho'
          cases heq
        · cases ho'
  arcs := by
    intro j k hk
    rcases Nat.lt_or_ge j τ.keys.length with hlt | hge
    · have hj := getElem?_eq_getElem hlt
      obtain rfl : some τ.keys[j] = k := by
        rw [getElem?_append_left (by rw [length_map]; exact hlt), getElem?_map, hj] at hk
        exact Option.some.inj hk
      have harcs : c.arcs j =
          if j ∈ m.finals τ then finalArc τ.keys.length :: tableArcs τ j else tableArcs τ j := by
        unfold Wfst.arcs
        rw [hc, mergedStates, getD_eq_getElem?_getD, getElem?_append_left (by simpa using hlt),
          getElem?_map, getElem?_range hlt]
        rfl
      have hbase : Forall₂ (fun x p => (τ.keys.map some ++ [none])[x.dest]? = some p.2 ∧
          DrawsMerged stamp τ.keys.length p.1 x) (tableArcs τ j) ((m.out τ.keys[j]).map (Prod.map some some)).reverse := by
        rw [← map_reverse, List.forall₂_map_right_iff]
        refine (drawn_arcs m hτ hstamps hj).imp ?_
        rintro x p ⟨hdest, hdraws⟩
        refine ⟨?_, hdraws⟩
        have hdestLt := (List.getElem?_eq_some_iff.1 hdest).1
        rw [getElem?_append_left (by rw [length_map]; exact hdestLt), getElem?_map, hdest]
        rfl
      unfold mergedOut
      rw [harcs, reverse_append]
      simp only [mem_finals m hτ hj]
      split
      · refine .cons ⟨?_, rfl⟩ hbase
        show (τ.keys.map some ++ [none])[τ.keys.length]? = some none
        rw [getElem?_append_right (by rw [length_map]), length_map, Nat.sub_self]
        rfl
      · exact hbase
    · rw [getElem?_append_right (by rw [length_map]; exact hge), length_map] at hk
      have hlt := (List.getElem?_eq_some_iff.1 hk).1
      rw [length_singleton] at hlt
      obtain rfl : j = τ.keys.length := by omega
      rw [Nat.sub_self] at hk
      obtain rfl : none = k := Option.some.inj hk
      have harcs : c.arcs τ.keys.length = [] := by
        unfold Wfst.arcs
        rw [hc, mergedStates]
        simp
      rw [harcs]
      exact .nil

end Table

/-! ## A composition and the runs of its mode -/

section Spec

variable [CommMonoid W] {a b : Transducer W} {K Γ : Type} [DecidableEq K] (m : Mode a b K)

/-- The runs from the start to a final state, in whatever state the filter is. -/
def Mode.runs : Set (List (Origin W)) :=
  {os | ∃ f, Run (Leaves m.out) (m.trio ⟨0, 0, 0⟩) os (m.trio ⟨a.final, b.final, f⟩)}

variable {os : List (Origin W)}

omit [CommMonoid W] [DecidableEq K] in
theorem mem_runs : os ∈ m.runs ↔ ∃ k ∈ finalKeys m, Run (Leaves m.out) (m.trio ⟨0, 0, 0⟩) os k := by
  have hall : ∀ f : Fin 3, f ∈ [0, 1, 2] := by decide
  unfold Mode.runs finalKeys
  simp only [mem_map, Set.mem_ofPred_eq]
  constructor
  · rintro ⟨f, hrun⟩
    exact ⟨_, ⟨f, hall f, rfl⟩, hrun⟩
  · rintro ⟨k, ⟨f, -, rfl⟩, hrun⟩
    exact ⟨f, hrun⟩

/-- The arcs of a composition have origins, but for those into the merged final state, and the paths are the runs. -/
structure Traced (stamp : Origin W → Nat → Prop) (c : Transducer W) (merged : Prop)
    (originAt : ArcPtr → Option (Origin W)) : Prop where
  inAlph : c.inAlph = a.inAlph
  outAlph : c.outAlph = b.outAlph
  paths : Set.BijOn (List.filterMap originAt) {ps | c.Accepting ps} m.runs
  taken : ∀ ps, c.Accepting ps →
    c.pathIn ps = inputs (leftArcs (ps.filterMap originAt)) ∧ c.pathOut ps = outputs (rightArcs (ps.filterMap originAt)) ∧
      c.pathWeight ps = weightOf (leftArcs (ps.filterMap originAt)) * weightOf (rightArcs (ps.filterMap originAt))
  arcs : ∀ p x, c.arc? p = some x →
    (merged ∧ x = finalArc c.final ∧ originAt p = none) ∨
      ∃ o k k', originAt p = some o ∧ Leaves m.out k o k' ∧ Draws stamp o x

omit [DecidableEq K] in
theorem Traced.mono {stamp : Origin W → Nat → Prop} {c : Transducer W} {merged merged' : Prop}
    {originAt : ArcPtr → Option (Origin W)} (h : Traced m stamp c merged originAt) (himp : merged → merged') :
    Traced m stamp c merged' originAt :=
  { h with
    arcs := by
      intro p x hx
      rcases h.arcs p x hx with ⟨hmerged, harc⟩ | harc
      · exact .inl ⟨himp hmerged, harc⟩
      · exact .inr harc }

/-- The origin of an arc; the arcs into a merged final state have none. -/
def Mode.originAt (τ : Table K (Origin W) Γ Nat) (p : ArcPtr) : Option (Origin W) :=
  if 1 < (m.finals τ).length then (labelAt (τ.keys.map some ++ [none]) (mergedOut m (finalKeys m)) p).join
  else labelAt τ.keys m.out p

variable {k : K}

omit [CommMonoid W] in
theorem leaves_merged {ol : Option (Origin W)} {k' : Option K} : Leaves (mergedOut m (finalKeys m)) (some k) ol k' ↔
      (∃ o k1, ol = some o ∧ k' = some k1 ∧ Leaves m.out k o k1) ∨ (ol = none ∧ k' = none ∧ k ∈ finalKeys m) := by
  unfold Leaves mergedOut
  rw [mem_append]
  refine or_congr ?_ ?_
  · rw [mem_map]
    constructor
    · rintro ⟨⟨o, k1⟩, hmem, heq⟩
      cases heq
      exact ⟨o, k1, rfl, rfl, hmem⟩
    · rintro ⟨o, k1, rfl, rfl, hmem⟩
      exact ⟨(o, k1), hmem, rfl⟩
  · rw [mem_ite_nil_right, mem_singleton, Prod.mk.injEq]
    tauto

omit [CommMonoid W] in
/-- The runs to the merged final state are those to a final state, and one more step. -/
theorem merged_runs {ols : List (Option (Origin W))} : Run (Leaves (mergedOut m (finalKeys m))) (some k) ols none ↔
      ∃ os, ols = os.map some ++ [none] ∧ ∃ kf ∈ finalKeys m, Run (Leaves m.out) k os kf := by
  constructor
  · intro h
    obtain ⟨x, hx⟩ : ∃ x, x = some k := ⟨_, rfl⟩
    obtain ⟨y, hy⟩ : ∃ y : Option K, y = none := ⟨_, rfl⟩
    rw [← hx, ← hy] at h
    induction h generalizing k with
    | nil x =>
      rw [hx] at hy
      cases hy
    | cons hstep hrest ih =>
      subst hx
      rcases (leaves_merged m).1 hstep with ⟨o, k1, rfl, hk1, hleaves⟩ | ⟨rfl, rfl, hk⟩
      · obtain ⟨os, rfl, kf, hkf, hrun⟩ := ih hk1 hy
        exact ⟨o :: os, rfl, kf, hkf, .cons hleaves hrun⟩
      · cases hrest with
        | nil => exact ⟨[], rfl, k, hk, .nil k⟩
        | cons hstep' _ => cases hstep'
  · rintro ⟨os, rfl, kf, hkf, hrun⟩
    induction hrun with
    | nil k => exact .cons ((leaves_merged m).2 (.inr ⟨rfl, rfl, hkf⟩)) (.nil none)
    | cons hleaves _ ih => exact .cons ((leaves_merged m).2 (.inl ⟨_, _, rfl, rfl, hleaves⟩)) (ih hkf)

variable {m} {τ : Table K (Origin W) Γ Nat} (hτ : Table.Built m.out (m.trio ⟨0, 0, 0⟩) τ)
  {stamp : Origin W → Nat → Prop}
  (hstamps : ∀ j, Forall₂ (fun l g => stamp l.label g) (τ.links j) (τ.stamps j))
  (hlabels : ∀ k, ((m.out k).map Prod.fst).Nodup)
include hτ

section
omit [CommMonoid W]

/-- A run from a numbered key ends at a numbered key. -/
theorem run_number {k' : K} (hrun : Run (Leaves m.out) k os k') {i : Nat}
    (hk : τ.keys[i]? = some k) : ∃ j : Nat, τ.keys[j]? = some k' := by
  induction hrun generalizing i with
  | nil k => exact ⟨i, hk⟩
  | cons hleaves _ ih => exact ih (List.getElem?_idxOf ((hτ.full i _ hk).keys _ hleaves))

theorem finals_key {j : Nat} (hj : j ∈ m.finals τ) : ∃ k ∈ finalKeys m, τ.keys[j]? = some k := by
  have hlt := finals_lt m hj
  exact ⟨_, (mem_finals m hτ (getElem?_eq_getElem hlt)).1 hj, getElem?_eq_getElem hlt⟩

/-- The runs end at the final states that were met. -/
theorem runs_end (hos : os ∈ m.runs) :
    ∃ j ∈ m.finals τ, ∃ k, τ.keys[j]? = some k ∧ Run (Leaves m.out) (m.trio ⟨0, 0, 0⟩) os k := by
  obtain ⟨k, hk, hrun⟩ := (mem_runs m).1 hos
  obtain ⟨j, hj⟩ := run_number hτ hrun hτ.first
  exact ⟨j, (mem_finals m hτ hj).2 hk, k, hj, hrun⟩

end

include hstamps hlabels

theorem traced_single {f : Nat} (hf : m.finals τ = [f]) (c : Transducer W) (hin : c.inAlph = a.inAlph)
    (hout : c.outAlph = b.outAlph) (hstates : c.states = tableStates τ) (hfinal : c.final = f) :
    Traced m stamp c False (labelAt τ.keys m.out) := by
  have hdrawn := drawn_tableStates m hτ hstamps hlabels c.toWfst hstates
  obtain ⟨kf, hkf, hnumber⟩ := finals_key hτ (hf ▸ mem_singleton.2 rfl)
  have hruns : m.runs = {os | Run (Leaves m.out) (m.trio ⟨0, 0, 0⟩) os kf} := by
    ext os
    constructor
    · intro hos
      obtain ⟨j, hj, k, hk, hrun⟩ := runs_end hτ hos
      obtain rfl : j = f := mem_singleton.1 (hf ▸ hj)
      obtain rfl : k = kf := Option.mem_unique hk hnumber
      exact hrun
    · intro hrun
      exact (mem_runs m).2 ⟨kf, hkf, hrun⟩
  subst hfinal
  refine ⟨hin, hout, ?_, ?_, ?_⟩
  · rw [hruns]
    exact hdrawn.bijOn hτ.first hnumber
  · intro ps hps
    exact draws_taken (hdrawn.run_of_path hps hτ.first hnumber).2
  · intro p x hx
    have hlt : p.src < τ.keys.length := by
      have := (Wfst.arc?_lt hx).1
      rwa [Wfst.numStates, hstates, tableStates, length_map, length_range] at this
    obtain ⟨o, k', hlabel, -, hdraws, hleaves⟩ := hdrawn.arc_of_ptr (getElem?_eq_getElem hlt) hx
    exact .inr ⟨o, _, k', hlabel, hleaves, hdraws⟩

theorem traced_merged (c : Transducer W) (hin : c.inAlph = a.inAlph) (hout : c.outAlph = b.outAlph)
    (hstates : c.states = mergedStates τ (m.finals τ)) (hfinal : c.final = τ.keys.length) :
    Traced m stamp c True fun p => (labelAt (τ.keys.map some ++ [none]) (mergedOut m (finalKeys m)) p).join := by
  have hdrawn := drawn_mergedStates m hτ hstamps hlabels c.toWfst hstates
  have hfirst : (τ.keys.map some ++ [none])[0]? = some (some (m.trio ⟨0, 0, 0⟩)) := by
    have hlt := (List.getElem?_eq_some_iff.1 hτ.first).1
    rw [getElem?_append_left (by rw [length_map]; exact hlt), getElem?_map, hτ.first]
    rfl
  have hlast : (τ.keys.map some ++ [none])[τ.keys.length]? = some none := by
    rw [getElem?_append_right (by rw [length_map]), length_map, Nat.sub_self]
    rfl
  have hjoin : ∀ ps : List ArcPtr,
      ps.filterMap (fun p => (labelAt (τ.keys.map some ++ [none]) (mergedOut m (finalKeys m)) p).join) =
        (ps.filterMap (labelAt (τ.keys.map some ++ [none]) (mergedOut m (finalKeys m)))).filterMap id := by
    intro ps
    rw [filterMap_filterMap]
    rfl
  have hid : ∀ os : List (Origin W), (os.map some ++ [none]).filterMap id = os := by
    simp
  have hdrop : Set.BijOn (List.filterMap id)
      {ols | Run (Leaves (mergedOut m (finalKeys m))) (some (m.trio ⟨0, 0, 0⟩)) ols none} m.runs := by
    refine ⟨?_, ?_, ?_⟩
    · intro ols hols
      obtain ⟨os, rfl, kf, hkf, hrun⟩ := (merged_runs m).1 hols
      rw [hid]
      exact (mem_runs m).2 ⟨kf, hkf, hrun⟩
    · intro ols hols ols' hols' heq
      obtain ⟨os, rfl, -⟩ := (merged_runs m).1 hols
      obtain ⟨os', rfl, -⟩ := (merged_runs m).1 hols'
      rw [hid, hid] at heq
      rw [heq]
    · intro os hos
      obtain ⟨kf, hkf, hrun⟩ := (mem_runs m).1 hos
      exact ⟨os.map some ++ [none], (merged_runs m).2 ⟨os, rfl, kf, hkf, hrun⟩, hid os⟩
  refine ⟨hin, hout, ?_, ?_, ?_⟩
  · have hpaths := hdrop.comp (hdrawn.bijOn hfirst hlast)
    unfold Wfst.Accepting
    rw [hfinal]
    refine hpaths.congr ?_
    intro ps _
    exact (hjoin ps).symm
  · intro ps hps
    rw [hjoin]
    unfold Wfst.Accepting at hps
    rw [hfinal] at hps
    obtain ⟨hrun, hall⟩ := hdrawn.run_of_path hps hfirst hlast
    obtain ⟨os, hos, -⟩ := (merged_runs m).1 hrun
    rw [hos] at hall ⊢
    rw [hid]
    -- the last arc is the one to the merged final state, it reads and writes nothing
    obtain ⟨xs, hxs, htaken⟩ := forall₂_concat (fun _ hx => hx) hall
    rw [List.forall₂_map_left_iff] at hxs
    obtain ⟨hinputs, houtputs, hweight⟩ := draws_taken hxs
    obtain ⟨hfin, hfout, hfweight⟩ := draws_finalArc xs τ.keys.length
    unfold Wfst.pathIn Wfst.pathOut Wfst.pathWeight
    rw [htaken]
    exact ⟨hfin.trans hinputs, hfout.trans houtputs, hfweight.trans hweight⟩
  · intro p x hx
    have hlt : p.src < (τ.keys.map some ++ [none] : List (Option K)).length := by
      have := (Wfst.arc?_lt hx).1
      rw [Wfst.numStates, hstates] at this
      simpa [mergedStates] using this
    obtain ⟨ol, k', hlabel, -, hdraws, hleaves⟩ := hdrawn.arc_of_ptr (getElem?_eq_getElem hlt) hx
    generalize (τ.keys.map some ++ [none])[p.src] = key at hleaves
    cases key with
    | none => cases hleaves
    | some k =>
      rcases (leaves_merged m).1 hleaves with ⟨o, k1, rfl, -, hmem⟩ | ⟨rfl, -⟩
      · exact .inr ⟨o, k, k1, by rw [hlabel]; rfl, hmem, hdraws⟩
      · refine .inl ⟨trivial, ?_, by rw [hlabel]; rfl⟩
        rw [hfinal]
        exact hdraws

/-- **A composition is traced, and without a final state there is no run.** -/
theorem finish_traced : (m.finish τ hτ = .invalid ∧ m.runs = ∅) ∨
    ∃ c, m.finish τ hτ = .valid c ∧ Traced m stamp c (1 < (m.finals τ).length) (m.originAt τ) := by
  unfold Mode.finish
  split
  · rename_i hnil
    refine .inl ⟨rfl, Set.eq_empty_of_forall_notMem ?_⟩
    intro os hos
    obtain ⟨j, hj, -⟩ := runs_end hτ hos
    rw [hnil] at hj
    cases hj
  · rename_i f hf
    have hlt : f < (tableStates τ).length := by
      rw [tableStates, length_map, length_range]
      exact finals_lt m (hf ▸ mem_singleton.2 rfl)
    have htraced := traced_single hτ hstamps hlabels hf
      (composedOf a b (tableStates τ) f hlt (inBounds_tableStates m hτ)) rfl rfl rfl rfl
    have horigin : m.originAt τ = labelAt τ.keys m.out := by
      funext p
      exact if_neg (by rw [hf]; simp)
    rw [horigin]
    exact .inr ⟨_, rfl, htraced.mono m False.elim⟩
  · rename_i f1 f2 fs hf
    have hlt : τ.keys.length < (mergedStates τ (f1 :: f2 :: fs)).length := by simp [mergedStates]
    have htraced := traced_merged hτ hstamps hlabels
      (composedOf a b (mergedStates τ (f1 :: f2 :: fs)) τ.keys.length hlt (inBounds_mergedStates m hτ _))
      rfl rfl (by rw [hf]; rfl) rfl
    have hmore : 1 < (m.finals τ).length := by
      rw [hf]
      simp
    have horigin : m.originAt τ =
        fun p => (labelAt (τ.keys.map some ++ [none]) (mergedOut m (finalKeys m)) p).join := by
      funext p
      exact if_pos hmore
    rw [horigin]
    exact .inr ⟨_, rfl, htraced.mono m fun _ => hmore⟩

end Spec

/-! ## Both modes -/

section Modes

variable {a b : Transducer W}

/-- The runs of the 3 state filter are the pairs of runs that agree. -/
theorem threeState_runs (indexThreshold : Nat) :
    Set.BijOn (fun os => (lefts os, rights os)) (threeStateMode a b indexThreshold).runs
      {r | Run a.Takes 0 r.1 a.final ∧ Run b.Takes 0 r.2 b.final ∧
        Agree HalfArc.letterA HalfArc.letterB (SameName a b) r.1 r.2} := by
  have hruns : (threeStateMode a b indexThreshold).runs =
      {os | ∃ f, Run (ThreeStep a b) (0, 0, 0) os (a.final, b.final, f)} := by
    ext os
    refine exists_congr fun f => ⟨?_, ?_⟩
    · intro h
      exact h.map TrioKey.trio fun k o k' hstep => mem_threeState.1 hstep
    · intro h
      have hlift : ∀ (k : TrioKey) (o : Origin W) (t : Nat × Nat × Fin 3), ThreeStep a b k.trio o t →
          ∃ k', TrioKey.trio k' = t ∧ Leaves (threeStateMode a b indexThreshold).out k o k' :=
        fun k o t hstep => ⟨⟨t.1, t.2.1, t.2.2⟩, rfl, mem_threeState.2 hstep⟩
      obtain ⟨⟨p, q, f'⟩, heq, hrun⟩ := Run.lift (v := (⟨0, 0, 0⟩ : TrioKey)) TrioKey.trio hlift h
      cases heq
      exact hrun
  rw [hruns]
  exact step3_bijOn

/-- The runs of the 2 state filter are the same pairs. -/
theorem twoState_runs : Set.BijOn (fun os => (lefts os, rights os)) (twoStateMode a b).runs
    {r | Run a.Takes 0 r.1 a.final ∧ Run b.Takes 0 r.2 b.final ∧
      Agree HalfArc.letterA HalfArc.letterB (SameName a b) r.1 r.2} := by
  have hruns : (twoStateMode a b).runs =
      {os | ∃ f, Run (TwoStep a b) (.pair 0 0 0) os (.pair a.final b.final f)} := by
    ext os
    refine exists_congr fun f => ⟨?_, ?_⟩
    · intro h
      exact h.map between fun k o k' hstep => mem_twoState.1 hstep
    · intro h
      have hlift : ∀ (k : TrioKey ⊕ HalfArcState) (o : Origin W) (t : Lib.Between Nat Nat Nat),
          TwoStep a b (between k) o t → ∃ k', between k' = t ∧ Leaves (twoStateMode a b).out k o k' := by
        intro k o t hstep
        obtain ⟨k', rfl⟩ : ∃ k', between k' = t := by
          generalize between k = s at hstep
          cases hstep with
          | left => exact ⟨.inl ⟨_, _, _⟩, rfl⟩
          | right => exact ⟨.inl ⟨_, _, _⟩, rfl⟩
          | answer => exact ⟨.inl ⟨_, _, _⟩, rfl⟩
          | ask _ hl => exact ⟨.inr ⟨_, _, _, fun hc => (nonEpsilon_eq_some.1 hl).1 ((nonEpsilon_eq_some.1 hl).2.trans hc)⟩, rfl⟩
        exact ⟨k', rfl, mem_twoState.2 hstep⟩
      obtain ⟨k', heq, hrun⟩ := Run.lift (v := (Sum.inl ⟨0, 0, 0⟩ : TrioKey ⊕ HalfArcState)) between hlift h
      obtain rfl : k' = .inl ⟨a.final, b.final, f⟩ := between_injective heq
      exact hrun
  rw [hruns]
  exact step2_bijOn

/-- The accepting paths. -/
def Composed.accepted : Composed W → Set (List ArcPtr)
  | .invalid => ∅
  | .valid c => {ps | c.Accepting ps}

/-- The accepting paths with an input and an output. -/
def Composed.paths : Composed W → List Nat → List Nat → Set (List ArcPtr)
  | .invalid, _, _ => ∅
  | .valid c, i, o => {ps | c.Accepting ps ∧ c.pathIn ps = i ∧ c.pathOut ps = o}

def Composed.weight [Monoid W] : Composed W → List ArcPtr → W
  | .invalid, _ => 1
  | .valid c, ps => c.pathWeight ps

/-- A path of the composition is told from the pair it stands for: its input, its output and its weight. -/
structure Pairs [Monoid W] (a b : Transducer W) (x : Composed W) (f : List ArcPtr → List ArcPtr × List ArcPtr) : Prop where
  bijOn : Set.BijOn f x.accepted (Composable a b)
  path : ∀ c, x = .valid c → c.inAlph = a.inAlph ∧ c.outAlph = b.outAlph ∧ ∀ ps, c.Accepting ps →
    c.pathIn ps = a.pathIn (f ps).1 ∧ c.pathOut ps = b.pathOut (f ps).2 ∧
      c.pathWeight ps = a.pathWeight (f ps).1 * b.pathWeight (f ps).2

end Modes

section Pairing

variable [CommMonoid W] {a b : Transducer W} {K Γ : Type} [DecidableEq K] {m : Mode a b K}

/-- The pointers of the two sides of the origins along a path. -/
def sides (originAt : ArcPtr → Option (Origin W)) (ps : List ArcPtr) : List ArcPtr × List ArcPtr :=
  ptrs (lefts (ps.filterMap originAt), rights (ps.filterMap originAt))

omit [DecidableEq K] in
theorem Traced.pairs {stamp : Origin W → Nat → Prop} {c : Transducer W} {merged : Prop}
    {originAt : ArcPtr → Option (Origin W)} (h : Traced m stamp c merged originAt)
    (hruns : Set.BijOn (fun os => (lefts os, rights os)) m.runs
      {r | Run a.Takes 0 r.1 a.final ∧ Run b.Takes 0 r.2 b.final ∧
        Agree HalfArc.letterA HalfArc.letterB (SameName a b) r.1 r.2}) :
    Pairs a b (.valid c) (sides originAt) where
  bijOn := (ptrs_bijOn a b).comp (hruns.comp h.paths)
  path := by
    rintro c' hc'
    obtain rfl := Composed.valid.inj hc'
    refine ⟨h.inAlph, h.outAlph, ?_⟩
    intro ps hps
    obtain ⟨hleft, hright, -⟩ := hruns.mapsTo (h.paths.mapsTo hps)
    obtain ⟨hin, hout, hweight⟩ := h.taken ps hps
    have htakenA : a.taken (sides originAt ps).1 = leftArcs (ps.filterMap originAt) := taken_of_run hleft
    have htakenB : b.taken (sides originAt ps).2 = rightArcs (ps.filterMap originAt) := taken_of_run hright
    refine ⟨?_, ?_, ?_⟩
    · rw [hin, ← htakenA]
      rfl
    · rw [hout, ← htakenB]
      rfl
    · rw [hweight, ← htakenA, ← htakenB]
      rfl

variable (m) in
/-- A composition by a mode, with what `record` promises of the groups it gives. -/
theorem compose_traced (hlabels : ∀ k, ((m.out k).map Prod.fst).Nodup) (record : Γ → Origin W → Γ × Nat) {store : Γ}
    (good : Γ → Origin W → Nat → Prop) (fine : Γ → Prop)
    (hrecord : ∀ γ k p, p ∈ m.out k → fine γ → fine (record γ p.1).1 ∧ good (record γ p.1).1 p.1 (record γ p.1).2 ∧
      ∀ o g, good γ o g → good (record γ p.1).1 o g) (hstore : fine store) :
    fine (m.compose record store).1 ∧ (((m.compose record store).2 = .invalid ∧ m.runs = ∅) ∨
      ∃ c, (m.compose record store).2 = .valid c ∧
        Traced m (good (m.compose record store).1) c (1 < (m.finals (m.table record store)).length)
          (m.originAt (m.table record store))) := by
  obtain ⟨hfine, hstamps⟩ := Table.run_stamped good fine hrecord hstore (m.run_table record store)
  exact ⟨hfine, finish_traced (m.built_table record store) hstamps hlabels⟩

variable (m) in
theorem compose_pairs (hlabels : ∀ k, ((m.out k).map Prod.fst).Nodup) (record : Γ → Origin W → Γ × Nat) (store : Γ)
    (hruns : Set.BijOn (fun os => (lefts os, rights os)) m.runs
      {r | Run a.Takes 0 r.1 a.final ∧ Run b.Takes 0 r.2 b.final ∧
        Agree HalfArc.letterA HalfArc.letterB (SameName a b) r.1 r.2}) :
    ∃ f, Pairs a b (m.compose record store).2 f := by
  obtain ⟨-, ⟨hinvalid, hempty⟩ | ⟨c, hc, htraced⟩⟩ :=
    compose_traced m hlabels record (fun _ _ _ => True) (fun _ => True)
      (fun _ _ _ _ _ => ⟨trivial, trivial, fun _ _ _ => trivial⟩) (trivial : (fun _ : Γ => True) store)
  · refine ⟨fun _ => ([], []), ?_, ?_⟩
    · have hall := (ptrs_bijOn a b).comp hruns
      rw [hempty] at hall
      have hnone : Composable a b = ∅ := by
        rw [← hall.image_eq, Set.image_empty]
      rw [hinvalid, hnone]
      exact Set.bijOn_empty _
    · intro c hc
      rw [hinvalid] at hc
      cases hc
  · rw [hc]
    exact ⟨_, htraced.pairs hruns⟩

end Pairing

/-- **The accepting paths of a composition are the pairs of accepting paths with one string between them**, each with
the input of the first, the output of the second and the product of the weights. -/
theorem setCompose_pairs [CommMonoid W] {Γ : Type} (record : Γ → Origin W → Γ × Nat) (store : Γ) (indexThreshold : Nat)
    (a b : Transducer W) :
    ∃ f, Pairs a b (setCompose record store indexThreshold false a b).2 f :=
  compose_pairs (threeStateMode a b indexThreshold) (nodup_threeState indexThreshold) record store
    (threeState_runs indexThreshold)

variable {a b : Transducer W}

/-- The paths with an input and an output stand for the pairs with that input and output. -/
theorem Pairs.paths_bijOn [Monoid W] {x : Composed W} {f : List ArcPtr → List ArcPtr × List ArcPtr}
    (h : Pairs a b x f) (i o : List Nat) :
    Set.BijOn f (x.paths i o) {r ∈ Composable a b | a.pathIn r.1 = i ∧ b.pathOut r.2 = o} ∧
      ∀ ps ∈ x.paths i o, x.weight ps = a.pathWeight (f ps).1 * b.pathWeight (f ps).2 := by
  cases x with
  | invalid =>
    have hnone : Composable a b = ∅ := by rw [← h.bijOn.image_eq, Composed.accepted, Set.image_empty]
    rw [hnone]
    simp [Composed.paths]
  | valid c =>
    obtain ⟨-, -, hpath⟩ := h.path c rfl
    refine ⟨⟨?_, ?_, ?_⟩, fun ps hps => (hpath ps hps.1).2.2⟩
    · rintro ps ⟨hps, rfl, rfl⟩
      obtain ⟨hin, hout, -⟩ := hpath ps hps
      exact ⟨h.bijOn.mapsTo hps, hin.symm, hout.symm⟩
    · intro ps hps ps' hps' heq
      exact h.bijOn.injOn hps.1 hps'.1 heq
    · rintro r ⟨hr, hi, ho⟩
      obtain ⟨ps, hps, rfl⟩ := h.bijOn.surjOn hr
      obtain ⟨hin, hout, -⟩ := hpath ps hps
      exact ⟨ps, ⟨hps, hin.trans hi, hout.trans ho⟩, rfl⟩

/-- Two compositions that stand for the same pairs have the same weighted relation. -/
theorem Pairs.same_relation [Monoid W] {x y : Composed W}
    {f g : List ArcPtr → List ArcPtr × List ArcPtr} (hf : Pairs a b x f) (hg : Pairs a b y g) (i o : List Nat) :
    ∃ h, Set.BijOn h (x.paths i o) (y.paths i o) ∧ ∀ ps ∈ x.paths i o, y.weight (h ps) = x.weight ps := by
  obtain ⟨hfb, hfw⟩ := hf.paths_bijOn i o
  obtain ⟨hgb, hgw⟩ := hg.paths_bijOn i o
  have hinv := hgb.invOn_invFunOn
  have hback := Set.BijOn.symm hinv.symm hgb
  refine ⟨_, hback.comp hfb, ?_⟩
  intro ps hps
  have hmem := hfb.mapsTo hps
  rw [Function.comp_apply, hgw _ (hback.mapsTo hmem), hinv.2 hmem, hfw ps hps]

/-- An arc of a transducer and what is copied of it: its label on the outer side, and its weight. -/
def Carries (a b : Transducer W) (o : ArcPtr ⊕ ArcPtr) (x : FSTArc W) : Prop :=
  match o with
  | .inl p => ∃ y, a.arc? p = some y ∧ x.inp = y.inp ∧ x.out = epsilonIndex ∧ x.weight = y.weight
  | .inr p => ∃ y, b.arc? p = some y ∧ x.inp = epsilonIndex ∧ x.out = y.out ∧ x.weight = y.weight

/-- The arc of an origin with one side. -/
def single? : Origin W → Option (ArcPtr ⊕ ArcPtr)
  | .left l => some (.inl l.ptr)
  | .right r => some (.inr r.ptr)
  | .both _ _ => none

/-- The 2 state filter takes an arc of one side at a time. -/
theorem twoState_single [Monoid W] {k k' : TrioKey ⊕ HalfArcState} {o : Origin W} {x : FSTArc W}
    (hleaves : Leaves (twoStateMode a b).out k o k') (hdraws : ∃ dest group, x = composeArc dest group o) :
    ∃ s, single? o = some s ∧ Carries a b s x := by
  obtain ⟨dest, group, rfl⟩ := hdraws
  have hstep := mem_twoState.1 hleaves
  generalize between k = s at hstep
  generalize between k' = s' at hstep
  cases hstep with
  | left h => exact ⟨_, rfl, _, h.2.1, rfl, rfl, rfl⟩
  | right h => exact ⟨_, rfl, _, h.2.1, rfl, rfl, rfl⟩
  | ask h => exact ⟨_, rfl, _, h.2.1, rfl, rfl, rfl⟩
  | answer h => exact ⟨_, rfl, _, h.2.1, rfl, rfl, rfl⟩

/-- The arcs of the two sides, in the order of a path. -/
theorem sides_single (os : List (Origin W)) (hos : ∀ o ∈ os, (single? o).isSome) :
    ((os.filterMap single?).filterMap Sum.getLeft?, (os.filterMap single?).filterMap Sum.getRight?) =
      ptrs (lefts os, rights os) := by
  induction os with
  | nil => rfl
  | cons o os ih =>
    have ih := Prod.mk.inj (ih fun o' ho' => hos o' (mem_cons_of_mem _ ho'))
    cases o with
    | left l => exact Prod.ext (congrArg (l.ptr :: ·) ih.1) ih.2
    | right r => exact Prod.ext ih.1 (congrArg (r.ptr :: ·) ih.2)
    | both l r =>
      have hnone := hos (.both l r) (mem_cons_self ..)
      cases hnone

/-- **The two modes define the same weighted relation**: for each input and output their accepting paths correspond,
with their weights. In the mode that preserves groups each arc, but for those into the merged final state, is one arc of
`a` or one of `b`, with its weight; those along a path are the arcs of the two paths it stands for. -/
theorem setCompose_modes [CommMonoid W] {Γ Γ' : Type} (record : Γ → Origin W → Γ × Nat) (store : Γ)
    (record' : Γ' → Origin W → Γ' × Nat) (store' : Γ') (indexThreshold indexThreshold' : Nat) (a b : Transducer W) :
    (∀ i o, ∃ g, Set.BijOn g ((setCompose record store indexThreshold true a b).2.paths i o)
        ((setCompose record' store' indexThreshold' false a b).2.paths i o) ∧
      ∀ ps ∈ (setCompose record store indexThreshold true a b).2.paths i o,
        (setCompose record' store' indexThreshold' false a b).2.weight (g ps) =
          (setCompose record store indexThreshold true a b).2.weight ps) ∧
    ∀ c, (setCompose record store indexThreshold true a b).2 = .valid c → ∃ originAt : ArcPtr → Option (ArcPtr ⊕ ArcPtr),
      (∀ p x, c.arc? p = some x →
        (1 < ((twoStateMode a b).finals ((twoStateMode a b).table record store)).length ∧ x.dest = c.final) ∨
          ∃ s, originAt p = some s ∧ Carries a b s x) ∧
      ∀ ps, c.Accepting ps →
        ((ps.filterMap originAt).filterMap Sum.getLeft?, (ps.filterMap originAt).filterMap Sum.getRight?) ∈
          Composable a b := by
  constructor
  · intro i o
    obtain ⟨f, hf⟩ := compose_pairs (twoStateMode a b) nodup_twoState record store twoState_runs
    obtain ⟨g, hg⟩ := compose_pairs (threeStateMode a b indexThreshold') (nodup_threeState indexThreshold') record' store'
      (threeState_runs indexThreshold')
    exact hf.same_relation hg i o
  · intro c hc
    obtain ⟨-, ⟨hinvalid, -⟩ | ⟨c', hc', h⟩⟩ := compose_traced (twoStateMode a b) nodup_twoState record
      (fun _ _ _ => True) (fun _ => True) (fun _ _ _ _ _ => ⟨trivial, trivial, fun _ _ _ => trivial⟩)
      (trivial : (fun _ : Γ => True) store)
    · cases hc.symm.trans hinvalid
    · obtain rfl := Composed.valid.inj (hc'.symm.trans hc)
      generalize (twoStateMode a b).originAt ((twoStateMode a b).table record store) = originAt at h
      refine ⟨fun p => (originAt p).bind single?, ?_, ?_⟩
      · intro p x hx
        rcases h.arcs p x hx with ⟨hmerged, rfl, -⟩ | ⟨o, k, k', ho, hleaves, dest, group, -, hdraws⟩
        · exact .inl ⟨hmerged, rfl⟩
        · obtain ⟨s, hs, hcarries⟩ := twoState_single hleaves ⟨dest, group, hdraws⟩
          have horigin : (originAt p).bind single? = some s := by rw [ho]; exact hs
          exact .inr ⟨s, horigin, hcarries⟩
      · intro ps hps
        have hsingle : ∀ o ∈ ps.filterMap originAt, (single? o).isSome := by
          obtain ⟨f, hrun⟩ := h.paths.mapsTo hps
          intro o ho
          obtain ⟨k, k', hleaves⟩ := hrun.label o ho
          obtain ⟨s, hs, -⟩ := twoState_single hleaves ⟨0, 0, rfl⟩
          rw [hs]
          rfl
        rw [← filterMap_filterMap, sides_single _ hsingle]
        exact (ptrs_bijOn a b).mapsTo (twoState_runs.mapsTo (h.paths.mapsTo hps))

end Sbmt.Carmel
