import Sbmt.Ghkm.ForestText
import Sbmt.Lib.DepthFirst
import Sbmt.Lib.Fallible

/-!
# The walks over a forest that has been read (`PackedForest.C:144-145`)

`computeSpans` returns only if no null pointer can be reached from the root (`sound_of_computeSpans`), which it finds by
following every pointer once; where none can be reached, both walks return (`computeSpans_of_sound`, `copyUp_of_sound`),
on cyclic forests too, since a node is marked before its children are looked at.
-/

namespace Sbmt.Ghkm.ForestText

open Sbmt.Lib Sbmt.Lib.DepthFirst List Function

/-! ## What can be reached -/

inductive Reachable (f : PackedForest) : Option Nat → Prop where
  | root : Reachable f f.root
  | child {i : Nat} {n : OrNode} {a : AndNode} {p : Option Nat} : Reachable f (some i) → f.nodes[i]? = some n →
      a ∈ n.alternatives → p ∈ a.children → Reachable f p

/-- A null root, or one from which every OR node is non-null and has at least one alternative. -/
def PackedForest.Sound (f : PackedForest) : Prop :=
  f.root = none ∨ ∀ p, Reachable f p → ∃ i n, p = some i ∧ f.nodes[i]? = some n ∧ n.alternatives ≠ []

/-! ## Nodes without their spans -/

def AndNode.bare (a : AndNode) : AndNode := { a with span := (0, 0) }

def OrNode.bare (n : OrNode) : OrNode := { n with alternatives := n.alternatives.map AndNode.bare }

variable (nodes : List OrNode)

def bareNodes : List OrNode := nodes.map OrNode.bare

/-- How many alternatives an OR node has. -/
def count (i : Nat) : Option Nat := (nodes[i]?).map fun n => n.alternatives.length

def kids (u : Nat × Nat) : Option (List (Option Nat)) := (andNode? nodes u).map AndNode.children

variable {nodes nodes' : List OrNode} {i j : Nat} {n : OrNode} {u a : Nat × Nat}

theorem getElem?_bare : (bareNodes nodes)[i]? = (nodes[i]?).map OrNode.bare := getElem?_map

theorem count_bare : count (bareNodes nodes) i = count nodes i := by
  rw [count, getElem?_bare, Option.map_map]
  congr 1
  exact funext fun n => length_map _

theorem andNode?_bare : andNode? (bareNodes nodes) u = (andNode? nodes u).map AndNode.bare := by
  rw [andNode?, andNode?, getElem?_bare]
  cases nodes[u.1]? with
  | none => rfl
  | some n => exact getElem?_map

theorem kids_bare : kids (bareNodes nodes) u = kids nodes u := by
  rw [kids, andNode?_bare, Option.map_map]
  rfl

theorem count_congr (h : bareNodes nodes = bareNodes nodes') : count nodes = count nodes' := by
  funext i
  rw [← count_bare, h, count_bare]

theorem kids_congr (h : bareNodes nodes = bareNodes nodes') : kids nodes = kids nodes' := by
  funext u
  rw [← kids_bare, h, kids_bare]

variable (nodes a) in
theorem bareNodes_setSpan (span : Int × Int) :
    bareNodes (setSpan nodes a span) = bareNodes nodes := by
  apply ext_getElem?
  intro i
  rw [getElem?_bare, getElem?_bare, setSpan, getElem?_modify]
  by_cases hi : a.1 = i
  · subst hi
    cases nodes[a.1]? with
    | none => rfl
    | some n =>
      simp only [if_true, Option.map_some, Option.some.injEq, Option.map_eq_map]
      rw [OrNode.bare]
      congr 1
      apply ext_getElem?
      intro j
      rw [getElem?_map, getElem?_map, getElem?_modify]
      by_cases hj : a.2 = j
      · subst hj
        cases n.alternatives[a.2]? with
        | none => rfl
        | some b => simp [AndNode.bare]
      · simp [hj]
  · simp [hi]

variable {m : Nat}

theorem lt_of_count (h : count nodes i = some m) : ∃ n, nodes[i]? = some n ∧ n.alternatives.length = m := by
  obtain ⟨n, hn, rfl⟩ := Option.map_eq_some_iff.1 h
  exact ⟨n, hn, rfl⟩

theorem exists_kids (h : count nodes i = some m) (hj : j < m) :
    ∃ n b, nodes[i]? = some n ∧ b ∈ n.alternatives ∧ kids nodes (i, j) = some b.children := by
  obtain ⟨n, hn, rfl⟩ := lt_of_count h
  refine ⟨n, n.alternatives[j], hn, getElem_mem hj, ?_⟩
  simp [kids, andNode?, hn, hj]

theorem deref_eq_ok {p : Option Nat} (h : deref nodes p = .ok (i, n)) :
    p = some i ∧ nodes[i]? = some n ∧ n.alternatives ≠ [] := by
  cases p with
  | none => cases h
  | some k =>
    simp only [deref] at h
    split at h
    · cases h
    · next m hm =>
      split at h
      · cases h
      · next hne =>
        obtain ⟨rfl, rfl⟩ := Prod.mk.inj (Except.ok.inj h)
        exact ⟨rfl, hm, hne⟩

theorem deref_of_ne_nil (h : nodes[i]? = some n) (hne : n.alternatives ≠ []) : deref nodes (some i) = .ok (i, n) := by
  simp [deref, h, hne]

theorem deref_of_count (h : count nodes i = some m) (hm : 0 < m) :
    ∃ n, deref nodes (some i) = .ok (i, n) ∧ n.alternatives.length = m := by
  obtain ⟨n, hn, rfl⟩ := lt_of_count h
  exact ⟨n, deref_of_ne_nil hn (ne_nil_of_length_pos hm), rfl⟩

/-! ## A run of `computeSpans` that returns -/

/-- The pointer is good, and all alternatives of the node are marked. -/
def Covered (nodes : List OrNode) (marks : Nat × Nat → Bool) (p : Option Nat) : Prop :=
  ∃ i m, p = some i ∧ count nodes i = some m ∧ 0 < m ∧ ∀ j < m, marks (i, j) = true

/-- What a walk adds to the marks has been followed. -/
structure Followed (nodes : List OrNode) (marks marks' : Nat × Nat → Bool) : Prop where
  kept : ∀ u, marks u = true → marks' u = true
  done : ∀ u, marks' u = true → marks u = true ∨ ∀ cs, kids nodes u = some cs → ∀ p ∈ cs, Covered nodes marks' p

variable {marks marks1 marks' : Nat × Nat → Bool} {st st' : SpanState} {p : Option Nat} {fuel : Nat}

theorem Covered.mono (h : Covered nodes marks p) (hkept : ∀ u, marks u = true → marks' u = true) :
    Covered nodes marks' p := by
  obtain ⟨i, m, hp, hm, hpos, hall⟩ := h
  exact ⟨i, m, hp, hm, hpos, fun j hj => hkept _ (hall j hj)⟩

theorem Followed.refl : Followed nodes marks marks := ⟨fun _ h => h, fun _ h => .inl h⟩

theorem Followed.trans (h1 : Followed nodes marks marks1) (h2 : Followed nodes marks1 marks') :
    Followed nodes marks marks' where
  kept u hu := h2.kept u (h1.kept u hu)
  done u hu := by
    rcases h2.done u hu with hmid | hnew
    · exact (h1.done u hmid).imp_right fun h cs hcs p hp => (h cs hcs p hp).mono h2.kept
    · exact .inr hnew

/-- A node may be marked before its children have been followed. -/
theorem Followed.node (h : Followed nodes (update marks a true) marks')
    (hkids : ∀ cs, kids nodes a = some cs → ∀ p ∈ cs, Covered nodes marks' p) :
    Followed nodes marks marks' ∧ marks' a = true := by
  refine ⟨⟨fun u hu => ?_, fun u hu => ?_⟩, h.kept a (update_self ..)⟩
  · by_cases hua : u = a
    · exact hua ▸ h.kept a (update_self ..)
    · exact h.kept u ((update_of_ne hua ..).trans hu)
  · by_cases hua : u = a
    · exact .inr (hua ▸ hkids)
    · rcases h.done u hu with hmid | hnew
      · exact .inl ((update_of_ne hua ..).symm.trans hmid)
      · exact .inr hnew

/-- A walk from `st` to `st'` has followed what it marked, and left `P`. -/
abbrev Walks (nodes : List OrNode) (st st' : SpanState) (P : Prop) : Prop :=
  bareNodes st'.nodes = bareNodes nodes ∧ Followed nodes st.leavesComputed st'.leavesComputed ∧ P

theorem loop_ok {α : Type} {step : SpanState → α → Except Stop SpanState} {P : α → (Nat × Nat → Bool) → Prop} {l : List α}
    (hkeep : ∀ {x marks marks'}, P x marks → Followed nodes marks marks' → P x marks')
    (h : ∀ x ∈ l, ∀ st st', bareNodes st.nodes = bareNodes nodes → step st x = .ok st' →
      Walks nodes st st' (P x st'.leavesComputed))
    (hst : bareNodes st.nodes = bareNodes nodes) (hrun : l.foldlM step st = .ok st') :
    Walks nodes st st' (∀ x ∈ l, P x st'.leavesComputed) := by
  refine foldlM_ok_steps (I := fun st => bareNodes st.nodes = bareNodes nodes)
    (R := fun st st' => Followed nodes st.leavesComputed st'.leavesComputed)
    (P := fun x st => P x st.leavesComputed) ?_ ?_ ?_ h hst hrun
  · exact fun st => .refl
  · exact fun h1 h2 => h1.trans h2
  · exact fun h1 h2 => hkeep h1 h2

theorem OrNode.computeSpan_ok {visit : Nat × Nat → SpanState → Except Stop SpanState}
    (hvisit : ∀ {u st st'}, bareNodes st.nodes = bareNodes nodes → visit u st = .ok st' →
      Walks nodes st st' (st'.leavesComputed u = true))
    (hst : bareNodes st.nodes = bareNodes nodes) (hrun : OrNode.computeSpan visit st p = .ok st') :
    Walks nodes st st' (Covered nodes st'.leavesComputed p) := by
  rw [OrNode.computeSpan] at hrun
  split at hrun
  · cases hrun
  · next i n hderef =>
    obtain ⟨rfl, hn, hne⟩ := deref_eq_ok hderef
    have hcount : count nodes i = some n.alternatives.length := by
      rw [← count_congr hst, count, hn]
      rfl
    obtain ⟨hst', hfollowed, hall⟩ := loop_ok (P := fun j marks => marks (i, j) = true)
      (fun h1 h2 => h2.kept _ h1) (fun j _ st st' hst h => hvisit hst h) hst hrun
    exact ⟨hst', hfollowed, i, _, rfl, hcount, length_pos_iff.2 hne, fun j hj => hall j (mem_range.2 hj)⟩

theorem AndNode.computeSpan_ok (hst : bareNodes st.nodes = bareNodes nodes)
    (hrun : AndNode.computeSpan fuel a st = .ok st') :
    Walks nodes st st' (st'.leavesComputed a = true) := by
  induction fuel generalizing a st st' with
  | zero => cases hrun
  | succ fuel ih =>
    rw [AndNode.computeSpan] at hrun
    split at hrun
    · next hmark =>
      obtain rfl := Except.ok.inj hrun
      exact ⟨hst, .refl, hmark⟩
    · dsimp only at hrun
      have hkids : kids nodes a = (andNode? st.nodes a).map AndNode.children := (congrFun (kids_congr hst) a).symm
      split at hrun
      · cases hrun
      · next hleaf =>
        obtain rfl := Except.ok.inj hrun
        refine ⟨(bareNodes_setSpan ..).trans hst, Followed.node .refl ?_⟩
        intro cs hcs p hp
        obtain rfl : [] = cs := Option.mem_unique hleaf (hkids.symm.trans hcs)
        cases hp
      · next p ps hinner =>
        split at hrun
        · cases hrun
        · next st2 hloop =>
          have hst1 : bareNodes (SpanState.mk st.wdIndex (update st.leavesComputed a true) st.nodes).nodes =
            bareNodes nodes := hst
          obtain ⟨hst2, hfollowed, hall⟩ := loop_ok (P := fun p marks => Covered nodes marks p)
            (fun h1 h2 => h1.mono h2.kept)
            (fun p _ st st' hst h => OrNode.computeSpan_ok (fun hst h => ih hst h) hst h) hst1 hloop
          have hdone : ∀ cs, kids nodes a = some cs → ∀ p ∈ cs, Covered nodes st2.leavesComputed p := by
            intro cs hcs q hq
            obtain rfl : p :: ps = cs := Option.mem_unique hinner (hkids.symm.trans hcs)
            exact hall q hq
          split at hrun
          · obtain rfl := Except.ok.inj hrun
            exact ⟨(bareNodes_setSpan ..).trans hst2, Followed.node hfollowed hdone⟩
          · cases hrun
          · cases hrun

variable {forest : PackedForest}

/-- **A walk from the root follows every pointer that can be reached.** -/
theorem covered_of_reachable {r : Nat} (hroot : forest.root = some r)
    (hrun : OrNode.computeSpan (AndNode.computeSpan fuel) ⟨0, fun _ => false, forest.nodes⟩ (some r) = .ok st) :
    bareNodes st.nodes = bareNodes forest.nodes ∧
      ∀ p, Reachable forest p → Covered forest.nodes st.leavesComputed p := by
  have hwalk : bareNodes st.nodes = bareNodes forest.nodes ∧
      Followed forest.nodes (fun _ => false) st.leavesComputed ∧ Covered forest.nodes st.leavesComputed (some r) :=
    OrNode.computeSpan_ok (fun hst h => AndNode.computeSpan_ok hst h) rfl hrun
  obtain ⟨hst, hfollowed, hcovered⟩ := hwalk
  refine ⟨hst, fun p hp => ?_⟩
  induction hp with
  | root => exact hroot ▸ hcovered
  | @child i n a p _ hn ha hp ih =>
    obtain ⟨i', m, hi, hm, -, hall⟩ := ih
    obtain rfl : i = i' := Option.some.inj hi
    obtain ⟨j, hj, rfl⟩ := mem_iff_getElem.1 ha
    have hm' : m = n.alternatives.length := by
      rw [count, hn] at hm
      exact (Option.some.inj hm).symm
    have hkids : kids forest.nodes (i, j) = some (n.alternatives[j]).children := by
      simp [kids, andNode?, hn, hj]
    rcases hfollowed.done (i, j) (hall j (hm' ▸ hj)) with hno | hdone
    · cases hno
    · exact hdone _ hkids p hp

/-- **No null pointer can be reached from the root of a forest whose spans have been computed.** -/
theorem sound_of_computeSpans (h : computeSpans fuel forest = .ok nodes') :
    bareNodes nodes' = bareNodes forest.nodes ∧ forest.Sound := by
  rw [computeSpans] at h
  split at h
  · next hroot => exact ⟨congrArg bareNodes (Except.ok.inj h).symm, .inl hroot⟩
  · next r hroot =>
    cases hrun : OrNode.computeSpan (AndNode.computeSpan fuel) ⟨0, fun _ => false, forest.nodes⟩ (some r) with
    | error e =>
      rw [hrun] at h
      cases h
    | ok st =>
      rw [hrun] at h
      obtain rfl := Except.ok.inj h
      obtain ⟨hst, hreach⟩ := covered_of_reachable hroot hrun
      refine ⟨hst, .inr fun p hp => ?_⟩
      obtain ⟨i, m, hi, hm, hpos, -⟩ := hreach p hp
      obtain ⟨n, hn, rfl⟩ := lt_of_count hm
      exact ⟨i, n, hi, hn, length_pos_iff.1 hpos⟩

/-! ## Both walks return where no null pointer can be reached -/

/-- A set of OR nodes that no pointer leads out of. -/
def Closed (nodes : List OrNode) (S : Nat → Prop) : Prop := ∀ i, S i → ∃ m, count nodes i = some m ∧ 0 < m ∧
  ∀ j < m, ∀ cs, kids nodes (i, j) = some cs → ∀ p ∈ cs, ∃ k, p = some k ∧ S k

/-- The places of all AND nodes. -/
def places (nodes : List OrNode) : Finset (Nat × Nat) :=
  (Finset.range nodes.length).biUnion fun i => (Finset.range ((count nodes i).getD 0)).image (i, ·)

theorem mem_places (h : count nodes i = some m) (hj : j < m) : (i, j) ∈ places nodes := by
  obtain ⟨n, hn, -⟩ := lt_of_count h
  refine Finset.mem_biUnion.2 ⟨i, Finset.mem_range.2 (List.getElem?_eq_some_iff.1 hn).1, ?_⟩
  exact Finset.mem_image.2 ⟨j, Finset.mem_range.2 (by rw [h]; exact hj), rfl⟩

theorem OrNode.computeSpan_of_closed {visit : Nat × Nat → SpanState → Except Stop SpanState} {I : SpanState → Prop}
    (hbare : ∀ {st}, I st → bareNodes st.nodes = bareNodes nodes) {k : Nat} (hm : count nodes k = some m)
    (hpos : 0 < m) (hvisit : ∀ j < m, ∀ st, I st → ∃ st', visit (k, j) st = .ok st' ∧ I st') (hst : I st) :
    ∃ st', OrNode.computeSpan visit st (some k) = .ok st' ∧ I st' := by
  obtain ⟨n, hderef, hlen⟩ := deref_of_count ((congrFun (count_congr (hbare hst)) k).trans hm) hpos
  rw [OrNode.computeSpan, hderef]
  refine foldlM_ok_of_forall ?_ hst
  exact fun j hj st hst => hvisit j (hlen ▸ mem_range.1 hj) st hst

variable {S : Nat → Prop}

section

theorem reachable_closed
    (h : ∀ p, Reachable forest p → ∃ i n, p = some i ∧ forest.nodes[i]? = some n ∧ n.alternatives ≠ []) :
    Closed forest.nodes fun i => Reachable forest (some i) := by
  intro i hi
  obtain ⟨i', n, hii', hn, hne⟩ := h (some i) hi
  obtain rfl : i = i' := Option.some.inj hii'
  have hm : count forest.nodes i = some n.alternatives.length := by rw [count, hn]; rfl
  refine ⟨n.alternatives.length, hm, length_pos_iff.2 hne, ?_⟩
  intro j hj cs hcs p hp
  obtain ⟨n', b, hn', hb, hkids⟩ := exists_kids hm hj
  obtain rfl : b.children = cs := Option.mem_unique hkids hcs
  have hreach : Reachable forest p := .child hi hn' hb hp
  obtain ⟨k, -, rfl, -, -⟩ := h p hreach
  exact ⟨k, rfl, hreach⟩

variable (hS : Closed nodes S)
include hS

theorem getSpan_of_closed (hst : bareNodes st.nodes = bareNodes nodes)
    (hp : ∃ k, p = some k ∧ S k) : ∃ span, getSpan st.nodes p = .ok span := by
  obtain ⟨k, rfl, hk⟩ := hp
  obtain ⟨m, hm, hpos, -⟩ := hS k hk
  obtain ⟨n, hderef, -⟩ := deref_of_count ((congrFun (count_congr hst) k).trans hm) hpos
  rw [getSpan, hderef]
  exact ⟨_, rfl⟩

/-- Every call that goes further has marked one more of the places. -/
theorem AndNode.computeSpan_of_closed
    (hi : S i) (hm : count nodes i = some m) (hj : j < m) (hst : bareNodes st.nodes = bareNodes nodes)
    (hfuel : unmarked (places nodes) st.leavesComputed < fuel) :
    ∃ st', AndNode.computeSpan fuel (i, j) st = .ok st' ∧ bareNodes st'.nodes = bareNodes nodes ∧
      ∀ u, st.leavesComputed u = true → st'.leavesComputed u = true := by
  induction fuel generalizing i j m st with
  | zero => exact absurd hfuel (Nat.not_lt_zero _)
  | succ fuel ih =>
    rw [AndNode.computeSpan]
    split
    · exact ⟨st, rfl, hst, fun _ h => h⟩
    · next hno =>
      dsimp only
      have hfewer := unmarked_update (mem_places hm hj) hno
      have hkept : ∀ u, st.leavesComputed u = true → update st.leavesComputed (i, j) true u = true := by
        intro u hu
        by_cases hua : u = (i, j)
        · rw [hua, update_self]
        · rwa [update_of_ne hua]
      obtain ⟨n, b, -, -, hkids⟩ := exists_kids hm hj
      rw [show (andNode? st.nodes (i, j)).map AndNode.children = some b.children from
        (congrFun (kids_congr hst) (i, j)).trans hkids]
      cases hchildren : b.children with
      | nil => exact ⟨_, rfl, (bareNodes_setSpan ..).trans hst, hkept⟩
      | cons p ps =>
        have hgood : ∀ q ∈ p :: ps, ∃ k, q = some k ∧ S k := by
          obtain ⟨m', hm', -, hclosed⟩ := hS i hi
          obtain rfl : m' = m := Option.mem_unique hm' hm
          exact hclosed j hj _ (hkids.trans (congrArg some hchildren))
        let I : SpanState → Prop := fun st1 => bareNodes st1.nodes = bareNodes nodes ∧
          ∀ u, update st.leavesComputed (i, j) true u = true → st1.leavesComputed u = true
        have hstep : ∀ q ∈ p :: ps, ∀ st1, I st1 →
            ∃ st2, OrNode.computeSpan (AndNode.computeSpan fuel) st1 q = .ok st2 ∧ I st2 := by
          intro q hq st1 hst1
          obtain ⟨k, rfl, hk⟩ := hgood q hq
          obtain ⟨mk, hmk, hpos, -⟩ := hS k hk
          refine OrNode.computeSpan_of_closed (fun h => h.1) hmk hpos ?_ hst1
          intro l hl st2 hst2
          have hfew : unmarked (places nodes) st2.leavesComputed < fuel :=
            Nat.lt_of_le_of_lt (unmarked_mono hst2.2) (by omega)
          obtain ⟨st3, hrun, hst3, hkept3⟩ := ih hk hmk hl hst2.1 hfew
          exact ⟨st3, hrun, hst3, fun u hu => hkept3 u (hst2.2 u hu)⟩
        obtain ⟨st2, hloop, hst2, hkept2⟩ := foldlM_ok_of_forall hstep
          (s := ⟨st.wdIndex, update st.leavesComputed (i, j) true, st.nodes⟩) ⟨hst, fun _ h => h⟩
        obtain ⟨first, hfirst⟩ := getSpan_of_closed hS hst2 (hgood p mem_cons_self)
        obtain ⟨last, hlast⟩ := getSpan_of_closed hS hst2 (hgood _ (getLast_mem (cons_ne_nil p ps)))
        dsimp only
        rw [hloop]
        dsimp only
        rw [hfirst, hlast]
        exact ⟨_, rfl, (bareNodes_setSpan ..).trans hst2, fun u hu => hkept2 u (hkept u hu)⟩

theorem AndNode.copyUp_of_closed {I : CopyState → Prop}
    {visit : Option Nat → CopyState → Except Stop CopyState} (hi : S i) (hm : count nodes i = some m) (hj : j < m)
    (hmark : ∀ {st ands}, I st → I { st with ands := ands })
    (hvisit : ∀ k, S k → ∀ st, I st → ∃ st', visit (some k) st = .ok st' ∧ I st') {st : CopyState} (hst : I st) :
    ∃ st', AndNode.copyUp visit nodes (i, j) st = .ok st' ∧ I st' := by
  rw [AndNode.copyUp]
  split
  · exact ⟨st, rfl, hst⟩
  · obtain ⟨n, b, -, -, hkids⟩ := exists_kids hm hj
    obtain ⟨m', hm', -, hclosed⟩ := hS i hi
    obtain rfl : m' = m := Option.mem_unique hm' hm
    rw [show (andNode? nodes (i, j)).map AndNode.children = some b.children from hkids]
    refine foldlM_ok_of_forall ?_ hst
    intro p hp st hst
    obtain ⟨k, rfl, hk⟩ := hclosed j hj _ hkids p hp
    exact hvisit k hk _ (hmark hst)

/-- Every call that goes further has marked one more of the OR nodes. -/
theorem OrNode.copyUp_of_closed (hi : S i) {st : CopyState}
    (hfuel : unmarked (Finset.range nodes.length) st.ors < fuel) :
    ∃ st', OrNode.copyUp nodes fuel (some i) st = .ok st' ∧ ∀ k, st.ors k = true → st'.ors k = true := by
  induction fuel generalizing i st with
  | zero => exact absurd hfuel (Nat.not_lt_zero _)
  | succ fuel ih =>
    rw [OrNode.copyUp]
    split
    · exact ⟨st, rfl, fun _ h => h⟩
    · next hno =>
      obtain ⟨m, hm, hpos, -⟩ := hS i hi
      obtain ⟨n, hderef, hlen⟩ := deref_of_count hm hpos
      have hmem : i ∈ Finset.range nodes.length := by
        obtain ⟨n', hn', -⟩ := lt_of_count hm
        exact Finset.mem_range.2 (List.getElem?_eq_some_iff.1 hn').1
      have hfewer := unmarked_update hmem hno
      let I : CopyState → Prop := fun st1 => ∀ k, st.ors k = true → st1.ors k = true
      rw [hderef]
      refine foldlM_ok_of_forall (I := I) ?_ fun _ h => h
      intro j hj st1 hst1
      have hinner : ∃ st2, AndNode.copyUp (OrNode.copyUp nodes fuel) nodes (i, j)
          { st1 with ors := update st1.ors i true } = .ok st2 ∧
            ∀ k, update st.ors i true k = true → st2.ors k = true := by
        refine AndNode.copyUp_of_closed hS hi hm (hlen ▸ mem_range.1 hj)
          (I := fun st2 => ∀ k, update st.ors i true k = true → st2.ors k = true) (fun h => h) ?_ ?_
        · intro k hk st2 hst2
          obtain ⟨st3, hrun, hkept⟩ := ih hk (Nat.lt_of_le_of_lt (unmarked_mono hst2) (by omega))
          exact ⟨st3, hrun, fun l hl => hkept l (hst2 l hl)⟩
        · intro k hk
          change update st1.ors i true k = true
          by_cases hki : k = i
          · rw [hki, update_self]
          · rw [update_of_ne hki] at hk ⊢
            exact hst1 k hk
      obtain ⟨st2, hrun, hkept⟩ := hinner
      refine ⟨st2, hrun, fun k hk => hkept k ?_⟩
      by_cases hki : k = i
      · rw [hki, update_self]
      · rwa [update_of_ne hki]

theorem Closed.congr (h : bareNodes nodes = bareNodes nodes') : Closed nodes' S := by
  intro i hi
  obtain ⟨m, hm, hpos, hclosed⟩ := hS i hi
  exact ⟨m, (congrFun (count_congr h) i).symm.trans hm, hpos,
    fun j hj cs hcs => hclosed j hj cs ((congrFun (kids_congr h) (i, j)).trans hcs)⟩

end

/-- **Both walks go through, with a unit of fuel for each node.** -/
theorem walks_of_sound {r : Nat} (hroot : forest.root = some r)
    (h : forest.Sound) (hfuel : (places forest.nodes).card + forest.nodes.length < fuel) :
    ∃ nodes', computeSpans fuel forest = .ok nodes' ∧
      ∃ st, OrNode.copyUp nodes' fuel (some r) ⟨fun _ => false, fun _ => false⟩ = .ok st := by
  rcases h with hnone | h
  · rw [hroot] at hnone
    cases hnone
  have hS := reachable_closed h
  have hr : Reachable forest (some r) := hroot ▸ .root
  obtain ⟨m, hm, hpos, -⟩ := hS r hr
  have hfew : ∀ marks, unmarked (places forest.nodes) marks < fuel :=
    fun marks => Nat.lt_of_le_of_lt (Finset.card_filter_le _ _) (by omega)
  have hspans : ∃ st, OrNode.computeSpan (AndNode.computeSpan fuel) ⟨0, fun _ => false, forest.nodes⟩ (some r) = .ok st ∧
      bareNodes st.nodes = bareNodes forest.nodes := by
    refine OrNode.computeSpan_of_closed (fun h => h) hm hpos ?_ rfl
    intro j hj st hst
    obtain ⟨st', hrun, hst', -⟩ := AndNode.computeSpan_of_closed hS hr hm hj hst (hfew _)
    exact ⟨st', hrun, hst'⟩
  obtain ⟨st, hrun, hst⟩ := hspans
  refine ⟨st.nodes, ?_, ?_⟩
  · rw [computeSpans, hroot]
    dsimp only
    rw [hrun]
    rfl
  · have hlen : st.nodes.length = forest.nodes.length := by
      have := congrArg List.length hst
      simpa [bareNodes] using this
    let fresh : CopyState := ⟨fun _ => false, fun _ => false⟩
    have hlt : unmarked (Finset.range st.nodes.length) fresh.ors < fuel := by
      refine Nat.lt_of_le_of_lt (Finset.card_filter_le _ _) ?_
      rw [Finset.card_range]
      omega
    obtain ⟨st', hcopy, -⟩ := OrNode.copyUp_of_closed (hS.congr hst.symm) hr hlt
    exact ⟨st', hcopy⟩

/-! ## Spans do not matter for what can be reached -/

theorem exists_of_bareNodes (h : bareNodes nodes = bareNodes nodes') (hn : nodes[i]? = some n) :
    ∃ n', nodes'[i]? = some n' ∧ n'.bare = n.bare := by
  have heq : (nodes'[i]?).map OrNode.bare = some n.bare := by
    rw [← getElem?_bare, ← h, getElem?_bare, hn]
    rfl
  obtain ⟨n', hn', hbare⟩ := Option.map_eq_some_iff.1 heq
  exact ⟨n', hn', hbare⟩

theorem alternatives_bare {n' : OrNode} (h : n'.bare = n.bare) :
    n'.alternatives.map AndNode.bare = n.alternatives.map AndNode.bare := congrArg OrNode.alternatives h

theorem PackedForest.Sound.congr {root : Option Nat} (h : PackedForest.Sound ⟨nodes, root⟩)
    (hbare : bareNodes nodes = bareNodes nodes') : PackedForest.Sound ⟨nodes', root⟩ := by
  refine h.imp_right fun h => ?_
  have hback : ∀ p, Reachable ⟨nodes', root⟩ p → Reachable ⟨nodes, root⟩ p := by
    intro p hp
    induction hp with
    | root => exact .root
    | @child i n' a' p _ hn' ha' hp ih =>
      obtain ⟨n, hn, hnn'⟩ := exists_of_bareNodes hbare.symm hn'
      have hmem : a'.bare ∈ n.alternatives.map AndNode.bare := alternatives_bare hnn' ▸ mem_map_of_mem ha'
      obtain ⟨a, ha, haa'⟩ := mem_map.1 hmem
      have hchildren : a.bare.children = a'.bare.children := congrArg AndNode.children haa'
      exact .child ih hn ha (show p ∈ a.bare.children from hchildren ▸ hp)
  intro p hp
  obtain ⟨i, n, hi, hn, hne⟩ := h p (hback p hp)
  obtain ⟨n', hn', hnn'⟩ := exists_of_bareNodes hbare hn
  refine ⟨i, n', hi, hn', fun hnil => hne ?_⟩
  have := alternatives_bare hnn'
  rw [hnil] at this
  exact map_eq_nil_iff.1 this.symm

end Sbmt.Ghkm.ForestText
