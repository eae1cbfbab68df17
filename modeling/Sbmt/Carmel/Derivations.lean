import Sbmt.Carmel.Wfst
import Sbmt.Lib.Numbering

/-!
# derivations: the paths of a transducer for one input and output

| here | there |
| --- | --- |
| `ptrOf`, `forIo` | `arcs_table` and `wfst_io_index`: the arcs by id, the ids by state and labels (`carmel/src/derivations.h:83-182`) |
| `addArcs`, `derive` | `add_arcs`, `derive` (`:715-781`); `Numbering.link` is the body of the loop |
| `compute` | `compute` (`:542-578`), with `prune` (`:646-705`) and the `rewrite_GraphState` it uses (`shared/graph.h:334-369`) |

A sequence may have `*e*` in it, the index of epsilon. The `weight` of a graph arc ("only used by gibbs
init em prob") and the statistics are left out. `derive` has fuel for all states
there can be; `none` would be a search that does not end.

An arc with the label epsilon stands at no symbol or at a `*e*`. So what the graph has are the paths
together with where each arc stands (`Laying`, `compute_lattice`): each path once if no sequence has `*e*`,
else as often as it can be laid along them (`compute_paths_iff`).
-/

namespace Sbmt.Carmel

open Sbmt.Lib List

variable {W : Type*}

abbrev SymSeq := List Nat

structure DerivState where
  i : Nat
  s : Nat
  o : Nat
deriving DecidableEq

/-- The arc with an id. -/
def Wfst.ptrOf (x : Wfst W) (id : Nat) : ArcPtr := x.visitArcs.getD id ⟨0, 0⟩

/-- The ids of the arcs of a state with the two labels. -/
def Wfst.forIo (x : Wfst W) (s sIn sOut : Nat) : List Nat :=
  (range x.visitArcs.length).filter fun id =>
    (x.ptrOf id).src == s && (x.arc? (x.ptrOf id)).any fun a => a.inp == sIn && a.out == sOut

/-- Where an arc leads. -/
def Wfst.destOf (x : Wfst W) (id : Nat) : Nat := ((x.arc? (x.ptrOf id)).map FSTArc.dest).getD 0

section Derive

variable (x : Wfst W) (inp out : SymSeq)

abbrev DerivGraph := Numbering DerivState Nat

/-- The arcs `add_arcs` goes through, each with the state it leads to. -/
def matching (s sIn sOut iIn iOut : Nat) : List (Nat × DerivState) :=
  (x.forIo s sIn sOut).map fun id => (id, ⟨iIn, x.destOf id, iOut⟩)

/-- The flag tells whether an arc was added. -/
def addArcs (explore : DerivState → DerivGraph → Option (Nat × DerivGraph)) (s sIn sOut iIn iOut source : Nat)
    (σ : DerivGraph) : Option (Bool × DerivGraph) :=
  Numbering.links explore source (matching x s sIn sOut iIn iOut) (false, σ)

def goal : DerivState := ⟨inp.length, x.final, out.length⟩

def derive : Nat → DerivState → DerivGraph → Option (Nat × DerivGraph)
  | 0, d, σ => (σ.names.idxOf? d).map fun id => (id, σ)
  | fuel + 1, d, σ =>
    match σ.names.idxOf? d with
    | some id => some (id, σ)
    | none => do
      let src := σ.names.length
      let useO := decide (d.o < out.length)
      let useI := decide (d.i < inp.length)
      let so := out.getD d.o 0
      let si := inp.getD d.i 0
      let r₁ ← addArcs x (derive fuel) d.s epsilonIndex epsilonIndex d.i d.o src (σ.push d)
      let r₂ ← (if useO then addArcs x (derive fuel) d.s epsilonIndex so d.i (d.o + 1) src r₁.2 else some (false, r₁.2))
      let r₃ ← (if useI then addArcs x (derive fuel) d.s si epsilonIndex (d.i + 1) d.o src r₂.2 else some (false, r₂.2))
      let r₄ ← (if useI && useO then addArcs x (derive fuel) d.s si so (d.i + 1) (d.o + 1) src r₃.2
        else some (false, r₃.2))
      let dead := decide (d ≠ goal x inp out) && !(r₁.1 || r₂.1 || r₃.1 || r₄.1)
      some (src, r₄.2.finish src dead)

structure Derivations where
  g : List (List (Link Nat))
  fin : Nat
  noGoal : Bool

/-- Fuel for every state there can be. -/
def deriveFuel : Nat := (inp.length + 1) * (x.numStates * (out.length + 1))

def compute (prune : Bool) : Option Derivations :=
  (derive x inp out (deriveFuel x inp out) ⟨0, 0, 0⟩ .empty).map fun r =>
    match r.2.names.idxOf? (goal x inp out) with
    | none => ⟨[], 0, true⟩
    | some fin =>
      if prune then ⟨r.2.prune, (Numbering.newIndex r.2.dead fin).getD 0, false⟩
      else ⟨r.2.graph, fin, false⟩

/-! ## The search it is -/

/-- The successors of a state, in the order they are taken. -/
def successors (d : DerivState) : List (Nat × DerivState) :=
  matching x d.s epsilonIndex epsilonIndex d.i d.o ++
    ((if d.o < out.length then matching x d.s epsilonIndex (out.getD d.o 0) d.i (d.o + 1) else []) ++
      ((if d.i < inp.length then matching x d.s (inp.getD d.i 0) epsilonIndex (d.i + 1) d.o else []) ++
        (if d.i < inp.length ∧ d.o < out.length then
          matching x d.s (inp.getD d.i 0) (out.getD d.o 0) (d.i + 1) (d.o + 1) else [])))

end Derive

section Links

variable {V L : Type*} {explore : V → Numbering V L → Option (Nat × Numbering V L)} {src : Nat}

/-- The flag of a loop is set once a link was kept. -/
theorem links_flag : ∀ (ps : List (L × V)) (b : Bool) (σ : Numbering V L),
    Numbering.links explore src ps (b, σ) =
      (Numbering.links explore src ps (false, σ)).map fun acc => (b || acc.1, acc.2)
  | [], b, σ => by simp [Numbering.links]
  | p :: ps, b, σ => by
    have hstep : ∀ c : Bool, Numbering.links explore src (p :: ps) (c, σ) =
        (explore p.2 σ).bind fun r => Numbering.links explore src ps (Numbering.link src p.1 c r) := by
      intro c
      unfold Numbering.links
      rw [foldlM_cons]
      cases explore p.2 σ with
      | none => rfl
      | some r => rfl
    rw [hstep, hstep]
    cases explore p.2 σ with
    | none => rfl
    | some r =>
      simp only [Option.bind_some]
      unfold Numbering.link
      split
      · exact links_flag ps b r.2
      · rw [links_flag ps true]
        cases Numbering.links explore src ps (false, _) with
        | none => rfl
        | some acc => simp

theorem links_append (ps qs : List (L × V)) (σ : Numbering V L) :
    Numbering.links explore src (ps ++ qs) (false, σ) =
      (Numbering.links explore src ps (false, σ)).bind fun r =>
        (Numbering.links explore src qs (false, r.2)).map fun acc => (r.1 || acc.1, acc.2) := by
  have happend : Numbering.links explore src (ps ++ qs) (false, σ) =
      (Numbering.links explore src ps (false, σ)).bind fun r => Numbering.links explore src qs r := by
    unfold Numbering.links
    rw [foldlM_append]
    rfl
  rw [happend]
  congr 1
  funext r
  exact links_flag qs r.1 r.2

end Links

variable {x : Wfst W} {inp out : SymSeq}

theorem derive_eq_visit : ∀ (fuel : Nat) (d : DerivState) (σ : DerivGraph),
    derive x inp out fuel d σ = Numbering.visit (successors x inp out) (goal x inp out) fuel d σ
  | 0, d, σ => rfl
  | fuel + 1, d, σ => by
    have ih : derive x inp out fuel = Numbering.visit (successors x inp out) (goal x inp out) fuel :=
      funext fun d => funext fun σ => derive_eq_visit fuel d σ
    unfold derive Numbering.visit
    cases σ.names.idxOf? d with
    | some id => rfl
    | none =>
      have hif : ∀ (c : Prop) [Decidable c] (ps : List (Nat × DerivState)) (τ : DerivGraph),
          Numbering.links (derive x inp out fuel) σ.names.length (if c then ps else []) (false, τ) =
            if c then Numbering.links (derive x inp out fuel) σ.names.length ps (false, τ) else some (false, τ) := by
        intro c _ ps τ
        split
        · rfl
        · rfl
      simp only [successors, links_append, ← ih, addArcs, hif, decide_eq_true_eq, Bool.and_eq_true,
        Option.bind_eq_bind]
      rcases Numbering.links (derive x inp out fuel) σ.names.length
          (matching x d.s epsilonIndex epsilonIndex d.i d.o) (false, σ.push d) with _ | r1
      · rfl
      · simp only [Option.bind_some]
        generalize (if d.o < out.length then Numbering.links (derive x inp out fuel) σ.names.length
          (matching x d.s epsilonIndex (out.getD d.o 0) d.i (d.o + 1)) (false, r1.2) else some (false, r1.2)) = o2
        rcases o2 with _ | r2
        · rfl
        · simp only [Option.bind_some]
          generalize (if d.i < inp.length then Numbering.links (derive x inp out fuel) σ.names.length
            (matching x d.s (inp.getD d.i 0) epsilonIndex (d.i + 1) d.o) (false, r2.2) else some (false, r2.2)) = o3
          rcases o3 with _ | r3
          · rfl
          · simp only [Option.bind_some]
            generalize (if d.i < inp.length ∧ d.o < out.length then
              Numbering.links (derive x inp out fuel) σ.names.length
                (matching x d.s (inp.getD d.i 0) (out.getD d.o 0) (d.i + 1) (d.o + 1)) (false, r3.2)
              else some (false, r3.2)) = o4
            rcases o4 with _ | r4
            · rfl
            · simp [Bool.or_assoc]

/-! ## Successors and arcs -/

variable {s id : Nat}

theorem mem_forIo {sIn sOut : Nat} : id ∈ x.forIo s sIn sOut ↔
    id < x.visitArcs.length ∧ (x.ptrOf id).src = s ∧ ∃ a, x.arc? (x.ptrOf id) = some a ∧ a.inp = sIn ∧ a.out = sOut := by
  simp only [Wfst.forIo, mem_filter, mem_range, Bool.and_eq_true, beq_iff_eq, Option.any_eq_true]

variable {e : DerivState}

theorem mem_matching {sIn sOut iIn iOut : Nat} : (id, e) ∈ matching x s sIn sOut iIn iOut ↔
      id < x.visitArcs.length ∧ (x.ptrOf id).src = s ∧
        ∃ a, x.arc? (x.ptrOf id) = some a ∧ a.inp = sIn ∧ a.out = sOut ∧ e = ⟨iIn, a.dest, iOut⟩ := by
  simp only [matching, mem_map, Prod.mk.injEq, mem_forIo]
  constructor
  · rintro ⟨id', ⟨hid, hsrc, a, ha, hin, hout⟩, rfl, rfl⟩
    exact ⟨hid, hsrc, a, ha, hin, hout, by rw [Wfst.destOf, ha]; rfl⟩
  · rintro ⟨hid, hsrc, a, ha, hin, hout, rfl⟩
    exact ⟨id, ⟨hid, hsrc, a, ha, hin, hout⟩, rfl, by rw [Wfst.destOf, ha]; rfl⟩

/-- The position behind a label: unchanged for epsilon at no symbol, else behind the
symbol that stands there. -/
def Reads (q : SymSeq) (i l j : Nat) : Prop := (l = epsilonIndex ∧ j = i) ∨ (q[i]? = some l ∧ j = i + 1)

variable {i l j : Nat} {q : SymSeq}

theorem Reads.le_iff (h : Reads q i l j) : i ≤ q.length ↔ j ≤ q.length := by
  rcases h with ⟨-, rfl⟩ | ⟨hget, rfl⟩
  · rfl
  · have := (List.getElem?_eq_some_iff.1 hget).1
    omega

theorem reads_symbol : (i < q.length ∧ l = q.getD i 0 ∧ j = i + 1) ↔ (q[i]? = some l ∧ j = i + 1) := by
  constructor
  · rintro ⟨hi, rfl, rfl⟩
    refine ⟨?_, rfl⟩
    rw [getD_eq_getElem?_getD, getElem?_eq_getElem hi]
    rfl
  · rintro ⟨hget, rfl⟩
    refine ⟨(List.getElem?_eq_some_iff.1 hget).1, ?_, rfl⟩
    rw [getD_eq_getElem?_getD, hget]
    rfl

variable {d : DerivState}

theorem mem_successors : (id, e) ∈ successors x inp out d ↔ id < x.visitArcs.length ∧ (x.ptrOf id).src = d.s ∧
      ∃ a, x.arc? (x.ptrOf id) = some a ∧ e.s = a.dest ∧ Reads inp d.i a.inp e.i ∧ Reads out d.o a.out e.o := by
  have hstate : ∀ {i s o : Nat}, e = ⟨i, s, o⟩ ↔ e.i = i ∧ e.s = s ∧ e.o = o := by
    cases e
    simp
  unfold successors
  rw [mem_append, mem_append, mem_append, mem_ite_nil_right, mem_ite_nil_right,
    mem_ite_nil_right]
  simp only [mem_matching, hstate]
  constructor
  · rintro (⟨hid, hsrc, a, ha, hin, hout, hi, hs, ho⟩ | ⟨hO, hid, hsrc, a, ha, hin, hout, hi, hs, ho⟩ |
      ⟨hI, hid, hsrc, a, ha, hin, hout, hi, hs, ho⟩ | ⟨⟨hI, hO⟩, hid, hsrc, a, ha, hin, hout, hi, hs, ho⟩)
    · exact ⟨hid, hsrc, a, ha, hs, .inl ⟨hin, hi⟩, .inl ⟨hout, ho⟩⟩
    · exact ⟨hid, hsrc, a, ha, hs, .inl ⟨hin, hi⟩, .inr (reads_symbol.1 ⟨hO, hout, ho⟩)⟩
    · exact ⟨hid, hsrc, a, ha, hs, .inr (reads_symbol.1 ⟨hI, hin, hi⟩), .inl ⟨hout, ho⟩⟩
    · exact ⟨hid, hsrc, a, ha, hs, .inr (reads_symbol.1 ⟨hI, hin, hi⟩), .inr (reads_symbol.1 ⟨hO, hout, ho⟩)⟩
  · rintro ⟨hid, hsrc, a, ha, hs, ⟨hin, hi⟩ | hI, ⟨hout, ho⟩ | hO⟩
    · exact .inl ⟨hid, hsrc, a, ha, hin, hout, hi, hs, ho⟩
    · obtain ⟨hO, hout, ho⟩ := reads_symbol.2 hO
      exact .inr (.inl ⟨hO, hid, hsrc, a, ha, hin, hout, hi, hs, ho⟩)
    · obtain ⟨hI, hin, hi⟩ := reads_symbol.2 hI
      exact .inr (.inr (.inl ⟨hI, hid, hsrc, a, ha, hin, hout, hi, hs, ho⟩))
    · obtain ⟨hI, hin, hi⟩ := reads_symbol.2 hI
      obtain ⟨hO, hout, ho⟩ := reads_symbol.2 hO
      exact .inr (.inr (.inr ⟨⟨hI, hO⟩, hid, hsrc, a, ha, hin, hout, hi, hs, ho⟩))

theorem matching_end {sIn sOut iIn iOut : Nat} {p : Nat × DerivState} (h : p ∈ matching x s sIn sOut iIn iOut) :
    p.2.i = iIn ∧ p.2.o = iOut := by
  obtain ⟨-, -, a, -, -, -, heq⟩ := mem_matching.1 h
  rw [heq]
  exact ⟨rfl, rfl⟩

/-- The four calls of `add_arcs` lead to different places. -/
theorem successors_nodup (d : DerivState) : (successors x inp out d).Nodup := by
  have hgroup : ∀ sIn sOut iIn iOut, (matching x d.s sIn sOut iIn iOut).Nodup := fun sIn sOut iIn iOut =>
    (nodup_range.filter _).map fun _ _ heq => congrArg Prod.fst heq
  have hpart : ∀ (c : Prop) [Decidable c] {ps : List (Nat × DerivState)}, ps.Nodup → (if c then ps else []).Nodup := by
    intro c _ ps hps
    split
    · exact hps
    · exact nodup_nil
  refine nodup_append'.2 ⟨hgroup _ _ _ _, nodup_append'.2 ⟨hpart _ (hgroup _ _ _ _), nodup_append'.2
    ⟨hpart _ (hgroup _ _ _ _), hpart _ (hgroup _ _ _ _), ?_⟩, ?_⟩, ?_⟩
  · intro p hp hp'
    have hend := matching_end (mem_ite_nil_right.1 hp).2
    have hend' := matching_end (mem_ite_nil_right.1 hp').2
    omega
  · intro p hp hp'
    have hend := matching_end (mem_ite_nil_right.1 hp).2
    rcases mem_append.1 hp' with hp' | hp'
    · have hend' := matching_end (mem_ite_nil_right.1 hp').2
      omega
    · have hend' := matching_end (mem_ite_nil_right.1 hp').2
      omega
  · intro p hp hp'
    have hend := matching_end hp
    rcases mem_append.1 hp' with hp' | hp'
    · have hend' := matching_end (mem_ite_nil_right.1 hp').2
      omega
    · rcases mem_append.1 hp' with hp' | hp'
      · have hend' := matching_end (mem_ite_nil_right.1 hp').2
        omega
      · have hend' := matching_end (mem_ite_nil_right.1 hp').2
        omega

theorem ptrOf_getElem? (h : id < x.visitArcs.length) : x.visitArcs[id]? = some (x.ptrOf id) := by
  unfold Wfst.ptrOf
  rw [getD_eq_getElem?_getD, getElem?_eq_getElem h]
  rfl

theorem Wfst.ptrOf_inj {id' : Nat} (h : id < x.visitArcs.length) (h' : id' < x.visitArcs.length)
    (heq : x.ptrOf id = x.ptrOf id') : id = id' := by
  apply (getElem?_inj h x.visitArcs_nodup).1
  rw [ptrOf_getElem? h, ptrOf_getElem? h', heq]

/-- Every arc has an id. -/
theorem Wfst.exists_id {p : ArcPtr} {a : FSTArc W} (h : x.arc? p = some a) :
    ∃ id, id < x.visitArcs.length ∧ x.ptrOf id = p := by
  obtain ⟨id, hid⟩ := mem_iff_getElem?.1 (Wfst.mem_visitArcs.2 ⟨a, h⟩)
  have hlt := (List.getElem?_eq_some_iff.1 hid).1
  exact ⟨id, hlt, Option.some.inj ((ptrOf_getElem? hlt).symm.trans hid)⟩

/-! ## Paths laid along the two sequences -/

/-- An arc of a path, and whether it stands at a symbol of the input, and of the output. -/
structure Laid where
  arc : ArcPtr
  atIn : Bool
  atOut : Bool

/-- What is to be done: the state, and what is left of the two sequences. -/
structure Rest where
  s : Nat
  i : List Nat
  o : List Nat

/-- What a label leaves of a sequence: it takes the symbol it stands at; one that stands at none is epsilon. -/
def Takes (stands : Bool) (l : Nat) (q q' : List Nat) : Prop := if stands then q = l :: q' else l = epsilonIndex ∧ q' = q

def LaidPath (x : Wfst W) : Rest → List Laid → Rest → Prop
  | r, [], u => r = u
  | r, l :: ls, u => ∃ a i o, x.arc? l.arc = some a ∧ l.arc.src = r.s ∧ Takes l.atIn a.inp r.i i ∧
      Takes l.atOut a.out r.o o ∧ LaidPath x ⟨a.dest, i, o⟩ ls u

/-- The accepting paths laid along an input and output. -/
def Laying (x : Wfst W) (inp out : SymSeq) (ls : List Laid) : Prop := LaidPath x ⟨0, inp, out⟩ ls ⟨x.final, [], []⟩

/-- The accepting paths for an input and output, which spell them without their epsilons. -/
def Matching (x : Wfst W) (inp out : SymSeq) (ps : List ArcPtr) : Prop :=
  x.Accepting ps ∧ x.pathIn ps = inp.filterMap Wfst.nonEpsilon ∧ x.pathOut ps = out.filterMap Wfst.nonEpsilon

/-- What is to be done in a state of the search. -/
def rest (inp out : SymSeq) (d : DerivState) : Rest := ⟨d.s, inp.drop d.i, out.drop d.o⟩

/-- How an arc stands that leads from a state to a state. -/
def laidOf (x : Wfst W) (e : Edge DerivState Nat) : Laid :=
  ⟨x.ptrOf e.label, decide (e.dest.i ≠ e.src.i), decide (e.dest.o ≠ e.src.o)⟩

theorem Reads.takes (h : Reads q i l j) : Takes (decide (j ≠ i)) l (q.drop i) (q.drop j) := by
  unfold Takes
  rcases h with ⟨hl, rfl⟩ | ⟨hget, rfl⟩
  · simp [hl]
  · rw [if_pos (by simp), drop_eq_getElem_cons (List.getElem?_eq_some_iff.1 hget).1,
      (List.getElem?_eq_some_iff.1 hget).2]

theorem Takes.reads {b : Bool} {q' : List Nat} (h : Takes b l (q.drop i) q') (hi : i ≤ q.length) :
    ∃ j ≤ q.length, q' = q.drop j ∧ Reads q i l j ∧ b = decide (j ≠ i) := by
  cases b with
  | false => exact ⟨i, hi, h.2, .inl ⟨h.1, rfl⟩, by simp⟩
  | true =>
    have hdrop : q.drop i = l :: q' := h
    have hget : q[i]? = some l := by
      have hhead : (q.drop i)[0]? = some l := by rw [hdrop]; rfl
      rwa [getElem?_drop] at hhead
    refine ⟨i + 1, (List.getElem?_eq_some_iff.1 hget).1, ?_, .inr ⟨hget, rfl⟩, by simp⟩
    rw [← drop_drop, hdrop]
    rfl

theorem laidPath_of_walk {es : List (Edge DerivState Nat)} (h : Lib.Walk (successors x inp out) d es e) :
    LaidPath x (rest inp out d) (es.map (laidOf x)) (rest inp out e) := by
  induction h with
  | nil d => rfl
  | @cons d e _ id es hmem _ ih =>
    obtain ⟨-, hsrc, a, ha, hs, hI, hO⟩ := mem_successors.1 hmem
    refine ⟨a, _, _, ha, hsrc, hI.takes, hO.takes, ?_⟩
    rw [rest, hs] at ih
    exact ih

theorem drop_inj {l : List Nat} (hi : i ≤ l.length) (hj : j ≤ l.length) (h : l.drop i = l.drop j) : i = j := by
  have hlen := congrArg List.length h
  rw [length_drop, length_drop] at hlen
  omega

theorem walk_of_laidPath (hei : e.i ≤ inp.length) (heo : e.o ≤ out.length) : ∀ {ls : List Laid} {d : DerivState},
    d.i ≤ inp.length → d.o ≤ out.length → LaidPath x (rest inp out d) ls (rest inp out e) →
      ∃ es, Lib.Walk (successors x inp out) d es e ∧ es.map (laidOf x) = ls
  | [], d, hi, ho, h => by
    obtain ⟨i, s, o⟩ := d
    obtain ⟨rfl, hin, hout⟩ := Rest.mk.inj h
    obtain rfl := drop_inj hi hei hin
    obtain rfl := drop_inj ho heo hout
    exact ⟨[], .nil _, rfl⟩
  | ⟨arc, atIn, atOut⟩ :: ls, d, hi, ho, ⟨a, _, _, ha, hsrc, hI, hO, hrest⟩ => by
    obtain ⟨i', hi', rfl, hreadI, rfl⟩ := hI.reads hi
    obtain ⟨o', ho', rfl, hreadO, rfl⟩ := hO.reads ho
    obtain ⟨es, hes, rfl⟩ := walk_of_laidPath (d := ⟨i', a.dest, o'⟩) hei heo hi' ho' hrest
    obtain ⟨id, hid, rfl⟩ := Wfst.exists_id ha
    exact ⟨_, .cons (mem_successors.2 ⟨hid, hsrc, a, ha, rfl, hreadI, hreadO⟩) hes, rfl⟩

theorem Reads.unique {j' : Nat} (h : Reads q i l j) (h' : Reads q i l j') (heq : decide (j ≠ i) = decide (j' ≠ i)) :
    j = j' := by
  have := decide_eq_decide.1 heq
  rcases h with ⟨-, rfl⟩ | ⟨-, rfl⟩
  · rcases h' with ⟨-, rfl⟩ | ⟨-, rfl⟩
    · rfl
    · omega
  · rcases h' with ⟨-, rfl⟩ | ⟨-, rfl⟩
    · omega
    · rfl

theorem walk_inj {es es' : List (Edge DerivState Nat)} {e' : DerivState} (h : Lib.Walk (successors x inp out) d es e)
    (h' : Lib.Walk (successors x inp out) d es' e') (heq : es.map (laidOf x) = es'.map (laidOf x)) : es = es' := by
  induction h generalizing es' with
  | nil => exact (map_eq_nil_iff.1 heq.symm).symm
  | @cons d v _ id es hmem _ ih =>
    cases h' with
    | nil => cases heq
    | @cons _ v' _ id' es' hmem' hrest' =>
      obtain ⟨hlaid, htail⟩ := List.cons.inj heq
      obtain ⟨hptr, hatIn, hatOut⟩ := Laid.mk.inj hlaid
      obtain ⟨hid, -, a, ha, hs, hI, hO⟩ := mem_successors.1 hmem
      obtain ⟨hid', -, a', ha', hs', hI', hO'⟩ := mem_successors.1 hmem'
      obtain rfl : id = id' := Wfst.ptrOf_inj hid hid' hptr
      obtain rfl : a = a' := Option.mem_unique ha ha'
      obtain rfl : v = v' := by
        exact DerivState.mk.injEq .. ▸ ⟨hI.unique hI' hatIn, hs.trans hs'.symm, hO.unique hO' hatOut⟩
      rw [ih hrest' htail]

theorem rest_goal : rest inp out (goal x inp out) = ⟨x.final, [], []⟩ := by
  unfold rest goal
  rw [drop_length, drop_length]

theorem walks_bijOn (x : Wfst W) (inp out : SymSeq) : Set.BijOn (List.map (laidOf x))
    {es | Lib.Walk (successors x inp out) ⟨0, 0, 0⟩ es (goal x inp out)} {ls | Laying x inp out ls} := by
  refine ⟨?_, fun es hes es' hes' => walk_inj hes hes', ?_⟩
  · intro es hes
    have hlaid := laidPath_of_walk hes
    rwa [rest_goal] at hlaid
  · intro ls hls
    refine walk_of_laidPath (d := ⟨0, 0, 0⟩) le_rfl le_rfl (Nat.zero_le _) (Nat.zero_le _) ?_
    rw [rest_goal]
    exact hls

/-! ## What they spell -/

theorem Takes.spell {b : Bool} {q' : List Nat} (h : Takes b l q q') :
    (Wfst.nonEpsilon l).toList ++ q'.filterMap Wfst.nonEpsilon = q.filterMap Wfst.nonEpsilon := by
  cases b with
  | false =>
    obtain ⟨rfl, rfl⟩ := h
    rfl
  | true =>
    obtain rfl : q = l :: q' := h
    rw [filterMap_cons]
    cases Wfst.nonEpsilon l with
    | none => rfl
    | some _ => rfl

theorem LaidPath.path {u : Rest} : ∀ {ls : List Laid} {r : Rest}, LaidPath x r ls u →
    x.Path r.s (ls.map Laid.arc) u.s ∧
      x.pathIn (ls.map Laid.arc) ++ u.i.filterMap Wfst.nonEpsilon = r.i.filterMap Wfst.nonEpsilon ∧
      x.pathOut (ls.map Laid.arc) ++ u.o.filterMap Wfst.nonEpsilon = r.o.filterMap Wfst.nonEpsilon
  | [], r, h => by
    obtain rfl : r = u := h
    exact ⟨.nil _, rfl, rfl⟩
  | l :: ls, r, ⟨a, i, o, ha, hsrc, hI, hO, hrest⟩ => by
    obtain ⟨hpath, hin, hout⟩ := hrest.path
    refine ⟨hsrc ▸ .cons ha hpath, ?_, ?_⟩
    · rw [map_cons, Wfst.pathIn_cons ha, append_assoc, hin]
      exact hI.spell
    · rw [map_cons, Wfst.pathOut_cons ha, append_assoc, hout]
      exact hO.spell

theorem Laying.matching {ls : List Laid} (h : Laying x inp out ls) : Matching x inp out (ls.map Laid.arc) := by
  obtain ⟨hpath, hin, hout⟩ := LaidPath.path h
  exact ⟨hpath, by simpa using hin, by simpa using hout⟩

/-- The arcs with a label at a symbol, the others at none. -/
def laidAt (x : Wfst W) (p : ArcPtr) : Laid :=
  ⟨p, (x.arc? p).any fun a => a.inp != epsilonIndex, (x.arc? p).any fun a => a.out != epsilonIndex⟩

theorem Takes.eq_bne {b : Bool} {q' : List Nat} (h : Takes b l q q') (hq : epsilonIndex ∉ q) :
    b = (l != epsilonIndex) ∧ epsilonIndex ∉ q' := by
  cases b with
  | false =>
    obtain ⟨rfl, rfl⟩ := h
    exact ⟨rfl, hq⟩
  | true =>
    obtain rfl : q = l :: q' := h
    obtain ⟨hl, hq⟩ := not_or.1 (mt mem_cons.2 hq)
    exact ⟨(bne_iff_ne.2 (Ne.symm hl)).symm, hq⟩

theorem laidAt_eq {u : Rest} : ∀ {ls : List Laid} {r : Rest}, LaidPath x r ls u → epsilonIndex ∉ r.i → epsilonIndex ∉ r.o →
    (ls.map Laid.arc).map (laidAt x) = ls
  | [], _, _, _, _ => rfl
  | ⟨arc, _, _⟩ :: ls, r, ⟨a, i, o, ha, _, hI, hO, hrest⟩, hi, ho => by
    obtain ⟨rfl, hi⟩ := hI.eq_bne hi
    obtain ⟨rfl, ho⟩ := hO.eq_bne ho
    rw [map_cons, map_cons, laidAt_eq hrest hi ho, laidAt, ha]
    rfl

theorem laidPath_laidAt {s t : Nat} {ps : List ArcPtr} (h : x.Path s ps t) :
    LaidPath x ⟨s, x.pathIn ps, x.pathOut ps⟩ (ps.map (laidAt x)) ⟨t, [], []⟩ := by
  have htakes : ∀ (l : Nat) (q : List Nat), Takes (l != epsilonIndex) l ((Wfst.nonEpsilon l).toList ++ q) q := by
    intro l q
    unfold Takes Wfst.nonEpsilon
    by_cases hl : l = epsilonIndex
    · simp [hl]
    · simp [hl]
  induction h with
  | nil s => rfl
  | @cons p ps a t ha _ ih =>
    refine ⟨a, _, _, ha, rfl, ?_, ?_, ih⟩
    · rw [Wfst.pathIn_cons ha, laidAt, ha]
      exact htakes _ _
    · rw [Wfst.pathOut_cons ha, laidAt, ha]
      exact htakes _ _

theorem filterMap_nonEpsilon (h : epsilonIndex ∉ q) : q.filterMap Wfst.nonEpsilon = q := by
  induction q with
  | nil => rfl
  | cons l q ih =>
    obtain ⟨hl, hq⟩ := not_or.1 (mt mem_cons.2 h)
    have hsome : Wfst.nonEpsilon l = some l := if_neg (Ne.symm hl)
    rw [filterMap_cons_some hsome, ih hq]

/-- Along sequences without `*e*` each path for them is laid in one way. -/
theorem Matching.laid_once {ps : List ArcPtr} (h : Matching x inp out ps) (hi : epsilonIndex ∉ inp)
    (ho : epsilonIndex ∉ out) : ∃! ls, Laying x inp out ls ∧ ls.map Laid.arc = ps := by
  obtain ⟨hpath, hin, hout⟩ := h
  rw [filterMap_nonEpsilon hi] at hin
  rw [filterMap_nonEpsilon ho] at hout
  have hlaid := laidPath_laidAt hpath
  rw [hin, hout] at hlaid
  refine ⟨ps.map (laidAt x), ⟨hlaid, ?_⟩, ?_⟩
  · rw [map_map]
    exact map_id ps
  · rintro ls ⟨hls, rfl⟩
    exact (laidAt_eq hls hi ho).symm

/-- Where each path is laid in one way, the laid paths are the paths. -/
theorem laying_bijOn (honce : ∀ ps, Matching x inp out ps → ∃! ls, Laying x inp out ls ∧ ls.map Laid.arc = ps) :
    Set.BijOn (List.map Laid.arc) {ls | Laying x inp out ls} {ps | Matching x inp out ps} := by
  refine ⟨fun ls hls => hls.matching, fun ls hls ls' hls' heq => ?_, fun ps hps => ?_⟩
  · exact (honce _ hls'.matching).unique ⟨hls, heq⟩ ⟨hls', rfl⟩
  · obtain ⟨ls, hls, -⟩ := honce ps hps
    exact ⟨ls, hls⟩

/-! ## The whole computation -/

/-- The states the search can meet. -/
def allStates (x : Wfst W) (inp out : SymSeq) : Finset DerivState :=
  (Finset.range (inp.length + 1) ×ˢ (Finset.range x.numStates ×ˢ Finset.range (out.length + 1))).image
    fun t => ⟨t.1, t.2.1, t.2.2⟩

theorem mem_allStates : d ∈ allStates x inp out ↔
    d.i ≤ inp.length ∧ d.s < x.numStates ∧ d.o ≤ out.length := by
  simp only [allStates, Finset.mem_image, Finset.mem_product, Finset.mem_range]
  constructor
  · rintro ⟨⟨i, s, o⟩, ⟨hi, hs, ho⟩, rfl⟩
    exact ⟨Nat.le_of_lt_succ hi, hs, Nat.le_of_lt_succ ho⟩
  · rintro ⟨hi, hs, ho⟩
    exact ⟨⟨d.i, d.s, d.o⟩, ⟨Nat.lt_succ_of_le hi, hs, Nat.lt_succ_of_le ho⟩, rfl⟩

theorem start_mem : (⟨0, 0, 0⟩ : DerivState) ∈ allStates x inp out :=
  mem_allStates.2 ⟨Nat.zero_le _, x.nonempty, Nat.zero_le _⟩

theorem goal_mem : goal x inp out ∈ allStates x inp out :=
  mem_allStates.2 ⟨Nat.le_refl _, x.final_lt, Nat.le_refl _⟩

theorem successors_closed : ∀ d ∈ allStates x inp out, ∀ p ∈ successors x inp out d, p.2 ∈ allStates x inp out := by
  rintro d hd ⟨id, e⟩ hp
  obtain ⟨hi, -, ho⟩ := mem_allStates.1 hd
  obtain ⟨-, -, a, ha, hs, hI, hO⟩ := mem_successors.1 hp
  exact mem_allStates.2 ⟨hI.le_iff.1 hi, hs ▸ (Wfst.arc?_lt ha).2, hO.le_iff.1 ho⟩

/-- The fuel is enough. -/
theorem derive_isSome (x : Wfst W) (inp out : SymSeq) :
    ∃ r, derive x inp out (deriveFuel x inp out) ⟨0, 0, 0⟩ .empty = some r := by
  have hcard : (allStates x inp out).card ≤ deriveFuel x inp out := by
    refine Finset.card_image_le.trans ?_
    rw [Finset.card_product, Finset.card_product, Finset.card_range, Finset.card_range, Finset.card_range]
    exact Nat.le_refl _
  have hnone : ∀ v ∈ (Numbering.empty : DerivGraph).names, v ∈ allStates x inp out := by
    intro v hv
    cases hv
  have hfuel : (allStates x inp out).card ≤ (Numbering.empty : DerivGraph).names.length + deriveFuel x inp out := by
    simpa [Numbering.empty] using hcard
  refine (Numbering.visit_isSome (goal x inp out) successors_closed nodup_nil hnone start_mem hfuel).imp ?_
  intro r hr
  exact (derive_eq_visit _ _ _).trans hr.1

/-- What the graph of an input and output is: its links are steps of the search, and
its trails the laid paths. -/
structure IsLattice (x : Wfst W) (inp out : SymSeq) (d : Derivations) : Prop where
  named : ∃ name, Numbering.Steps (successors x inp out) name d.g
  nodup : ∀ k, (Numbering.arcsOf d.g k).Nodup
  start_lt : 0 < d.g.length
  fin_lt : d.fin < d.g.length
  paths : ∃ f : Link Nat → Laid, (∀ a, (f a).arc = x.ptrOf a.label) ∧
    Set.BijOn (List.map f) {as | Trail (Numbering.arcsOf d.g) 0 as d.fin} {ls | Laying x inp out ls}

/-- **The graph of `compute` has exactly the laid paths**, pruned or not, and there is no goal iff there is none. -/
theorem compute_lattice (x : Wfst W) (inp out : SymSeq) (prune : Bool) :
    ∃ d, compute x inp out prune = some d ∧ (d.noGoal = true ↔ ¬ ∃ ls, Laying x inp out ls) ∧
      (d.noGoal = false → IsLattice x inp out d) := by
  obtain ⟨r, hr⟩ := derive_isSome x inp out
  obtain ⟨-, hexp⟩ := Numbering.Explored.of_visit ((derive_eq_visit _ _ _).symm.trans hr)
  have hbij := walks_bijOn x inp out
  have hgoal : goal x inp out ∈ r.2.names ↔ ∃ ls, Laying x inp out ls := by
    rw [hexp.goal_mem]
    constructor
    · rintro ⟨es, hes⟩
      exact ⟨_, hbij.mapsTo hes⟩
    · rintro ⟨ls, hls⟩
      obtain ⟨es, hes, -⟩ := hbij.surjOn hls
      exact ⟨es, hes⟩
  have hcompose : ∀ {T : Set (List (Link Nat))} {name : Nat → DerivState}, Set.BijOn (List.map (Numbering.edgeOf name)) T
      {es | Lib.Walk (successors x inp out) ⟨0, 0, 0⟩ es (goal x inp out)} →
        ∃ f : Link Nat → Laid, (∀ a, (f a).arc = x.ptrOf a.label) ∧ Set.BijOn (List.map f) T {ls | Laying x inp out ls} := by
    intro T name hT
    refine ⟨laidOf x ∘ Numbering.edgeOf name, fun _ => rfl, ?_⟩
    rw [← map_comp_map]
    exact hbij.comp hT
  unfold compute
  rw [hr, Option.map_some]
  refine ⟨_, rfl, ?_⟩
  cases hfin : r.2.names.idxOf? (goal x inp out) with
  | none =>
    have hnot : goal x inp out ∉ r.2.names := idxOf?_eq_none_iff.1 hfin
    exact ⟨⟨fun _ => mt hgoal.2 hnot, fun _ => rfl⟩, fun h => by cases h⟩
  | some fin =>
    obtain ⟨hlt, hname, -⟩ := idxOf?_eq_some_iff.1 hfin
    have hname' : r.2.names[fin]? = some (goal x inp out) := by
      rw [getElem?_eq_getElem hlt, hname]
    have hfirst := (List.getElem?_eq_some_iff.1 hexp.first).1
    have hsome : ∃ ls, Laying x inp out ls := hgoal.1 (mem_of_getElem? hname')
    cases prune with
    | true =>
      obtain ⟨hzero, j', hj', hprune⟩ := hexp.prune_bijOn hname' (hexp.goal_mem.1 (mem_of_getElem? hname'))
      have hlength : ∀ {k i : Nat}, k < r.2.names.length → Numbering.newIndex r.2.dead k = some i → i < r.2.prune.length := by
        intro k i hk hi
        unfold Numbering.prune
        rw [length_map]
        exact (List.getElem?_eq_some_iff.1 (Numbering.getElem?_kept hk hi)).1
      refine ⟨by simp [hsome], fun _ => ?_⟩
      simp only [if_true, hj', Option.getD_some]
      exact ⟨⟨_, hexp.prune_steps⟩, hexp.prune_nodup successors_nodup, hlength hfirst hzero, hlength hlt hj',
        hcompose hprune⟩
    | false =>
      have hlength : r.2.graph.length = r.2.names.length := by
        unfold Numbering.graph
        rw [length_map, length_range]
      refine ⟨by simp [hsome], fun _ => ?_⟩
      refine ⟨⟨_, hexp.graph_steps⟩, hexp.graph_nodup successors_nodup, ?_, ?_, hcompose (hexp.graph_bijOn hname')⟩
      · exact hlength ▸ hfirst
      · exact hlength ▸ hlt

/-- The graph has each path for the input and output once and no other, and there is no goal iff there is no such path. -/
def DerivesPaths (x : Wfst W) (inp out : SymSeq) (prune : Bool) : Prop :=
  ∃ d, compute x inp out prune = some d ∧ (d.noGoal = true ↔ ¬ ∃ ps, Matching x inp out ps) ∧
    (d.noGoal = false → (∀ k, (Numbering.arcsOf d.g k).Nodup) ∧
      Set.BijOn (List.map fun a => x.ptrOf a.label) {as | Trail (Numbering.arcsOf d.g) 0 as d.fin}
        {ps | Matching x inp out ps})

/-- **The graph of `compute` has the paths for an input and output, each once, exactly when each is laid along them in
one way**, as every path is if neither has a `*e*` (`Matching.laid_once`). -/
theorem compute_paths_iff (x : Wfst W) (inp out : SymSeq) (prune : Bool) : DerivesPaths x inp out prune ↔
    ∀ ps, Matching x inp out ps → ∃! ls, Laying x inp out ls ∧ ls.map Laid.arc = ps := by
  obtain ⟨d, hd, hgoal, hlattice⟩ := compute_lattice x inp out prune
  have harcs : ∀ {f : Link Nat → Laid}, (∀ a, (f a).arc = x.ptrOf a.label) →
      (List.map fun a => x.ptrOf a.label) = List.map Laid.arc ∘ List.map f := by
    intro f hf
    rw [map_comp_map]
    exact congrArg List.map (funext fun a => (hf a).symm)
  constructor
  · rintro ⟨d', hd', hgoal', hpaths⟩ ps hps
    obtain rfl := Option.some.inj (hd.symm.trans hd')
    have hno : d.noGoal = false := by
      by_contra h
      exact hgoal'.1 (by simpa using h) ⟨ps, hps⟩
    obtain ⟨f, hf, hbij⟩ := (hlattice hno).paths
    obtain ⟨-, hmatch⟩ := hpaths hno
    rw [harcs hf] at hmatch
    obtain ⟨as, has, rfl⟩ := hmatch.surjOn hps
    refine ⟨as.map f, ⟨hbij.mapsTo has, rfl⟩, ?_⟩
    rintro ls ⟨hls, heq⟩
    obtain ⟨bs, hbs, rfl⟩ := hbij.surjOn hls
    rw [hmatch.injOn hbs has heq]
  · intro honce
    have hsome : (∃ ls, Laying x inp out ls) ↔ ∃ ps, Matching x inp out ps := by
      refine ⟨fun ⟨ls, hls⟩ => ⟨_, hls.matching⟩, fun ⟨ps, hps⟩ => ?_⟩
      obtain ⟨ls, hls, -⟩ := (laying_bijOn honce).surjOn hps
      exact ⟨ls, hls⟩
    refine ⟨d, hd, hgoal.trans (not_congr hsome), fun hno => ⟨(hlattice hno).nodup, ?_⟩⟩
    obtain ⟨f, hf, hbij⟩ := (hlattice hno).paths
    rw [harcs hf]
    exact (laying_bijOn honce).comp hbij

/-- From the start an arc writes `a`, to the final state; so does an epsilon arc, with one that writes `a` behind it. -/
def silentThenA : Wfst Nat where
  states := [[⟨0, 0, 2, 1, noGroup⟩, ⟨0, 1, 1, 1, noGroup⟩], [], [⟨0, 1, 1, 1, noGroup⟩]]
  final := 1
  nonempty := by decide
  final_lt := by decide
  dest_lt := by decide

/-- The input `*e*` and the output `a`: of the path of two arcs the first may stand at the `*e*` or the second, so the
graph has it twice. -/
theorem not_derivesPaths_silentThenA : ¬ DerivesPaths silentThenA [epsilonIndex] [1] true ∧
    ¬ DerivesPaths silentThenA [epsilonIndex] [1] false := by
  have htwice : ∀ {d : Derivations} {k m : Nat},
      Set.InjOn (List.map fun a => silentThenA.ptrOf a.label) {as | Trail (Numbering.arcsOf d.g) 0 as d.fin} →
      ⟨0, k, 0⟩ ∈ Numbering.arcsOf d.g 0 → ⟨k, d.fin, 2⟩ ∈ Numbering.arcsOf d.g k →
      ⟨0, m, 0⟩ ∈ Numbering.arcsOf d.g 0 → ⟨m, d.fin, 2⟩ ∈ Numbering.arcsOf d.g m → k = m := by
    intro d k m hinj hk hk' hm hm'
    have h₁ : Trail (Numbering.arcsOf d.g) 0 [⟨0, k, 0⟩, ⟨k, d.fin, 2⟩] d.fin := .cons hk (.cons hk' (.nil _))
    have h₂ : Trail (Numbering.arcsOf d.g) 0 [⟨0, m, 0⟩, ⟨m, d.fin, 2⟩] d.fin := .cons hm (.cons hm' (.nil _))
    exact congrArg Link.dest (List.cons.inj (hinj h₁ h₂ rfl)).1
  constructor
  · rintro ⟨d, hd, -, hpaths⟩
    have hcompute : compute silentThenA [epsilonIndex] [1] true =
        some ⟨[[⟨0, 2, 1⟩, ⟨0, 3, 0⟩, ⟨0, 1, 0⟩], [⟨1, 2, 2⟩], [], [⟨3, 2, 2⟩]], 2, false⟩ := rfl
    obtain rfl := Option.mem_unique hcompute hd
    exact absurd (@htwice _ 1 3 (hpaths rfl).2.injOn (by decide) (by decide) (by decide) (by decide)) (by decide)
  · rintro ⟨d, hd, -, hpaths⟩
    have hcompute : compute silentThenA [epsilonIndex] [1] false =
        some ⟨[[⟨0, 3, 1⟩, ⟨0, 4, 0⟩, ⟨0, 1, 0⟩], [⟨1, 3, 2⟩], [], [], [⟨4, 3, 2⟩]], 3, false⟩ := rfl
    obtain rfl := Option.mem_unique hcompute hd
    exact absurd (@htwice _ 1 4 (hpaths rfl).2.injOn (by decide) (by decide) (by decide) (by decide)) (by decide)

end Sbmt.Carmel
