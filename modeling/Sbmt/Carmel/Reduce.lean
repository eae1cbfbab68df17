import Sbmt.Carmel.Graph
import Sbmt.Carmel.RemoveStates

/-!
# `WFST::reduce` (`carmel/src/fst.cc:456-512`)

Two depth first searches find the states between the start and the final state; the others are removed, and of those
left the `*e*:*e*` arcs to the state itself.
-/

namespace Sbmt.Carmel

open Sbmt.Lib Option

variable {W C : Type*}

def removeEpsilonsTo (dest : Nat) (arcs : List (FSTArc W)) : List (FSTArc W) :=
  arcs.filter fun a => !(a.inp == epsilonIndex && a.out == epsilonIndex && a.dest == dest)

def Fst.clear : Fst W := ⟨[], none, []⟩

def reduce (getCost : W → C) (y : Fst W) : Option (Fst W) :=
  match y.final with
  | none => some .clear
  | some final =>
    let g := makeGraph getCost y.states
    (depthFirstSearch g 0).bind fun visitedForward =>
      (depthFirstSearch (reverseGraph g) final).bind fun visitedBackward =>
        let z := removeMarkedStates y fun i => !(visitedForward i && visitedBackward i)
        some { z with states := z.states.mapIdx removeEpsilonsTo }

/-- An `*e*:*e*` arc from a state to itself. -/
def epsilonLoop (s : Nat) (a : FSTArc W) : Bool := a.inp == epsilonIndex && a.out == epsilonIndex && a.dest == s

/-- The states without which an accepting path does not do. -/
def Between (x : Wfst W) (s : Nat) : Prop := ∃ as bs, x.Path 0 as s ∧ x.Path s bs x.final

/-- `y` is the valid transducer `r`. -/
structure Fst.Holds (y : Fst W) (r : Wfst W) : Prop where
  states : y.states = r.states
  final : y.final = some r.final

variable {x : Wfst W}

theorem Wfst.Path.append {s t u : Nat} {ps qs : List ArcPtr} (hps : x.Path s ps t) (hqs : x.Path t qs u) :
    x.Path s (ps ++ qs) u := by
  induction hps with
  | nil s => exact hqs
  | cons ha _ ih => exact .cons ha (ih hqs)

theorem between_accepting {s : Nat} (h : Between x s) : ∃ ps, x.Accepting ps := by
  obtain ⟨as, bs, has, hbs⟩ := h
  exact ⟨as ++ bs, has.append hbs⟩

variable {ps : List ArcPtr}

theorem Wfst.Accepting.between_start (h : x.Accepting ps) : Between x 0 := ⟨[], ps, .nil 0, h⟩

theorem Wfst.Accepting.between_final (h : x.Accepting ps) : Between x x.final :=
  ⟨ps, [], h, .nil x.final⟩

/-- The state an arc of a path leads to lies on the path. -/
theorem Wfst.Path.mem_split {s t : Nat} (h : x.Path s ps t) {p : ArcPtr} {a : FSTArc W}
    (hp : p ∈ ps) (ha : x.arc? p = some a) : ∃ as bs, x.Path s as a.dest ∧ x.Path a.dest bs t := by
  induction h with
  | nil s => cases hp
  | @cons q qs b t hb hrest ih =>
    rcases List.mem_cons.1 hp with rfl | hp
    · obtain rfl : a = b := mem_unique ha hb
      exact ⟨[p], qs, .cons ha (.nil _), hrest⟩
    · obtain ⟨as, bs, has, hbs⟩ := ih hp
      exact ⟨q :: as, bs, .cons hb has, hbs⟩

/-- A path does without the loops. -/
theorem Wfst.Path.exists_loopless {s t : Nat} (h : x.Path s ps t) :
    ∃ qs, x.Path s qs t ∧ ∀ q ∈ qs, ∀ a, x.arc? q = some a → epsilonLoop q.src a = false := by
  induction h with
  | nil s => exact ⟨[], .nil s, fun q hq => by cases hq⟩
  | @cons p ps a t ha _ ih =>
    obtain ⟨qs, hqs, hloop⟩ := ih
    cases hbad : epsilonLoop p.src a with
    | true =>
      have hdest : a.dest = p.src := by
        unfold epsilonLoop at hbad
        rw [Bool.and_eq_true, beq_iff_eq] at hbad
        exact hbad.2
      exact ⟨qs, hdest ▸ hqs, hloop⟩
    | false =>
      refine ⟨p :: qs, .cons ha hqs, ?_⟩
      rintro q hq b hb
      rcases List.mem_cons.1 hq with rfl | hq
      · obtain rfl : a = b := mem_unique ha hb
        exact hbad
      · exact hloop q hq b hb

section

/-- The arcs to a removed state go first, then the loops. -/
theorem removeEpsilonsTo_eq {marked : Nat → Bool} {k i : Nat} (hi : Numbering.newIndex marked k = some i)
    (arcs : List (FSTArc W)) :
    removeEpsilonsTo i (arcs.filterMap (keepArc marked (fun _ _ => false) k)) =
      arcs.filterMap (keepArc marked epsilonLoop k) := by
  unfold removeEpsilonsTo
  rw [List.filter_filterMap]
  refine List.filterMap_congr fun a _ => ?_
  cases hd : Numbering.newIndex marked a.dest with
  | none => simp only [keepArc, hd, map_none, filter_none, ite_self]
  | some d =>
    have hsame : (d == i) = (a.dest == k) := by
      rw [Bool.eq_iff_iff, beq_iff_eq, beq_iff_eq]
      constructor
      · rintro rfl
        exact Numbering.newIndex_inj hd hi
      · rintro rfl
        exact mem_unique hd hi
    rw [keepArc_some rfl hd, filter_some]
    rw [hsame]
    unfold keepArc epsilonLoop
    rw [hd]
    cases a.inp == epsilonIndex && a.out == epsilonIndex && a.dest == k with
    | true => rfl
    | false => rfl

variable (getCost : W → C) (y : NamedWfst W)

/-- What `reduce` does to a valid transducer: the states that are not between the start and the final state are marked. -/
theorem reduce_eq : ∃ marked : Nat → Bool, (∀ s, marked s = false ↔ Between y.toWfst s) ∧
    reduce getCost y.toFst = some
      { states := restrictStates y.toWfst marked epsilonLoop
        final := Numbering.newIndex marked y.final
        stateNames := removeMarkedSwap marked y.stateNames } := by
  obtain ⟨visitedForward, hforward, hfrom⟩ := depthFirstSearch_makeGraph getCost y.toWfst y.nonempty
  obtain ⟨visitedBackward, hbackward, hto⟩ := depthFirstSearch_reverseGraph getCost y.toWfst y.final_lt
  refine ⟨fun i => !(visitedForward i && visitedBackward i), fun s => ?_, ?_⟩
  · rw [Bool.not_eq_false', Bool.and_eq_true, hfrom, hto]
    constructor
    · rintro ⟨⟨as, has⟩, bs, hbs⟩
      exact ⟨as, bs, has, hbs⟩
    · rintro ⟨as, bs, has, hbs⟩
      exact ⟨⟨as, has⟩, bs, hbs⟩
  · generalize hmarked : (fun i => !(visitedForward i && visitedBackward i)) = marked
    have hstates : (restrictStates y.toWfst marked fun _ _ => false).mapIdx removeEpsilonsTo =
        restrictStates y.toWfst marked epsilonLoop := by
      apply List.ext_getElem?
      intro i
      unfold restrictStates
      rw [List.getElem?_mapIdx, List.getElem?_map, List.getElem?_map]
      cases hi : (kept marked y.toWfst.numStates)[i]? with
      | none => rfl
      | some k =>
        obtain ⟨-, hnew⟩ := getElem?_kept_iff.1 hi
        simp only [map_some]
        rw [removeEpsilonsTo_eq hnew]
    unfold reduce
    dsimp only [NamedWfst.toFst]
    rw [hforward, hbackward]
    show some _ = some _
    rw [hmarked]
    show some (Fst.mk ((removeMarkedStates y.toFst marked).states.mapIdx removeEpsilonsTo)
      (removeMarkedStates y.toFst marked).final (removeMarkedStates y.toFst marked).stateNames) = _
    rw [removeMarkedStates_eq, hstates]

/-- **Reducing leaves, in their order, the states between the start and the final state, with the accepting paths that
take no epsilon loop; without an accepting path it leaves an invalid transducer.** -/
theorem reduce_spec : ∃ z, reduce getCost y.toFst = some z ∧
    (z.final = none ↔ ¬ ∃ ps, y.Accepting ps) ∧
    ((∃ ps, y.Accepting ps) → ∃ (r : Wfst W) (old : Nat → Nat) (ptr : ArcPtr → ArcPtr),
      z.Holds r ∧ Renumbering r y.toWfst old ptr ∧
      Set.BijOn (List.map ptr) {ps | r.Accepting ps}
        {qs | y.Accepting qs ∧ ∀ q ∈ qs, ∀ a, y.arc? q = some a → epsilonLoop q.src a = false} ∧
      (∀ s < r.numStates, Between r s) ∧
      ∀ s < r.numStates, z.stateNames[s]? = y.stateNames[old s]?) := by
  obtain ⟨marked, hmarked, hrun⟩ := reduce_eq getCost y
  refine ⟨_, hrun, ?_, ?_⟩
  · constructor
    · rintro hnone ⟨ps, hps⟩
      rw [newIndex_kept ((hmarked _).2 (Wfst.Accepting.between_final hps))] at hnone
      cases hnone
    · intro hno
      refine if_pos ?_
      by_contra hmark
      exact hno (between_accepting ((hmarked _).1 (Bool.eq_false_iff.2 hmark)))
  · rintro ⟨ps, hps⟩
    have hstart := (hmarked _).2 (Wfst.Accepting.between_start hps)
    have hfinal := (hmarked _).2 (Wfst.Accepting.between_final hps)
    have hren := restrict_renumbering epsilonLoop hstart hfinal
    refine ⟨restrict y.toWfst marked epsilonLoop hstart hfinal, oldState y.toWfst marked,
      oldArc y.toWfst marked epsilonLoop, ⟨rfl, newIndex_kept hfinal⟩, hren, ?_, ?_, ?_⟩
    · have hbij := restrict_bijOn epsilonLoop hstart hfinal
      have hsame : {qs | y.Accepting qs ∧ Within y.toWfst marked epsilonLoop qs} =
          {qs | y.Accepting qs ∧ ∀ q ∈ qs, ∀ a, y.arc? q = some a → epsilonLoop q.src a = false} := by
        ext qs
        refine and_congr_right fun hqs => ⟨fun h q hq a ha => (h q hq a ha).1, fun h q hq a ha => ⟨h q hq a ha, ?_⟩⟩
        exact (hmarked _).2 (hqs.mem_split hq ha)
      rwa [hsame] at hbij
    · intro s hs
      rw [restrict_numStates] at hs
      obtain ⟨hk, hnew⟩ := getElem?_kept_iff.1 ((oldState_eq_iff hs).1 rfl)
      obtain ⟨as, bs, has, hbs⟩ := (hmarked _).1 (Numbering.newIndex_eq_some hnew).1
      -- a path through the state without loops is a path of what is left
      obtain ⟨as', has', hloop⟩ := has.exists_loopless
      obtain ⟨bs', hbs', hloop'⟩ := hbs.exists_loopless
      have hbetween : ∀ q ∈ as' ++ bs', ∀ a, y.arc? q = some a → marked a.dest = false :=
        fun q hq a ha => (hmarked _).2 ((has'.append hbs').mem_split hq ha)
      obtain ⟨ps1, t1, ht1, hps1, -⟩ := restrict_path hstart hfinal has'
        (fun q hq a ha => ⟨hloop q hq a ha, hbetween q (List.mem_append_left _ hq) a ha⟩) (newIndex_kept hstart)
      obtain rfl : s = t1 := mem_unique hnew ht1
      obtain ⟨ps2, t2, ht2, hps2, -⟩ := restrict_path hstart hfinal hbs'
        (fun q hq a ha => ⟨hloop' q hq a ha, hbetween q (List.mem_append_right _ hq) a ha⟩) hnew
      obtain rfl : (kept marked y.final).length = t2 := Option.some.inj ((newIndex_kept hfinal).symm.trans ht2)
      exact ⟨ps1, ps2, hps1, hps2⟩
    · intro s hs
      rw [restrict_numStates] at hs
      exact removeMarkedSwap_get ((oldState_eq_iff hs).1 rfl)

end

end Sbmt.Carmel
