import Sbmt.Carmel.Derivations
import Sbmt.Lib.DeadStates
/-!
# What pruning leaves of the derivations (`carmel/src/derivations.h:646-781`)

`add_arcs` leaves out an arc to a state that `remove` marks, and a state is marked as it comes back with no arc.  One
that is being explored is not marked yet (the `FIXME` at `:775` knows that `remove` is not about reaching the goal; the
code under `!DERIVPRUNE`, `:653-663`, marks what the goal is reached from).

`DeadCycle` is what the marking does not see: arcs that take nothing all around a cycle of states, come to with a part
of the input and the output read, from where the rest cannot be read.
-/

namespace Sbmt.Carmel

open Sbmt.Lib Option

variable {W : Type*}

/-- A cycle of `*e*:*e*` arcs where something is left to be read that no path to the final state reads. -/
def DeadCycle (x : Wfst W) (inp out : SymSeq) : Prop :=
  ∃ (r : Rest) (as cs : List Laid), LaidPath x ⟨0, inp, out⟩ as r ∧ cs ≠ [] ∧ LaidPath x r cs r ∧
    ¬ ∃ bs, LaidPath x r bs ⟨x.final, [], []⟩

/-- Every state lies on a path from the start to the final state. -/
def AllUseful (d : Derivations) : Prop :=
  ∀ k < d.g.length, ∃ as bs, Trail (Numbering.arcsOf d.g) 0 as k ∧ Trail (Numbering.arcsOf d.g) k bs d.fin

variable {x : Wfst W} {inp out : SymSeq}

/-- The search comes from a state to a state by the paths laid along what is between them. -/
theorem reaches_iff_laidPath {d e : DerivState} (hd : d ∈ allStates x inp out) (he : e ∈ allStates x inp out) :
    Reaches (successors x inp out) d e ↔ ∃ ls, LaidPath x (rest inp out d) ls (rest inp out e) := by
  obtain ⟨hdi, -, hdo⟩ := mem_allStates.mp hd
  obtain ⟨hei, -, heo⟩ := mem_allStates.mp he
  constructor
  · rintro ⟨es, hes⟩
    exact ⟨_, laidPath_of_walk hes⟩
  · rintro ⟨ls, hls⟩
    obtain ⟨es, hes, -⟩ := walk_of_laidPath hei heo hdi hdo hls
    exact ⟨es, hes⟩

theorem cycle_iff_laidPath {d : DerivState} (hd : d ∈ allStates x inp out) :
    (∃ p ∈ successors x inp out d, Reaches (successors x inp out) p.2 d) ↔
      ∃ cs, cs ≠ [] ∧ LaidPath x (rest inp out d) cs (rest inp out d) := by
  obtain ⟨hi, -, ho⟩ := mem_allStates.mp hd
  constructor
  · rintro ⟨p, hp, es, hes⟩
    exact ⟨_, List.cons_ne_nil _ _, laidPath_of_walk (Lib.Walk.cons hp hes)⟩
  · rintro ⟨cs, hne, hcs⟩
    obtain ⟨es, hwalk, rfl⟩ := walk_of_laidPath hi ho hi ho hcs
    cases hwalk with
    | nil => exact absurd rfl hne
    | cons hmem hrest => exact ⟨_, hmem, _, hrest⟩

theorem reached_bounds {v : DerivState} (h : Reaches (successors x inp out) ⟨0, 0, 0⟩ v) :
    v ∈ allStates x inp out := by
  obtain ⟨es, hes⟩ := h
  have hstart : (⟨0, 0, 0⟩ : DerivState) ∈ allStates x inp out := start_mem
  generalize (⟨0, 0, 0⟩ : DerivState) = d at hes hstart
  induction hes with
  | nil => exact hstart
  | cons hmem _ ih => exact ih (successors_closed _ hstart _ hmem)

/-- What is left behind a path laid from the start is what is left in a state of the search. -/
theorem exists_rest {as : List Laid} {r : Rest} (h : LaidPath x ⟨0, inp, out⟩ as r) :
    ∃ v ∈ allStates x inp out, rest inp out v = r := by
  suffices hall : ∀ {as : List Laid} {d : DerivState}, d ∈ allStates x inp out → LaidPath x (rest inp out d) as r →
      ∃ v ∈ allStates x inp out, rest inp out v = r from hall (d := ⟨0, 0, 0⟩) start_mem h
  intro as
  induction as with
  | nil => exact fun hd h => ⟨_, hd, h⟩
  | cons l as ih =>
    intro d hd h
    obtain ⟨a, _, _, ha, -, hI, hO, hrest⟩ := h
    obtain ⟨hi, -, ho⟩ := mem_allStates.mp hd
    obtain ⟨i', hi', rfl, -, -⟩ := hI.reads hi
    obtain ⟨o', ho', rfl, -, -⟩ := hO.reads ho
    exact ih (d := ⟨i', a.dest, o'⟩) (mem_allStates.mpr ⟨hi', (Wfst.arc?_lt ha).2, ho'⟩) hrest

/-- The states that are not hopeless all reach the goal exactly when there is no dead cycle. -/
theorem reaches_unless_hopeless_iff :
    (∀ v, Reaches (successors x inp out) ⟨0, 0, 0⟩ v → ¬ Hopeless (successors x inp out) (goal x inp out) v →
        Reaches (successors x inp out) v (goal x inp out)) ↔
      ¬ DeadCycle x inp out := by
  have hgoal : ∀ {v : DerivState}, v ∈ allStates x inp out → (Reaches (successors x inp out) v (goal x inp out) ↔
      ∃ bs, LaidPath x (rest inp out v) bs ⟨x.final, [], []⟩) := by
    intro v hv
    rw [reaches_iff_laidPath hv goal_mem, rest_goal]
  constructor
  · rintro hall ⟨r, as, cs, has, hne, hcs, hstuck⟩
    obtain ⟨v, hv, rfl⟩ := exists_rest has
    have hreach := (reaches_iff_laidPath (d := ⟨0, 0, 0⟩) start_mem hv).mpr ⟨as, has⟩
    obtain ⟨p, hp, hback⟩ := (cycle_iff_laidPath hv).mpr ⟨cs, hne, hcs⟩
    exact hstuck ((hgoal hv).mp (hall _ hreach fun hhopeless => hhopeless.no_cycle p hp hback))
  · intro hno v hv hnot
    by_contra hunreached
    apply hnot
    refine hopeless_of_acyclic successors_closed (reached_bounds hv) hunreached fun w hw p hp hback => hno ?_
    have hreach := hv.trans hw
    have hbounds := reached_bounds hreach
    obtain ⟨as, has⟩ := (reaches_iff_laidPath start_mem hbounds).mp hreach
    obtain ⟨cs, hne, hcs⟩ := (cycle_iff_laidPath hbounds).mp ⟨p, hp, hback⟩
    exact ⟨_, as, cs, has, hne, hcs, fun hbs => hunreached (hw.trans ((hgoal hbounds).mpr hbs))⟩

/-- **Where there is a derivation, every state that pruning leaves lies on a path from the start to the final state
exactly when there is no dead cycle.** -/
theorem compute_prune_useful_iff (x : Wfst W) (inp out : SymSeq) (hsome : ∃ ls, Laying x inp out ls) :
    (∃ d, compute x inp out true = some d ∧ d.noGoal = false ∧ AllUseful d) ↔ ¬ DeadCycle x inp out := by
  obtain ⟨r, hr⟩ := derive_isSome x inp out
  have hrun := (derive_eq_visit _ _ _).symm.trans hr
  obtain ⟨-, hexp⟩ := Numbering.Explored.of_visit hrun
  have hreach : Reaches (successors x inp out) ⟨0, 0, 0⟩ (goal x inp out) := by
    obtain ⟨ls, hls⟩ := hsome
    obtain ⟨es, hes, -⟩ := (walks_bijOn x inp out).surjOn hls
    exact ⟨es, hes⟩
  obtain ⟨fin, hfin⟩ := ne_none_iff_exists'.1
    (mt List.idxOf?_eq_none_iff.1 (not_not.2 (hexp.goal_mem.2 hreach)))
  obtain ⟨hlt, hname, -⟩ := List.idxOf?_eq_some_iff.1 hfin
  have hname' : r.2.names[fin]? = some (goal x inp out) := by
    rw [List.getElem?_eq_getElem hlt, hname]
  obtain ⟨-, fin', hfin', -⟩ := hexp.prune_bijOn hname' hreach
  have hcompute : compute x inp out true = some ⟨r.2.prune, fin', false⟩ := by
    simp only [compute, hr, map_some, hfin, if_true, hfin', getD_some]
  rw [← reaches_unless_hopeless_iff, ← Numbering.prune_useful_iff hrun hname' hfin', hcompute]
  constructor
  · rintro ⟨d, hd, -, huseful⟩
    obtain rfl := Option.some.inj hd
    exact huseful
  · intro huseful
    exact ⟨_, rfl, rfl, huseful⟩

/-! ## One that has none, one that has -/

def justA : SymSeq := [1]

/-- From the start an arc reads `a`, to the final state, and epsilon arcs lead to a state that has none and back to the
start. -/
def loopAndDeadEnd : Wfst Nat where
  states := [[⟨1, 1, 1, 1, noGroup⟩, ⟨0, 0, 2, 1, noGroup⟩, ⟨0, 0, 0, 1, noGroup⟩], [], []]
  final := 1
  nonempty := by decide
  final_lt := by decide
  dest_lt := by decide

/-- The same with the loop at the state the epsilon arc leads to. -/
def sideLoop : Wfst Nat where
  states := [[⟨1, 1, 1, 1, noGroup⟩, ⟨0, 0, 2, 1, noGroup⟩], [], [⟨0, 0, 2, 1, noGroup⟩]]
  final := 1
  nonempty := by decide
  final_lt := by decide
  dest_lt := by decide

theorem loopAndDeadEnd_arc {p : ArcPtr} {a : FSTArc Nat} (h : loopAndDeadEnd.arc? p = some a) :
    p.src = 0 ∧ (a.dest ≠ 0 ∨ a = ⟨0, 0, 0, 1, noGroup⟩) := by
  have hall : ∀ a ∈ loopAndDeadEnd.arcs 0, a.dest ≠ 0 ∨ a = ⟨0, 0, 0, 1, noGroup⟩ := by decide
  obtain ⟨src, pos⟩ := p
  have hmem := List.mem_of_getElem? h
  rcases src with _ | _ | _ | src
  · exact ⟨rfl, hall a hmem⟩
  · cases hmem
  · cases hmem
  · cases hmem

/-- It comes back to its start only around the loop. -/
theorem loopAndDeadEnd_start : ∀ {as : List Laid} {r : Rest}, LaidPath loopAndDeadEnd ⟨0, justA, justA⟩ as r → r.s = 0 →
    r = ⟨0, justA, justA⟩
  | [], _, h, _ => h.symm
  | ⟨arc, atIn, atOut⟩ :: as, r, ⟨a, i, o, ha, _, hI, hO, hrest⟩, hr => by
    rcases (loopAndDeadEnd_arc ha).2 with hdest | rfl
    · cases as with
      | nil =>
        obtain rfl : (⟨a.dest, i, o⟩ : Rest) = r := hrest
        exact absurd hr hdest
      | cons _ _ =>
        obtain ⟨_, _, _, ha', hsrc, -⟩ := hrest
        exact absurd (hsrc.symm.trans (loopAndDeadEnd_arc ha').1) hdest
    · obtain ⟨rfl, -⟩ := hI.eq_bne (by decide)
      obtain ⟨rfl, -⟩ := hO.eq_bne (by decide)
      obtain ⟨-, rfl⟩ := hI
      obtain ⟨-, rfl⟩ := hO
      exact loopAndDeadEnd_start hrest hr

theorem compute_prune_useful_loopAndDeadEnd :
    ∃ d, compute loopAndDeadEnd justA justA true = some d ∧ d.noGoal = false ∧ AllUseful d := by
  have hletter : LaidPath loopAndDeadEnd ⟨0, justA, justA⟩ [⟨⟨0, 0⟩, true, true⟩] ⟨1, [], []⟩ :=
    ⟨⟨1, 1, 1, 1, noGroup⟩, [], [], rfl, rfl, rfl, rfl, rfl⟩
  refine (compute_prune_useful_iff loopAndDeadEnd justA justA ⟨_, hletter⟩).mpr ?_
  rintro ⟨r, as, cs, has, hne, hcs, hstuck⟩
  cases cs with
  | nil => exact hne rfl
  | cons l cs =>
    obtain ⟨a, _, _, ha, hsrc, -⟩ := hcs
    obtain rfl := loopAndDeadEnd_start has (hsrc.symm.trans (loopAndDeadEnd_arc ha).1)
    exact hstuck ⟨_, hletter⟩

/-- Pruning leaves the state with the loop, from which no path leads to the final state. -/
theorem not_compute_prune_useful :
    ¬ ∃ d, compute sideLoop justA justA true = some d ∧ d.noGoal = false ∧ AllUseful d := by
  have hcompute : compute sideLoop justA justA true =
      some ⟨[[⟨0, 2, 0⟩, ⟨0, 1, 1⟩], [⟨1, 1, 2⟩], []], 2, false⟩ := rfl
  rintro ⟨d, hd, -, huseful⟩
  obtain rfl := mem_unique hcompute hd
  have hstay : ∀ {k j : Nat} {bs : List (Link Nat)},
      Trail (Numbering.arcsOf [[⟨0, 2, 0⟩, ⟨0, 1, 1⟩], [⟨1, 1, 2⟩], []]) k bs j → k = 1 → j = 1 := by
    intro k j bs h
    induction h with
    | nil k => exact id
    | cons hmem _ ih =>
      rintro rfl
      rw [show Numbering.arcsOf [[⟨0, 2, 0⟩, ⟨0, 1, 1⟩], [⟨1, 1, 2⟩], []] 1 = [(⟨1, 1, 2⟩ : Link Nat)] from rfl,
        List.mem_singleton] at hmem
      exact ih (congrArg Link.dest hmem)
  obtain ⟨-, bs, -, hbs⟩ := huseful 1 (by decide)
  exact absurd (hstay hbs rfl) (by decide)

end Sbmt.Carmel
