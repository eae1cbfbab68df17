import Sbmt.Carmel.Graph

/-!
# Random paths (`carmel/src/fst.h:791-840`)

| here | there |
| --- | --- |
| `DrawOps` | the members of `Weight` used here; a draw is what `randomFloat` gives, `scale` is `arcsum * randomFloat()` |
| `PathArc` | `PathArc` (`:33-47`) less the transducer it is of |
| `chooseArc` | the arc a draw chooses (`:808-820`), `none` where the loop finds none |
| `pathExit` | the two tests before a draw (`:803-806`) |
| `randomPath` | `WFST::randomPath` after so many draws: with what and which arcs it has returned, or thrown, or that it waits for one more draw |

`max_len` and `len` are words of 32 bits; `max` is `max_len` without its sign.  An arc counts twice: by `++len` where it
is written and by the one at `next_arc`.
-/

namespace Sbmt.Carmel

variable {W U : Type*}

structure DrawOps (W U : Type*) where
  zero : W
  add : W → W → W
  scale : W → U → W
  ge : W → W → Bool

structure PathArc (W : Type*) where
  inp : Nat
  out : Nat
  destState : Nat
  weight : W
deriving DecidableEq

def setPathArc (a : FSTArc W) : PathArc W := ⟨a.inp, a.out, a.dest, a.weight⟩

/-- The first arc at which the sum comes up to `whichArc`. -/
def pickArc (ops : DrawOps W U) (whichArc : W) : W → List (FSTArc W) → Option (FSTArc W)
  | _, [] => none
  | arcsum, li :: ls =>
    let arcsum := ops.add arcsum li.weight
    if ops.ge arcsum whichArc then some li else pickArc ops whichArc arcsum ls

def chooseArc (ops : DrawOps W U) (arcs : List (FSTArc W)) (draw : U) : Option (FSTArc W) :=
  let arcsum := arcs.foldl (fun sum li => ops.add sum li.weight) ops.zero
  pickArc ops (ops.scale arcsum draw) ops.zero arcs

structure Walk (W : Type*) where
  s : Nat
  len : BitVec 32
  written : List (PathArc W)
deriving DecidableEq

inductive Drawing (W : Type*)
  | returned (n : Int) (written : List (PathArc W))
  | threw (written : List (PathArc W))
  | waits (o : Walk W)
deriving DecidableEq

def pathExit (x : Wfst W) (max : BitVec 32) (o : Walk W) : Option Int :=
  if o.s = x.final then some o.len.toInt
  else if max < o.len ∨ (x.arcs o.s).isEmpty then some (-1)
  else none

def Walk.add (o : Walk W) (a : FSTArc W) : Walk W :=
  let o := { o with written := o.written ++ [setPathArc a], s := a.dest, len := o.len + 1 }
  -- next_arc
  { o with len := o.len + 1 }

def randomPathFrom (ops : DrawOps W U) (x : Wfst W) (max : BitVec 32) : List U → Walk W → Drawing W
  | [], o =>
    match pathExit x max o with
    | some n => .returned n o.written
    | none => .waits o
  | draw :: draws, o =>
    match pathExit x max o with
    | some n => .returned n o.written
    | none =>
      match chooseArc ops (x.arcs o.s) draw with
      | none => .threw o.written
      | some a => randomPathFrom ops x max draws (o.add a)

def randomPath (ops : DrawOps W U) (x : Wfst W) (maxLen : BitVec 32) (draws : List U) : Drawing W :=
  randomPathFrom ops x maxLen draws ⟨0, 0, []⟩

/-! ## Where draws lead -/

/-- `Comes ops x maxLen k t`: `k` draws can lead to `t`. -/
inductive Comes (ops : DrawOps W U) (x : Wfst W) (maxLen : BitVec 32) : Nat → Nat → Prop
  | start : Comes ops x maxLen 0 0
  | draw {k s : Nat} {a : FSTArc W} (h : Comes ops x maxLen k s) (hs : s ≠ x.final) (hlen : 2 * k % 2 ^ 32 ≤ maxLen.toNat)
      (u : U) (ha : chooseArc ops (x.arcs s) u = some a) : Comes ops x maxLen (k + 1) a.dest

variable {ops : DrawOps W U} {x : Wfst W} {maxLen : BitVec 32} {k : Nat} {o : Walk W} {a : FSTArc W} {u : U}

/-- The state behind the arcs that are written. -/
def reached (l : List (PathArc W)) : Nat := (l.getLast?.map PathArc.destState).getD 0

/-- What is written has an arc for every draw, and its path ends in `o.s`. -/
structure Walk.Along (x : Wfst W) (k : Nat) (o : Walk W) : Prop where
  len_eq : o.len.toNat = 2 * k % 2 ^ 32
  length_eq : o.written.length = k
  reached_eq : reached o.written = o.s
  path : ∃ ps, x.Path 0 ps o.s ∧ o.written = (x.taken ps).map setPathArc

theorem pickArc_mem {whichArc : W} : ∀ {arcsum : W} {ls : List (FSTArc W)},
    pickArc ops whichArc arcsum ls = some a → a ∈ ls
  | _, [], h => by cases h
  | arcsum, li :: ls, h => by
    rw [pickArc] at h
    split at h
    · obtain rfl := Option.some.inj h
      exact List.mem_cons_self
    · exact List.mem_cons_of_mem li (pickArc_mem h)

theorem Walk.Along.start : Walk.Along x 0 ⟨0, 0, []⟩ := ⟨rfl, rfl, rfl, [], .nil 0, rfl⟩

theorem Walk.Along.add (h : o.Along x k) (ha : chooseArc ops (x.arcs o.s) u = some a) : (o.add a).Along x (k + 1) := by
  obtain ⟨ps, hps, hwritten⟩ := h.path
  obtain ⟨i, hi⟩ := List.mem_iff_getElem?.1 (pickArc_mem ha)
  have harc : x.arc? ⟨o.s, i⟩ = some a := hi
  refine ⟨?_, ?_, ?_, ps ++ [⟨o.s, i⟩], Wfst.Path.snoc harc hps, ?_⟩
  · have hone : (1 : BitVec 32).toNat = 1 := rfl
    show (o.len + 1 + 1).toNat = _
    rw [BitVec.toNat_add, BitVec.toNat_add, h.len_eq]
    omega
  · show (o.written ++ [setPathArc a]).length = k + 1
    rw [List.length_append, h.length_eq, List.length_singleton]
  · show ((o.written ++ [setPathArc a]).getLast?.map PathArc.destState).getD 0 = a.dest
    rw [List.getLast?_concat]
    rfl
  · show o.written ++ [setPathArc a] = _
    rw [hwritten, Wfst.taken, Wfst.taken, List.filterMap_append, List.map_append, List.filterMap_cons_some harc]
    rfl

/-- When a path stops, and with what. -/
theorem pathExit_eq_some {n : Int} (h : o.Along x k) (hn : pathExit x maxLen o = some n) :
    (o.s = x.final ∧ n = o.len.toInt) ∨
      (o.s ≠ x.final ∧ n = -1 ∧ (maxLen.toNat < 2 * k % 2 ^ 32 ∨ x.arcs o.s = [])) := by
  unfold pathExit at hn
  split at hn
  · rename_i hfinal
    exact .inl ⟨hfinal, (Option.some.inj hn).symm⟩
  · rename_i hfinal
    split at hn
    · rename_i hout
      refine .inr ⟨hfinal, (Option.some.inj hn).symm, ?_⟩
      rcases hout with hlt | hempty
      · rw [BitVec.lt_def, h.len_eq] at hlt
        exact .inl hlt
      · exact .inr (List.isEmpty_iff.1 hempty)
    · cases hn

theorem pathExit_final (hfinal : o.s = x.final) : pathExit x maxLen o = some o.len.toInt := by
  rw [pathExit, if_pos hfinal]

theorem pathExit_limit (h : o.Along x k) (hfinal : o.s ≠ x.final) (hlt : maxLen.toNat < 2 * k % 2 ^ 32) :
    pathExit x maxLen o = some (-1) := by
  have hlen : maxLen < o.len := by rwa [BitVec.lt_def, h.len_eq]
  rw [pathExit, if_neg hfinal, if_pos (.inl hlen)]

theorem pathExit_none (h : o.Along x k) (hfinal : o.s ≠ x.final) (hle : 2 * k % 2 ^ 32 ≤ maxLen.toNat)
    (harcs : x.arcs o.s ≠ []) : pathExit x maxLen o = none := by
  rw [pathExit, if_neg hfinal, if_neg]
  rintro (hlt | hempty)
  · rw [BitVec.lt_def, h.len_eq] at hlt
    exact absurd hle (Nat.not_le_of_lt hlt)
  · exact harcs (List.isEmpty_iff.1 hempty)

/-! ## What is returned -/

theorem randomPathFrom_exit {n : Int} (hn : pathExit x maxLen o = some n) (draws : List U) :
    randomPathFrom ops x maxLen draws o = .returned n o.written := by
  cases draws with
  | nil => rw [randomPathFrom, hn]
  | cons u draws => rw [randomPathFrom, hn]

theorem randomPathFrom_cons {draws : List U} (hn : pathExit x maxLen o = none)
    (ha : chooseArc ops (x.arcs o.s) u = some a) :
    randomPathFrom ops x maxLen (u :: draws) o = randomPathFrom ops x maxLen draws (o.add a) := by
  rw [randomPathFrom, hn]
  rw [ha]

/-- A path is returned where one of its states is an exit. -/
theorem randomPathFrom_returned {n : Int} {l : List (PathArc W)} : ∀ {draws : List U} {k : Nat} {o : Walk W},
    Comes ops x maxLen k o.s → o.Along x k → randomPathFrom ops x maxLen draws o = .returned n l →
    ∃ k o', Comes ops x maxLen k o'.s ∧ o'.Along x k ∧ o'.written = l ∧ pathExit x maxLen o' = some n
  | draws, k, o, hcomes, ho, hrun => by
    cases hn : pathExit x maxLen o with
    | some m =>
      rw [randomPathFrom_exit hn] at hrun
      cases hrun
      exact ⟨k, o, hcomes, ho, rfl, hn⟩
    | none =>
      have hgo : o.s ≠ x.final ∧ 2 * k % 2 ^ 32 ≤ maxLen.toNat := by
        refine ⟨fun hfinal => ?_, Nat.le_of_not_lt fun hlt => ?_⟩
        · rw [pathExit_final hfinal] at hn
          cases hn
        · by_cases hfinal : o.s = x.final
          · rw [pathExit_final hfinal] at hn
            cases hn
          · rw [pathExit_limit ho hfinal hlt] at hn
            cases hn
      cases draws with
      | nil =>
        rw [randomPathFrom, hn] at hrun
        cases hrun
      | cons u draws =>
        cases ha : chooseArc ops (x.arcs o.s) u with
        | none =>
          rw [randomPathFrom, hn] at hrun
          rw [ha] at hrun
          cases hrun
        | some a =>
          rw [randomPathFrom_cons hn ha] at hrun
          exact randomPathFrom_returned (hcomes.draw hgo.1 hgo.2 u ha) (ho.add ha) hrun

/-- Where draws can lead, some do. -/
theorem Comes.exists_draws {t : Nat} (h : Comes ops x maxLen k t) : ∃ draws o, o.s = t ∧ o.Along x k ∧
    ∀ us, randomPath ops x maxLen (draws ++ us) = randomPathFrom ops x maxLen us o := by
  induction h with
  | start => exact ⟨[], _, rfl, .start, fun us => rfl⟩
  | draw _ hs hlen u ha ih =>
    obtain ⟨draws, o, rfl, ho, hrun⟩ := ih
    refine ⟨draws ++ [u], o.add _, rfl, ho.add ha, fun us => ?_⟩
    rw [List.append_assoc, hrun]
    exact randomPathFrom_cons (pathExit_none ho hs hlen (List.ne_nil_of_mem (pickArc_mem ha))) ha

/-! ## What it should return -/

def RandomPathRight (x : Wfst W) (maxLen : BitVec 32) (o : Drawing W) : Prop :=
  ∀ n l, o = .returned n l →
    (0 ≤ n → n = l.length ∧ (∃ ps, x.Accepting ps ∧ l = (x.taken ps).map setPathArc) ∧
      (0 ≤ maxLen.toInt → n ≤ maxLen.toInt)) ∧
    (n = -1 → x.arcs (reached l) = [] ∨ maxLen.toNat < l.length)

/-- What a count of two for each arc may come to: `k` arcs lead to `t`. -/
def CountsRight (x : Wfst W) (maxLen : BitVec 32) (k t : Nat) : Prop :=
  (t = x.final → k = 0 ∨ 2 ^ 31 ≤ 2 * k % 2 ^ 32) ∧
    (t ≠ x.final → x.arcs t ≠ [] → maxLen.toNat < 2 * k % 2 ^ 32 → maxLen.toNat < k)

theorem Walk.Along.toInt_len (h : o.Along x k) :
    o.len.toInt = if 2 * k % 2 ^ 32 < 2 ^ 31 then (2 * k % 2 ^ 32 : Int) else (2 * k % 2 ^ 32 : Int) - 2 ^ 32 := by
  rw [BitVec.toInt_eq_toNat_cond, h.len_eq]
  split
  · rw [if_pos (by omega)]
    rfl
  · rw [if_neg (by omega)]
    rfl

/-- At an exit what is returned is right exactly if the count is. -/
theorem exit_right_iff {n : Int} (h : o.Along x k) (hn : pathExit x maxLen o = some n) :
    RandomPathRight x maxLen (.returned n o.written) ↔ CountsRight x maxLen k o.s := by
  rcases pathExit_eq_some h hn with ⟨hfinal, hlen⟩ | ⟨hfinal, rfl, hor⟩
  · rw [h.toInt_len] at hlen
    constructor
    · intro hright
      refine ⟨fun _ => ?_, fun hne => absurd hfinal hne⟩
      by_contra hno
      have hcount : n = o.written.length := ((hright n _ rfl).1 (by omega)).1
      rw [h.length_eq] at hcount
      omega
    · rintro ⟨hcount, -⟩ n' l' hret
      cases hret
      constructor
      · intro hpos
        have hk : k = 0 := by
          rcases hcount hfinal with hk | hwrap
          · exact hk
          · omega
        subst hk
        have hzero : n = 0 := hlen
        subst hzero
        refine ⟨?_, ?_, fun hmax => hmax⟩
        · rw [h.length_eq]
          rfl
        · obtain ⟨ps, hps, hl⟩ := h.path
          rw [hfinal] at hps
          exact ⟨ps, hps, hl⟩
      · -- a count of two for each arc is even
        split at hlen
        · omega
        · omega
  · constructor
    · intro hright
      refine ⟨fun heq => absurd heq hfinal, fun _ harcs _ => ?_⟩
      rcases (hright _ _ rfl).2 rfl with hempty | hlt
      · rw [h.reached_eq] at hempty
        exact absurd hempty harcs
      · rwa [h.length_eq] at hlt
    · rintro ⟨-, hcount⟩ n' l' hret
      cases hret
      refine ⟨fun hpos => absurd hpos (by decide), fun _ => ?_⟩
      rw [h.reached_eq, h.length_eq]
      by_cases harcs : x.arcs o.s = []
      · exact .inl harcs
      · exact .inr (hcount hfinal harcs (hor.resolve_right harcs))

/-- **Whatever is drawn, what is returned is right exactly if no arcs that can be drawn are miscounted where the path
may stop.** -/
theorem randomPath_right_iff :
    (∀ draws, RandomPathRight x maxLen (randomPath ops x maxLen draws)) ↔
      ∀ k t, Comes ops x maxLen k t → CountsRight x maxLen k t := by
  constructor
  · intro hright k t hcomes
    obtain ⟨draws, o, rfl, ho, hrun⟩ := hcomes.exists_draws
    cases hn : pathExit x maxLen o with
    | some n =>
      have hret := (hrun []).trans (randomPathFrom_exit hn [])
      rw [← exit_right_iff ho hn, ← hret]
      exact hright _
    | none =>
      refine ⟨fun hfinal => ?_, fun hfinal _ hlt => ?_⟩
      · rw [pathExit_final hfinal] at hn
        cases hn
      · rw [pathExit_limit ho hfinal hlt] at hn
        cases hn
  · intro hcount draws n l hret
    obtain ⟨k, o, hcomes, ho, rfl, hn⟩ := randomPathFrom_returned .start .start hret
    exact (exit_right_iff ho hn).2 (hcount k o.s hcomes) n _ rfl

/-- Whole weights, drawn in quarters. -/
def quarterDraws : DrawOps Nat (Fin 4) := ⟨0, Nat.add, fun sum u => sum * u.val / 4, fun sum which => decide (which ≤ sum)⟩

/-- One arc to the final state. -/
def finalStep : Wfst Nat where
  states := [[⟨1, 1, 1, 4, noGroup⟩], []]
  final := 1
  nonempty := by decide
  final_lt := by decide
  dest_lt := by decide

/-- One arc is written and 2 is returned. -/
theorem not_randomPathRight_finalStep : ¬ RandomPathRight finalStep (-1) (randomPath quarterDraws finalStep (-1) [3]) := by
  intro h
  have hret : randomPath quarterDraws finalStep (-1) [3] = .returned 2 [⟨1, 1, 1, 4⟩] := by decide
  have hcount := ((h 2 _ hret).1 (by decide)).1
  exact absurd hcount (by decide)

end Sbmt.Carmel
