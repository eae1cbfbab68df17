import Sbmt.Carmel.PrunePaths

/-!
# Which accepting paths pruning leaves (`carmel/src/fst.cc:370-454`)

`PrunesPaths` is what pruning is for: that the accepting paths of the result are accepting paths of the original, and,
without a limit on the states, that just what is within the ratio of the best path is left.  The states of the best path
cost the same as any other state of another best path, so the limit may cut off the start (`LosesStart`); what is then
the first state is the start of the result.  With neither a limit nor a ratio nothing is removed.
-/

namespace Sbmt.Carmel

open Sbmt.Lib List

variable {W : Type*}

/-! ## The paths of what is left -/

def Fst.arc? (y : Fst W) (p : ArcPtr) : Option (FSTArc W) := (y.arcs p.src)[p.pos]?

inductive Fst.Path (y : Fst W) : Nat → List ArcPtr → Nat → Prop
  | nil (s : Nat) : Path y s [] s
  | cons {p : ArcPtr} {ps : List ArcPtr} {b : FSTArc W} {t : Nat} (h : y.arc? p = some b) (rest : Path y b.dest ps t) :
      Path y p.src (p :: ps) t

def Fst.Accepting (y : Fst W) (ps : List ArcPtr) : Prop := ∃ t, y.final = some t ∧ y.Path 0 ps t

/-- An arc of the result and one of the original between the states that its ends were. -/
def SameArc (y : Fst W) (x : Wfst W) (old : Nat → Nat) (p q : ArcPtr) : Prop :=
  q.src = old p.src ∧ ∃ b, y.arc? p = some b ∧ x.arc? q = some { b with dest := old b.dest }

section

variable {y : Fst W} {x : Wfst W} {remove : Nat → Bool} {keep : Nat → FSTArc W → Bool} {s t u v : Nat} {p q : ArcPtr}
  {a b : FSTArc W} {ps qs : List ArcPtr}

theorem Fst.Path.eq_of_nil (h : y.Path s [] t) : s = t := by
  cases h
  rfl

theorem Fst.Path.src_eq (h : y.Path s (p :: ps) t) : p.src = s := by
  cases h
  rfl

theorem Wfst.Path.eq_of_nil (h : x.Path s [] t) : s = t := by
  cases h
  rfl

theorem Wfst.Path.src_eq (h : x.Path s (q :: qs) t) : q.src = s := by
  cases h
  rfl

/-- The first state that is left comes before the others. -/
theorem oldState_zero_le (hu : u < x.numStates) (hremove : remove u = false) : oldState x remove 0 ≤ u := by
  have hmem : u ∈ kept remove x.numStates := mem_kept.2 ⟨hu, hremove⟩
  have hsorted : (kept remove x.numStates).Pairwise (· < ·) := pairwise_lt_range.filter _
  unfold oldState
  cases hkept : kept remove x.numStates with
  | nil =>
    rw [hkept] at hmem
    cases hmem
  | cons k ks =>
    rw [hkept] at hmem hsorted
    rcases mem_cons.1 hmem with rfl | hmem
    · exact le_rfl
    · exact ((pairwise_cons.1 hsorted).1 u hmem).le

theorem oldState_zero_kept (hu : u < x.numStates) (hremove : remove u = false) :
    oldState x remove 0 < x.numStates ∧ remove (oldState x remove 0) = false := by
  have hpos := length_pos_of_mem (mem_kept.2 ⟨hu, hremove⟩)
  exact mem_kept.1 (mem_of_getElem? ((oldState_eq_iff hpos).1 rfl))

theorem oldState_start (h : remove 0 = false) : oldState x remove 0 = 0 := oldState_newIndex x.nonempty (newIndex_kept h)

variable (h : Part y x remove keep)
include h

theorem Part.mem_arcs (hs : (kept remove x.numStates)[s]? = some u) :
    b ∈ y.arcs s ↔ ∃ a ∈ x.arcs u, keep u a = true ∧ Numbering.newIndex remove a.dest = some b.dest ∧
      b = { a with dest := b.dest } := by
  rw [h.arcs s u hs, mem_filterMap]
  constructor
  · rintro ⟨a, ha, hab⟩
    obtain ⟨ha, hkeep⟩ := mem_filter.1 ha
    obtain ⟨-, hdest, hb⟩ := keepArc_eq_some hab
    exact ⟨a, ha, hkeep, hdest, hb⟩
  · rintro ⟨a, ha, hkeep, hdest, hb⟩
    refine ⟨a, mem_filter.2 ⟨ha, hkeep⟩, ?_⟩
    rw [keepArc_some rfl hdest, ← hb]

/-- An arc that is left. -/
theorem Part.arc (hb : y.arc? p = some b) :
    ∃ q a, x.arc? q = some a ∧ SameArc y x (oldState x remove) p q ∧ keep q.src a = true ∧ remove q.src = false ∧
      remove a.dest = false ∧ a.dest = oldState x remove b.dest := by
  have hmem : b ∈ y.arcs p.src := mem_of_getElem? hb
  cases hs : (kept remove x.numStates)[p.src]? with
  | none =>
    rw [h.outside _ hs] at hmem
    cases hmem
  | some u =>
    obtain ⟨a, ha, hkeep, hdest, hba⟩ := (h.mem_arcs hs).1 hmem
    obtain ⟨i, hi⟩ := mem_iff_getElem?.1 ha
    have harc : x.arc? ⟨u, i⟩ = some a := hi
    have hold : oldState x remove p.src = u := (oldState_eq_iff (List.getElem?_eq_some_iff.1 hs).1).2 hs
    have hdest' := oldState_newIndex (Wfst.arc?_lt harc).2 hdest
    refine ⟨⟨u, i⟩, a, harc, ⟨hold.symm, b, hb, ?_⟩, hkeep, ?_, (Numbering.newIndex_eq_some hdest).1, hdest'.symm⟩
    · rw [hdest', harc, hba]
    · exact (mem_kept.1 (mem_of_getElem? hs)).2

/-- A path that is left. -/
theorem Part.path (hps : y.Path s ps t) : ∃ qs, x.Path (oldState x remove s) qs (oldState x remove t) ∧
      Forall₂ (SameArc y x (oldState x remove)) ps qs ∧
      ∀ q ∈ qs, ∀ a, x.arc? q = some a → keep q.src a = true ∧ remove q.src = false ∧ remove a.dest = false := by
  induction hps with
  | nil s => exact ⟨[], .nil _, .nil, fun q hq => absurd hq not_mem_nil⟩
  | @cons p ps b t hb _ ih =>
    obtain ⟨qs, hqs, hsame, hall⟩ := ih
    obtain ⟨q, a, ha, hpq, hkeep, hsrc, hdest, hold⟩ := h.arc hb
    rw [← hold] at hqs
    refine ⟨q :: qs, ?_, .cons hpq hsame, ?_⟩
    · rw [← hpq.1]
      exact .cons ha hqs
    · intro q' hq' a' ha'
      rcases mem_cons.1 hq' with rfl | hq'
      · obtain rfl := Option.mem_unique ha ha'
        exact ⟨hkeep, hsrc, hdest⟩
      · exact hall q' hq' a' ha'

theorem Part.lift (ha : x.arc? q = some a) (hkeep : keep q.src a = true)
    (hs : Numbering.newIndex remove q.src = some s) (ht : Numbering.newIndex remove a.dest = some t) :
    ∃ p, p.src = s ∧ y.arc? p = some { a with dest := t } ∧ SameArc y x (oldState x remove) p q := by
  have hlt := Wfst.arc?_lt ha
  have hmem : { a with dest := t } ∈ y.arcs s :=
    (h.mem_arcs (getElem?_kept_iff.2 ⟨hlt.1, hs⟩)).2 ⟨a, mem_of_getElem? ha, hkeep, ht, rfl⟩
  obtain ⟨i, hi⟩ := mem_iff_getElem?.1 hmem
  refine ⟨⟨s, i⟩, rfl, hi, (oldState_newIndex hlt.1 hs).symm, _, hi, ?_⟩
  rw [oldState_newIndex hlt.2 ht, ha]

/-- The paths that stay within what is left. -/
theorem Part.liftPath (hqs : x.Path u qs v)
    (hall : ∀ q ∈ qs, ∀ a, x.arc? q = some a → keep q.src a = true ∧ remove a.dest = false) :
    ∀ {s : Nat}, Numbering.newIndex remove u = some s →
      ∃ ps t, Numbering.newIndex remove v = some t ∧ y.Path s ps t ∧
        Forall₂ (SameArc y x (oldState x remove)) ps qs := by
  induction hqs with
  | nil u => exact fun {s} hs => ⟨[], s, hs, .nil s, .nil⟩
  | @cons q qs a v ha _ ih =>
    intro s hs
    obtain ⟨hkeep, hdest⟩ := hall q mem_cons_self a ha
    obtain ⟨p, rfl, harc, hsame⟩ := h.lift ha hkeep hs (newIndex_kept hdest)
    obtain ⟨ps, t, ht, hps, hrest⟩ := ih (fun q' hq' => hall q' (mem_cons_of_mem q hq')) (newIndex_kept hdest)
    exact ⟨p :: ps, t, ht, .cons harc hps, .cons hsame hrest⟩

theorem Part.final_kept (ht : y.final = some t) : remove x.final = false ∧ oldState x remove t = x.final := by
  rw [h.final] at ht
  exact ⟨(Numbering.newIndex_eq_some ht).1, oldState_newIndex x.final_lt ht⟩

/-- Accepting paths of the result are those of the original exactly if the start is not removed or there are none. -/
theorem Part.accepted_iff :
    (∀ ps, y.Accepting ps → ∃ qs, x.Accepting qs ∧ Forall₂ (SameArc y x (oldState x remove)) ps qs) ↔
      ∀ ps, y.Accepting ps → remove 0 = false := by
  constructor
  · intro hall ps hps
    obtain ⟨qs, hqs, hsame⟩ := hall ps hps
    obtain ⟨t, ht, hpath⟩ := hps
    obtain ⟨hfinal, hold⟩ := h.final_kept ht
    have hzero := (oldState_zero_kept x.final_lt hfinal).2
    have hstart : oldState x remove 0 = 0 := by
      cases hsame with
      | nil =>
        obtain rfl := hpath.eq_of_nil
        rw [hold, ← Wfst.Path.eq_of_nil hqs]
      | @cons p q ps qs hpq _ =>
        have hsrc := hpq.1
        rw [hpath.src_eq, Wfst.Path.src_eq hqs] at hsrc
        exact hsrc.symm
    rwa [hstart] at hzero
  · rintro hall ps hps
    have hstart := hall ps hps
    obtain ⟨t, ht, hpath⟩ := hps
    obtain ⟨qs, hqs, hsame, -⟩ := h.path hpath
    rw [oldState_start hstart, (h.final_kept ht).2] at hqs
    exact ⟨qs, hqs, hsame⟩

end

/-! ## What pruning is to do -/

section

variable {K : Type} [AddCommMonoid K] [LinearOrder K] (getCost : W → WithTop K)

/-- No accepting path is better by more than the ratio. -/
def WithinRatio (x : Wfst W) (ratio : WithTop K) (qs : List ArcPtr) : Prop :=
  ∀ rs, x.Accepting rs → pathCost getCost x qs ≤ pathCost getCost x rs + ratio

/-- `y` is what is to be left of `x`, its states being what they are by `old`. -/
structure PrunedRight (getCost : W → WithTop K) (x : Wfst W) (maxStates : Int) (ratio : WithTop K) (y : Fst W)
    (old : Nat → Nat) : Prop where
  accepted : ∀ ps, y.Accepting ps → ∃ qs, x.Accepting qs ∧ Forall₂ (SameArc y x old) ps qs
  survives : maxStates = unlimited → ∀ qs, x.Accepting qs → WithinRatio getCost x ratio qs →
    ∃ ps, y.Accepting ps ∧ Forall₂ (SameArc y x old) ps qs
  used : maxStates = unlimited → ∀ p b, y.arc? p = some b →
    ∃ q qs, SameArc y x old p q ∧ x.Accepting qs ∧ q ∈ qs ∧ WithinRatio getCost x ratio qs

def PrunesPaths (x : NamedWfst W) (maxStates : Int) (ratio : WithTop K) : Prop :=
  ∀ sort, Sorts sort → ∃ y remove, prunePaths getCost sort x maxStates ratio = some (y, remove) ∧
    PrunedRight getCost x.toWfst maxStates ratio y (oldState x.toWfst remove)

/-- A choice of `m` states of best paths that leaves out the start, and in which the first state still leads to the final
state by arcs within the ratio. -/
def LosesStart (x : Wfst W) (m : Nat) (ratio : WithTop K) : Prop :=
  ∃ S : Finset Nat, S.card = m ∧ 0 ∉ S ∧
    (∀ s ∈ S, s < x.numStates ∧ Near getCost x 0 (PassesBy x s)) ∧
    ∃ s ∈ S, (∀ t ∈ S, s ≤ t) ∧ ∃ ps, x.Path s ps x.final ∧
      ∀ p ∈ ps, ∀ a, x.arc? p = some a → a.dest ∈ S ∧ Near getCost x ratio (p ∈ ·)

/-- Every arc lies on an accepting path. -/
def Trimmed (x : Wfst W) : Prop := ∀ p a, x.arc? p = some a → ∃ ps, x.Accepting ps ∧ p ∈ ps

variable [IsOrderedAddMonoid K] {getCost : W → WithTop K}

section

variable {x : Wfst W} {f r : Nat → WithTop K} (hf : DistancesFrom getCost x 0 f) (hr : DistancesTo getCost x x.final r)
  {ratio : WithTop K}

include hf in
theorem withinRatio_iff {qs : List ArcPtr} :
    WithinRatio getCost x ratio qs ↔ pathCost getCost x qs ≤ f x.final + ratio := by
  constructor
  · intro h
    by_cases htop : f x.final = ⊤
    · rw [htop, WithTop.top_add]
      exact le_top
    · obtain ⟨rs, hrs, hcost⟩ := best_attained hf htop
      rw [← hcost]
      exact h rs hrs
  · exact fun h rs hrs => h.trans (add_le_add (best_le hf hrs) le_rfl)

include hf in
omit [IsOrderedAddMonoid K] in
theorem best_finite_iff : f x.final ≠ ⊤ ↔ ∃ ps, x.Accepting ps ∧ pathCost getCost x ps ≠ ⊤ := by
  constructor
  · intro h
    obtain ⟨ps, hps, hcost⟩ := best_attained hf h
    exact ⟨ps, hps, by rwa [hcost]⟩
  · rintro ⟨ps, hps, hcost⟩
    exact ne_top_of_le_ne_top hcost (best_le hf hps)

end

/-! ## Without a limit -/

section

variable {x : Wfst W} {f r : Nat → WithTop K} {ratio : WithTop K} {y : Fst W} {remove : Nat → Bool}
  {keep : Nat → FSTArc W → Bool}

/-- The result where what is over the ratio is removed, and that only. -/
theorem prunedRight_iff (hf : DistancesFrom getCost x 0 f) (hr : DistancesTo getCost x x.final r) (hratio : 0 ≤ ratio)
    (h : Part y x remove keep)
    (hremove : ∀ s < x.numStates, remove s = true ↔ f x.final + ratio < f s + r s)
    (hkeep : ∀ q a, x.arc? q = some a → remove q.src = false →
      (keep q.src a = true ↔ getCost a.weight + f q.src + r a.dest ≤ f x.final + ratio)) :
    PrunedRight getCost x unlimited ratio y (oldState x remove) ↔
      (ratio ≠ ⊤ ∧ ∃ ps, x.Accepting ps ∧ pathCost getCost x ps ≠ ⊤) ∨ Trimmed x := by
  have hkeptOn : ∀ s < x.numStates, f s + r s ≤ f x.final + ratio → remove s = false := by
    intro s hs hle
    rw [Bool.eq_false_iff, Ne, hremove s hs]
    exact hle.not_gt
  have hbest : f 0 + r 0 ≤ f x.final + ratio := by
    rw [through_eq_best hf hr fun ps => passesBy_start]
    exact le_add_of_nonneg_right hratio
  have hstart : remove 0 = false := hkeptOn 0 x.nonempty hbest
  have hsurvives : ∀ qs, x.Accepting qs → WithinRatio getCost x ratio qs →
      ∃ ps, y.Accepting ps ∧ Forall₂ (SameArc y x (oldState x remove)) ps qs := by
    intro qs hqs hwithin
    rw [withinRatio_iff hf] at hwithin
    obtain ⟨ps, t, ht, hps, hsame⟩ := h.liftPath hqs (by
      intro q hq a ha
      obtain ⟨as, b, bs, rfl, has, hb, hbs⟩ := hqs.split hq
      obtain rfl := Option.mem_unique ha hb
      have hlt := Wfst.arc?_lt ha
      have hsrc : PassesBy x q.src (as ++ q :: bs) := ⟨as, q :: bs, rfl, has, .cons ha hbs⟩
      have hdest : PassesBy x a.dest (as ++ q :: bs) :=
        ⟨as ++ [q], bs, by rw [append_assoc]; rfl, .snoc ha has, hbs⟩
      refine ⟨(hkeep q a ha ?_).2 ((arc_le hf hr hqs hq ha).trans hwithin), ?_⟩
      · exact hkeptOn _ hlt.1 ((through_le hf hr hsrc).trans hwithin)
      · exact hkeptOn _ hlt.2 ((through_le hf hr hdest).trans hwithin)) (newIndex_kept hstart)
    exact ⟨ps, ⟨t, h.final.trans ht, hps⟩, hsame⟩
  have haccepted := h.accepted_iff.2 fun _ _ => hstart
  have hworst : f x.final + ratio ≠ ⊤ ↔ ratio ≠ ⊤ ∧ ∃ ps, x.Accepting ps ∧ pathCost getCost x ps ≠ ⊤ := by
    rw [WithTop.add_ne_top, best_finite_iff hf, and_comm]
  constructor
  · intro hright
    by_cases htop : f x.final + ratio = ⊤
    · refine .inr fun p a ha => ?_
      have hlt := Wfst.arc?_lt ha
      have hall : ∀ s < x.numStates, remove s = false := fun s hs => hkeptOn s hs (by rw [htop]; exact le_top)
      have hkeep' := (hkeep p a ha (hall _ hlt.1)).2 (by rw [htop]; exact le_top)
      obtain ⟨p', -, harc, hpsrc, b, hb, hpb⟩ := h.lift ha hkeep' (newIndex_kept (hall _ hlt.1)) (newIndex_kept (hall _ hlt.2))
      obtain ⟨q, qs, ⟨hqsrc, b', hb', hqb⟩, hqs, hmem, -⟩ := hright.used rfl p' _ harc
      obtain rfl := Option.mem_unique hb hb'
      -- the arc found may be another one that looks the same
      obtain ⟨as, a', bs, rfl, has, ha', hbs⟩ := hqs.split hmem
      obtain rfl : a = a' := Option.some.inj ((ha.symm.trans (hpb.trans hqb.symm)).trans ha')
      have hsame : q.src = p.src := hqsrc.trans hpsrc.symm
      rw [hsame] at has
      exact ⟨as ++ p :: bs, has.append (.cons ha hbs), mem_append_right _ mem_cons_self⟩
    · exact .inl (hworst.1 htop)
  · intro hcond
    refine ⟨haccepted, fun _ => hsurvives, fun _ p b hb => ?_⟩
    obtain ⟨q, a, ha, hpq, hkeep', hsrc, -, -⟩ := h.arc hb
    have hle := (hkeep q a ha hsrc).1 hkeep'
    by_cases htop : f x.final + ratio = ⊤
    · obtain ⟨qs, hqs, hmem⟩ := hcond.resolve_left (fun hfin => hworst.2 hfin htop) q a ha
      refine ⟨q, qs, hpq, hqs, hmem, (withinRatio_iff hf).2 ?_⟩
      rw [htop]
      exact le_top
    · obtain ⟨qs, hqs, hmem, hcost⟩ := arc_attained hf hr ha (ne_top_of_le_ne_top htop hle)
      refine ⟨q, qs, hpq, hqs, hmem, (withinRatio_iff hf).2 ?_⟩
      rw [hcost]
      exact hle

end

theorem pruned_unlimited {x : NamedWfst W} {sort : List (WithTop K × Nat) → List (WithTop K × Nat)} {ratio : WithTop K}
    (hw : ∀ s, ∀ a ∈ x.arcs s, 0 ≤ getCost a.weight) (hsort : Sorts sort) (hratio : 0 ≤ ratio) :
    ∃ y remove, prunePaths getCost sort x unlimited ratio = some (y, remove) ∧
      (PrunedRight getCost x.toWfst unlimited ratio y (oldState x.toWfst remove) ↔
        (ratio ≠ ⊤ ∧ ∃ ps, x.Accepting ps ∧ pathCost getCost x.toWfst ps ≠ ⊤) ∨ Trimmed x.toWfst) := by
  by_cases htop : ratio = ⊤
  · obtain ⟨f, -, hf⟩ := shortestDistancesFrom_forward hw x.nonempty
    obtain ⟨r, -, hr⟩ := shortestDistancesFrom_backward hw x.final_lt
    refine ⟨x.toFst, fun _ => false, ?_, prunedRight_iff hf hr hratio (part_all x) ?_ ?_⟩
    · rw [prunePaths]
      exact if_pos ⟨rfl, decide_eq_true htop⟩
    · intro s _
      rw [htop, WithTop.add_top]
      exact iff_of_false Bool.false_ne_true not_top_lt
    · intro q a _ _
      rw [htop, WithTop.add_top]
      exact iff_of_true rfl le_top
  · obtain ⟨f, r, y, remove, hrun, hf, hr, hremove, hpart⟩ := prunePaths_spec hw hsort fun h => htop h.2
    have hall : ∀ s < x.numStates, s ∈ ranked sort x.numStates (allowedStates unlimited x.numStates) f r := by
      intro s hs
      rw [← not_not (a := s ∈ ranked ..), ← over_iff hsort f r hs, drop_eq_nil_of_le]
      · exact not_mem_nil
      · have hlen := (sorted_states hsort x.numStates f r).length_eq
        rw [length_map, length_range] at hlen
        exact hlen.le
    have hover : ∀ s < x.numStates, remove s = true ↔ f x.final + ratio < f s + r s := by
      intro s hs
      rw [hremove s hs]
      exact ⟨fun h => (h.resolve_left (not_not.2 (hall s hs))).2, fun h => .inr ⟨htop, h⟩⟩
    refine ⟨y, remove, hrun, prunedRight_iff hf hr hratio hpart hover ?_⟩
    intro q a ha hkept
    have hlt := (Wfst.arc?_lt ha).1
    have hle : ¬ f x.final + ratio < f q.src + r q.src := by
      rw [← hover _ hlt, hkept]
      exact Bool.false_ne_true
    have hthin : Thinned (decide (ratio = ⊤)) (f x.final + ratio) (fun s => f s + r s)
        (ranked sort x.numStates (allowedStates unlimited x.numStates) f r) q.src :=
      ⟨hall _ hlt, decide_eq_false htop, hle⟩
    rw [keptArc, decide_eq_true_eq, arcWithin, decide_eq_true_eq, not_lt]
    exact ⟨fun h => h hthin, fun h _ => h⟩

/-! ## With a limit -/

variable (S : Finset Nat)

/-- An order by cost in which the states in `S` come before others of the same cost. -/
def tiesFirst (a b : WithTop K × Nat) : Prop := a.1 < b.1 ∨ a.1 = b.1 ∧ (b.2 ∈ S → a.2 ∈ S)

section
omit [AddCommMonoid K] [IsOrderedAddMonoid K]

theorem tiesFirst_total (a b : WithTop K × Nat) : tiesFirst S a b ∨ tiesFirst S b a := by
  rcases lt_trichotomy a.1 b.1 with hlt | heq | hgt
  · exact .inl (.inl hlt)
  · by_cases ha : a.2 ∈ S
    · exact .inl (.inr ⟨heq, fun _ => ha⟩)
    · exact .inr (.inr ⟨heq.symm, fun h => absurd h ha⟩)
  · exact .inr (.inl hgt)

theorem tiesFirst_trans (a b c : WithTop K × Nat) (hab : tiesFirst S a b) (hbc : tiesFirst S b c) :
    tiesFirst S a c := by
  rcases hab with hab | ⟨hab, habS⟩
  · rcases hbc with hbc | ⟨hbc, -⟩
    · exact .inl (hab.trans hbc)
    · exact .inl (hab.trans_eq hbc)
  · rcases hbc with hbc | ⟨hbc, hbcS⟩
    · exact .inl (hab.trans_lt hbc)
    · exact .inr ⟨hab.trans hbc, fun h => habS (hbcS h)⟩

end

instance (S : Finset Nat) : DecidableRel (tiesFirst (K := K) S) := fun a b =>
  inferInstanceAs (Decidable (a.1 < b.1 ∨ a.1 = b.1 ∧ (b.2 ∈ S → a.2 ∈ S)))

def sortTies (l : List (WithTop K × Nat)) : List (WithTop K × Nat) :=
  l.insertionSort (tiesFirst S)

section
omit [AddCommMonoid K] [IsOrderedAddMonoid K]

theorem sortTies_pairwise (l : List (WithTop K × Nat)) : (sortTies S l).Pairwise (tiesFirst S) := by
  have : Std.Total (tiesFirst (K := K) S) := ⟨tiesFirst_total S⟩
  have : IsTrans _ (tiesFirst (K := K) S) := ⟨tiesFirst_trans S⟩
  exact pairwise_insertionSort _ l

theorem sortTies_sorts : Sorts (sortTies (K := K) S) where
  perm l := perm_insertionSort _ l
  ordered l := by
    refine (sortTies_pairwise S l).imp ?_
    rintro a b (hlt | ⟨heq, -⟩)
    · exact hlt.le
    · exact heq.le

end

section Limit

variable {x : NamedWfst W} {maxStates : Int} {ratio : WithTop K} {sort : List (WithTop K × Nat) → List (WithTop K × Nat)}

variable {n : Nat}

omit [AddCommMonoid K] [LinearOrder K] [IsOrderedAddMonoid K] in
theorem allowedStates_of_limit (hlimit : maxStates ≠ unlimited) (hm : maxStates.toNat ≤ n)
    (hpos : 1 ≤ maxStates) : allowedStates maxStates n = maxStates.toNat := by
  rw [allowedStates, if_neg]
  rintro (h | h)
  · exact hlimit h
  · omega

variable {allowed : Nat}

omit [IsOrderedAddMonoid K] in
theorem ranked_length (hsort : Sorts sort) (h : allowed ≤ n) (f r : Nat → WithTop K) :
    (ranked sort n allowed f r).length = allowed := by
  have hlen := (sorted_states hsort n f r).length_eq
  rw [length_map, length_range] at hlen
  rw [ranked, length_map, length_take, hlen, Nat.min_eq_left h]

variable {f r : Nat → WithTop K} {s : Nat}

section
omit [IsOrderedAddMonoid K]

theorem ranked_lt (hsort : Sorts sort) (h : s ∈ ranked sort n allowed f r) : s < n :=
  mem_range.1 ((sorted_states hsort n f r).mem_iff.1 (((take_sublist _ _).map _).subset h))

/-- What comes before the limit costs no more than what comes after it. -/
theorem ranked_le (hsort : Sorts sort) {t : Nat} (hs : s ∈ ranked sort n allowed f r)
    (ht : t < n) (hover : t ∉ ranked sort n allowed f r) : f s + r s ≤ f t + r t := by
  obtain ⟨c, hc, rfl⟩ := mem_map.1 hs
  obtain ⟨d, hd, rfl⟩ := mem_map.1 ((over_iff hsort f r ht).2 hover)
  rw [← sorted_costs hsort n f r c (mem_of_mem_take hc), ← sorted_costs hsort n f r d (mem_of_mem_drop hd)]
  have hsorted := hsort.ordered ((range n).map fun i => (f i + r i, i))
  rw [← take_append_drop allowed (sort _)] at hsorted
  exact (pairwise_append.1 hsorted).2.2 c hc d hd

/-- With that order, just the states in `S` come before a limit of so many, if they are of least cost. -/
theorem ranked_sortTies {S : Finset Nat} (hS : ∀ s ∈ S, s < n)
    (hleast : ∀ s ∈ S, ∀ t, f s + r s ≤ f t + r t) (t : Nat) : t ∈ ranked (sortTies S) n S.card f r ↔ t ∈ S := by
  have hcard : S.card ≤ n := by
    rw [← Finset.card_range n]
    exact Finset.card_le_card fun s hs => Finset.mem_range.2 (hS s hs)
  have hlen := ranked_length (sortTies_sorts (K := K) S) hcard f r
  have hnodup := ranked_nodup (sortTies_sorts (K := K) S) n S.card f r
  have hfirst : ∀ s ∈ S, s ∈ ranked (sortTies S) n S.card f r := by
    intro s hs
    by_contra hover
    have hsub : (ranked (sortTies S) n S.card f r).toFinset ⊆ S := by
      intro u hu
      obtain ⟨c, hc, rfl⟩ := mem_map.1 (mem_toFinset.1 hu)
      obtain ⟨d, hd, hds⟩ := mem_map.1 ((over_iff (sortTies_sorts S) f r (hS s hs)).2 hover)
      have hsorted := sortTies_pairwise S ((range n).map fun i => (f i + r i, i))
      rw [← take_append_drop S.card (sortTies S _)] at hsorted
      rcases (pairwise_append.1 hsorted).2.2 c hc d hd with hlt | ⟨-, himp⟩
      · rw [sorted_costs (sortTies_sorts S) n f r c (mem_of_mem_take hc),
          sorted_costs (sortTies_sorts S) n f r d (mem_of_mem_drop hd), hds] at hlt
        exact absurd hlt (hleast s hs _).not_gt
      · exact himp (hds ▸ hs)
    have heq : (ranked (sortTies S) n S.card f r).toFinset = S :=
      Finset.eq_of_subset_of_card_le hsub (by rw [toFinset_card_of_nodup hnodup, hlen])
    rw [← heq] at hs
    exact hover (mem_toFinset.1 hs)
  refine ⟨fun ht => ?_, hfirst t⟩
  have hsub : S ⊆ (ranked (sortTies S) n S.card f r).toFinset := fun s hs => mem_toFinset.2 (hfirst s hs)
  have heq := Finset.eq_of_subset_of_card_le hsub (by rw [toFinset_card_of_nodup hnodup, hlen])
  rw [heq]
  exact mem_toFinset.2 ht

end

variable {f r : Nat → WithTop K} {y : Fst W} {remove : Nat → Bool}

/-- The bound on the ratio removes no state that costs as little as the best path. -/
theorem not_over_ratio (hf : DistancesFrom getCost x.toWfst 0 f) (hr : DistancesTo getCost x.toWfst x.final r)
    (hratio : 0 ≤ ratio) (h : f s + r s ≤ f 0 + r 0) : ¬ (ratio ≠ ⊤ ∧ f x.final + ratio < f s + r s) := by
  rintro ⟨-, hlt⟩
  rw [through_eq_best hf hr fun ps => passesBy_start] at h
  exact absurd (hlt.trans_le (h.trans (le_add_of_nonneg_right hratio))) (lt_irrefl _)

/-- An arc that the loop leaves in a state that is left is within the ratio. -/
theorem near_of_kept (hf : DistancesFrom getCost x.toWfst 0 f) (hr : DistancesTo getCost x.toWfst x.final r)
    {p : ArcPtr} {a : FSTArc W} {l : List Nat} (ha : x.arc? p = some a) (hmem : p.src ∈ l)
    (hle : ¬ (ratio ≠ ⊤ ∧ f x.final + ratio < f p.src + r p.src))
    (h : keptArc getCost (decide (ratio = ⊤)) (f x.final + ratio) f r l p.src a = true) :
    Near getCost x.toWfst ratio (p ∈ ·) := by
  rw [near_arc_iff hf hr ha]
  by_cases htop : ratio = ⊤
  · rw [htop, WithTop.add_top]
    exact le_top
  · have hle' : ¬ f x.final + ratio < f p.src + r p.src := fun hlt => hle ⟨htop, hlt⟩
    rw [keptArc, decide_eq_true_eq] at h
    have hwithin := h ⟨hmem, decide_eq_false htop, hle'⟩
    rwa [arcWithin, decide_eq_true_eq, not_lt] at hwithin

/-- Where the start is cut off and something is still accepted. -/
theorem losesStart_of_cut (hsort : Sorts sort) (hratio : 0 ≤ ratio) (hlimit : maxStates ≠ unlimited) (hpos : 1 ≤ maxStates)
    (hf : DistancesFrom getCost x.toWfst 0 f) (hr : DistancesTo getCost x.toWfst x.final r)
    (hremove : ∀ s < x.numStates, remove s = true ↔
      s ∉ ranked sort x.numStates (allowedStates maxStates x.numStates) f r ∨ ratio ≠ ⊤ ∧ f x.final + ratio < f s + r s)
    (h : Part y x.toWfst remove (keptArc getCost (decide (ratio = ⊤)) (f x.final + ratio) f r
      (ranked sort x.numStates (allowedStates maxStates x.numStates) f r)))
    {ps : List ArcPtr} (hps : y.Accepting ps) (hcut : remove 0 = true) :
    LosesStart getCost x.toWfst maxStates.toNat ratio := by
  have hover := ((hremove 0 x.nonempty).1 hcut).resolve_right (not_over_ratio hf hr hratio le_rfl)
  have hallowed : allowedStates maxStates x.numStates = maxStates.toNat ∧ maxStates.toNat ≤ x.numStates := by
    by_cases hn : maxStates.toNat ≤ x.numStates
    · exact ⟨allowedStates_of_limit hlimit hn hpos, hn⟩
    · -- with as many as there are, none is cut off
      have hstates : 0 < x.numStates := x.nonempty
      rw [allowedStates, if_pos (.inr (by omega)), ← over_iff hsort f r hstates, drop_eq_nil_of_le] at hover
      · cases hover
      · have hlen := (sorted_states hsort x.numStates f r).length_eq
        rw [length_map, length_range] at hlen
        exact hlen.le
  rw [hallowed.1] at hremove h hover
  have hin : ∀ s < x.numStates, remove s = false → s ∈ ranked sort x.numStates maxStates.toNat f r := by
    intro s hs hkept
    by_contra hout
    rw [(hremove s hs).2 (.inl hout)] at hkept
    cases hkept
  have hleast : ∀ s ∈ ranked sort x.numStates maxStates.toNat f r, f s + r s ≤ f 0 + r 0 :=
    fun s hs => ranked_le hsort hs x.nonempty hover
  have hkept : ∀ s ∈ ranked sort x.numStates maxStates.toNat f r, remove s = false := by
    intro s hs
    rw [Bool.eq_false_iff, Ne, hremove s (ranked_lt hsort hs)]
    exact not_or.2 ⟨not_not.2 hs, not_over_ratio hf hr hratio (hleast s hs)⟩
  obtain ⟨t, ht, hpath⟩ := hps
  obtain ⟨hfinal, hold⟩ := h.final_kept ht
  obtain ⟨hlt, hzero⟩ := oldState_zero_kept x.final_lt hfinal
  obtain ⟨qs, hqs, -, hall⟩ := h.path hpath
  rw [hold] at hqs
  refine ⟨(ranked sort x.numStates maxStates.toNat f r).toFinset, ?_, ?_, ?_, oldState x.toWfst remove 0, ?_, ?_, qs, hqs, ?_⟩
  · rw [toFinset_card_of_nodup (ranked_nodup hsort ..), ranked_length hsort hallowed.2]
  · rwa [mem_toFinset]
  · intro s hs
    rw [mem_toFinset] at hs
    refine ⟨ranked_lt hsort hs, (near_state_iff hf hr).2 ?_⟩
    rw [add_zero, ← through_eq_best hf hr fun ps => passesBy_start]
    exact hleast s hs
  · exact mem_toFinset.2 (hin _ hlt hzero)
  · intro s hs
    rw [mem_toFinset] at hs
    exact oldState_zero_le (ranked_lt hsort hs) (hkept s hs)
  · intro q hq a ha
    obtain ⟨hkeep, hsrc, hdest⟩ := hall q hq a ha
    have hlt := Wfst.arc?_lt ha
    have hmem := hin _ hlt.1 hsrc
    exact ⟨mem_toFinset.2 (hin _ hlt.2 hdest),
      near_of_kept hf hr ha hmem (not_over_ratio hf hr hratio (hleast _ hmem)) hkeep⟩

/-- The other way round: sorted so, the start is cut off. -/
theorem cut_of_losesStart {S : Finset Nat} (hratio : 0 ≤ ratio)
    (hf : DistancesFrom getCost x.toWfst 0 f) (hr : DistancesTo getCost x.toWfst x.final r)
    (hremove : ∀ s < x.numStates, remove s = true ↔
      s ∉ ranked (sortTies S) x.numStates S.card f r ∨ ratio ≠ ⊤ ∧ f x.final + ratio < f s + r s)
    (h : Part y x.toWfst remove (keptArc getCost (decide (ratio = ⊤)) (f x.final + ratio) f r
      (ranked (sortTies S) x.numStates S.card f r)))
    (hzero : 0 ∉ S) (hS : ∀ s ∈ S, s < x.numStates ∧ Near getCost x.toWfst 0 (PassesBy x.toWfst s))
    (hs : s ∈ S) (hfirst : ∀ t ∈ S, s ≤ t) {qs : List ArcPtr} (hqs : x.Path s qs x.final)
    (hall : ∀ q ∈ qs, ∀ a, x.arc? q = some a → a.dest ∈ S ∧ Near getCost x.toWfst ratio (q ∈ ·)) :
    remove 0 = true ∧ ∃ ps, y.Accepting ps := by
  have hleast : ∀ s ∈ S, f s + r s ≤ f 0 + r 0 := by
    intro s hs
    have hnear := (near_state_iff hf hr).1 (hS s hs).2
    rwa [add_zero, ← through_eq_best hf hr fun ps => passesBy_start] at hnear
  have hranked := ranked_sortTies (fun s hs => (hS s hs).1) fun s hs t => by
    refine (hleast s hs).trans ?_
    rw [through_eq_best hf hr fun ps => passesBy_start]
    exact best_le_through hf hr t
  have hkept : ∀ t < x.numStates, remove t = false ↔ t ∈ S := by
    intro t ht
    rw [Bool.eq_false_iff, Ne, hremove t ht, hranked]
    constructor
    · exact fun hno => not_not.1 (not_or.1 hno).1
    · exact fun hmem => not_or.2 ⟨not_not.2 hmem, not_over_ratio hf hr hratio (hleast t hmem)⟩
  have hnone : kept remove s = [] := by
    rw [eq_nil_iff_forall_not_mem]
    intro t ht
    obtain ⟨hlt, htkept⟩ := mem_kept.1 ht
    exact absurd (hfirst t ((hkept t (hlt.trans (hS s hs).1)).1 htkept)) (Nat.not_le.2 hlt)
  have hnew := newIndex_kept ((hkept s (hS s hs).1).2 hs)
  rw [hnone] at hnew
  obtain ⟨ps, t, ht, hps, -⟩ := h.liftPath hqs (by
    intro q hq a ha
    obtain ⟨hdest, hnear⟩ := hall q hq a ha
    refine ⟨?_, (hkept _ (hS _ hdest).1).2 hdest⟩
    rw [keptArc, decide_eq_true_eq, arcWithin, decide_eq_true_eq, not_lt]
    exact fun _ => (near_arc_iff hf hr ha).1 hnear) hnew
  refine ⟨(hremove 0 x.nonempty).2 (.inl ?_), ps, t, h.final.trans ht, hps⟩
  rwa [hranked]

theorem not_prunesPaths_of_losesStart (hw : ∀ s, ∀ a ∈ x.arcs s, 0 ≤ getCost a.weight) (hlimit : maxStates ≠ unlimited)
    (hpos : 1 ≤ maxStates) (hratio : 0 ≤ ratio) (hloses : LosesStart getCost x.toWfst maxStates.toNat ratio) :
    ¬ PrunesPaths getCost x maxStates ratio := by
  intro h
  obtain ⟨S, hcard, hzero, hS, s, hs, hfirst, qs, hqs, hall⟩ := hloses
  obtain ⟨f, r, y, remove, hrun, hf, hr, hremove, hpart⟩ :=
    prunePaths_spec hw (sortTies_sorts S) fun h => hlimit h.1
  have hle : maxStates.toNat ≤ x.numStates := by
    rw [← hcard, ← Finset.card_range x.numStates]
    exact Finset.card_le_card fun u hu => Finset.mem_range.2 (hS u hu).1
  rw [allowedStates_of_limit hlimit hle hpos, ← hcard] at hremove hpart
  obtain ⟨hcut, ps, hps⟩ := cut_of_losesStart hratio hf hr hremove hpart hzero hS hs hfirst hqs hall
  obtain ⟨y', remove', hrun', hright⟩ := h _ (sortTies_sorts S)
  obtain ⟨rfl, rfl⟩ := Prod.mk.inj (Option.mem_unique hrun hrun')
  rw [hpart.accepted_iff.1 hright.accepted ps hps] at hcut
  cases hcut

/-- **When `prunePaths` does what it is for**: with a limit, if it cannot cut off the start and leave a transducer that
accepts something; without, if there is a ratio and an accepting path of finite cost, or nothing is useless anyway. -/
theorem prunesPaths_iff (hw : ∀ s, ∀ a ∈ x.arcs s, 0 ≤ getCost a.weight)
    (hmax : maxStates = unlimited ∨ 1 ≤ maxStates) (hratio : 0 ≤ ratio) :
    PrunesPaths getCost x maxStates ratio ↔
      (maxStates ≠ unlimited → ¬ LosesStart getCost x.toWfst maxStates.toNat ratio) ∧
        (maxStates = unlimited →
          (ratio ≠ ⊤ ∧ ∃ ps, x.Accepting ps ∧ pathCost getCost x.toWfst ps ≠ ⊤) ∨ Trimmed x.toWfst) := by
  by_cases hlimit : maxStates = unlimited
  · subst hlimit
    have heach : ∀ sort, Sorts sort → ∃ y remove, prunePaths getCost sort x unlimited ratio = some (y, remove) ∧
        (PrunedRight getCost x.toWfst unlimited ratio y (oldState x.toWfst remove) ↔
          (ratio ≠ ⊤ ∧ ∃ ps, x.Accepting ps ∧ pathCost getCost x.toWfst ps ≠ ⊤) ∨ Trimmed x.toWfst) :=
      fun sort hsort => pruned_unlimited hw hsort hratio
    constructor
    · intro h
      refine ⟨fun hne => absurd rfl hne, fun _ => ?_⟩
      obtain ⟨y, remove, hrun, hright⟩ := h _ (sortTies_sorts ∅)
      obtain ⟨y', remove', hrun', hiff⟩ := heach _ (sortTies_sorts ∅)
      obtain ⟨rfl, rfl⟩ := Prod.mk.inj (Option.mem_unique hrun hrun')
      exact hiff.1 hright
    · rintro ⟨-, hcond⟩ sort hsort
      obtain ⟨y, remove, hrun, hiff⟩ := heach sort hsort
      exact ⟨y, remove, hrun, hiff.2 (hcond rfl)⟩
  · have hpos := hmax.resolve_left hlimit
    have hgo : ¬ (maxStates = unlimited ∧ ratio = ⊤) := fun h => hlimit h.1
    constructor
    · refine fun h => ⟨?_, fun heq => absurd heq hlimit⟩
      exact fun _ hloses => not_prunesPaths_of_losesStart hw hlimit hpos hratio hloses h
    · rintro ⟨hno, -⟩ sort hsort
      obtain ⟨f, r, y, remove, hrun, hf, hr, hremove, hpart⟩ := prunePaths_spec hw hsort hgo
      refine ⟨y, remove, hrun, hpart.accepted_iff.2 fun ps hps => ?_, fun h => absurd h hlimit, fun h => absurd h hlimit⟩
      rw [Bool.eq_false_iff]
      intro hcut
      exact hno hlimit (losesStart_of_cut hsort hratio hlimit hpos hf hr hremove hpart hps hcut)

end Limit

end

/-- An arc from the start to the final state, and a way round by a third state. -/
def wayRound : NamedWfst Nat where
  states := [[⟨1, 1, 1, 0, noGroup⟩, ⟨1, 1, 2, 5, noGroup⟩], [], [⟨1, 1, 1, 0, noGroup⟩]]
  final := 1
  nonempty := by decide
  final_lt := by decide
  dest_lt := by decide
  stateNames := []
  names_le := by decide

theorem wayRound_arc {p : ArcPtr} {a : FSTArc Nat} (h : wayRound.arc? p = some a) :
    a.dest ≠ 0 ∧ (a.dest = 2 → p.src = 0 ∧ a.weight = 5) := by
  obtain ⟨s, i⟩ := p
  obtain _ | _ | _ | s := s <;> obtain _ | _ | i := i <;> cases h <;> decide

/-- To the third state goes one arc. -/
theorem wayRound_cost {s t : Nat} {ps : List ArcPtr} (h : wayRound.Path s ps t) (ht : t = 2) :
    s = 2 ∨ 5 ≤ pathCost (fun w : Nat => (w : WithTop Nat)) wayRound.toWfst ps := by
  induction h with
  | nil => exact .inl ht
  | cons ha _ ih =>
    rw [pathCost_cons ha]
    rcases ih ht with hdest | hcost
    · rw [((wayRound_arc ha).2 hdest).2]
      exact .inr (le_add_of_nonneg_right zero_le)
    · exact .inr (hcost.trans (le_add_of_nonneg_left zero_le))

theorem wayRound_keepsStart : ¬ LosesStart (fun w : Nat => (w : WithTop Nat)) wayRound.toWfst 2 ⊤ := by
  rintro ⟨S, hcard, hzero, hS, -⟩
  have hsub : S ⊆ {1, 2} := fun s hs => by
    have hlt : s < 3 := (hS s hs).1
    have : s ≠ 0 := by rintro rfl; exact hzero hs
    simp; omega
  have htwo : 2 ∈ S := by
    rw [Finset.eq_of_subset_of_card_le hsub (by rw [hcard]; rfl)]
    decide
  have hdirect : wayRound.Accepting [⟨0, 0⟩] := @Wfst.Path.cons _ wayRound.toWfst ⟨0, 0⟩ [] ⟨1, 1, 1, 0, noGroup⟩ 1 rfl (.nil 1)
  obtain ⟨ps, -, ⟨as, bs, rfl, has, -⟩, hcost⟩ := (hS 2 htwo).2 _ hdirect (by decide)
  have hdear := (wayRound_cost has rfl).resolve_left (by decide)
  rw [pathCost_append] at hcost
  exact absurd ((hdear.trans (le_add_of_nonneg_right zero_le)).trans hcost) (by decide)

/-- The third state goes. -/
theorem prunesPaths_iff_wayRound : PrunesPaths (fun w : Nat => (w : WithTop Nat)) wayRound 2 ⊤ ∧
    (prunePaths (fun w : Nat => (w : WithTop Nat)) (sortTies ∅) wayRound 2 ⊤).map (fun r => r.1.states.length) = some 2 :=
  ⟨(prunesPaths_iff (fun _ _ _ => zero_le) (.inr (by decide)) le_top).2
    ⟨fun _ => wayRound_keepsStart, fun h => absurd h (by decide)⟩, by decide +kernel⟩

/-- A chain of 17 states. -/
def straight : NamedWfst Nat where
  states := (range 16).map (fun s => [⟨1, 1, s + 1, 0, noGroup⟩]) ++ [[]]
  final := 16
  nonempty := by decide
  final_lt := by decide
  dest_lt := by decide
  stateNames := []
  names_le := by decide

theorem straight_path : ∀ (k s : Nat), s + k ≤ 16 → straight.Path s ((range' s k).map fun i => ⟨i, 0⟩) (s + k)
  | 0, s, _ => .nil s
  | k + 1, s, h => by
    have harc : ∀ s < 16, straight.arc? ⟨s, 0⟩ = some ⟨1, 1, s + 1, 0, noGroup⟩ := by decide
    have hrest := straight_path k (s + 1) (by omega)
    rw [show s + 1 + k = s + (k + 1) by omega] at hrest
    exact .cons (harc s (by omega)) hrest

/-- Nine of its states are left, and the start is not among them. -/
theorem not_prunesPaths_straight : ¬ PrunesPaths (fun w : Nat => (w : WithTop Nat)) straight 9 ⊤ := by
  have hnear : ∀ s ≤ 16, Near (fun w : Nat => (w : WithTop Nat)) straight.toWfst 0 (PassesBy straight.toWfst s) := by
    intro s hs qs _ _
    have hto := straight_path s 0 (by omega)
    have hfrom := straight_path (16 - s) s (by omega)
    rw [Nat.zero_add] at hto
    rw [Nat.add_sub_cancel' hs] at hfrom
    refine ⟨_, straight_path 16 0 le_rfl, ⟨_, _, ?_, hto, hfrom⟩, zero_le⟩
    rw [← map_append, show range' 0 16 = range' 0 (s + (16 - s)) by rw [Nat.add_sub_cancel' hs], ← range'_append_1, Nat.zero_add]
  refine not_prunesPaths_of_losesStart (fun _ _ _ => zero_le) (by decide) (by decide) le_top
    ⟨Finset.Icc 8 16, rfl, by decide, fun s hs => ?_, 8, by decide, fun t ht => (Finset.mem_Icc.1 ht).1, _, straight_path 8 8 le_rfl, ?_⟩
  · exact ⟨Nat.lt_succ_of_le (Finset.mem_Icc.1 hs).2, hnear s (Finset.mem_Icc.1 hs).2⟩
  · intro p hp a ha
    obtain ⟨s, hs, rfl⟩ := mem_map.1 hp
    have hall : ∀ s ∈ range' 8 8, (straight.arc? ⟨s, 0⟩).map FSTArc.dest = some (s + 1) := by decide
    have hdest := hall s hs
    rw [ha] at hdest
    have hs := mem_range'_1.1 hs
    rw [Option.some.inj hdest]
    refine ⟨Finset.mem_Icc.2 (by omega), fun qs _ _ => ⟨_, straight_path 16 0 le_rfl, ?_, zero_le⟩⟩
    exact mem_map_of_mem (mem_range'_1.2 (by omega))

end Sbmt.Carmel
