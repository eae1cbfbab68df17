import Sbmt.Lib.Flood
import Sbmt.Grammar.InMemory

/-!
# What the heuristics of virtual rules are

`improve_heuristic` is meant to go down from a syntax rule to every virtual rule
below it. `byroot` has one rule for each virtual tag, so a second rule for a tag
is never reached: it keeps the heuristic zero and `not_hidden` drops it.
-/

namespace Sbmt.Grammar

open Sbmt.Lib List

variable {S W V X : Type}

/-! ## The dependency of virtual tags -/

variable (rs : List (ScoredRule S))

/-- A rule for `a` has the virtual tag `c` on its right side. -/
def Needs (a c : Token) : Prop :=
  ∃ r ∈ rs, r.rule.lhs = a ∧ c ∈ r.rule.rhs ∧ c.isVirtual = true

def Acyclic : Prop := ∀ a, ¬ Relation.TransGen (Needs rs) a a

/-- The rule at `j` rewrites a virtual tag on the right side of the rule at `i`. -/
def Follows (i j : Nat) : Prop :=
  ∃ r r', rs[i]? = some r ∧ rs[j]? = some r' ∧ r'.rule.lhs ∈ r.rule.rhs ∧ r'.rule.lhs.isVirtual = true

def Reaches : Nat → Nat → Prop := Relation.TransGen (Follows rs)

/-! ## The rules that `improve_heuristic` goes down to -/

/-- The places the recursion goes on to from a rule. -/
def entered (i : Nat) : List Nat :=
  match rs[i]? with
  | none => []
  | some r => r.rule.rhs.filterMap fun c => if c.isVirtual then (byroot rs c).map Prod.snd else none

variable {rs : List (ScoredRule S)}

theorem byroot_spec {c : Token} {p : ScoredRule S × Nat} (h : byroot rs c = some p) :
    rs[p.2]? = some p.1 ∧ p.1.rule.lhs = c := by
  constructor
  · exact mem_zipIdx_iff_getElem?.1 (mem_of_find?_eq_some h)
  · simpa using find?_some h

variable {k : Nat}

theorem exists_byroot {r : ScoredRule S} (h : rs[k]? = some r) : ∃ p, byroot rs r.rule.lhs = some p := by
  apply Option.isSome_iff_exists.1
  rw [byroot, find?_isSome]
  exact ⟨(r, k), mem_zipIdx_iff_getElem?.2 h, by simp⟩

variable {i j : Nat}

theorem mem_entered :
    j ∈ entered rs i ↔ ∃ r, rs[i]? = some r ∧ ∃ c ∈ r.rule.rhs, c.isVirtual = true ∧ ∃ vt, byroot rs c = some (vt, j) := by
  unfold entered
  cases hi : rs[i]? with
  | none => simp
  | some r =>
    simp only [mem_filterMap, Option.some.injEq, exists_eq_left']
    constructor
    · rintro ⟨c, hc, hif⟩
      split at hif
      · next hvirtual =>
        obtain ⟨⟨vt, j'⟩, hroot, rfl⟩ := Option.map_eq_some_iff.1 hif
        exact ⟨c, hc, hvirtual, vt, hroot⟩
      · cases hif
    · rintro ⟨c, hc, hvirtual, vt, hroot⟩
      refine ⟨c, hc, ?_⟩
      rw [if_pos hvirtual, hroot]
      rfl

theorem follows_of_entered (h : j ∈ entered rs i) : Follows rs i j := by
  obtain ⟨r, hi, c, hc, hvirtual, vt, hroot⟩ := mem_entered.1 h
  obtain ⟨hj, rfl⟩ := byroot_spec hroot
  exact ⟨r, vt, hi, hj, hc, hvirtual⟩

theorem reaches_of_below (h : Below (entered rs) i k) : Reaches rs i k :=
  Relation.TransGen.mono (fun _ _ => follows_of_entered) i k h

/-- Only the first rule of a tag is entered. -/
theorem byroot_of_below (h : Below (entered rs) i k) {r : ScoredRule S} (hk : rs[k]? = some r) :
    byroot rs r.rule.lhs = some (r, k) := by
  obtain ⟨j, -, hj⟩ := Relation.TransGen.tail'_iff.1 h
  obtain ⟨-, -, c, -, -, vt, hroot⟩ := mem_entered.1 hj
  obtain ⟨hvt, rfl⟩ := byroot_spec hroot
  cases hk.symm.trans hvt
  exact hroot

theorem lt_of_follows (h : Follows rs i j) : j < rs.length := by
  obtain ⟨_, _, _, hj, _⟩ := h
  exact (List.getElem?_eq_some_iff.1 hj).1

/-- The left-hand side of the rule at a place. -/
def rootAt (rs : List (ScoredRule S)) (i : Nat) : Token := (rs[i]?.map fun r => r.rule.lhs).getD .top

theorem needs_of_follows (h : Follows rs i j) : Needs rs (rootAt rs i) (rootAt rs j) := by
  obtain ⟨r, r', hi, hj, hmem, hvirtual⟩ := h
  unfold rootAt
  rw [hi, hj]
  exact ⟨r, mem_of_getElem? hi, rfl, hmem, hvirtual⟩

theorem Acyclic.entered (h : Acyclic rs) : TopoSort.Acyclic (entered rs) := fun i hcycle =>
  h (rootAt rs i) ((reaches_of_below hcycle).lift (rootAt rs) fun _ _ => needs_of_follows)

theorem scoredRules_of_mem {g : GrammarInMem S W V X} {p : RuleInfo S V × Nat} (h : p ∈ g.rules.flatten.zipIdx) :
    g.scoredRules[p.2]? = some p.1.toScoredRule := by
  rw [GrammarInMem.scoredRules, getElem?_map, mem_zipIdx_iff_getElem?.1 h]
  rfl

section
variable [LinearOrder S]

theorem improveHeuristicRecurse_eq (h : S) : ∀ (fuel : Nat) {i : Nat} {r : ScoredRule S} (heuristic : Nat → S),
    rs[i]? = some r → improveHeuristicRecurse rs h fuel r heuristic = flood (entered rs) h fuel i heuristic := by
  intro fuel
  induction fuel with
  | zero => exact fun _ _ => rfl
  | succ fuel ih =>
    intro i r heuristic hi
    have hentered : entered rs i =
        r.rule.rhs.filterMap fun c => if c.isVirtual then (byroot rs c).map Prod.snd else none := by
      rw [entered, hi]
    unfold improveHeuristicRecurse flood
    rw [hentered, List.foldlM_filterMap]
    congr 1
    funext val c
    by_cases hvirtual : c.isVirtual = true
    · simp only [hvirtual, if_true]
      cases hroot : byroot rs c with
      | none => rfl
      | some p => exact ih _ (byroot_spec hroot).1
    · simp only [hvirtual]
      rfl

theorem isGreatest_insert_max {a b m : S} {B : Set S} (h : IsGreatest (insert (max a b) B) m) :
    IsGreatest (insert a (insert b B)) m := by
  obtain ⟨hmem, hle⟩ := h
  have hmax : max a b ≤ m := hle (.inl rfl)
  constructor
  · rcases hmem with rfl | hB
    · rcases max_choice a b with h | h
      · exact .inl h
      · exact .inr (.inl h)
    · exact .inr (.inr hB)
  · rintro v (rfl | rfl | hv)
    · exact (le_max_left _ _).trans hmax
    · exact (le_max_right _ _).trans hmax
    · exact hle (.inr hv)

variable [OrderBot S] [One S] [Mul S] [Zero W] (geom : List (String × S) → (String → W) → S)

/-! ## The values of syntax rules -/

/-- The score of a syntax rule under the heuristic weights, with the prior of its root. -/
def syntaxValue (rs : List (ScoredRule S)) (weights : String → W) (prior : Token → S) (r : ScoredRule S) : S :=
  geom r.scores (heuristicWeights rs weights) * weightedPrior prior r.rule.lhs

/-- The values of the syntax rules from which the rule at `k` is reached by the steps of `R`. -/
def valuesOver (rs : List (ScoredRule S)) (weights : String → W) (prior : Token → S) (R : Nat → Nat → Prop) (k : Nat) :
    Set S :=
  {v | ∃ i r, rs[i]? = some r ∧ r.rule.lhs.isVirtual = false ∧ R i k ∧ v = syntaxValue geom rs weights prior r}

variable (weights : String → W) (prior : Token → S) {syntaxIds : List Int}

variable {p : ScoredRule S × Nat}

theorem rescoreRule_virtual {heuristic : Nat → S} (h : p.1.rule.lhs.isVirtual = true) :
    rescoreRule geom rs syntaxIds weights prior heuristic p = .ok heuristic := if_pos h

/-- Rescoring with a real rule raises the virtual rules that are entered below it to the value of its syntax rule. -/
theorem rescoreRule_real (heuristic : Nat → S) (hacyclic : Acyclic rs)
    (hp : rs[p.2]? = some p.1) (hreal : p.1.rule.lhs.isVirtual = false)
    (hheld : p.1.syntaxId.any (syntaxIds.contains ·) = true) :
    ∃ heuristic', rescoreRule geom rs syntaxIds weights prior heuristic p = .ok heuristic' ∧
      ∀ k r, rs[k]? = some r → r.rule.lhs.isVirtual = true →
        (Below (entered rs) p.2 k → heuristic' k = max (heuristic k) (syntaxValue geom rs weights prior p.1)) ∧
        (¬ Below (entered rs) p.2 k → heuristic' k = heuristic k) := by
  have hclosed : ∀ i ∈ range rs.length, ∀ j ∈ entered rs i, j ∈ range rs.length := fun i _ j hj =>
    mem_range.2 (lt_of_follows (follows_of_entered hj))
  have hlt : p.2 ∈ range rs.length := mem_range.2 (List.getElem?_eq_some_iff.1 hp).1
  obtain ⟨heuristic', hrun⟩ := Option.isSome_iff_exists.1 (flood_isSome hacyclic.entered hclosed
    (syntaxValue geom rs weights prior p.1) (Nat.le_succ_of_le length_range.le) hlt
    (Function.update heuristic p.2 (weightedPrior prior p.1.rule.lhs)))
  refine ⟨heuristic', ?_, fun k r hk hvirtual => ?_⟩
  · rw [← improveHeuristicRecurse_eq _ _ _ hp] at hrun
    unfold rescoreRule
    rw [if_neg (by rw [hreal]; exact Bool.false_ne_true), if_pos hheld]
    dsimp only [syntaxValue] at hrun ⊢
    rw [hrun]
  · have hne : k ≠ p.2 := by
      rintro rfl
      cases hk.symm.trans hp
      rw [hreal] at hvirtual
      cases hvirtual
    have hraised := flood_raised _ _ _ _ _ hrun k
    rwa [Function.update_of_ne hne] at hraised

/-- The values of those of the rules `ps` below which the rule at `k` is entered. -/
def enteredFrom (rs : List (ScoredRule S)) (ps : List (ScoredRule S × Nat)) (k : Nat) : Set S :=
  {v | ∃ p ∈ ps, p.1.rule.lhs.isVirtual = false ∧ Below (entered rs) p.2 k ∧ v = syntaxValue geom rs weights prior p.1}

variable {k : Nat}

theorem enteredFrom_cons_of_not {ps : List (ScoredRule S × Nat)}
    (h : ¬ (p.1.rule.lhs.isVirtual = false ∧ Below (entered rs) p.2 k)) :
    enteredFrom geom weights prior rs (p :: ps) k = enteredFrom geom weights prior rs ps k := by
  ext v
  constructor
  · rintro ⟨q, hq, hreal, hbelow, rfl⟩
    rcases mem_cons.1 hq with rfl | hq
    · exact absurd ⟨hreal, hbelow⟩ h
    · exact ⟨q, hq, hreal, hbelow, rfl⟩
  · rintro ⟨q, hq, hq'⟩
    exact ⟨q, mem_cons_of_mem p hq, hq'⟩

theorem enteredFrom_cons {ps : List (ScoredRule S × Nat)}
    (hreal : p.1.rule.lhs.isVirtual = false) (hbelow : Below (entered rs) p.2 k) :
    enteredFrom geom weights prior rs (p :: ps) k =
      insert (syntaxValue geom rs weights prior p.1) (enteredFrom geom weights prior rs ps k) := by
  ext v
  constructor
  · rintro ⟨q, hq, hq', hqk, rfl⟩
    rcases mem_cons.1 hq with rfl | hq
    · exact .inl rfl
    · exact .inr ⟨q, hq, hq', hqk, rfl⟩
  · rintro (rfl | ⟨q, hq, hq'⟩)
    · exact ⟨p, mem_cons_self, hreal, hbelow, rfl⟩
    · exact ⟨q, mem_cons_of_mem p hq, hq'⟩

/-- The loop over the rules takes, at every virtual rule, the maximum over the real rules it is entered from. -/
theorem rescore_loop (hacyclic : Acyclic rs) : ∀ (ps : List (ScoredRule S × Nat)) (heuristic : Nat → S),
    (∀ p ∈ ps, rs[p.2]? = some p.1 ∧
      (p.1.rule.lhs.isVirtual = false → p.1.syntaxId.any (syntaxIds.contains ·) = true)) →
    ∃ heuristic', ps.foldlM (rescoreRule geom rs syntaxIds weights prior) heuristic = .ok heuristic' ∧
      ∀ k r, rs[k]? = some r → r.rule.lhs.isVirtual = true →
        IsGreatest (insert (heuristic k) (enteredFrom geom weights prior rs ps k)) (heuristic' k) := by
  intro ps
  induction ps with
  | nil =>
    intro heuristic _
    refine ⟨heuristic, rfl, fun k r _ _ => ⟨.inl rfl, ?_⟩⟩
    rintro v (rfl | ⟨p, hp, -⟩)
    · exact le_rfl
    · cases hp
  | cons p ps ih =>
    intro heuristic hps
    have htail := fun q hq => hps q (mem_cons_of_mem p hq)
    obtain ⟨hplace, hheld⟩ := hps p mem_cons_self
    by_cases hvirtual : p.1.rule.lhs.isVirtual = true
    · obtain ⟨heuristic', hrun, hmax⟩ := ih heuristic htail
      refine ⟨heuristic', ?_, fun k r hk hr => ?_⟩
      · rw [foldlM_cons, rescoreRule_virtual geom weights prior hvirtual]
        exact hrun
      · rw [enteredFrom_cons_of_not geom weights prior fun h => Bool.false_ne_true (h.1.symm.trans hvirtual)]
        exact hmax k r hk hr
    · have hreal : p.1.rule.lhs.isVirtual = false := Bool.eq_false_iff.2 hvirtual
      obtain ⟨heuristic1, hrule, hraised⟩ := rescoreRule_real geom weights prior heuristic
        hacyclic hplace hreal (hheld hreal)
      obtain ⟨heuristic', hrun, hmax⟩ := ih heuristic1 htail
      refine ⟨heuristic', ?_, fun k r hk hr => ?_⟩
      · rw [foldlM_cons, hrule]
        exact hrun
      · have hgreatest := hmax k r hk hr
        obtain ⟨hbelow, hother⟩ := hraised k r hk hr
        by_cases hk' : Below (entered rs) p.2 k
        · rw [hbelow hk'] at hgreatest
          rw [enteredFrom_cons geom weights prior hreal hk']
          exact isGreatest_insert_max hgreatest
        · rw [hother hk'] at hgreatest
          rw [enteredFrom_cons_of_not geom weights prior fun h => hk' h.2]
          exact hgreatest

theorem enteredFrom_zipIdx (k : Nat) :
    enteredFrom geom weights prior rs rs.zipIdx k = valuesOver geom rs weights prior (Below (entered rs)) k := by
  ext v
  constructor
  · rintro ⟨p, hp, hreal, hbelow, rfl⟩
    exact ⟨p.2, p.1, mem_zipIdx_iff_getElem?.1 hp, hreal, hbelow, rfl⟩
  · rintro ⟨i, r, hi, hreal, hbelow, rfl⟩
    exact ⟨(r, i), mem_zipIdx_iff_getElem?.2 hi, hreal, hbelow, rfl⟩

/-- Every real rule belongs to a syntax rule that is held; else `get_scored_syntax` throws. -/
def Held (rs : List (ScoredRule S)) (syntaxIds : List Int) : Prop :=
  ∀ r ∈ rs, r.rule.lhs.isVirtual = false → r.syntaxId.any (syntaxIds.contains ·) = true

/-- `rescore` gives a virtual rule the maximum over the syntax rules it is entered from. -/
theorem rescore_spec (hacyclic : Acyclic rs) (hheld : Held rs syntaxIds) :
    ∃ heuristic, rescore geom rs syntaxIds weights prior = .ok heuristic ∧
      ∀ k r, rs[k]? = some r → r.rule.lhs.isVirtual = true →
        IsGreatest (insert ⊥ (valuesOver geom rs weights prior (Below (entered rs)) k)) (heuristic k) := by
  obtain ⟨heuristic, hrun, hmax⟩ := rescore_loop geom weights prior
    hacyclic rs.zipIdx (fun _ => ⊥) fun p hp =>
      ⟨mem_zipIdx_iff_getElem?.1 hp, hheld p.1 (fst_mem_of_mem_zipIdx hp)⟩
  refine ⟨heuristic, hrun, fun k r hk hr => ?_⟩
  rw [← enteredFrom_zipIdx]
  exact hmax k r hk hr

/-! ## When a rule below another is entered -/

/-- Below a syntax rule of non-zero value no two virtual rules are for the same tag. -/
def OnePerTag (rs : List (ScoredRule S)) (weights : String → W) (prior : Token → S) : Prop :=
  ∀ i r, rs[i]? = some r → r.rule.lhs.isVirtual = false → syntaxValue geom rs weights prior r ≠ ⊥ →
    ∀ j j' q q', Reaches rs i j → Reaches rs i j' → rs[j]? = some q → rs[j']? = some q' → q.rule.lhs = q'.rule.lhs → j = j'

variable {weights prior}

/-- Where there is one rule for each tag, every rule below is entered. -/
theorem OnePerTag.below (h : OnePerTag geom rs weights prior) {i : Nat} {r : ScoredRule S} (hi : rs[i]? = some r)
    (hreal : r.rule.lhs.isVirtual = false) (hvalue : syntaxValue geom rs weights prior r ≠ ⊥) (hreach : Reaches rs i k) :
    Below (entered rs) i k := by
  -- the rule that `byroot` has for the tag is the only one
  have hstep : ∀ {j k : Nat}, Follows rs j k → Reaches rs i k →
      (∀ k', k' ∈ entered rs j → Reaches rs i k') → k ∈ entered rs j := by
    intro j k hjk hk hentered
    obtain ⟨q, q', hj, hkq, hmem, hvirtual⟩ := hjk
    obtain ⟨⟨vt, k'⟩, hroot⟩ := exists_byroot hkq
    have hk' : k' ∈ entered rs j := mem_entered.2 ⟨q, hj, _, hmem, hvirtual, vt, hroot⟩
    obtain ⟨hvt, hsame⟩ := byroot_spec hroot
    rwa [← h i r hi hreal hvalue k' k vt q' (hentered k' hk') hk hvt hkq hsame]
  induction hreach with
  | single hfirst => exact .single (hstep hfirst (.single hfirst) fun k' hk' => .single (follows_of_entered hk'))
  | tail hbefore hlast ih =>
    exact ih.tail (hstep hlast (hbefore.tail hlast) fun k' hk' => hbefore.tail (follows_of_entered hk'))

theorem OnePerTag.valuesOver_eq (h : OnePerTag geom rs weights prior) (k : Nat) :
    insert ⊥ (valuesOver geom rs weights prior (Below (entered rs)) k) =
      insert ⊥ (valuesOver geom rs weights prior (Reaches rs) k) := by
  ext v
  constructor
  · rintro (rfl | ⟨i, r, hi, hreal, hk, rfl⟩)
    · exact .inl rfl
    · exact .inr ⟨i, r, hi, hreal, reaches_of_below hk, rfl⟩
  · rintro (rfl | ⟨i, r, hi, hreal, hk, rfl⟩)
    · exact .inl rfl
    · by_cases hvalue : syntaxValue geom rs weights prior r = ⊥
      · exact .inl hvalue
      · exact .inr ⟨i, r, hi, hreal, h.below geom hi hreal hvalue hk, rfl⟩

/-- A rule that is not the first one for its tag keeps the heuristic zero. -/
theorem eq_bot_of_not_first {r : ScoredRule S} (hk : rs[k]? = some r)
    (hroot : byroot rs r.rule.lhs = some p) (hne : p.2 ≠ k) {m : S}
    (hm : IsGreatest (insert ⊥ (valuesOver geom rs weights prior (Below (entered rs)) k)) m) : m = ⊥ := by
  rcases hm.1 with h | ⟨i, q, -, -, hbelow, -⟩
  · exact h
  · cases (byroot_of_below hbelow hk).symm.trans hroot
    exact absurd rfl hne

namespace GrammarInMem

/-- Every virtual rule has the maximum of the values of the syntax rules from which it is reached, zero if there are
none. -/
def Estimates (g : GrammarInMem S W V X) : Prop :=
  ∀ k r, g.scoredRules[k]? = some r → r.rule.lhs.isVirtual = true →
    IsGreatest (insert ⊥ (valuesOver geom g.scoredRules g.weights g.prior (Reaches g.scoredRules) k)) (g.heuristic k)

/-- `not_hidden` keeps every virtual rule that is reached from a syntax rule of non-zero value. -/
def Keeps (g : GrammarInMem S W V X) : Prop :=
  ∀ p ∈ g.rules.flatten.zipIdx, p.1.rule.lhs.isVirtual = true → p.1.hidden = false →
    (∃ v ∈ valuesOver geom g.scoredRules g.weights g.prior (Reaches g.scoredRules) p.2, v ≠ ⊥) → p ∈ g.allRules

variable {geom}

theorem Estimates.keeps {g : GrammarInMem S W V X} (h : g.Estimates geom) : g.Keeps geom := by
  rintro p hp hvirtual hshown ⟨v, hv, hne⟩
  have hle : v ≤ g.heuristic p.2 := (h p.2 _ (scoredRules_of_mem hp) hvirtual).2 (.inr hv)
  refine mem_filter.2 ⟨hp, ?_⟩
  rw [notHidden, hshown]
  exact decide_eq_true ((bot_lt_iff_ne_bot.2 hne).trans_le hle)

variable (geom)

/-- What `recompute_heuristics` leaves. -/
theorem recomputeHeuristics_spec (g : GrammarInMem S W V X) (hacyclic : Acyclic g.scoredRules)
    (hheld : Held g.scoredRules g.syntaxIds) :
    ∃ g', g.recomputeHeuristics geom = .ok g' ∧ g'.rules = g.rules ∧ g'.weights = g.weights ∧
      g'.prior = g.tagPrior.weigh (readPrior g.tokens g.tagPrior.names).1 ∧
      ∀ k r, g.scoredRules[k]? = some r → r.rule.lhs.isVirtual = true →
        IsGreatest (insert ⊥ (valuesOver geom g.scoredRules g.weights g'.prior (Below (entered g.scoredRules)) k))
          (g'.heuristic k) := by
  obtain ⟨heuristic, hrun, hmax⟩ := rescore_spec geom g.weights
    (g.tagPrior.weigh (readPrior g.tokens g.tagPrior.names).1) hacyclic hheld
  unfold recomputeHeuristics
  simp only [hrun]
  exact ⟨_, rfl, rfl, rfl, rfl, hmax⟩

/-- **The heuristics are the maxima exactly if there is one rule for each tag** below every syntax rule of non-zero
value. A second rule is never entered, since `byroot` has the first. -/
theorem recomputeHeuristics_exact_iff (g : GrammarInMem S W V X) (hacyclic : Acyclic g.scoredRules)
    (hheld : Held g.scoredRules g.syntaxIds) :
    ∃ g', g.recomputeHeuristics geom = .ok g' ∧
      (g'.Estimates geom ∧ g'.Keeps geom ↔
        OnePerTag geom g.scoredRules g.weights (g.tagPrior.weigh (readPrior g.tokens g.tagPrior.names).1)) := by
  obtain ⟨g', hrun, hrules, hweights, hprior, hmax⟩ := recomputeHeuristics_spec geom g hacyclic hheld
  refine ⟨g', hrun, ?_⟩
  have hscored : g'.scoredRules = g.scoredRules := by rw [scoredRules, scoredRules, hrules]
  rw [← hprior]
  constructor
  · rintro ⟨hest, -⟩ i r hi hreal hvalue j j' q q' hj hj' hq hq' hsame
    -- a rule that is reached and of which another is the first would have a heuristic below the value
    have hfirst : ∀ k q, Reaches g.scoredRules i k → g.scoredRules[k]? = some q →
        ∃ vt, byroot g.scoredRules q.rule.lhs = some (vt, k) := by
      intro k q hk hq
      obtain ⟨⟨vt, k'⟩, hroot⟩ := exists_byroot hq
      by_contra hno
      have hne : k' ≠ k := by
        rintro rfl
        exact hno ⟨vt, hroot⟩
      obtain ⟨j, -, hjk⟩ := Relation.TransGen.tail'_iff.1 hk
      obtain ⟨_, _, _, hq', _, hvirtual⟩ := hjk
      cases hq.symm.trans hq'
      have hbot := eq_bot_of_not_first geom hq hroot hne (hmax k q hq hvirtual)
      have hle := (hest k q (by rw [hscored]; exact hq) hvirtual).2 (.inr ⟨i, r, by rw [hscored]; exact hi, hreal,
        by rw [hscored]; exact hk, rfl⟩)
      rw [hbot, hscored, hweights] at hle
      exact hvalue (le_bot_iff.1 hle)
    obtain ⟨vt, hroot⟩ := hfirst j q hj hq
    obtain ⟨vt', hroot'⟩ := hfirst j' q' hj' hq'
    rw [hsame, hroot'] at hroot
    cases hroot
    rfl
  · intro hone
    have hest : g'.Estimates geom := by
      intro k r hk hvirtual
      rw [hscored, hweights, ← hone.valuesOver_eq geom k]
      rw [hscored] at hk
      exact hmax k r hk hvirtual
    exact ⟨hest, hest.keeps⟩

end GrammarInMem

end

/-! ## Two rules for one tag -/

/-- The rule `NP → V[a]` of syntax rule 1. -/
def npRule : ScoredRule Nat := ⟨⟨.indexed .tag 0, .indexed .virtualTag 0, none⟩, some 1, []⟩

/-- The rule that rewrites `V[a]` to a word. -/
def wordRule (word : Nat) : ScoredRule Nat := ⟨⟨.indexed .virtualTag 0, .indexed .foreign word, none⟩, none, []⟩

variable (words : List Nat)

/-- One subgrammar: `NP → V[a]`, and a rule for `V[a]` for each of the words. -/
def npGrammar : GrammarInMem Nat Nat Unit Unit where
  weights _ := 1
  propConstructors := []
  tagPrior := ⟨[], fun _ _ => 1⟩
  prior _ := 1
  rules := [(npRule :: words.map wordRule).map fun r => ⟨r, [], 1, [], false⟩]
  heuristic _ := 0
  tokens := Dictionary.reset.createTokens
    [.word .tag "NP", .word .virtualTag "V[a]", .word .foreign "das", .word .foreign "es"]
  syntaxRules := [[⟨1, ()⟩]]
  minSyntaxId := 0
  subgrammarDictMax := []

theorem scoredRules_npGrammar : (npGrammar words).scoredRules = npRule :: words.map wordRule := by
  simp [GrammarInMem.scoredRules, npGrammar, Function.comp_def]

theorem needs_npGrammar {words : List Nat} {a c : Token} (h : Needs (npGrammar words).scoredRules a c) :
    a = .indexed .tag 0 ∧ c = .indexed .virtualTag 0 := by
  obtain ⟨r, hr, rfl, hc, hvirtual⟩ := h
  rw [scoredRules_npGrammar, mem_cons, mem_map] at hr
  rcases hr with rfl | ⟨word, -, rfl⟩
  · exact ⟨rfl, by simpa [npRule, BinaryRule.rhs] using hc⟩
  · obtain rfl : c = .indexed .foreign word := by simpa [wordRule, BinaryRule.rhs] using hc
    cases hvirtual

theorem acyclic_npGrammar : Acyclic (npGrammar words).scoredRules := by
  intro a hcycle
  obtain ⟨_, hfirst, -⟩ := Relation.TransGen.head'_iff.1 hcycle
  obtain ⟨_, -, hlast⟩ := Relation.TransGen.tail'_iff.1 hcycle
  cases (needs_npGrammar hfirst).1.symm.trans (needs_npGrammar hlast).2

theorem held_npGrammar : Held (npGrammar words).scoredRules (npGrammar words).syntaxIds := by
  intro r hr hreal
  rw [scoredRules_npGrammar, mem_cons, mem_map] at hr
  rcases hr with rfl | ⟨word, -, rfl⟩
  · rfl
  · cases hreal

/-- With one rule for `V[a]` the heuristics are the maxima, and it is kept. -/
theorem recomputeHeuristics_exact_npGrammar : ∃ g', (npGrammar [3]).recomputeHeuristics natGeom = .ok g' ∧
    g'.Estimates natGeom ∧ g'.Keeps natGeom := by
  obtain ⟨g', hrun, hiff⟩ := GrammarInMem.recomputeHeuristics_exact_iff natGeom (npGrammar [3]) (acyclic_npGrammar [3])
    (held_npGrammar [3])
  refine ⟨g', hrun, hiff.2 ?_⟩
  intro i r hi hreal hvalue j j' q q' hj hj' hq hq' hsame
  -- only the rule at place 1 can be reached
  have hone : ∀ {j : Nat}, Reaches (npGrammar [3]).scoredRules i j → j = 1 := by
    intro j hj
    obtain ⟨_, -, _, q, -, hq, -, hvirtual⟩ := Relation.TransGen.tail'_iff.1 hj
    match j, hq with
    | 0, hq => cases hq; cases hvirtual
    | 1, _ => rfl
    | _ + 2, hq => cases hq
  rw [hone hj, hone hj']

/-- With two, the second one keeps the heuristic zero and is dropped, though it is reached from the syntax rule. -/
theorem not_estimates_npGrammar : Acyclic (npGrammar [3, 4]).scoredRules ∧
    ∃ g', (npGrammar [3, 4]).recomputeHeuristics natGeom = .ok g' ∧ ¬ g'.Estimates natGeom ∧ ¬ g'.Keeps natGeom := by
  have hreach : 1 ∈ valuesOver natGeom (npGrammar [3, 4]).scoredRules (npGrammar [3, 4]).weights (fun _ => 1)
      (Reaches (npGrammar [3, 4]).scoredRules) 2 :=
    ⟨0, npRule, rfl, rfl, .single ⟨npRule, wordRule 4, rfl, rfl, by decide, rfl⟩, rfl⟩
  refine ⟨acyclic_npGrammar _, _, rfl, ?_, ?_⟩
  · intro h
    have hle := (h 2 (wordRule 4) rfl rfl).2 (.inr hreach)
    exact absurd hle (by decide)
  · intro h
    have hkept := h (⟨wordRule 4, [], 1, [], false⟩, 2) (by simp [npGrammar]) rfl rfl ⟨1, hreach, by decide⟩
    exact absurd (mem_filter.1 hkept).2 (by decide)

end Sbmt.Grammar
