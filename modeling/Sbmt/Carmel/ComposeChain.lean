import Sbmt.Carmel.ComposePaths
import Sbmt.Carmel.Derivations

/-!
# A chain of compositions (`carmel/src/carmel.cc:1461-1563`)

| here | there |
| --- | --- |
| `composeLeft`, `composeRight` | the composition loop without `-r` and with it, for `-d` (no `reduce`) and no pruning |

`record i` is what the cascade does in the turn after which `i` transducers are left. A turn after an invalid result
is not taken (`result->valid()`, and the `goto nextInput`).
-/

namespace Sbmt.Carmel

open Sbmt.Lib List

variable {W Γ Δ : Type} [CommMonoid W]

section

variable (record : Nat → Γ → Origin W → Γ × Nat) (indexThreshold : Nat) (preserveGroups : Bool)

def composeLeft : Γ → Transducer W → List (Transducer W) → Γ × Composed W
  | γ, result, [] => (γ, .valid result)
  | γ, result, next :: rest =>
    match setCompose (record rest.length) γ indexThreshold preserveGroups result next with
    | (γ, .invalid) => (γ, .invalid)
    | (γ, .valid c) => composeLeft γ c rest

/-- The chain is gone through from its end; `next` stands before what is composed. -/
def composeRight : Γ → Transducer W → List (Transducer W) → Γ × Composed W
  | γ, next, [] => (γ, .valid next)
  | γ, next, y :: rest =>
    match composeRight γ y rest with
    | (γ, .invalid) => (γ, .invalid)
    | (γ, .valid result) => setCompose (record rest.length) γ indexThreshold preserveGroups next result

end

/-! ## Paths through a chain -/

/-- One accepting path of each transducer, with one string between any two neighbours: with the input of the first, the
output of the last, and the product of the weights. -/
inductive Chained : List (Transducer W) → List (List ArcPtr) → List Nat → List Nat → W → Prop
  | single {x : Transducer W} {ps : List ArcPtr} (h : x.Accepting ps) :
      Chained [x] [ps] (x.pathIn ps) (x.pathOut ps) (x.pathWeight ps)
  | link {x y : Transducer W} {xs : List (Transducer W)} {ps : List ArcPtr} {pss : List (List ArcPtr)} {i o : List Nat}
      {w : W} (h : x.Accepting ps) (hrest : Chained (y :: xs) pss i o w)
      (hsame : x.outAlph.spell (x.pathOut ps) = y.inAlph.spell i) :
      Chained (x :: y :: xs) (ps :: pss) (x.pathIn ps) o (x.pathWeight ps * w)

variable {x y z : Transducer W} {xs ys : List (Transducer W)} {pss : List (List ArcPtr)} {i o i' o' : List Nat} {w w' : W}

theorem Chained.unique (h : Chained xs pss i o w) (h' : Chained xs pss i' o' w') : i = i' ∧ o = o' ∧ w = w' := by
  induction h generalizing i' o' w' with
  | single _ =>
    cases h'
    exact ⟨rfl, rfl, rfl⟩
  | link _ _ _ ih =>
    cases h' with
    | link _ hrest' _ =>
      obtain ⟨-, rfl, rfl⟩ := ih hrest'
      exact ⟨rfl, rfl, rfl⟩

theorem Chained.head (h : Chained (x :: xs) pss i o w) :
    ∃ ps rest, pss = ps :: rest ∧ x.Accepting ps ∧ i = x.pathIn ps := by
  cases h with
  | single h => exact ⟨_, _, rfl, h, rfl⟩
  | link h _ _ => exact ⟨_, _, rfl, h, rfl⟩

/-- The paths of a composition stand for those through the chain. -/
structure Chains (xs : List (Transducer W)) (c : Composed W) (f : List ArcPtr → List (List ArcPtr)) : Prop where
  bijOn : Set.BijOn f c.accepted {pss | ∃ i o w, Chained xs pss i o w}
  path : ∀ x, c = .valid x → (∀ y ∈ xs.head?, y.inAlph = x.inAlph) ∧
    ∀ ps, x.Accepting ps → Chained xs (f ps) (x.pathIn ps) (x.pathOut ps) (x.pathWeight ps)

theorem chains_single (x : Transducer W) : Chains [x] (.valid x) fun ps => [ps] where
  bijOn := by
    refine ⟨fun ps hps => ⟨_, _, _, .single hps⟩, fun ps _ ps' _ heq => (List.cons.inj heq).1, ?_⟩
    rintro pss ⟨i, o, w, hpss⟩
    cases hpss with
    | single h => exact ⟨_, h, rfl⟩
  path := by
    rintro x' hx'
    obtain rfl := Composed.valid.inj hx'
    exact ⟨by simp, fun ps hps => .single hps⟩

theorem chains_invalid {f : List ArcPtr → List (List ArcPtr)} (hnone : ∀ pss i o w, ¬ Chained xs pss i o w) :
    Chains xs .invalid f where
  bijOn := by
    have hempty : {pss | ∃ i o w, Chained xs pss i o w} = ∅ :=
      Set.eq_empty_of_forall_notMem fun pss ⟨i, o, w, h⟩ => hnone pss i o w h
    rw [hempty]
    exact Set.bijOn_empty _
  path := fun _ h => by cases h

/-- In either mode. -/
theorem exists_pairs (record : Γ → Origin W → Γ × Nat) (γ : Γ) (indexThreshold : Nat) (preserveGroups : Bool)
    (a b : Transducer W) : ∃ f, Pairs a b (setCompose record γ indexThreshold preserveGroups a b).2 f := by
  cases preserveGroups with
  | false => exact compose_pairs _ (nodup_threeState indexThreshold) record γ (threeState_runs indexThreshold)
  | true => exact compose_pairs _ nodup_twoState record γ twoState_runs

/-! ## One turn to the left -/

section Left

variable {g : List ArcPtr → List ArcPtr × List ArcPtr}

/-- The path of a composition taken apart. -/
def expand (g : List ArcPtr → List ArcPtr × List ArcPtr) : List (List ArcPtr) → List (List ArcPtr)
  | [] => []
  | ps :: rest => (g ps).1 :: (g ps).2 :: rest

theorem Pairs.expand (hg : Pairs x y (.valid z) g) (h : Chained (z :: ys) pss i o w) :
    Chained (x :: y :: ys) (Carmel.expand g pss) i o w := by
  obtain ⟨-, hout, hpath⟩ := hg.path z rfl
  cases h with
  | single h =>
    obtain ⟨hx, hy, hsame⟩ := hg.bijOn.mapsTo h
    obtain ⟨hin, hpout, hweight⟩ := hpath _ h
    rw [hin, hpout, hweight]
    exact .link hx (.single hy) hsame
  | link h hrest hnext =>
    obtain ⟨hx, hy, hsame⟩ := hg.bijOn.mapsTo h
    obtain ⟨hin, hpout, hweight⟩ := hpath _ h
    rw [hin, hweight, mul_assoc]
    rw [hout, hpout] at hnext
    exact .link hx (.link hy hrest hnext) hsame

theorem Pairs.expand_bijOn (hg : Pairs x y (.valid z) g) : Set.BijOn (Carmel.expand g)
    {pss | ∃ i o w, Chained (z :: ys) pss i o w} {pss | ∃ i o w, Chained (x :: y :: ys) pss i o w} := by
  refine ⟨fun pss ⟨i, o, w, h⟩ => ⟨i, o, w, hg.expand h⟩, ?_, ?_⟩
  · rintro pss ⟨_, _, _, h⟩ pss' ⟨_, _, _, h'⟩ heq
    obtain ⟨ps, rest, rfl, hps, -⟩ := h.head
    obtain ⟨ps', rest', rfl, hps', -⟩ := h'.head
    obtain ⟨h1, hrest⟩ := List.cons.inj heq
    obtain ⟨h2, rfl⟩ := List.cons.inj hrest
    rw [hg.bijOn.injOn hps hps' (Prod.ext h1 h2)]
  · rintro pss ⟨i, o, w, h⟩
    obtain ⟨-, hout, hpath⟩ := hg.path z rfl
    cases h with
    | link hx hrest hsame =>
      obtain ⟨qs, rest, rfl, hy, rfl⟩ := hrest.head
      obtain ⟨ps, hps, heq⟩ := hg.bijOn.surjOn (a := (_, qs)) ⟨hx, hy, hsame⟩
      refine ⟨ps :: rest, ?_, by simp only [Carmel.expand, heq]⟩
      cases hrest with
      | single _ => exact ⟨_, _, _, .single hps⟩
      | link _ hrest hnext =>
        refine ⟨_, _, _, .link hps hrest ?_⟩
        rw [hout, (hpath ps hps).2.1, heq]
        exact hnext

end Left

/-! ## The loops -/

variable (record : Nat → Γ → Origin W → Γ × Nat) (indexThreshold : Nat) (preserveGroups : Bool)

theorem composeLeft_chains : ∀ (ys : List (Transducer W)) (γ : Γ) (x : Transducer W),
    ∃ f, Chains (x :: ys) (composeLeft record indexThreshold preserveGroups γ x ys).2 f
  | [], _, x => ⟨_, chains_single x⟩
  | y :: ys, γ, x => by
    obtain ⟨g, hg⟩ := exists_pairs (record ys.length) γ indexThreshold preserveGroups x y
    unfold composeLeft
    generalize setCompose (record ys.length) γ indexThreshold preserveGroups x y = r at hg
    obtain ⟨γ', c⟩ := r
    cases c with
    | invalid =>
      refine ⟨fun _ => [], chains_invalid fun pss i o w h => ?_⟩
      cases h with
      | link hx hrest hsame =>
        obtain ⟨qs, _, -, hy, rfl⟩ := hrest.head
        obtain ⟨_, hnone, -⟩ := hg.bijOn.surjOn (a := (_, qs)) ⟨hx, hy, hsame⟩
        exact hnone
    | valid z =>
      obtain ⟨f, hf⟩ := composeLeft_chains ys γ' z
      refine ⟨expand g ∘ f, hg.expand_bijOn.comp hf.bijOn, fun c hc => ?_⟩
      obtain ⟨hin, hpath⟩ := hf.path c hc
      refine ⟨?_, fun ps hps => hg.expand (hpath ps hps)⟩
      simpa [(hg.path z rfl).1] using hin

theorem composeRight_chains : ∀ (ys : List (Transducer W)) (γ : Γ) (x : Transducer W),
    ∃ f, Chains (x :: ys) (composeRight record indexThreshold preserveGroups γ x ys).2 f
  | [], _, x => ⟨_, chains_single x⟩
  | y :: ys, γ, x => by
    obtain ⟨f, hf⟩ := composeRight_chains ys γ y
    unfold composeRight
    generalize composeRight record indexThreshold preserveGroups γ y ys = r at hf
    obtain ⟨γ', c⟩ := r
    cases c with
    | invalid =>
      refine ⟨fun _ => [], chains_invalid fun pss i o w h => ?_⟩
      cases h with
      | link _ hrest _ =>
        obtain ⟨_, hnone, -⟩ := hf.bijOn.surjOn ⟨_, _, _, hrest⟩
        exact hnone
    | valid z =>
      obtain ⟨g, hg⟩ := exists_pairs (record ys.length) γ' indexThreshold preserveGroups x z
      obtain ⟨halph, hpath⟩ := hf.path z rfl
      have hy : y.inAlph = z.inAlph := halph y rfl
      have hlink : ∀ r ∈ Composable x z, Chained (x :: y :: ys) (r.1 :: f r.2) (x.pathIn r.1) (z.pathOut r.2)
          (x.pathWeight r.1 * z.pathWeight r.2) := by
        rintro r ⟨hx, hz, hsame⟩
        exact .link hx (hpath _ hz) (hy ▸ hsame)
      refine ⟨fun ps => (g ps).1 :: f (g ps).2, ⟨fun ps hps => ⟨_, _, _, hlink _ (hg.bijOn.mapsTo hps)⟩, ?_, ?_⟩, ?_⟩
      · intro ps hps ps' hps' heq
        obtain ⟨h1, h2⟩ := List.cons.inj heq
        have h2 := hf.bijOn.injOn (hg.bijOn.mapsTo hps).2.1 (hg.bijOn.mapsTo hps').2.1 h2
        exact hg.bijOn.injOn hps hps' (Prod.ext h1 h2)
      · rintro pss ⟨i, o, w, h⟩
        cases h with
        | link hx hrest hsame =>
          obtain ⟨qs, hqs, rfl⟩ := hf.bijOn.surjOn ⟨_, _, _, hrest⟩
          obtain ⟨rfl, -, -⟩ := hrest.unique (hpath qs hqs)
          obtain ⟨ps, hps, heq⟩ := hg.bijOn.surjOn (a := (_, qs)) ⟨hx, hqs, hy ▸ hsame⟩
          exact ⟨ps, hps, by simp only [heq]⟩
      · intro c hc
        obtain ⟨hin, -, hpaths⟩ := hg.path c hc
        refine ⟨by simp [hin], fun ps hps => ?_⟩
        obtain ⟨h1, h2, h3⟩ := hpaths ps hps
        rw [h1, h2, h3]
        exact hlink _ (hg.bijOn.mapsTo (hc ▸ hps))

/-! ## What they define -/

theorem Chains.paths_bijOn {c : Composed W} {f : List ArcPtr → List (List ArcPtr)} (h : Chains xs c f) (i o : List Nat) :
    Set.BijOn f (c.paths i o) {pss | ∃ w, Chained xs pss i o w} ∧
      ∀ ps ∈ c.paths i o, Chained xs (f ps) i o (c.weight ps) := by
  cases c with
  | invalid =>
    refine ⟨⟨fun ps hps => hps.elim, fun ps hps => hps.elim, ?_⟩, fun ps hps => hps.elim⟩
    rintro pss ⟨w, hpss⟩
    exact h.bijOn.surjOn ⟨i, o, w, hpss⟩
  | valid x =>
    have hpath := (h.path x rfl).2
    have hchained : ∀ ps ∈ (Composed.valid x).paths i o, Chained xs (f ps) i o (x.pathWeight ps) := by
      rintro ps ⟨hps, rfl, rfl⟩
      exact hpath ps hps
    refine ⟨⟨fun ps hps => ⟨_, hchained ps hps⟩, fun ps hps ps' hps' => h.bijOn.injOn hps.1 hps'.1, ?_⟩, hchained⟩
    rintro pss ⟨w, hpss⟩
    obtain ⟨ps, hps, rfl⟩ := h.bijOn.surjOn ⟨i, o, w, hpss⟩
    obtain ⟨hi, ho, -⟩ := (hpath ps hps).unique hpss
    exact ⟨ps, ⟨hps, hi, ho⟩, rfl⟩

/-- **A chain composed from the left and from the right has one weighted relation**, in whichever modes: for each input
and output the accepting paths correspond, with their weights. -/
theorem composeLeft_composeRight (record' : Nat → Δ → Origin W → Δ × Nat) (indexThreshold' : Nat) (preserveGroups' : Bool)
    (γ : Γ) (δ : Δ) (x : Transducer W) (ys : List (Transducer W)) (i o : List Nat) :
    ∃ h, Set.BijOn h ((composeLeft record indexThreshold preserveGroups γ x ys).2.paths i o)
        ((composeRight record' indexThreshold' preserveGroups' δ x ys).2.paths i o) ∧
      ∀ ps ∈ (composeLeft record indexThreshold preserveGroups γ x ys).2.paths i o,
        (composeRight record' indexThreshold' preserveGroups' δ x ys).2.weight (h ps) =
          (composeLeft record indexThreshold preserveGroups γ x ys).2.weight ps := by
  obtain ⟨f, hf⟩ := composeLeft_chains record indexThreshold preserveGroups ys γ x
  obtain ⟨g, hg⟩ := composeRight_chains record' indexThreshold' preserveGroups' ys δ x
  obtain ⟨hfb, hfw⟩ := hf.paths_bijOn i o
  obtain ⟨hgb, hgw⟩ := hg.paths_bijOn i o
  have hinv := hgb.invOn_invFunOn
  have hback := Set.BijOn.symm hinv.symm hgb
  refine ⟨_, hback.comp hfb, fun ps hps => ?_⟩
  have hmem := hfb.mapsTo hps
  have hchained := hgw _ (hback.mapsTo hmem)
  rw [hinv.2 hmem] at hchained
  exact (hchained.unique (hfw ps hps)).2.2

/-- **The derivations of a training pair by a composed chain are the paths through the chain** with its input and output,
each once, where neither has a `*e*`; a composition that is invalid has none to miss. -/
theorem compute_chain (γ : Γ) (x : Transducer W) (ys : List (Transducer W)) {inp out : SymSeq} (hinp : epsilonIndex ∉ inp)
    (hout : epsilonIndex ∉ out) (prune : Bool) :
    ((composeLeft record indexThreshold preserveGroups γ x ys).2 = .invalid ∧ ∀ pss i o w, ¬ Chained (x :: ys) pss i o w) ∨
    ∃ c d, (composeLeft record indexThreshold preserveGroups γ x ys).2 = .valid c ∧
      compute c.toWfst inp out prune = some d ∧
      (d.noGoal = true ↔ ¬ ∃ pss w, Chained (x :: ys) pss inp out w) ∧
      (d.noGoal = false → ∃ f, Set.BijOn f {as | Trail (Numbering.arcsOf d.g) 0 as d.fin}
        {pss | ∃ w, Chained (x :: ys) pss inp out w}) := by
  obtain ⟨f, hf⟩ := composeLeft_chains record indexThreshold preserveGroups ys γ x
  cases hc : (composeLeft record indexThreshold preserveGroups γ x ys).2 with
  | invalid =>
    refine .inl ⟨rfl, fun pss i o w h => ?_⟩
    obtain ⟨_, hnone, -⟩ := (hc ▸ hf).bijOn.surjOn ⟨i, o, w, h⟩
    exact hnone
  | valid c =>
    obtain ⟨hchained, -⟩ := (hc ▸ hf).paths_bijOn inp out
    have hlaid := laying_bijOn (x := c.toWfst) fun ps hps => hps.laid_once hinp hout
    have hsame : {ps | Matching c.toWfst inp out ps} = (Composed.valid c).paths inp out := by
      unfold Matching
      rw [filterMap_nonEpsilon hinp, filterMap_nonEpsilon hout]
      rfl
    have hb := hchained.comp (hsame ▸ hlaid)
    obtain ⟨d, hd, hgoal, hlattice⟩ := compute_lattice c.toWfst inp out prune
    refine .inr ⟨c, d, rfl, hd, hgoal.trans (not_congr ⟨?_, ?_⟩), fun hno => ?_⟩
    · rintro ⟨ls, hls⟩
      exact ⟨_, hb.mapsTo hls⟩
    · rintro ⟨pss, hpss⟩
      obtain ⟨ls, hls, -⟩ := hb.surjOn hpss
      exact ⟨ls, hls⟩
    · obtain ⟨_, -, hpaths⟩ := (hlattice hno).paths
      exact ⟨_, hb.comp hpaths⟩

def twoLetters : Alphabet := ⟨["*e*", "a", "b"], by decide, rfl⟩

/-- Its only arc reads one letter and writes another. -/
def arcOn (i o : Fin 3) : Transducer Nat where
  states := [[⟨i, o, 1, 1, noGroup⟩], []]
  final := 1
  nonempty := by simp
  final_lt := by simp
  dest_lt := by simp
  inAlph := twoLetters
  outAlph := twoLetters
  inp_lt := by simp [twoLetters]
  out_lt := by simp [twoLetters]

/-- From `a` to `b` and from `b` to `a`: the pair of `a` and `a` has a derivation. -/
theorem compute_chain_back :
    ∃ c d, (composeLeft (fun _ _ _ => ((), noGroup)) 0 false () (arcOn 1 2) [arcOn 2 1]).2 = .valid c ∧
      compute c.toWfst [1] [1] true = some d ∧ d.noGoal = false ∧
      ∃ f, Set.BijOn f {as | Trail (Numbering.arcsOf d.g) 0 as d.fin}
        {pss | ∃ w, Chained [arcOn 1 2, arcOn 2 1] pss [1] [1] w} := by
  have haccepting : ∀ i o, (arcOn i o).Accepting [⟨0, 0⟩] := fun i o => .cons (p := ⟨0, 0⟩) rfl (.nil 1)
  have hchained : ∃ w, Chained [arcOn 1 2, arcOn 2 1] [[⟨0, 0⟩], [⟨0, 0⟩]] [1] [1] w :=
    ⟨_, .link (haccepting 1 2) (.single (haccepting 2 1)) rfl⟩
  have ha : epsilonIndex ∉ [1] := by decide
  rcases compute_chain (fun _ _ _ => ((), noGroup)) 0 false () (arcOn 1 2) [arcOn 2 1] ha ha true with
    ⟨-, hnone⟩ | ⟨c, d, hc, hd, hgoal, hpaths⟩
  · obtain ⟨w, hw⟩ := hchained
    exact absurd hw (hnone _ _ _ w)
  · have hno : d.noGoal = false := by
      by_contra h
      exact hgoal.1 (by simpa using h) ⟨_, hchained⟩
    exact ⟨c, d, hc, hd, hno, hpaths hno⟩

end Sbmt.Carmel
