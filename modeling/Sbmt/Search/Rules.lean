import Sbmt.Lib.Assoc
import Sbmt.Lib.Heap
/-!
# Rule maps (`sbmt/search/lazy/rules.hpp`)

| here | there |
| --- | --- |
| `Grammar` | the part of `grammar_in_mem` that `make_rulemap` reads |
| `Ruleset`, `Rulesetset`, `Rulemap` | `ruleset`, `rulesetset`, `rulemap`: rules by score, by rhs, by one side of the rhs |
| `insertScored` | insertion into `preruleset`, a `multimap` ordered by `gusc::greater` |

The containers extract the key of an element from its first rule; here the key stands beside the
element.  `rule_heuristic` of the edge factory is the argument `heuristic`.

The main result is `find_makeRulemap`: whichever side a map is keyed by, it finds under a pair of
roots exactly the rules with that right-hand side, in one order (`rulesWith`).
-/

namespace Sbmt.Search

open Sbmt.Lib Option

variable {Tok Rule S : Type} [DecidableEq Tok] [LinearOrder S]

structure Grammar (Tok Rule : Type) where
  allRules : List Rule
  ruleRhsSize : Rule → Nat
  ruleRhs : Rule → Nat → Tok
  /-- `rule_lhs(r).type() == top_token` -/
  lhsTop : Rule → Bool

inductive RhsSide where
  | left
  | right
deriving DecidableEq, Repr

abbrev Ruleset (Rule : Type) := List Rule

abbrev Rulesetset (Tok Rule : Type) := List ((Tok × Tok) × Ruleset Rule)

abbrev Rulemap (Tok Rule : Type) := List (Tok × Rulesetset Tok Rule)

variable (gram : Grammar Tok Rule)

def getRhs (r : Rule) : Tok × Tok := (gram.ruleRhs r 0, gram.ruleRhs r 1)

def getPartialRhs (side : RhsSide) (r : Rule) : Tok :=
  gram.ruleRhs r (match side with | .left => 0 | .right => 1)

/-- The side of a pair a map is keyed by. -/
def RhsSide.of (side : RhsSide) (pc : Tok × Tok) : Tok :=
  match side with
  | .left => pc.1
  | .right => pc.2

/-- `preruleset::insert`: behind the rules that score no less. -/
def insertScored (input : S × Rule) (prs : List (S × Rule)) : List (S × Rule) :=
  insertSorted (fun a b => decide (a.1 < b.1)) input prs

def getBestScore (prs : List (S × Rule)) : Option S := prs.head?.map Prod.fst

def lesserBestScore (a b : (Tok × Tok) × List (S × Rule)) : Bool :=
  match getBestScore a.2, getBestScore b.2 with
  | some x, some y => decide (x < y)
  | _, _ => false

variable (prss : List ((Tok × Tok) × List (S × Rule)))

/-- The walk over `prss.get<1>()`, best rule set first. -/
def byBestScore : List ((Tok × Tok) × List (S × Rule)) :=
  prss.foldr (insertSorted lesserBestScore) []

def makeRulesetset : Rulesetset Tok Rule :=
  (byBestScore prss).map fun e => (e.1, e.2.map Prod.snd)

/-- Is the rule one `make_rulemap` takes? -/
def taken (toplevelRules : Bool) (r : Rule) : Bool :=
  gram.ruleRhsSize r == 2 && gram.lhsTop r == toplevelRules

/-- The body of the loop of `make_rulemap`. -/
def insertRule (heuristic : Rule → S) (side : RhsSide) (toplevelRules : Bool)
    (prm : List (Tok × List ((Tok × Tok) × List (S × Rule)))) (r : Rule) :
    List (Tok × List ((Tok × Tok) × List (S × Rule))) :=
  if taken gram toplevelRules r then
    upsert (getPartialRhs gram side r)
      (fun prss => upsert (getRhs gram r) (fun prs => insertScored (heuristic r, r) (prs.getD [])) (prss.getD [])) prm
  else prm

def makeRulemap (heuristic : Rule → S) (side : RhsSide) (toplevelRules : Bool) :
    Rulemap Tok Rule :=
  (gram.allRules.foldl (insertRule gram heuristic side toplevelRules) []).map fun e => (e.1, makeRulesetset e.2)

/-! ## What a rule map finds -/

/-- The rules of `rs` with a right-hand side, with their scores, best first. -/
def scoredWith (heuristic : Rule → S) (toplevelRules : Bool) (rs : List Rule) (pc : Tok × Tok) :
    List (S × Rule) :=
  (rs.filter fun r => taken gram toplevelRules r && decide (getRhs gram r = pc)).foldl
    (fun prs r => insertScored (heuristic r, r) prs) []

def rulesWith (heuristic : Rule → S) (toplevelRules : Bool) (pc : Tok × Tok) : Ruleset Rule :=
  (scoredWith gram heuristic toplevelRules gram.allRules pc).map Prod.snd

/-- A container is there if something is in it. -/
def present {α : Type} (l : List α) : Option (List α) :=
  match l with
  | [] => none
  | a :: l => some (a :: l)

@[simp] theorem present_getD {α : Type} (l : List α) : (present l).getD [] = l := by cases l <;> rfl

theorem present_eq_some {α : Type} {l l' : List α} : present l = some l' ↔ l' = l ∧ l ≠ [] := by
  cases l <;> simp [present, eq_comm]

theorem present_of_ne {α : Type} {l : List α} (h : l ≠ []) : present l = some l := present_eq_some.mpr ⟨rfl, h⟩

theorem present_map {α β : Type} (f : α → β) (l : List α) : (present l).map (List.map f) = present (l.map f) := by
  cases l <;> rfl

omit [DecidableEq Tok] [LinearOrder S] in
theorem getPartialRhs_eq (side : RhsSide) (r : Rule) :
    getPartialRhs gram side r = side.of (getRhs gram r) := by cases side <;> rfl

omit [DecidableEq Tok] in
theorem byBestScore_perm : (byBestScore prss).Perm prss := by
  induction prss with
  | nil => exact .refl _
  | cons e prss ih => exact (insertSorted_perm _ e _).trans (ih.cons e)

theorem insertScored_ne_nil (input : S × Rule) (prs : List (S × Rule)) : insertScored input prs ≠ [] := fun h => by
  have := (insertSorted_perm (fun a b : S × Rule => decide (a.1 < b.1)) input prs).length_eq
  rw [← insertScored, h] at this
  cases this

variable {gram : Grammar Tok Rule} {heuristic : Rule → S} {side : RhsSide} {toplevelRules : Bool} {rs : List Rule}
  {prm : List (Tok × List ((Tok × Tok) × List (S × Rule)))}

theorem scoredWith_concat (r : Rule) (pc : Tok × Tok) : scoredWith gram heuristic toplevelRules (rs ++ [r]) pc =
    if taken gram toplevelRules r && decide (getRhs gram r = pc) then
      insertScored (heuristic r, r) (scoredWith gram heuristic toplevelRules rs pc)
    else scoredWith gram heuristic toplevelRules rs pc := by
  split
  · rename_i h; simp [h, scoredWith]
  · rename_i h; simp [h, scoredWith]

/-- What the loop has collected after the rules `rs`. -/
structure Collected (gram : Grammar Tok Rule) (heuristic : Rule → S) (side : RhsSide) (toplevelRules : Bool)
    (rs : List Rule) (prm : List (Tok × List ((Tok × Tok) × List (S × Rule)))) : Prop where
  keys : ∀ tok prss, find tok prm = some prss → (prss.map Prod.fst).Nodup ∧ ∀ e ∈ prss, side.of e.1 = tok
  found : ∀ pc, (find (side.of pc) prm).bind (find pc) = present (scoredWith gram heuristic toplevelRules rs pc)

theorem Collected.insert (h : Collected gram heuristic side toplevelRules rs prm) (r : Rule) :
    Collected gram heuristic side toplevelRules (rs ++ [r]) (insertRule gram heuristic side toplevelRules prm r) := by
  unfold insertRule
  by_cases ht : taken gram toplevelRules r = true
  · simp only [ht, if_true, getPartialRhs_eq]
    have hkeys : (((find (side.of (getRhs gram r)) prm).getD []).map Prod.fst).Nodup ∧
        ∀ e ∈ (find (side.of (getRhs gram r)) prm).getD [], side.of e.1 = side.of (getRhs gram r) := by
      cases hl : find (side.of (getRhs gram r)) prm with
      | none => simp
      | some prss => exact h.keys _ prss hl
    refine ⟨fun tok prss hl => ?_, fun pc => ?_⟩
    · rw [find_upsert] at hl
      by_cases htok : tok = side.of (getRhs gram r)
      · simp only [htok, if_true, Option.some.injEq] at hl
        subst hl
        refine ⟨nodup_keys_upsert _ hkeys.1, fun e he => ?_⟩
        rcases (mem_keys_upsert _).mp (List.mem_map_of_mem he) with heq | hmem
        · rw [heq, htok]
        · obtain ⟨e', he', heq⟩ := List.mem_map.mp hmem
          rw [← heq, htok]
          exact hkeys.2 e' he'
      · simp only [htok, if_false] at hl
        exact h.keys tok prss hl
    · rw [scoredWith_concat, find_upsert]
      have hl := h.found pc
      by_cases hpc : getRhs gram r = pc
      · subst hpc
        simp only [if_true, bind_some, find_upsert, ht, decide_true, Bool.and_self]
        rw [present_of_ne (insertScored_ne_nil _ _), ← present_getD (scoredWith _ _ _ _ _), ← hl]
        cases find (side.of (getRhs gram r)) prm <;> rfl
      · simp only [ht, hpc, decide_false, Bool.and_false, Bool.false_eq_true, if_false, ← hl]
        by_cases htok : side.of pc = side.of (getRhs gram r)
        · simp only [htok, if_true, bind_some, find_upsert, Ne.symm hpc, if_false]
          cases find (side.of (getRhs gram r)) prm <;> rfl
        · simp only [htok, if_false]
  · have ht' : taken gram toplevelRules r = false := Bool.eq_false_iff.mpr ht
    refine ⟨by simpa [ht'] using h.keys, fun pc => ?_⟩
    simp only [scoredWith_concat, ht', Bool.false_and, Bool.false_eq_true, if_false, h.found]

variable (gram : Grammar Tok Rule)

/-- The loop over all rules. -/
theorem collected (heuristic : Rule → S) (side : RhsSide) (toplevelRules : Bool) :
    Collected gram heuristic side toplevelRules gram.allRules
      (gram.allRules.foldl (insertRule gram heuristic side toplevelRules) []) := by
  suffices h : ∀ (rs' : List Rule) {rs prm}, Collected gram heuristic side toplevelRules rs prm →
      Collected gram heuristic side toplevelRules (rs ++ rs')
        (rs'.foldl (insertRule gram heuristic side toplevelRules) prm) by
    have hstart : Collected gram heuristic side toplevelRules [] [] :=
      ⟨by simp [find], by simp [scoredWith, present, find]⟩
    simpa using h gram.allRules hstart
  intro rs'
  induction rs' with
  | nil => exact fun h => by simpa using h
  | cons r rs' ih =>
    intro rs prm h
    have := ih (h.insert r)
    rwa [List.append_assoc] at this

variable {prss} in
theorem find_makeRulesetset (h : (prss.map Prod.fst).Nodup) (pc : Tok × Tok) :
    find pc (makeRulesetset prss) = (find pc prss).map (List.map Prod.snd) := by
  rw [makeRulesetset, find_map, find_perm (byBestScore_perm prss) h]

variable (heuristic side toplevelRules) in
/-- **Under a pair of roots a rule map finds exactly the rules with that right-hand side**, whichever side it
is keyed by. -/
theorem find_makeRulemap
    (pc : Tok × Tok) : (find (side.of pc) (makeRulemap gram heuristic side toplevelRules)).bind (find pc) =
      present (rulesWith gram heuristic toplevelRules pc) := by
  have h := collected gram heuristic side toplevelRules
  rw [makeRulemap, find_map, rulesWith, ← present_map, ← h.found]
  cases hl : find (side.of pc) (gram.allRules.foldl (insertRule gram heuristic side toplevelRules) []) with
  | none => rfl
  | some prss => exact find_makeRulesetset (h.keys _ prss hl).1 pc

/-- The rule sets under one root have distinct right-hand sides, all with that root. -/
theorem keys_makeRulemap {tok : Tok} {rss : Rulesetset Tok Rule}
    (hl : find tok (makeRulemap gram heuristic side toplevelRules) = some rss) :
    (rss.map Prod.fst).Nodup ∧ ∀ e ∈ rss, side.of e.1 = tok := by
  have h := collected gram heuristic side toplevelRules
  rw [makeRulemap, find_map] at hl
  obtain ⟨prss, hprss, rfl⟩ := map_eq_some_iff.mp hl
  obtain ⟨hn, hk⟩ := h.keys tok prss hprss
  have hperm := byBestScore_perm prss
  have hmap : (makeRulesetset prss).map Prod.fst = (byBestScore prss).map Prod.fst := by
    rw [makeRulesetset, List.map_map]; rfl
  refine ⟨by rw [hmap]; exact (hperm.map _).nodup_iff.mpr hn, fun e he => ?_⟩
  obtain ⟨e', he', rfl⟩ := List.mem_map.mp he
  exact hk e' (hperm.mem_iff.mp he')

theorem rulesWith_perm (heuristic : Rule → S) (toplevelRules : Bool) (pc : Tok × Tok) :
    (rulesWith gram heuristic toplevelRules pc).Perm
      (gram.allRules.filter fun r => taken gram toplevelRules r && decide (getRhs gram r = pc)) := by
  have h : ∀ (rs : List Rule) (prs : List (S × Rule)),
      ((rs.foldl (fun prs r => insertScored (heuristic r, r) prs) prs).map Prod.snd).Perm (rs ++ prs.map Prod.snd) := by
    intro rs
    induction rs with
    | nil => exact fun _ => .refl _
    | cons r rs ih =>
      intro prs
      refine (ih _).trans (.trans ?_ List.perm_middle)
      exact ((insertSorted_perm _ (heuristic r, r) prs).map Prod.snd).append_left rs
  have := h (gram.allRules.filter fun r => taken gram toplevelRules r && decide (getRhs gram r = pc)) []
  rwa [List.map_nil, List.append_nil] at this

end Sbmt.Search
