import Sbmt.Lib.Greatest
import Sbmt.Lib.Heap
/-!
# The alternatives of an equivalence class (`sbmt_decoder/include/sbmt/edge/impl/edge_equivalence.ipp`)

A class keeps its best edge as the representative, and up to `edge_equiv_max() - 1` others in `m_alts`, a
vector that the heap algorithms order by `worse_score`.

| here | there |
| --- | --- |
| `AltEdge` | `alt_edge` (`edge_equivalence.ipp:83-98`); what else an edge holds is the same throughout a class |
| `edgeEquivMax` | `max_edges_per_equivalence`, `edge_equiv_max` (`:66-82`): cut to 32 bits, and without limit for the top token |
| `Impl.edges` | `begin` to `end`: the representative, then `m_alts` (`:345-354`) |

`m_alts[0]` is read as the worst alternative and is what `pop_heap` moves out of the way, but under
`worse_score` a heap has its best in front.  `GivesUpWorst` says when the two agree all the same.
-/

namespace Sbmt.Edge

open Sbmt.Lib List

variable {K C : Type}

structure AltEdge (K C : Type) where
  child : Option C × Option C
  inside : K
  ruleId : Nat

/-- What `edge_equiv_max` looks at: `max_equivalents`, and whether the root is the top token. -/
structure Limits where
  maxEquivalents : Nat
  top : Bool

/-- `max_edges_per_equivalence(x)`. -/
def maxEdgesPerEquivalence (x : Nat) (top : Bool) : Limits := ⟨if x = 0 then 2 ^ 32 - 1 else x, top⟩

def edgeEquivMax (limits : Limits) : UInt32 :=
  if limits.top then UInt32.ofNat (2 ^ 32 - 1) else UInt32.ofNat limits.maxEquivalents

structure Impl (K C : Type) where
  limits : Limits
  rep : Option (AltEdge K C)
  alts : List (AltEdge K C)

/-- The default constructor. -/
def Impl.empty (limits : Limits) : Impl K C := ⟨limits, none, []⟩

section

variable [LinearOrder K] (H : HeapAlg)

def worseScore (e₁ e₂ : AltEdge K C) : Bool := decide (e₁.inside < e₂.inside)

namespace Impl

variable (c : Impl K C)

def altsFull : Bool := decide ((edgeEquivMax c.limits - 1).toNat ≤ c.alts.length)

def insertEdge (e : AltEdge K C) : Impl K C :=
  match c.rep with
  | none => { c with rep := some e }
  | some rep =>
    if rep.inside < e.inside then
      if 1 < edgeEquivMax c.limits then
        if c.altsFull then { c with alts := H.pop worseScore c.alts ++ [rep], rep := some e }
        else { c with alts := c.alts ++ [rep], rep := some e }
      else { c with rep := some e }
    else if edgeEquivMax c.limits = 1 then c
    else if c.altsFull then
      match c.alts with
      | [] => c
      | worst :: _ =>
        if worst.inside < e.inside then { c with alts := H.push worseScore e (H.pop worseScore c.alts) } else c
    else { c with alts := H.push worseScore e c.alts }

def edges : List (AltEdge K C) :=
  match c.rep with
  | none => []
  | some rep => rep :: c.alts

def insertAll (es : List (AltEdge K C)) : Impl K C := es.foldl (insertEdge H) c

def merge (c other : Impl K C) : Impl K C := c.insertAll H other.edges

end Impl

/-- What a class is asked to do. -/
inductive Call (K C : Type) where
  | insertEdge (e : AltEdge K C)
  | merge (other : Impl K C)

def Call.offers : Call K C → List (AltEdge K C)
  | insertEdge e => [e]
  | merge other => other.edges

def Impl.call (c : Impl K C) : Call K C → Impl K C
  | .insertEdge e => c.insertEdge H e
  | .merge other => c.merge H other

def Impl.run (c : Impl K C) (calls : List (Call K C)) : Impl K C := calls.foldl (Impl.call H) c

theorem Impl.run_eq (calls : List (Call K C)) : ∀ c : Impl K C,
    c.run H calls = c.insertAll H (calls.flatMap Call.offers) := by
  induction calls with
  | nil => exact fun _ => rfl
  | cons call calls ih =>
    intro c
    rw [flatMap_cons, Impl.insertAll, foldl_append]
    cases call with
    | insertEdge e => exact ih _
    | merge other => exact ih _

end

namespace Impl

variable (es : List (AltEdge K C))

/-- The inside scores of some edges. -/
def scores : Multiset K := (es.map AltEdge.inside : List K)

@[simp] theorem scores_cons (e : AltEdge K C) (es : List (AltEdge K C)) : scores (e :: es) = e.inside ::ₘ scores es := rfl

theorem scores_perm {es es' : List (AltEdge K C)} (h : es.Perm es') : scores es = scores es' :=
  Multiset.coe_eq_coe.mpr (h.map AltEdge.inside)

theorem scores_concat (e : AltEdge K C) : scores (es ++ [e]) = e.inside ::ₘ scores es :=
  scores_perm (perm_append_singleton e es)

theorem card_scores : (scores es).card = es.length := by simp [scores]

theorem forall_mem_scores {P : K → Prop} {es : List (AltEdge K C)} : (∀ x ∈ scores es, P x) ↔ ∀ e ∈ es, P e.inside := by
  simp [scores]

variable [LinearOrder K] {H : HeapAlg} {c : Impl K C} {e rep worst : AltEdge K C} {alts offered : List (AltEdge K C)}
  {limits : Limits}

/-- The class is as good as can be: it keeps the best of what it was offered, and the representative is best of all. -/
structure KeepsBest (c : Impl K C) (offered : List (AltEdge K C)) : Prop where
  kept : scores c.edges = greatest (edgeEquivMax c.limits).toNat (scores offered)
  rep : ∀ rep ∈ c.rep, ∀ e ∈ offered, e.inside ≤ rep.inside

/-- What goes when the class is full is the worst: the alternative in front is the least of them, unless the new edge is
no better than any. -/
def GivesUpWorst (c : Impl K C) (e : AltEdge K C) : Prop :=
  c.altsFull = true →
    (∀ worst ∈ c.alts.head?, ∀ a ∈ c.alts, worst.inside ≤ a.inside) ∨ ∀ a ∈ c.alts, e.inside ≤ a.inside

variable (c e) in
@[simp] theorem insertEdge_limits : (c.insertEdge H e).limits = c.limits := by
  unfold insertEdge
  repeat' split
  all_goals rfl

/-- The representative after an insertion: the better of the old one and the new edge. -/
theorem insertEdge_rep : (insertEdge H ⟨limits, some rep, alts⟩ e).rep = some (if rep.inside < e.inside then e else rep) := by
  unfold insertEdge
  dsimp only
  repeat' split
  all_goals rfl

theorem ne_one_of_lt {m : UInt32} (h : 1 < m) : m ≠ 1 := by
  rintro rfl
  exact absurd h (by decide)

/-- With room left the new edge is kept with the others. -/
theorem insertEdge_of_room (hmax : 1 < edgeEquivMax limits) (hroom : altsFull ⟨limits, some rep, alts⟩ = false) :
    scores (insertEdge H ⟨limits, some rep, alts⟩ e).edges = e.inside ::ₘ scores (rep :: alts) := by
  have hne := ne_one_of_lt hmax
  by_cases hlt : rep.inside < e.inside
  · have hins : insertEdge H ⟨limits, some rep, alts⟩ e = ⟨limits, some e, alts ++ [rep]⟩ := by
      simp [insertEdge, hlt, hmax, hroom]
    rw [hins]
    exact congrArg (e.inside ::ₘ ·) (scores_concat alts rep)
  · have hins : insertEdge H ⟨limits, some rep, alts⟩ e = ⟨limits, some rep, H.push worseScore e alts⟩ := by
      simp [insertEdge, hlt, hne, hroom]
    rw [hins]
    show rep.inside ::ₘ scores (H.push worseScore e alts) = _
    rw [scores_perm (H.push_perm worseScore e alts), scores_cons]
    exact Multiset.cons_swap _ _ _

/-- Without room one score goes: that of the alternative in front if the new edge beats it, else the new edge's. -/
theorem insertEdge_of_full (hmax : 1 < edgeEquivMax limits) (hfull : altsFull ⟨limits, some rep, worst :: alts⟩ = true)
    (hworst : worst.inside ≤ rep.inside) :
    scores (insertEdge H ⟨limits, some rep, worst :: alts⟩ e).edges =
      (e.inside ::ₘ scores (rep :: worst :: alts)).erase (min worst.inside e.inside) := by
  have hne := ne_one_of_lt hmax
  have hpop : scores (H.pop worseScore (worst :: alts)) = scores alts := scores_perm (H.pop_perm worseScore worst alts)
  -- what is left when the alternative in front goes
  have hleft : (e.inside ::ₘ scores (rep :: worst :: alts)).erase worst.inside = e.inside ::ₘ rep.inside ::ₘ scores alts := by
    rw [scores_cons, scores_cons, Multiset.cons_swap rep.inside, Multiset.cons_swap e.inside, Multiset.erase_cons_head]
  by_cases hlt : rep.inside < e.inside
  · have hins : insertEdge H ⟨limits, some rep, worst :: alts⟩ e =
        ⟨limits, some e, H.pop worseScore (worst :: alts) ++ [rep]⟩ := by
      simp [insertEdge, hlt, hmax, hfull]
    rw [hins, min_eq_left (hworst.trans hlt.le), hleft]
    show e.inside ::ₘ scores (H.pop worseScore (worst :: alts) ++ [rep]) = _
    rw [scores_concat, hpop]
  · by_cases hbeats : worst.inside < e.inside
    · have hins : insertEdge H ⟨limits, some rep, worst :: alts⟩ e =
          ⟨limits, some rep, H.push worseScore e (H.pop worseScore (worst :: alts))⟩ := by
        simp [insertEdge, hlt, hne, hfull, hbeats]
      rw [hins, min_eq_left hbeats.le, hleft]
      show rep.inside ::ₘ scores (H.push worseScore e (H.pop worseScore (worst :: alts))) = _
      rw [scores_perm (H.push_perm worseScore e _), scores_cons, hpop]
      exact Multiset.cons_swap _ _ _
    · have hins : insertEdge H ⟨limits, some rep, worst :: alts⟩ e = ⟨limits, some rep, worst :: alts⟩ := by
        simp [insertEdge, hlt, hne, hfull, hbeats]
      rw [hins, min_eq_right (not_lt.mp hbeats), Multiset.erase_cons_head]
      rfl

/-- A class of one edge keeps the better one. -/
theorem insertEdge_of_one (hmax : edgeEquivMax limits = 1) :
    scores (insertEdge H ⟨limits, some rep, []⟩ e).edges = (e.inside ::ₘ scores [rep]).erase (min rep.inside e.inside) := by
  by_cases hlt : rep.inside < e.inside
  · have hins : insertEdge H ⟨limits, some rep, []⟩ e = ⟨limits, some e, []⟩ := by
      simp [insertEdge, hlt, hmax]
    rw [hins, min_eq_left hlt.le, scores_cons, Multiset.cons_swap, Multiset.erase_cons_head]
    rfl
  · have hins : insertEdge H ⟨limits, some rep, []⟩ e = ⟨limits, some rep, []⟩ := by
      simp [insertEdge, hlt, hmax]
    rw [hins, min_eq_right (not_lt.mp hlt), Multiset.erase_cons_head]
    rfl

/-- The representative after an insertion is best of all that was offered. -/
theorem KeepsBest.rep_insertEdge (h : KeepsBest ⟨limits, some rep, alts⟩ offered) :
    ∀ r ∈ (insertEdge H ⟨limits, some rep, alts⟩ e).rep, ∀ e' ∈ offered ++ [e], e'.inside ≤ r.inside := by
  have hold := h.rep rep rfl
  intro r hr e' he'
  rw [insertEdge_rep, Option.mem_some_iff] at hr
  subst hr
  rcases mem_append.mp he' with he' | he'
  · split
    · rename_i hlt
      exact (hold e' he').trans hlt.le
    · exact hold e' he'
  · rw [mem_singleton.mp he']
    split
    · exact le_rfl
    · rename_i hlt
      exact not_lt.mp hlt

theorem KeepsBest.alts_le (h : KeepsBest ⟨limits, some rep, alts⟩ offered) : ∀ a ∈ alts, a.inside ≤ rep.inside := by
  have hall : ∀ x ∈ scores offered, x ≤ rep.inside := forall_mem_scores.mpr (h.rep rep rfl)
  have hkept : ∀ x ∈ scores (rep :: alts), x ≤ rep.inside :=
    fun x hx => hall x (Multiset.mem_of_le (greatest_le _ _) (h.kept ▸ hx))
  exact fun a ha => forall_mem_scores.mp hkept a (mem_cons_of_mem rep ha)

section

theorem keepsBest_empty : KeepsBest (empty limits : Impl K C) [] :=
  ⟨(greatest_of_card_le (Nat.zero_le _)).symm, fun _ h => by cases h⟩

variable (hk : 1 ≤ (edgeEquivMax limits).toNat)
include hk

omit [LinearOrder K] in
theorem altsFull_iff : altsFull ⟨limits, some rep, alts⟩ = true ↔ (edgeEquivMax limits).toNat ≤ alts.length + 1 := by
  have hle : (1 : UInt32) ≤ edgeEquivMax limits := UInt32.le_iff_toNat_le.mpr hk
  rw [altsFull, decide_eq_true_iff, UInt32.toNat_sub_of_le _ _ hle]
  exact Nat.sub_le_iff_le_add

/-- **One insertion**: a class that is as good as can be stays so exactly if what it gives up is its worst. -/
theorem KeepsBest.insertEdge_iff (h : KeepsBest ⟨limits, some rep, alts⟩ offered) :
    KeepsBest (insertEdge H ⟨limits, some rep, alts⟩ e) (offered ++ [e]) ↔ GivesUpWorst ⟨limits, some rep, alts⟩ e := by
  obtain ⟨k, hkdef⟩ : ∃ k, k = (edgeEquivMax limits).toNat := ⟨_, rfl⟩
  have hkept : scores (rep :: alts) = greatest k (scores offered) := hkdef ▸ h.kept
  have hsize : (greatest k (scores offered)).card = alts.length + 1 := by
    rw [← hkept, card_scores, length_cons]
  have hsizek : alts.length + 1 ≤ k := by
    rw [← hsize, card_greatest]
    exact min_le_left _ _
  -- only what is kept is in question
  have hstep : KeepsBest (insertEdge H ⟨limits, some rep, alts⟩ e) (offered ++ [e]) ↔
      scores (insertEdge H ⟨limits, some rep, alts⟩ e).edges = greatest k (e.inside ::ₘ scores offered) := by
    rw [← scores_concat, hkdef]
    constructor
    · intro h'
      have := h'.kept
      rwa [insertEdge_limits] at this
    · intro h'
      exact ⟨by rwa [insertEdge_limits], h.rep_insertEdge⟩
  have hfull : altsFull ⟨limits, some rep, alts⟩ = true ↔ _ := altsFull_iff hk
  rw [hstep]
  rcases Nat.lt_or_ge (alts.length + 1) k with hlt | hge
  · have hroom : altsFull ⟨limits, some rep, alts⟩ = false := by
      rw [Bool.eq_false_iff]
      exact fun h' => absurd (hfull.mp h') (by omega)
    have hmax : 1 < edgeEquivMax limits := UInt32.lt_iff_toNat_lt.mpr (by
      rw [← hkdef]; exact Nat.lt_of_le_of_lt (Nat.le_add_left 1 _) hlt)
    rw [insertEdge_of_room hmax hroom, hkept, cons_greatest (by rwa [hsize])]
    exact iff_of_true rfl fun h' => absurd h' (by simp [hroom])
  · have hcard : (greatest k (scores offered)).card = k := hsize.trans (le_antisymm hsizek hge)
    have hfull' : altsFull ⟨limits, some rep, alts⟩ = true := hfull.mpr (hkdef ▸ hge)
    cases alts with
    | nil =>
      have hone : edgeEquivMax limits = 1 := UInt32.toNat_inj.mp (hkdef ▸ le_antisymm hge hsizek)
      rw [insertEdge_of_one hone, hkept, erase_eq_greatest_iff hcard]
      · refine iff_of_true (fun x hx => ?_) fun _ => .inl fun worst hw => by cases hw
        rw [← hkept] at hx
        simp only [scores_cons, Multiset.mem_cons] at hx
        rcases hx with rfl | rfl | hx
        · exact min_le_right _ _
        · exact min_le_left _ _
        · simp [scores] at hx
      · rw [← hkept]
        rcases min_choice rep.inside e.inside with h' | h' <;> simp [h']
    | cons worst alts =>
      have hmax : 1 < edgeEquivMax limits := by
        refine UInt32.lt_iff_toNat_lt.mpr (hkdef ▸ ?_)
        exact Nat.lt_of_lt_of_le (by simp) hsizek
      have hworst := h.alts_le worst mem_cons_self
      rw [insertEdge_of_full hmax hfull' hworst, hkept, erase_eq_greatest_iff hcard]
      · rw [← hkept, ← scores_cons, forall_mem_scores, forall_mem_cons, forall_mem_cons]
        constructor
        · rintro ⟨-, -, hleast⟩ -
          rcases min_choice worst.inside e.inside with h' | h'
          · exact .inl fun w hw a ha => by cases hw; exact h' ▸ hleast a ha
          · exact .inr fun a ha => h' ▸ hleast a ha
        · intro hup
          refine ⟨min_le_right _ _, (min_le_left _ _).trans hworst, fun a ha => ?_⟩
          rcases hup hfull' with hup | hup
          · exact (min_le_left _ _).trans (hup worst rfl a ha)
          · exact (min_le_right _ _).trans (hup a ha)
      · rw [← hkept]
        rcases min_choice worst.inside e.inside with h' | h' <;> simp [h']

theorem keepsBest_first : KeepsBest ((empty limits).insertEdge H e) [e] where
  kept := (greatest_of_card_le (by rwa [card_scores])).symm
  rep r hr e' he' := by
    cases hr
    rw [mem_singleton.mp he']

variable (c e) in
omit hk in
theorem insertEdge_rep_isSome : (c.insertEdge H e).rep.isSome := by
  obtain ⟨limits, rep, alts⟩ := c
  cases rep with
  | none => rfl
  | some rep => rw [insertEdge_rep]; rfl

omit hk in
@[simp] theorem insertAll_concat (c : Impl K C) (es : List (AltEdge K C)) (e : AltEdge K C) :
    c.insertAll H (es ++ [e]) = (c.insertAll H es).insertEdge H e := foldl_concat _ _ _ _

omit hk in
@[simp] theorem insertAll_limits (c : Impl K C) (es : List (AltEdge K C)) : (c.insertAll H es).limits = c.limits := by
  induction es using List.reverseRecOn with
  | nil => rfl
  | append_singleton es e ih => rw [insertAll_concat, insertEdge_limits, ih]

/-- One insertion, wherever a run has come to. -/
theorem keepsBest_concat_iff (h : KeepsBest ((empty limits).insertAll H offered) offered) :
    KeepsBest ((empty limits).insertAll H (offered ++ [e])) (offered ++ [e]) ↔
      GivesUpWorst ((empty limits).insertAll H offered) e := by
  rw [insertAll_concat]
  induction offered using List.reverseRecOn with
  | nil => exact iff_of_true (keepsBest_first hk) fun _ => .inr fun a ha => absurd ha not_mem_nil
  | append_singleton es last =>
    obtain ⟨c, hc⟩ : ∃ c, c = (empty limits).insertAll H (es ++ [last]) := ⟨_, rfl⟩
    have hlimits : c.limits = limits := by rw [hc, insertAll_limits]; rfl
    have hrep : c.rep.isSome := by rw [hc, insertAll_concat]; exact insertEdge_rep_isSome _ last
    obtain ⟨rep, hrep⟩ := Option.isSome_iff_exists.mp hrep
    rw [← hc] at h ⊢
    obtain ⟨limits', rep', alts⟩ := c
    subst hlimits hrep
    exact h.insertEdge_iff hk

end

/-- **A class keeps the best of what it is offered, and the best of all in front, after every insertion of a run of calls
exactly if each insertion gives up the worst.** -/
theorem keepsBest_iff (H : HeapAlg) (limits : Limits) (hk : 1 ≤ (edgeEquivMax limits).toNat) (calls : List (Call K C)) :
    (empty limits).run H calls = (empty limits).insertAll H (calls.flatMap Call.offers) ∧
    ((∀ offered, offered <+: calls.flatMap Call.offers → KeepsBest ((empty limits).insertAll H offered) offered) ↔
      ∀ offered e, offered ++ [e] <+: calls.flatMap Call.offers →
        GivesUpWorst ((empty limits).insertAll H offered) e) := by
  refine ⟨run_eq H calls _, ?_, ?_⟩
  · intro h offered e hpre
    exact (keepsBest_concat_iff hk (h offered ((prefix_append _ _).trans hpre))).mp (h _ hpre)
  · intro h offered
    induction offered using List.reverseRecOn with
    | nil => exact fun _ => keepsBest_empty
    | append_singleton offered e ih =>
      intro hpre
      exact (keepsBest_concat_iff hk (ih ((prefix_append _ _).trans hpre))).mpr (h offered e hpre)

/-- With one alternative at most there is nothing to choose from: limits one and two are kept to. -/
theorem givesUpWorst_of_length_le_one (h : c.alts.length ≤ 1) : GivesUpWorst c e := by
  intro _
  match halts : c.alts with
  | [] => exact .inr fun a ha => absurd ha not_mem_nil
  | [a] => exact .inl fun w hw a' ha' => by cases hw; rw [mem_singleton.mp ha']
  | _ :: _ :: _ => simp [halts] at h

section

/-- An edge of no children. -/
def leaf (inside : Nat) : AltEdge Nat Unit := ⟨(none, none), inside, 0⟩

/-- At most two edges to a class. -/
def twoEdges : Limits := maxEdgesPerEquivalence 2 false

/-- 4 and 5 have to go. -/
theorem keepsBest_iff_twoEdges :
    KeepsBest ((empty twoEdges).insertAll HeapAlg.sorted [leaf 5, leaf 10, leaf 4, leaf 7])
      [leaf 5, leaf 10, leaf 4, leaf 7] := by
  refine ((keepsBest_iff HeapAlg.sorted twoEdges (by decide)
    [.insertEdge (leaf 5), .merge ⟨twoEdges, some (leaf 10), [leaf 4]⟩, .insertEdge (leaf 7)]).2.mpr ?_) _ prefix_rfl
  intro offered e hpre
  have hlength : offered.length < 4 := by simpa [Call.offers, edges] using hpre.length_le
  have hoffered : offered = [leaf 5, leaf 10, leaf 4, leaf 7].take offered.length :=
    prefix_iff_eq_take.mp ((prefix_append _ _).trans hpre)
  refine givesUpWorst_of_length_le_one ?_
  rw [hoffered]
  generalize offered.length = i at hlength
  interval_cases i <;> decide

/-- At most three edges to a class. -/
def threeEdges : Limits := maxEdgesPerEquivalence 3 false

/-- 7 comes to a full class of 10, 5 and 4, and what goes is 5. -/
theorem not_keepsBest_seven :
    ¬ KeepsBest ((empty threeEdges).run HeapAlg.sorted
        [.insertEdge (leaf 10), .insertEdge (leaf 5), .insertEdge (leaf 4), .insertEdge (leaf 7)])
      [leaf 10, leaf 5, leaf 4, leaf 7] := by
  intro h
  have hkept := others_le_greatest (edgeEquivMax threeEdges).toNat (scores [leaf 10, leaf 5, leaf 4, leaf 7])
  rw [show greatest (edgeEquivMax threeEdges).toNat (scores [leaf 10, leaf 5, leaf 4, leaf 7]) = _ from h.kept.symm] at hkept
  exact absurd hkept (by decide)

end

end Impl

end Sbmt.Edge
