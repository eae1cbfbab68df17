import Sbmt.Carmel.ComposePaths

/-!
# cascade_parameters: which original arcs a composed arc is made of

| here | there |
| --- | --- |
| `Param` | a `param`, the pointer to an arc of one of the transducers that were composed (`carmel/src/cascade.h:254-266`) |
| `CascadeParameters` | `chains` and `epsilon_chains` (`:259`, `:282-284`); a shared list is a list |
| `Prepared` | `is_chain`, and which transducers the operands are (`:541-567`) |
| `Composing.compose` | one round of the composition loop (`carmel/src/carmel.cc:1478-1548`), with `done_composing` (`:743-750`) |

A trivial cascade is not modelled. `used` is not in the source: it is the list
of the original arcs a composed arc was made of, over all compositions.
-/

namespace Sbmt.Carmel

open Sbmt.Lib List

variable {W : Type}

structure Param where
  xid : Nat
  ptr : ArcPtr
deriving DecidableEq

structure CascadeParameters where
  chains : List (List Param)
  epsilonChains : List (Param × Nat)

/-- The id of the empty chain is that of the locked group. -/
def nilChain : Nat := lockedGroup

/-- For each operand, the number of the transducer, or none if its arcs have chains. -/
structure Prepared where
  first : Option Nat
  second : Option Nat

def isLocked (x : FSTArc W) : Bool := x.groupId == lockedGroup

section Record

variable [One W] [DecidableEq W]

def isLocked1 (x : FSTArc W) : Bool := isLocked x && decide (x.weight = 1)

variable (cascade : List (Transducer W))

/-- The arc a pointer points to. -/
def arcOf (q : Param) : Option (FSTArc W) := (cascade[q.xid]?).bind fun x => x.arc? q.ptr

def originalWeight (q : Param) : W := ((arcOf cascade q).map FSTArc.weight).getD 1

def lockedParam (q : Param) : Bool := (arcOf cascade q).any isLocked

def locked1Param (q : Param) : Bool := (arcOf cascade q).any isLocked1

variable (cascade : List (Transducer W))

def cons (q : Param) (cdr : List Param) : List Param := if locked1Param cascade q then cdr else q :: cdr

def consChain (is : Prepared) (γ : CascadeParameters) (l r : HalfArc W) : List Param :=
  match is.first, is.second with
  | none, none =>
    (γ.chains.getD l.arc.groupId []).foldl (fun cdr q => cons cascade q cdr) (γ.chains.getD r.arc.groupId [])
  | none, some xid => cons cascade ⟨xid, r.ptr⟩ (γ.chains.getD l.arc.groupId [])
  | some xid, none => cons cascade ⟨xid, l.ptr⟩ (γ.chains.getD r.arc.groupId [])
  | some xid, some xid' => cons cascade ⟨xid, l.ptr⟩ (cons cascade ⟨xid', r.ptr⟩ [])

/-- A chain that is not empty gets an id. -/
def pushChain (γ : CascadeParameters) (v : List Param) : CascadeParameters × Nat :=
  if v = [] then (γ, nilChain) else ({ γ with chains := γ.chains ++ [v] }, γ.chains.length)

/-- The id of an arc that is composed with nothing; one id for all uses of an original arc. -/
def recordEps (γ : CascadeParameters) (e : HalfArc W) : Option Nat → CascadeParameters × Nat
  | none => (γ, if isLocked1 e.arc then nilChain else e.arc.groupId)
  | some xid =>
    match find ⟨xid, e.ptr⟩ γ.epsilonChains with
    | some id => (γ, id)
    | none =>
      let r := pushChain γ (cons cascade ⟨xid, e.ptr⟩ [])
      ({ r.1 with epsilonChains := upsert ⟨xid, e.ptr⟩ (fun _ => r.2) γ.epsilonChains }, r.2)

def record (is : Prepared) (γ : CascadeParameters) : Origin W → CascadeParameters × Nat
  | .left l => recordEps cascade γ l is.first
  | .right r => recordEps cascade γ r is.second
  | .both l r => pushChain γ (consChain cascade is γ l r)

end Record

/-! ## Arcs rewritten in place -/

variable (x : Transducer W)

/-- The same transducer with other weights and groups. -/
def Transducer.rewrite (f : FSTArc W → FSTArc W)
    (hf : ∀ y, (f y).inp = y.inp ∧ (f y).out = y.out ∧ (f y).dest = y.dest) : Transducer W where
  states := x.states.map (List.map f)
  final := x.final
  nonempty := by simpa using x.nonempty
  final_lt := by simpa using x.final_lt
  dest_lt := by simpa [hf] using x.dest_lt
  inAlph := x.inAlph
  outAlph := x.outAlph
  inp_lt := by simpa [hf] using x.inp_lt
  out_lt := by simpa [hf] using x.out_lt

theorem arc?_rewrite (f : FSTArc W → FSTArc W) (hf) (p : ArcPtr) :
    (x.rewrite f hf).arc? p = (x.arc? p).map f := by
  unfold Wfst.arc? Wfst.arcs
  show ((x.states.map (List.map f)).getD p.src [])[p.pos]? = _
  rw [getD_eq_getElem?_getD, getD_eq_getElem?_getD, getElem?_map]
  cases x.states[p.src]? with
  | none => rfl
  | some arcs => exact getElem?_map ..

/-! ## Ids of the chains that are left -/

/-- Each element that is kept is moved to its new place, from the first that is not kept on. -/
def doMoves {α : Type} (newId : Nat → Option Nat) (nKept : Nat) (v : List α) : List α :=
  (((range v.length).dropWhile fun i => (newId i).isSome).foldl
    (fun v i => match newId i, v[i]? with
      | some j, some y => v.set j y
      | _, _ => v) v).take nKept

/-- The chains of the arcs that are not locked, and the empty chain. -/
def usedChain (i : Nat) : Bool :=
  i == nilChain || x.states.any fun arcs => arcs.any fun y => !isLocked y && y.groupId == i

def newChainId (i : Nat) : Option Nat := Numbering.newIndex (fun i => !usedChain x i) i

/-- -1 is the id of a chain that is removed. -/
def rewriteGroup (y : FSTArc W) : FSTArc W :=
  if isLocked y then y else { y with groupId := (newChainId x y.groupId).getD noGroup }

theorem rewriteGroup_labels (y : FSTArc W) :
    (rewriteGroup x y).inp = y.inp ∧ (rewriteGroup x y).out = y.out ∧ (rewriteGroup x y).dest = y.dest := by
  unfold rewriteGroup
  split <;> exact ⟨rfl, rfl, rfl⟩

variable (chains : List (List Param))

def compressChains (x : Transducer W) : List (List Param) × Transducer W :=
  (doMoves (newChainId x) ((range chains.length).filter (usedChain x)).length chains,
    x.rewrite (rewriteGroup x) (rewriteGroup_labels x))

/-! ## Weights and counts -/

def chainWeight [Monoid W] (weight : Param → W) (chain : List Param) : W := chain.foldl (fun w q => w * weight q) 1

/-- Each arc gets the weight of its chain. -/
def update [Monoid W] (weight : Param → W) (x : Transducer W) : Transducer W :=
  let chainWeights := chains.map (chainWeight weight)
  x.rewrite (fun y => { y with weight := chainWeights.getD y.groupId 1 }) fun _ => ⟨rfl, rfl, rfl⟩

/-- The weight of an arc is added to each original arc of its chain that is not locked. -/
def distributeChainCounts [Add W] (locked : Param → Bool) (weight : Param → W) (chain : List Param) (counts : W) :
    Param → W :=
  chain.foldl (fun weight q => if locked q then weight else Function.update weight q (weight q + counts)) weight

def distributeCounts [AddMonoid W] (locked : Param → Bool) (x : Transducer W)
    (weight : Param → W) : Param → W :=
  (x.taken x.visitArcs).foldl (fun weight y => distributeChainCounts locked weight (chains.getD y.groupId []) y.weight)
    fun q => if locked q then weight q else 0

/-! ## The composition loop -/

structure Composing (W : Type) where
  cascade : List (Transducer W)
  chains : List (List Param)
  result : Transducer W
  composed : Bool
  used : ArcPtr → List Param

/-- The original arcs of an origin. -/
def usedOrigin (usedA usedB : ArcPtr → List Param) : Origin W → List Param
  | .left l => usedA l.ptr
  | .right r => usedB r.ptr
  | .both l r => usedA l.ptr ++ usedB r.ptr

/-- The origin of an arc of a composition. -/
def originOf [Monoid W] {Γ : Type} (record : Γ → Origin W → Γ × Nat) (store : Γ) (indexThreshold : Nat)
    (preserveGroups : Bool) (a b : Transducer W) : ArcPtr → Option (Origin W) :=
  if preserveGroups then (twoStateMode a b).originAt ((twoStateMode a b).table record store)
  else (threeStateMode a b indexThreshold).originAt ((threeStateMode a b indexThreshold).table record store)

namespace Composing

/-- The first transducer of the chain. -/
def init : Composing W := ⟨[x], [[]], x, false, fun p => [⟨0, p⟩]⟩

/-- The chains of the result, or its number while nothing is composed. -/
def operand (s : Composing W) : Option Nat := if s.composed then none else some 0

variable [Monoid W] [DecidableEq W]

/-- The result is composed with the next transducer, which stands on the left when they associate to the right. -/
def compose (s : Composing W) (right preserveGroups : Bool) (indexThreshold : Nat) (next : Transducer W) :
    Option (Composing W) :=
  let cascade := s.cascade ++ [next]
  let original := some s.cascade.length
  let is : Prepared := if right then ⟨original, s.operand⟩ else ⟨s.operand, original⟩
  let a := if right then next else s.result
  let b := if right then s.result else next
  let usedNext := fun p => [⟨s.cascade.length, p⟩]
  let r := setCompose (record cascade is) ⟨s.chains, []⟩ indexThreshold preserveGroups a b
  let origin := originOf (record cascade is) ⟨s.chains, []⟩ indexThreshold preserveGroups a b
  match r.2 with
  | .invalid => none
  | .valid c =>
    some ⟨cascade, r.1.chains, c, true, fun p =>
      ((origin p).map (usedOrigin (if right then usedNext else s.used) (if right then s.used else usedNext))).getD []⟩

def compress (s : Composing W) : Composing W :=
  let r := compressChains s.chains s.result
  { s with chains := r.1, result := r.2 }

end Composing

/-! ## Moving to the new ids -/

section Moves

variable {α : Type} {dead : Nat → Bool} {v : List α}

/-- How many are kept before a place. -/
def keptBefore (dead : Nat → Bool) (i : Nat) : Nat := ((range i).filter fun i => !dead i).length

theorem keptBefore_succ (dead : Nat → Bool) (i : Nat) :
    keptBefore dead (i + 1) = keptBefore dead i + if dead i then 0 else 1 := by
  unfold keptBefore
  rw [range_succ]
  cases hdead : dead i <;> simp [hdead]

variable {i k : Nat}

theorem keptBefore_mono (h : i ≤ k) : keptBefore dead i ≤ keptBefore dead k := by
  induction h with
  | refl => exact Nat.le_refl _
  | step _ ih => exact Nat.le_trans ih (by rw [keptBefore_succ]; exact Nat.le_add_right ..)

theorem keptBefore_lt (hkept : dead i = false) (h : i < k) : keptBefore dead i < keptBefore dead k := by
  have hmono : keptBefore dead (i + 1) ≤ keptBefore dead k := keptBefore_mono h
  rw [keptBefore_succ, hkept] at hmono
  exact hmono

theorem newIndex_eq_some_iff {j : Nat} :
    Numbering.newIndex dead i = some j ↔ dead i = false ∧ keptBefore dead i = j := by
  unfold Numbering.newIndex keptBefore
  cases dead i <;> simp

/-- The elements before `k` are at their new places, the others are where they were. -/
structure Moved (dead : Nat → Bool) (v : List α) (k : Nat) (v' : List α) : Prop where
  length : v'.length = v.length
  moved : ∀ i < k, dead i = false → v'[keptBefore dead i]? = v[i]?
  rest : ∀ i, k ≤ i → v'[i]? = v[i]?

theorem keptBefore_le (dead : Nat → Bool) (k : Nat) : keptBefore dead k ≤ k := by
  exact Nat.le_trans (length_filter_le _ _) (by rw [length_range])

/-- One round of the loop. -/
theorem Moved.step {v' : List α} (h : Moved dead v k v') (hk : k < v.length) :
    Moved dead v (k + 1) (match Numbering.newIndex dead k, v'[k]? with
      | some j, some y => v'.set j y
      | _, _ => v') := by
  have hrest := h.rest k (Nat.le_refl k)
  rw [getElem?_eq_getElem hk] at hrest
  cases hdead : dead k with
  | true =>
    have hnone : Numbering.newIndex dead k = none := by
      unfold Numbering.newIndex
      rw [hdead]
      rfl
    rw [hnone]
    refine ⟨h.length, ?_, fun i hi => h.rest i (by omega)⟩
    intro i hi hi'
    rcases Nat.lt_succ_iff_lt_or_eq.1 hi with hlt | rfl
    · exact h.moved i hlt hi'
    · rw [hdead] at hi'
      cases hi'
  | false =>
    rw [newIndex_eq_some_iff.2 ⟨hdead, rfl⟩, hrest]
    have hle := keptBefore_le dead k
    refine ⟨by rw [length_set, h.length], ?_, ?_⟩
    · intro i hi hi'
      rcases Nat.lt_succ_iff_lt_or_eq.1 hi with hlt | rfl
      · rw [getElem?_set_ne (Nat.ne_of_gt (keptBefore_lt hi' hlt))]
        exact h.moved i hlt hi'
      · rw [getElem?_set_self (by rw [h.length]; omega), getElem?_eq_getElem hk]
    · intro i hi
      rw [getElem?_set_ne (by omega)]
      exact h.rest i (by omega)

/-- As long as all are kept nothing moves. -/
theorem Moved.of_kept (h : ∀ i < k, dead i = false) : Moved dead v k v := by
  have hsame : ∀ i ≤ k, keptBefore dead i = i := by
    intro i hi
    induction i with
    | zero => rfl
    | succ i ih => rw [keptBefore_succ, ih (by omega), h i (by omega)]; rfl
  exact ⟨rfl, fun i hi _ => by rw [hsame i (by omega)], fun _ _ => rfl⟩

theorem moved_loop : ∀ (m k : Nat) {v' : List α}, k + m = v.length → Moved dead v k v' →
    Moved dead v v.length ((range' k m).foldl
      (fun v i => match Numbering.newIndex dead i, v[i]? with
        | some j, some y => v.set j y
        | _, _ => v) v')
  | 0, k, v', hk, h => by
    obtain rfl : k = v.length := by omega
    exact h
  | m + 1, k, v', hk, h => moved_loop m (k + 1) (by omega) (h.step (by omega))

theorem moved_dropWhile : ∀ (m k : Nat), k + m = v.length → (∀ i < k, dead i = false) →
    Moved dead v v.length (((range' k m).dropWhile fun i => (Numbering.newIndex dead i).isSome).foldl
      (fun v i => match Numbering.newIndex dead i, v[i]? with
        | some j, some y => v.set j y
        | _, _ => v) v)
  | 0, k, hk, hkept => by
    obtain rfl : k = v.length := by omega
    exact .of_kept hkept
  | m + 1, k, hk, hkept => by
    rw [range'_succ, dropWhile_cons]
    split
    · rename_i hsome
      obtain ⟨j, hj⟩ := Option.isSome_iff_exists.1 hsome
      refine moved_dropWhile m (k + 1) (by omega) ?_
      intro i hi
      rcases Nat.lt_succ_iff_lt_or_eq.1 hi with hlt | rfl
      · exact hkept i hlt
      · exact (newIndex_eq_some_iff.1 hj).1
    · exact moved_loop (m + 1) k hk (.of_kept hkept)

/-- An element that is kept is at its new id. -/
theorem getElem?_doMoves {j : Nat} (hi : i < v.length) (hj : Numbering.newIndex dead i = some j) :
    (doMoves (Numbering.newIndex dead) (keptBefore dead v.length) v)[j]? = v[i]? := by
  have hmoved := moved_dropWhile v.length 0 (Nat.zero_add v.length)
    (fun i (hi : i < 0) => (absurd hi (Nat.not_lt_zero i) : dead i = false))
  rw [← range_eq_range'] at hmoved
  obtain ⟨hkept, rfl⟩ := newIndex_eq_some_iff.1 hj
  unfold doMoves
  rw [getElem?_take_of_lt (keptBefore_lt hkept hi)]
  exact hmoved.moved i hi hkept

end Moves

/-! ## The chain of an arc -/

section Chains

variable [CommMonoid W] [DecidableEq W] {cascade : List (Transducer W)} {chains : List (List Param)}

/-- The chain with an id is, in some order, the original arcs that were used, but for those locked at weight one. -/
def HasChain (cascade : List (Transducer W)) (chains : List (List Param)) (id : Nat) (used : List Param) : Prop :=
  ∃ ch, chains[id]? = some ch ∧ ch.Perm (used.filter fun q => !locked1Param cascade q)

/-- Where the groups of an operand's arcs lead. -/
def Describes (cascade : List (Transducer W)) (chains : List (List Param)) (x : Transducer W) (used : ArcPtr → List Param) :
    Option Nat → Prop
  | none => ∀ p y, x.arc? p = some y → HasChain cascade chains y.groupId (used p)
  | some xid => cascade[xid]? = some x ∧ used = fun p => [⟨xid, p⟩]

/-- What is kept while a composition records: the empty chain, the old chains, and the ids of the arcs that were composed
with nothing. -/
structure Recording (cascade : List (Transducer W)) (chains : List (List Param)) (γ : CascadeParameters) : Prop where
  nil : γ.chains[nilChain]? = some []
  grown : chains <+: γ.chains
  epsilons : ∀ q id, find q γ.epsilonChains = some id → HasChain cascade γ.chains id [q]

variable {used : List Param}

theorem HasChain.grow {chains' : List (List Param)} {id : Nat} (h : HasChain cascade chains id used)
    (hgrown : chains <+: chains') : HasChain cascade chains' id used := by
  obtain ⟨ch, hch, hperm⟩ := h
  obtain ⟨t, rfl⟩ := hgrown
  exact ⟨ch, by rw [getElem?_append_left (List.getElem?_eq_some_iff.1 hch).1, hch], hperm⟩

variable {γ : CascadeParameters}

theorem cons_perm {q : Param} {cdr : List Param} (h : cdr.Perm (used.filter fun q => !locked1Param cascade q)) :
    (cons cascade q cdr).Perm ((q :: used).filter fun q => !locked1Param cascade q) := by
  unfold cons
  cases hq : locked1Param cascade q with
  | true =>
    rw [filter_cons_of_neg (by simp [hq])]
    exact h
  | false =>
    rw [filter_cons_of_pos (by simp [hq])]
    exact h.cons q

theorem foldl_cons_perm : ∀ {ca cb : List Param}, (∀ q ∈ ca, locked1Param cascade q = false) →
    (ca.foldl (fun cdr q => cons cascade q cdr) cb).Perm (ca ++ cb)
  | [], _, _ => Perm.refl _
  | q :: ca, cb, h => by
    have hcons : cons cascade q cb = q :: cb := by
      unfold cons
      rw [h q (mem_cons_self ..)]
      rfl
    rw [foldl_cons, hcons]
    exact (foldl_cons_perm fun q' hq' => h q' (mem_cons_of_mem _ hq')).trans perm_middle

variable (hγ : Recording cascade chains γ)
include hγ

theorem pushChain_spec {v : List Param} (hv : v.Perm (used.filter fun q => !locked1Param cascade q)) :
    Recording cascade chains (pushChain γ v).1 ∧ HasChain cascade (pushChain γ v).1.chains (pushChain γ v).2 used ∧
      γ.chains <+: (pushChain γ v).1.chains := by
  unfold pushChain
  split
  · rename_i hnil
    exact ⟨hγ, ⟨[], hγ.nil, hnil ▸ hv⟩, prefix_rfl⟩
  · have hgrown : γ.chains <+: γ.chains ++ [v] := prefix_append _ _
    refine ⟨⟨?_, hγ.grown.trans hgrown, ?_⟩, ⟨v, by simp, hv⟩, hgrown⟩
    · rw [getElem?_append_left (List.getElem?_eq_some_iff.1 hγ.nil).1]
      exact hγ.nil
    · intro q id hq
      exact (hγ.epsilons q id hq).grow hgrown

/-- The chain an arc of an operand leads to. -/
theorem Describes.getD {x : Transducer W} {used : ArcPtr → List Param}
    (hx : Describes cascade chains x used none) {e : HalfArc W} (he : x.arc? e.ptr = some e.arc) :
    (γ.chains.getD e.arc.groupId []).Perm ((used e.ptr).filter fun q => !locked1Param cascade q) := by
  obtain ⟨ch, hch, hperm⟩ := (hx e.ptr e.arc he).grow hγ.grown
  rw [getD_eq_getElem?_getD, hch]
  exact hperm

theorem recordEps_spec {x : Transducer W} {used : ArcPtr → List Param} {i : Option Nat}
    (hx : Describes cascade chains x used i) {e : HalfArc W} (he : x.arc? e.ptr = some e.arc) :
    Recording cascade chains (recordEps cascade γ e i).1 ∧
      HasChain cascade (recordEps cascade γ e i).1.chains (recordEps cascade γ e i).2 (used e.ptr) ∧
      γ.chains <+: (recordEps cascade γ e i).1.chains := by
  unfold recordEps
  split
  · refine ⟨hγ, ?_, prefix_rfl⟩
    have hchain := (hx e.ptr e.arc he).grow hγ.grown
    split
    · -- an arc that is locked has the id of the empty chain already
      rename_i hlocked
      have hgroup : e.arc.groupId = nilChain := eq_of_beq (Bool.and_eq_true_iff.1 hlocked).1
      rwa [hgroup] at hchain
    · exact hchain
  · rename_i xid
    obtain ⟨-, rfl⟩ := hx
    split
    · rename_i id hid
      exact ⟨hγ, hγ.epsilons _ id hid, prefix_rfl⟩
    · have hcons : (cons cascade ⟨xid, e.ptr⟩ []).Perm ([⟨xid, e.ptr⟩].filter fun q => !locked1Param cascade q) :=
        cons_perm (Perm.refl [])
      obtain ⟨hrec, hchain, hgrown⟩ := pushChain_spec hγ hcons
      refine ⟨⟨hrec.nil, hrec.grown, ?_⟩, hchain, hgrown⟩
      intro q id hq
      rw [find_upsert] at hq
      split at hq
      · rename_i heq
        obtain rfl := Option.some.inj hq
        exact heq ▸ hchain
      · exact (hγ.epsilons q id hq).grow hgrown

theorem consChain_spec {a b : Transducer W} {usedA usedB : ArcPtr → List Param}
    {is : Prepared} (ha : Describes cascade chains a usedA is.first) (hb : Describes cascade chains b usedB is.second)
    {l r : HalfArc W} (hl : a.arc? l.ptr = some l.arc) (hr : b.arc? r.ptr = some r.arc) :
    (consChain cascade is γ l r).Perm ((usedA l.ptr ++ usedB r.ptr).filter fun q => !locked1Param cascade q) := by
  obtain ⟨first, second⟩ := is
  cases first with
  | none =>
    have hca := ha.getD hγ hl
    cases second with
    | none =>
      have hcb := hb.getD hγ hr
      have hclean : ∀ q ∈ γ.chains.getD l.arc.groupId [], locked1Param cascade q = false := by
        intro q hq
        have hmem := (mem_filter.1 (hca.subset hq)).2
        simpa using hmem
      rw [filter_append]
      exact (foldl_cons_perm hclean).trans (hca.append hcb)
    | some xid =>
      obtain ⟨-, rfl⟩ := hb
      exact (cons_perm hca).trans ((perm_append_singleton _ _).symm.filter _)
  | some xid =>
    obtain ⟨-, rfl⟩ := ha
    cases second with
    | none => exact cons_perm (hb.getD hγ hr)
    | some xid' =>
      obtain ⟨-, rfl⟩ := hb
      exact cons_perm (cons_perm (Perm.refl []))

/-- **What one call of `record` promises**, for an arc that is made of arcs of `a` and of `b`. -/
theorem record_spec {a b : Transducer W} {usedA usedB : ArcPtr → List Param}
    {is : Prepared} (ha : Describes cascade chains a usedA is.first) (hb : Describes cascade chains b usedB is.second)
    {o : Origin W} (ho : FromArcs a b o) :
    Recording cascade chains (record cascade is γ o).1 ∧
      HasChain cascade (record cascade is γ o).1.chains (record cascade is γ o).2 (usedOrigin usedA usedB o) ∧
      γ.chains <+: (record cascade is γ o).1.chains := by
  cases o with
  | left l => exact recordEps_spec hγ ha (ho.1 l rfl)
  | right r => exact recordEps_spec hγ hb (ho.2 r rfl)
  | both l r => exact pushChain_spec hγ (consChain_spec hγ ha hb (ho.1 l rfl) (ho.2 r rfl))

end Chains

/-! ## The groups of a composition -/

section Groups

variable [CommMonoid W] {a b : Transducer W} {Γ : Type}

theorem composeArc_groupId (dest group : Nat) (o : Origin W) : (composeArc dest group o).groupId = group := by
  cases o <;> rfl

/-- An arc of a composition has an origin and a group that is good for it, or leads to the merged final state. -/
theorem Traced.groups {K : Type} {m : Mode a b K} {stamp : Origin W → Nat → Prop} {c : Transducer W} {merged : Prop}
    {originAt : ArcPtr → Option (Origin W)} (h : Traced m stamp c merged originAt) {p : ArcPtr} {y : FSTArc W}
    (hy : c.arc? p = some y) :
    (y = finalArc c.final ∧ originAt p = none) ∨
      ∃ o, originAt p = some o ∧ FromArcs a b o ∧ stamp o y.groupId ∧ y = composeArc y.dest y.groupId o := by
  rcases h.arcs p y hy with ⟨-, harc⟩ | ⟨o, k, k', ho, hleaves, dest, group, hstamp, rfl⟩
  · exact .inl harc
  · refine .inr ⟨o, ho, m.fromArcs k _ hleaves, ?_, ?_⟩
    · rwa [composeArc_groupId]
    · rw [composeArc_dest, composeArc_groupId]

theorem setCompose_groups (record : Γ → Origin W → Γ × Nat) {store : Γ} (indexThreshold : Nat) (preserveGroups : Bool)
    (good : Γ → Origin W → Nat → Prop) (fine : Γ → Prop)
    (hrecord : ∀ γ o, FromArcs a b o → fine γ → fine (record γ o).1 ∧ good (record γ o).1 o (record γ o).2 ∧
      ∀ o' g, good γ o' g → good (record γ o).1 o' g) (hstore : fine store) :
    fine (setCompose record store indexThreshold preserveGroups a b).1 ∧
      ∀ c, (setCompose record store indexThreshold preserveGroups a b).2 = .valid c → ∀ p y, c.arc? p = some y →
        (y = finalArc c.final ∧ originOf record store indexThreshold preserveGroups a b p = none) ∨
          ∃ o, originOf record store indexThreshold preserveGroups a b p = some o ∧ FromArcs a b o ∧
            good (setCompose record store indexThreshold preserveGroups a b).1 o y.groupId ∧
            y = composeArc y.dest y.groupId o := by
  cases preserveGroups
  case' true =>
    obtain ⟨hfine, hvalid⟩ := compose_traced (twoStateMode a b) nodup_twoState record good fine
      (fun γ k p hp hγ => hrecord γ p.1 ((twoStateMode a b).fromArcs k p hp) hγ) hstore
  case' false =>
    obtain ⟨hfine, hvalid⟩ := compose_traced (threeStateMode a b indexThreshold) (nodup_threeState indexThreshold) record
      good fine (fun γ k p hp hγ => hrecord γ p.1 ((threeStateMode a b indexThreshold).fromArcs k p hp) hγ) hstore
  all_goals
    refine ⟨hfine, ?_⟩
    intro c hc p y hy
    rcases hvalid with ⟨hinvalid, -⟩ | ⟨c', hc', htraced⟩
    · cases hc.symm.trans hinvalid
    · obtain rfl := Composed.valid.inj (hc'.symm.trans hc)
      exact htraced.groups hy

end Groups

variable {chains x} in
/-- An id that is used has a new id, and its chain is there. -/
theorem HasChain.compress [CommMonoid W] [DecidableEq W] {cascade : List (Transducer W)} {i : Nat}
    {used : List Param} (h : HasChain cascade chains i used) (hi : usedChain x i = true) :
    ∃ j, newChainId x i = some j ∧ HasChain cascade (compressChains chains x).1 j used := by
  obtain ⟨ch, hch, hperm⟩ := h
  have hj : newChainId x i = some (keptBefore (fun i => !usedChain x i) i) :=
    newIndex_eq_some_iff.2 ⟨by rw [hi]; rfl, rfl⟩
  refine ⟨_, hj, ch, ?_, hperm⟩
  rw [← hch, ← getElem?_doMoves (List.getElem?_eq_some_iff.1 hch).1 hj]
  unfold compressChains keptBefore newChainId
  simp only [Bool.not_not]

theorem newChainId_nil : newChainId x nilChain = some nilChain :=
  newIndex_eq_some_iff.2 ⟨by simp [usedChain], rfl⟩

/-! ## What the loop keeps -/

namespace Composing

variable [CommMonoid W] [DecidableEq W] {s s' : Composing W}

/-- The original arcs that were used are arcs of the cascade, and their weights make up that of the arc. -/
def MadeOf (cascade : List (Transducer W)) (x : Transducer W) (used : ArcPtr → List Param) : Prop :=
  ∀ p y, x.arc? p = some y → (∀ q ∈ used p, q.xid < cascade.length) ∧
    y.weight = ((used p).map (originalWeight cascade)).prod

/-- The arcs of the result lead to the chains of the original arcs that were used. -/
structure Kept (s : Composing W) : Prop where
  nil : s.chains[nilChain]? = some []
  result : Describes s.cascade s.chains s.result s.used s.operand
  madeOf : MadeOf s.cascade s.result s.used

theorem init_kept : (init x).Kept where
  nil := rfl
  result := ⟨rfl, rfl⟩
  madeOf := by
    intro p y hy
    constructor
    · intro q hq
      obtain rfl := mem_singleton.1 hq
      exact Nat.one_pos
    · show y.weight = ([(⟨0, p⟩ : Param)].map (originalWeight [x])).prod
      have hptr : x.arc? p = some y := hy
      have hweight : originalWeight [x] ⟨0, p⟩ = y.weight := by
        unfold originalWeight arcOf
        simp [hptr]
      simp [hweight]

variable {cascade : List (Transducer W)}

omit [CommMonoid W] [DecidableEq W] in
/-- A pointer into the old transducers is the same when one is added. -/
theorem arcOf_append (next : Transducer W) {q : Param} (hq : q.xid < cascade.length) :
    arcOf (cascade ++ [next]) q = arcOf cascade q := by
  unfold arcOf
  rw [getElem?_append_left hq]

theorem Kept.extend (h : s.Kept) (next : Transducer W) :
    Describes (s.cascade ++ [next]) s.chains s.result s.used s.operand := by
  have hresult := h.result
  unfold operand at hresult ⊢
  split at hresult
  · rename_i hcomposed
    rw [if_pos hcomposed]
    intro p y hy
    obtain ⟨ch, hch, hperm⟩ := hresult p y hy
    refine ⟨ch, hch, ?_⟩
    have hfilter : (s.used p).filter (fun q => !locked1Param (s.cascade ++ [next]) q) =
        (s.used p).filter (fun q => !locked1Param s.cascade q) := by
      apply filter_congr
      intro q hq
      unfold locked1Param
      rw [arcOf_append next ((h.madeOf p y hy).1 q hq)]
    rwa [hfilter]
  · rename_i hfirst
    rw [if_neg hfirst]
    obtain ⟨hx, hused⟩ := hresult
    refine ⟨?_, hused⟩
    rw [getElem?_append_left (List.getElem?_eq_some_iff.1 hx).1]
    exact hx

omit [DecidableEq W] in
theorem MadeOf.extend {x : Transducer W} {used : ArcPtr → List Param}
    (h : MadeOf cascade x used) (next : Transducer W) : MadeOf (cascade ++ [next]) x used := by
  intro p y hy
  obtain ⟨hin, hweight⟩ := h p y hy
  constructor
  · intro q hq
    have hlt := hin q hq
    rw [length_append]
    omega
  · rw [hweight]
    congr 1
    apply map_congr_left
    intro q hq
    unfold originalWeight
    rw [arcOf_append next (hin q hq)]

omit [DecidableEq W] in
theorem madeOf_next (cascade : List (Transducer W)) (next : Transducer W) :
    MadeOf (cascade ++ [next]) next (fun p => [⟨cascade.length, p⟩]) := by
  intro p y hy
  constructor
  · intro q hq
    obtain rfl := mem_singleton.1 hq
    simp
  · have hweight : originalWeight (cascade ++ [next]) ⟨cascade.length, p⟩ = y.weight := by
      unfold originalWeight arcOf
      simp [hy]
    simp [hweight]

/-- The next transducer, as an operand. -/
theorem describes_next (cascade : List (Transducer W)) (chains : List (List Param)) (next : Transducer W) :
    Describes (cascade ++ [next]) chains next (fun p => [⟨cascade.length, p⟩]) (some cascade.length) :=
  ⟨by simp, rfl⟩

/-- What is said of the operands holds of the result. -/
theorem setCompose_chains {chains : List (List Param)} {a b c : Transducer W}
    {usedA usedB : ArcPtr → List Param} {is : Prepared} {indexThreshold : Nat} {preserveGroups : Bool}
    (hnil : chains[nilChain]? = some []) (ha : Describes cascade chains a usedA is.first)
    (hb : Describes cascade chains b usedB is.second)
    (hina : MadeOf cascade a usedA) (hinb : MadeOf cascade b usedB)
    (hc : (setCompose (record cascade is) ⟨chains, []⟩ indexThreshold preserveGroups a b).2 = .valid c) :
    Kept ⟨cascade, (setCompose (record cascade is) ⟨chains, []⟩ indexThreshold preserveGroups a b).1.chains, c, true,
      fun p => ((originOf (record cascade is) ⟨chains, []⟩ indexThreshold preserveGroups a b p).map
        (usedOrigin usedA usedB)).getD []⟩ := by
  have hstart : Recording cascade chains ⟨chains, []⟩ := ⟨hnil, prefix_rfl, fun q id hq => by cases hq⟩
  obtain ⟨hrec, hgroups⟩ := setCompose_groups (record cascade is) indexThreshold preserveGroups
    (fun γ o g => HasChain cascade γ.chains g (usedOrigin usedA usedB o)) (Recording cascade chains)
    (fun γ o ho hγ => by
      obtain ⟨hrec, hchain, hgrown⟩ := record_spec hγ ha hb ho
      exact ⟨hrec, hchain, fun o' g hg => hg.grow hgrown⟩) hstart
  refine ⟨hrec.nil, ?_, ?_⟩
  · intro p y hy
    rcases hgroups c hc p y hy with ⟨rfl, hnone⟩ | ⟨o, ho, -, hchain, -⟩
    · -- the arc to the merged final state is made of nothing
      show HasChain cascade _ nilChain (((originOf _ _ _ _ _ _ p).map _).getD [])
      rw [hnone]
      exact ⟨[], hrec.nil, Perm.refl []⟩
    · show HasChain cascade _ y.groupId (((originOf _ _ _ _ _ _ p).map _).getD [])
      rw [ho]
      exact hchain
  · intro p y hy
    show (∀ q ∈ ((originOf _ _ _ _ _ _ p).map _).getD [], _) ∧ _ = ((((originOf _ _ _ _ _ _ p).map _).getD []).map _).prod
    rcases hgroups c hc p y hy with ⟨rfl, hnone⟩ | ⟨o, ho, hfrom, -, hy'⟩
    · rw [hnone]
      exact ⟨fun q hq => absurd hq not_mem_nil, rfl⟩
    · rw [ho, hy']
      cases o with
      | left l => exact hina l.ptr l.arc (hfrom.1 l rfl)
      | right r => exact hinb r.ptr r.arc (hfrom.2 r rfl)
      | both l r =>
        obtain ⟨hl, hlw⟩ := hina _ _ (hfrom.1 l rfl)
        obtain ⟨hr, hrw⟩ := hinb _ _ (hfrom.2 r rfl)
        constructor
        · intro q hq
          rcases mem_append.1 hq with hq | hq
          · exact hl q hq
          · exact hr q hq
        · show l.arc.weight * r.arc.weight = ((usedA l.ptr ++ usedB r.ptr).map _).prod
          rw [map_append, prod_append, hlw, hrw]

/-- **A composition keeps the chains.** -/
theorem compose_kept {right preserveGroups : Bool} {indexThreshold : Nat} {next : Transducer W} (h : s.Kept)
    (hs' : s.compose right preserveGroups indexThreshold next = some s') : s'.Kept ∧ s'.composed = true := by
  have hresult := h.extend next
  have hnext := describes_next s.cascade s.chains next
  have hin := h.madeOf.extend next
  have hinNext := madeOf_next s.cascade next
  unfold compose at hs'
  simp only at hs'
  split at hs'
  · cases hs'
  · rename_i c hc
    obtain rfl := Option.some.inj hs'
    cases right with
    | true => exact ⟨setCompose_chains h.nil hnext hresult hinNext hin hc, rfl⟩
    | false => exact ⟨setCompose_chains h.nil hresult hnext hin hinNext hc, rfl⟩

/-- **Renumbering keeps the chains.** -/
theorem compress_kept (h : s.Kept) (hs : s.composed = true) : s.compress.Kept := by
  have hresult : Describes s.cascade s.chains s.result s.used none := by
    have hdescribes := h.result
    unfold operand at hdescribes
    rwa [if_pos hs] at hdescribes
  have hnil : HasChain s.cascade (compressChains s.chains s.result).1 nilChain [] := by
    obtain ⟨j, hj, hchain⟩ := HasChain.compress (x := s.result) (⟨[], h.nil, Perm.refl []⟩ :
      HasChain s.cascade s.chains nilChain []) (by simp [usedChain])
    obtain rfl : nilChain = j := Option.some.inj ((newChainId_nil s.result).symm.trans hj)
    exact hchain
  have hold : ∀ p y, (compressChains s.chains s.result).2.arc? p = some y →
      ∃ z, s.result.arc? p = some z ∧ y = rewriteGroup s.result z := by
    intro p y hy
    have hmap := (arc?_rewrite s.result (rewriteGroup s.result) (rewriteGroup_labels s.result) p).symm.trans hy
    obtain ⟨z, hz, rfl⟩ := Option.map_eq_some_iff.1 hmap
    exact ⟨z, hz, rfl⟩
  refine ⟨?_, ?_, ?_⟩
  · obtain ⟨ch, hch, hperm⟩ := hnil
    obtain rfl := hperm.eq_nil
    exact hch
  · show Describes s.cascade (compressChains s.chains s.result).1 (compressChains s.chains s.result).2 s.used s.operand
    unfold operand
    rw [if_pos hs]
    intro p y hy
    obtain ⟨z, hz, rfl⟩ := hold p y hy
    have hchain : HasChain s.cascade s.chains z.groupId (s.used p) := hresult p z hz
    unfold rewriteGroup
    split
    · -- the id of a locked arc is that of the empty chain, and stays
      rename_i hlocked
      have hgroup : z.groupId = nilChain := eq_of_beq hlocked
      obtain ⟨j, hj, hchain'⟩ := hchain.compress (x := s.result) (by rw [hgroup]; simp [usedChain])
      rw [hgroup, newChainId_nil] at hj
      rw [hgroup, Option.some.inj hj]
      exact hchain'
    · rename_i hlocked
      have hused : usedChain s.result z.groupId = true := by
        obtain ⟨arcs, harcs, hmem⟩ := arc?_mem hz
        unfold usedChain
        rw [Bool.or_eq_true, any_eq_true]
        refine .inr ⟨arcs, harcs, any_eq_true.2 ⟨z, hmem, ?_⟩⟩
        simp [hlocked]
      obtain ⟨j, hj, hchain'⟩ := hchain.compress hused
      simp only [hj, Option.getD_some]
      exact hchain'
  · intro p y hy
    obtain ⟨z, hz, rfl⟩ := hold p y hy
    obtain ⟨hin, hweight⟩ := h.madeOf p z hz
    refine ⟨hin, Eq.trans ?_ hweight⟩
    unfold rewriteGroup
    split <;> rfl

/-- What is left of a transducer when arcs and states were taken from it; `from` tells where an arc was. -/
def Shrinks (x x' : Transducer W) (origin : ArcPtr → ArcPtr) : Prop :=
  ∀ p y, x'.arc? p = some y → ∃ z, x.arc? (origin p) = some z ∧
    y.inp = z.inp ∧ y.out = z.out ∧ y.weight = z.weight ∧ y.groupId = z.groupId

/-- The states of the loop: compositions, with arcs taken away and chains renumbered in between. -/
inductive Recorded (x : Transducer W) : Composing W → Prop
  | init : Recorded x (init x)
  | compose {s s' : Composing W} {right preserveGroups : Bool} {indexThreshold : Nat} {next : Transducer W}
      (hs : Recorded x s) (h : s.compose right preserveGroups indexThreshold next = some s') : Recorded x s'
  | shrink {s : Composing W} {x' : Transducer W} {origin : ArcPtr → ArcPtr} (hs : Recorded x s) (hc : s.composed = true)
      (h : Shrinks s.result x' origin) : Recorded x { s with result := x', used := fun p => s.used (origin p) }
  | compress {s : Composing W} (hs : Recorded x s) (hc : s.composed = true) : Recorded x s.compress

theorem shrink_kept (h : s.Kept) (hs : s.composed = true) {x' : Transducer W} {origin : ArcPtr → ArcPtr}
    (hshrink : Shrinks s.result x' origin) :
    Kept { s with result := x', used := fun p => s.used (origin p) } := by
  have hresult := h.result
  unfold operand at hresult
  rw [if_pos hs] at hresult
  refine ⟨h.nil, ?_, ?_⟩
  · unfold operand
    rw [if_pos hs]
    intro p y hy
    obtain ⟨z, hz, -, -, -, hgroup⟩ := hshrink p y hy
    rw [hgroup]
    exact hresult (origin p) z hz
  · intro p y hy
    obtain ⟨z, hz, -, -, hweight, -⟩ := hshrink p y hy
    rw [hweight]
    exact h.madeOf (origin p) z hz

/-- **The loop keeps the chains.** -/
theorem recorded_kept {x : Transducer W} (h : Recorded x s) : s.Kept := by
  induction h with
  | init => exact init_kept x
  | compose _ hstep ih => exact (compose_kept ih hstep).1
  | shrink _ hc hshrink ih => exact shrink_kept ih hc hshrink
  | compress _ hc ih => exact compress_kept ih hc

end Composing

/-! ## Weights and counts of the chains -/

theorem chainWeight_eq [Monoid W] (weight : Param → W) (chain : List Param) :
    chainWeight weight chain = (chain.map weight).prod := by
  unfold chainWeight
  rw [prod_eq_foldl, foldl_map]

variable {chains x} in
/-- After `update` an arc weighs as much as its chain. -/
theorem update_weight [CommMonoid W] [DecidableEq W] {cascade : List (Transducer W)} {used : ArcPtr → List Param}
    (h : Describes cascade chains x used none) (weight : Param → W)
    {p : ArcPtr} {y : FSTArc W} (hy : (update chains weight x).arc? p = some y) :
    y.weight = (((used p).filter fun q => !locked1Param cascade q).map weight).prod := by
  unfold update at hy
  rw [arc?_rewrite] at hy
  obtain ⟨z, hz, rfl⟩ := Option.map_eq_some_iff.1 hy
  obtain ⟨ch, hch, hperm⟩ := h p z hz
  rw [getD_eq_getElem?_getD, getElem?_map, hch]
  show chainWeight weight ch = _
  rw [chainWeight_eq, (hperm.map weight).prod_eq]

theorem distributeChainCounts_apply [AddMonoid W] (locked : Param → Bool) (counts : W) (q : Param) :
    ∀ (chain : List Param) (weight : Param → W), distributeChainCounts locked weight chain counts q =
      if locked q then weight q else weight q + chain.count q • counts
  | [], weight => by simp [distributeChainCounts]
  | q' :: chain, weight => by
    have hrest := distributeChainCounts_apply locked counts q chain
    unfold distributeChainCounts at hrest ⊢
    rw [foldl_cons, hrest]
    by_cases hq : q = q'
    · subst hq
      cases hlocked : locked q with
      | true => simp
      | false => simp [count_cons_self, succ_nsmul', add_assoc]
    · have hne : Function.update weight q' (weight q' + counts) q = weight q := Function.update_of_ne hq _ _
      rw [count_cons_of_ne (Ne.symm hq)]
      cases locked q' with
      | true => rfl
      | false => simp [hne]

/-- **What `distribute_counts` adds to an original arc**: for each composed arc its weight, once for each time the arc
is in its chain. -/
theorem distributeCounts_apply [AddMonoid W] (locked : Param → Bool) (x : Transducer W)
    (weight : Param → W) (q : Param) :
    distributeCounts chains locked x weight q = if locked q then weight q else
      ((x.taken x.visitArcs).map fun y => (chains.getD y.groupId []).count q • y.weight).sum := by
  have hloop : ∀ (ys : List (FSTArc W)) (weight : Param → W),
      ys.foldl (fun weight y => distributeChainCounts locked weight (chains.getD y.groupId []) y.weight) weight q =
        if locked q then weight q else weight q + (ys.map fun y => (chains.getD y.groupId []).count q • y.weight).sum := by
    intro ys
    induction ys with
    | nil => simp
    | cons y ys ih =>
      intro weight
      rw [foldl_cons, ih, distributeChainCounts_apply]
      cases locked q with
      | true => rfl
      | false => simp [add_assoc]
  unfold distributeCounts
  rw [hloop]
  cases locked q with
  | true => rfl
  | false => simp

/-- **Cascade bookkeeping.** In every state of the loop after a composition each arc has a chain, which has the original
arcs the arc was made of but for those locked at weight one (and they do make up its weight); `update` gives it the
product of their weights, also after `compress_chains`, and `distribute_counts` gives each original arc that is not
locked its counts. -/
theorem recorded_chains [CommSemiring W] [DecidableEq W] {x : Transducer W} {s : Composing W}
    (h : Composing.Recorded x s) (hs : s.composed = true) :
    (∀ p y, s.result.arc? p = some y → HasChain s.cascade s.chains y.groupId (s.used p) ∧
      y.weight = ((s.used p).map (originalWeight s.cascade)).prod) ∧
    (∀ weight p y, (update s.chains weight s.result).arc? p = some y →
      y.weight = (((s.used p).filter fun q => !locked1Param s.cascade q).map weight).prod) ∧
    (∀ p y, s.compress.result.arc? p = some y → HasChain s.cascade s.compress.chains y.groupId (s.used p)) ∧
    (∀ weight p y, (update s.compress.chains weight s.compress.result).arc? p = some y →
      y.weight = (((s.used p).filter fun q => !locked1Param s.cascade q).map weight).prod) ∧
    ∀ weight q, distributeCounts s.chains (lockedParam s.cascade) s.result weight q =
      if lockedParam s.cascade q then weight q else
        ((s.result.taken s.result.visitArcs).map fun y => (s.chains.getD y.groupId []).count q • y.weight).sum := by
  have hdescribes : ∀ {t : Composing W}, t.Kept → t.composed = true → Describes t.cascade t.chains t.result t.used none := by
    intro t ht hc
    have hresult := ht.result
    unfold Composing.operand at hresult
    rwa [if_pos hc] at hresult
  have hkept := Composing.recorded_kept h
  have hnow := hdescribes hkept hs
  have hafter := hdescribes (Composing.compress_kept hkept hs) hs
  exact ⟨fun p y hy => ⟨hnow p y hy, (hkept.madeOf p y hy).2⟩, fun weight p y hy => update_weight hnow weight hy, hafter,
    fun weight p y hy => update_weight hafter weight hy, fun weight q => distributeCounts_apply _ _ _ weight q⟩

/-- Symbols of the two transducers composed below. -/
def pairAlphabet : Alphabet := ⟨["*e*", "x"], by decide, rfl⟩

/-- An arc that reads and writes a symbol, with a weight and a group. -/
def oneArc (weight group : Nat) : Transducer Nat where
  states := [[⟨1, 1, 1, weight, group⟩], []]
  final := 1
  nonempty := Nat.two_pos
  final_lt := Nat.one_lt_two
  dest_lt := by simp
  inAlph := pairAlphabet
  outAlph := pairAlphabet
  inp_lt := by simp [pairAlphabet]
  out_lt := by simp [pairAlphabet]

/-- Two arcs composed, the second locked at weight one: the chain is the first arc. -/
theorem recorded_chains_pair : ∃ s : Composing Nat, s.chains = [[], [⟨0, ⟨0, 0⟩⟩]] ∧
    ∀ p y, s.result.arc? p = some y → HasChain s.cascade s.chains y.groupId (s.used p) ∧
      y.weight = ((s.used p).map (originalWeight s.cascade)).prod := by
  obtain ⟨s, hs⟩ : ∃ s, (Composing.init (oneArc 3 noGroup)).compose false false 12 (oneArc 1 lockedGroup) = some s :=
    Option.isSome_iff_exists.1 (by decide)
  have hchains : ((Composing.init (oneArc 3 noGroup)).compose false false 12 (oneArc 1 lockedGroup)).map
      Composing.chains = some [[], [⟨0, ⟨0, 0⟩⟩]] := by decide
  rw [hs] at hchains
  have hcomposed := (Composing.compose_kept (Composing.init_kept _) hs).2
  exact ⟨s, Option.some.inj hchains, (recorded_chains (.compose .init hs) hcomposed).1⟩

end Sbmt.Carmel
