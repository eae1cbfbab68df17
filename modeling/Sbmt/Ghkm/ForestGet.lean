import Sbmt.Ghkm.ForestGrammar
import Sbmt.Ghkm.ForestWalk

/-!
# `PackedForest::get` on any text (`PackedForest.C:130-265`)

A reference to an id that no alternative has been read for yet is a null pointer, which `computeSpans` then follows, and
the readers go on for ever, or follow a null pointer themselves, when the text ends too early.  So `get` leaves a forest
behind exactly where the text begins with `0`, breaks (`Breaks`), or has a form whose references are all to ids that
have been met (`get_safe_iff`).
-/

namespace Sbmt.Ghkm.ForestText

open Sbmt.Lib Sbmt.Lib.Phrase Sbmt.Lib.Istream List

/-! ## References -/

mutual

/-- The ids that have an alternative when the form has been read. -/
def OrForm.known : OrForm → List Int → List Int
  | .ref _, known => known
  | .node id as, known => knownAlternatives id as known

def AndForm.known : AndForm → List Int → List Int
  | .leaf _, known => known
  | .node _ cs, known => knownChildren cs known

def knownAlternatives (id : Int) : List AndForm → List Int → List Int
  | [], known => known
  | a :: as, known => knownAlternatives id as (id :: a.known known)

def knownChildren : List OrForm → List Int → List Int
  | [], known => known
  | c :: cs, known => knownChildren cs (c.known known)

end

mutual

/-- Every reference is to an id that an alternative has been read for before. -/
def OrForm.Defined : OrForm → List Int → Prop
  | .ref id, known => id ∈ known
  | .node id as, known => as ≠ [] ∧ definedAlternatives id as known

def AndForm.Defined : AndForm → List Int → Prop
  | .leaf _, _ => True
  | .node _ cs, known => definedChildren cs known

def definedAlternatives (id : Int) : List AndForm → List Int → Prop
  | [], _ => True
  | a :: as, known => a.Defined known ∧ definedAlternatives id as (id :: a.known known)

def definedChildren : List OrForm → List Int → Prop
  | [], _ => True
  | c :: cs, known => c.Defined known ∧ definedChildren cs (c.known known)

end

/-! ## Nodes only grow -/

def Extends (nodes nodes' : List OrNode) : Prop := ∀ (i : Nat) (n : OrNode), nodes[i]? = some n →
  ∃ n' : OrNode, nodes'[i]? = some n' ∧ n'.id = n.id ∧ n.alternatives <+: n'.alternatives

variable {nodes nodes1 nodes' : List OrNode} {i : Nat} {id : Int} {a : AndNode}

theorem Extends.refl (nodes : List OrNode) : Extends nodes nodes := fun _ n hn => ⟨n, hn, rfl, prefix_rfl⟩

theorem Extends.trans (h1 : Extends nodes nodes1) (h2 : Extends nodes1 nodes') : Extends nodes nodes' := by
  intro i n hn
  obtain ⟨n1, hn1, hid1, hpre1⟩ := h1 i n hn
  obtain ⟨n', hn', hid', hpre'⟩ := h2 i n1 hn1
  exact ⟨n', hn', hid'.trans hid1, hpre1.trans hpre'⟩

theorem Extends.length_le (h : Extends nodes nodes') : nodes.length ≤ nodes'.length := by
  by_contra hlt
  obtain ⟨n', hn', -⟩ := h nodes'.length _ (getElem?_eq_getElem (not_le.1 hlt))
  rw [getElem?_eq_none (Nat.le_refl _)] at hn'
  cases hn'

theorem getORNode_eq_some : getORNode nodes id = some i ↔
    (∃ n : OrNode, nodes[i]? = some n ∧ n.id = id) ∧ ∀ j < i, ∀ n : OrNode, nodes[j]? = some n → n.id ≠ id := by
  rw [getORNode, findIdx?_eq_some_iff_getElem]
  constructor
  · rintro ⟨hi, hid, hbefore⟩
    refine ⟨⟨nodes[i], getElem?_eq_getElem hi, by simpa using hid⟩, fun j hj n hn => ?_⟩
    obtain ⟨hlt, rfl⟩ := List.getElem?_eq_some_iff.1 hn
    simpa using hbefore j hj
  · rintro ⟨⟨n, hn, hid⟩, hbefore⟩
    obtain ⟨hi, rfl⟩ := List.getElem?_eq_some_iff.1 hn
    refine ⟨hi, by simpa using hid, fun j hj => ?_⟩
    simpa using hbefore j hj _ (getElem?_eq_getElem (hj.trans hi))

theorem getORNode_eq_none : getORNode nodes id = none ↔ id ∉ nodes.map OrNode.id := by
  simp [getORNode, findIdx?_eq_none_iff]

theorem Extends.getORNode_eq (h : Extends nodes nodes') (hget : getORNode nodes id = some i) :
    getORNode nodes' id = some i := by
  obtain ⟨⟨n, hn, hid⟩, hbefore⟩ := getORNode_eq_some.1 hget
  obtain ⟨n', hn', hid', -⟩ := h i n hn
  refine getORNode_eq_some.2 ⟨⟨n', hn', hid'.trans hid⟩, fun j hj m' hm' => ?_⟩
  have hlt : j < nodes.length := hj.trans (List.getElem?_eq_some_iff.1 hn).1
  obtain ⟨m, hm, hmid, -⟩ := h j _ (getElem?_eq_getElem hlt)
  obtain rfl : m' = m := Option.mem_unique hm' hm
  exact hmid ▸ hbefore j hj _ (getElem?_eq_getElem hlt)

/-- The node is found again, and has the new alternative at its end. -/
theorem addNodeById_spec (nodes : List OrNode) (a : AndNode) (id : Int) :
    Extends nodes (addNodeById nodes a id).2 ∧
      getORNode (addNodeById nodes a id).2 id = some (addNodeById nodes a id).1 ∧
      (∃ n : OrNode, (addNodeById nodes a id).2[(addNodeById nodes a id).1]? = some n ∧ a ∈ n.alternatives) ∧
      ∀ k, k ∈ (addNodeById nodes a id).2.map OrNode.id ↔ k = id ∨ k ∈ nodes.map OrNode.id := by
  cases hget : getORNode nodes id with
  | some i =>
    obtain ⟨⟨n, hn, hid⟩, -⟩ := getORNode_eq_some.1 hget
    have hadd : addNodeById nodes a id = (i, nodes.modify i (OrNode.pushBack a)) := by rw [addNodeById, hget]
    have hext : Extends nodes (nodes.modify i (OrNode.pushBack a)) := by
      intro j m hm
      rw [getElem?_modify, hm]
      by_cases hij : i = j
      · exact ⟨OrNode.pushBack a m, by simp [hij], rfl, prefix_append _ _⟩
      · exact ⟨m, by simp [hij], rfl, prefix_rfl⟩
    rw [hadd]
    refine ⟨hext, hext.getORNode_eq hget, ⟨OrNode.pushBack a n, by simp [hn], by simp [OrNode.pushBack]⟩, fun k => ?_⟩
    have hmem : id ∈ nodes.map OrNode.id := hid ▸ mem_map_of_mem (mem_of_getElem? hn)
    have hids : (nodes.modify i (OrNode.pushBack a)).map OrNode.id = nodes.map OrNode.id := by
      apply ext_getElem?
      intro j
      simp only [getElem?_map, getElem?_modify]
      cases nodes[j]? with
      | none => rfl
      | some m => by_cases hij : i = j <;> simp [hij, OrNode.pushBack]
    rw [hids]
    exact ⟨.inr, fun h => h.elim (fun h => h ▸ hmem) fun h => h⟩
  | none =>
    have hadd : addNodeById nodes a id = (nodes.length, nodes ++ [⟨id, [a]⟩]) := by rw [addNodeById, hget]
    have hno := getORNode_eq_none.1 hget
    rw [hadd]
    refine ⟨fun j m hm => ⟨m, ?_, rfl, prefix_rfl⟩, getORNode_eq_some.2 ⟨⟨⟨id, [a]⟩, by simp, rfl⟩, ?_⟩,
      ⟨⟨id, [a]⟩, by simp, by simp⟩, fun k => ?_⟩
    · rw [getElem?_append_left (List.getElem?_eq_some_iff.1 hm).1, hm]
    · intro j hj m hm hmid
      rw [getElem?_append_left hj] at hm
      exact hno (hmid ▸ mem_map_of_mem (mem_of_getElem? hm))
    · simp [or_comm]

mutual

theorem OrForm.load_extends : (F : OrForm) → (nodes : List OrNode) → Extends nodes (F.load nodes).2
  | .ref _, nodes => .refl nodes
  | .node id as, nodes => loadAlternatives_extends id none as nodes

theorem AndForm.load_extends : (A : AndForm) → (nodes : List OrNode) → Extends nodes (A.load nodes).2
  | .leaf _, nodes => .refl nodes
  | .node _ cs, nodes => loadChildren_extends cs nodes

theorem loadAlternatives_extends (id : Int) (p : Option Nat) :
    (as : List AndForm) → (nodes : List OrNode) → Extends nodes (loadAlternatives id p as nodes).2
  | [], nodes => .refl nodes
  | a :: as, nodes =>
    ((a.load_extends nodes).trans (addNodeById_spec _ _ id).1).trans (loadAlternatives_extends id _ as _)

theorem loadChildren_extends : (cs : List OrForm) → (nodes : List OrNode) → Extends nodes (loadChildren cs nodes).2
  | [], nodes => .refl nodes
  | c :: cs, nodes => (c.load_extends nodes).trans (loadChildren_extends cs _)

end

/-- The list of ids that the form is checked against is that of the nodes. -/
def SameIds (known : List Int) (nodes : List OrNode) : Prop := ∀ k, k ∈ known ↔ k ∈ nodes.map OrNode.id

variable {known : List Int}

theorem SameIds.add (h : SameIds known nodes) (a : AndNode) (id : Int) :
    SameIds (id :: known) (addNodeById nodes a id).2 := by
  intro k
  rw [mem_cons, (addNodeById_spec nodes a id).2.2.2 k, h k]

mutual

theorem OrForm.sameIds : (F : OrForm) → {known : List Int} → {nodes : List OrNode} → SameIds known nodes →
    SameIds (F.known known) (F.load nodes).2
  | .ref _, _, _, h => h
  | .node id as, _, _, h => knownAlternatives_sameIds id none as h

theorem AndForm.sameIds : (A : AndForm) → {known : List Int} → {nodes : List OrNode} → SameIds known nodes →
    SameIds (A.known known) (A.load nodes).2
  | .leaf _, _, _, h => h
  | .node _ cs, _, _, h => knownChildren_sameIds cs h

theorem knownAlternatives_sameIds (id : Int) (p : Option Nat) : (as : List AndForm) → {known : List Int} →
    {nodes : List OrNode} → SameIds known nodes →
    SameIds (knownAlternatives id as known) (loadAlternatives id p as nodes).2
  | [], _, _, h => h
  | a :: as, _, _, h => knownAlternatives_sameIds id _ as ((a.sameIds h).add _ id)

theorem knownChildren_sameIds : (cs : List OrForm) → {known : List Int} → {nodes : List OrNode} →
    SameIds known nodes → SameIds (knownChildren cs known) (loadChildren cs nodes).2
  | [], _, _, h => h
  | c :: cs, _, _, h => knownChildren_sameIds cs (c.sameIds h)

end

/-! ## Where every reference is defined, no pointer is null -/

/-- The pointer is to one of so many nodes. -/
def Within (k : Nat) (p : Option Nat) : Prop := ∃ i, p = some i ∧ i < k

instance (k : Nat) (p : Option Nat) : Decidable (Within k p) :=
  match p with
  | none => isFalse fun ⟨_, h, _⟩ => Option.noConfusion rfl (heq_of_eq h)
  | some i => decidable_of_iff (i < k) ⟨fun h => ⟨i, rfl, h⟩, fun ⟨_, hj, h⟩ => Option.some.inj hj ▸ h⟩

structure Fine (nodes : List OrNode) : Prop where
  nonempty : ∀ n ∈ nodes, n.alternatives ≠ []
  within : ∀ n ∈ nodes, ∀ a ∈ n.alternatives, ∀ p ∈ a.children, Within nodes.length p

theorem Within.mono {k l : Nat} {p : Option Nat} (h : Within k p) (hkl : k ≤ l) : Within l p :=
  h.imp fun _ hi => ⟨hi.1, Nat.lt_of_lt_of_le hi.2 hkl⟩

theorem Fine.nil : Fine [] := ⟨nofun, nofun⟩

theorem getORNode_lt (h : getORNode nodes id = some i) : i < nodes.length := by
  obtain ⟨⟨n, hn, -⟩, -⟩ := getORNode_eq_some.1 h
  exact (List.getElem?_eq_some_iff.1 hn).1

theorem Fine.add (h : Fine nodes) (ha : ∀ p ∈ a.children, Within nodes.length p) (id : Int) :
    Fine (addNodeById nodes a id).2 := by
  have hlen := (addNodeById_spec nodes a id).1.length_le
  cases hget : getORNode nodes id with
  | some i =>
    have hadd : (addNodeById nodes a id).2 = nodes.modify i (OrNode.pushBack a) := by rw [addNodeById, hget]
    have hmem : ∀ m ∈ nodes.modify i (OrNode.pushBack a), ∃ n ∈ nodes, m = n ∨ m = n.pushBack a := by
      intro m hm
      obtain ⟨j, hj⟩ := mem_iff_getElem?.1 hm
      rw [getElem?_modify] at hj
      cases hn : nodes[j]? with
      | none =>
        rw [hn] at hj
        cases hj
      | some n =>
        rw [hn] at hj
        refine ⟨n, mem_of_getElem? hn, ?_⟩
        by_cases hij : i = j
        · exact .inr (by simpa [hij] using hj.symm)
        · exact .inl (by simpa [hij] using hj.symm)
    rw [hadd] at hlen ⊢
    constructor
    · intro m hm
      obtain ⟨n, hn, rfl | rfl⟩ := hmem m hm
      · exact h.nonempty m hn
      · simp [OrNode.pushBack]
    · intro m hm b hb p hp
      obtain ⟨n, hn, rfl | rfl⟩ := hmem m hm
      · exact (h.within m hn b hb p hp).mono hlen
      · rcases mem_append.1 hb with hb | hb
        · exact (h.within n hn b hb p hp).mono hlen
        · obtain rfl := mem_singleton.1 hb
          exact (ha p hp).mono hlen
  | none =>
    have hadd : (addNodeById nodes a id).2 = nodes ++ [⟨id, [a]⟩] := by rw [addNodeById, hget]
    rw [hadd] at hlen ⊢
    constructor
    · intro m hm
      rcases mem_append.1 hm with hm | hm
      · exact h.nonempty m hm
      · obtain rfl := mem_singleton.1 hm
        exact cons_ne_nil a []
    · intro m hm b hb p hp
      rcases mem_append.1 hm with hm | hm
      · exact (h.within m hm b hb p hp).mono hlen
      · obtain rfl := mem_singleton.1 hm
        obtain rfl := mem_singleton.1 hb
        exact (ha p hp).mono hlen

mutual

theorem OrForm.fine : (F : OrForm) → {known : List Int} → {nodes : List OrNode} → F.Defined known →
    SameIds known nodes → Fine nodes → Fine (F.load nodes).2 ∧ Within (F.load nodes).2.length (F.load nodes).1
  | .ref id, known, nodes, hdef, hids, h => by
    refine ⟨h, ?_⟩
    cases hget : getORNode nodes id with
    | none => exact absurd ((hids id).1 hdef) (getORNode_eq_none.1 hget)
    | some i => exact ⟨i, hget, getORNode_lt hget⟩
  | .node id [], _, _, hdef, _, _ => absurd rfl hdef.1
  | .node id (a :: as), known, nodes, hdef, hids, h => by
    obtain ⟨hfine, hchildren⟩ := a.fine hdef.2.1 hids h
    have hspec := addNodeById_spec (a.load nodes).2 (a.load nodes).1 id
    exact loadAlternatives_fine id as hdef.2.2 ((a.sameIds hids).add _ id) (hfine.add hchildren id)
      ⟨_, rfl, getORNode_lt hspec.2.1⟩

theorem AndForm.fine : (A : AndForm) → {known : List Int} → {nodes : List OrNode} → A.Defined known →
    SameIds known nodes → Fine nodes →
    Fine (A.load nodes).2 ∧ ∀ p ∈ (A.load nodes).1.children, Within (A.load nodes).2.length p
  | .leaf _, _, _, _, _, h => ⟨h, fun _ hp => nomatch hp⟩
  | .node _ cs, _, _, hdef, hids, h => loadChildren_fine cs hdef hids h

theorem loadAlternatives_fine (id : Int) : (as : List AndForm) → {known : List Int} → {nodes : List OrNode} →
    {p : Option Nat} → definedAlternatives id as known → SameIds known nodes → Fine nodes → Within nodes.length p →
    Fine (loadAlternatives id p as nodes).2 ∧
      Within (loadAlternatives id p as nodes).2.length (loadAlternatives id p as nodes).1
  | [], _, _, _, _, _, h, hp => ⟨h, hp⟩
  | a :: as, known, nodes, p, hdef, hids, h, hp => by
    obtain ⟨hfine, hchildren⟩ := a.fine hdef.1 hids h
    have hspec := addNodeById_spec (a.load nodes).2 (a.load nodes).1 id
    exact loadAlternatives_fine id as hdef.2 ((a.sameIds hids).add _ id) (hfine.add hchildren id)
      ⟨_, rfl, getORNode_lt hspec.2.1⟩

theorem loadChildren_fine : (cs : List OrForm) → {known : List Int} → {nodes : List OrNode} →
    definedChildren cs known → SameIds known nodes → Fine nodes →
    Fine (loadChildren cs nodes).2 ∧ ∀ p ∈ (loadChildren cs nodes).1, Within (loadChildren cs nodes).2.length p
  | [], _, _, _, _, h => ⟨h, fun _ hp => nomatch hp⟩
  | c :: cs, known, nodes, hdef, hids, h => by
    obtain ⟨hfine, hp⟩ := c.fine hdef.1 hids h
    obtain ⟨hfine', hps⟩ := loadChildren_fine cs hdef.2 (c.sameIds hids) hfine
    exact ⟨hfine', forall_mem_cons.2 ⟨hp.mono (loadChildren_extends cs _).length_le, hps⟩⟩

end

theorem Fine.sound {root : Option Nat} (h : Fine nodes) (hroot : Within nodes.length root) :
    PackedForest.Sound ⟨nodes, root⟩ := by
  have hreach : ∀ p, Reachable ⟨nodes, root⟩ p → Within nodes.length p := by
    intro p hp
    induction hp with
    | root => exact hroot
    | child _ hn ha hp _ => exact h.within _ (mem_of_getElem? hn) _ ha _ hp
  refine .inr fun p hp => ?_
  obtain ⟨i, hi, hlt⟩ := hreach p hp
  exact ⟨i, nodes[i], hi, getElem?_eq_getElem hlt, h.nonempty _ (getElem_mem hlt)⟩

/-! ## Where no pointer is null, every reference is defined -/

theorem Closed.children {S : Nat → Prop} (hS : Closed nodes' S) (hext : Extends nodes nodes') {n : OrNode} (hi : S i)
    (hn : nodes[i]? = some n) (ha : a ∈ n.alternatives) : ∀ p ∈ a.children, ∃ k, p = some k ∧ S k := by
  obtain ⟨n', hn', -, hpre⟩ := hext i n hn
  obtain ⟨m, hm, -, hclosed⟩ := hS i hi
  obtain ⟨j, hj, rfl⟩ := mem_iff_getElem.1 (hpre.subset ha)
  have hlen : m = n'.alternatives.length := by
    rw [count, hn'] at hm
    exact (Option.some.inj hm).symm
  exact hclosed j (hlen ▸ hj) _ (by simp [kids, andNode?, hn', hj])

/-- An OR node that has been found is found again, and gets the alternatives that follow. -/
theorem loadAlternatives_fst (id : Int) : (as : List AndForm) → {nodes : List OrNode} → {i : Nat} →
    getORNode nodes id = some i → (loadAlternatives id (some i) as nodes).1 = some i
  | [], _, _, _ => rfl
  | a :: as, nodes, i, h => by
    obtain ⟨hext, hget, -, -⟩ := addNodeById_spec (a.load nodes).2 (a.load nodes).1 id
    have hagain := ((a.load_extends nodes).trans hext).getORNode_eq h
    have hsame : (addNodeById (a.load nodes).2 (a.load nodes).1 id).1 = i :=
      Option.mem_unique hget hagain
    rw [loadAlternatives, hsame]
    exact loadAlternatives_fst id as hagain

section

variable {S : Nat → Prop}

mutual

theorem OrForm.defined_of_closed : (F : OrForm) → {known : List Int} → {nodes nodes' : List OrNode} →
    Closed nodes' S → Extends (F.load nodes).2 nodes' → SameIds known nodes →
    (∃ i, (F.load nodes).1 = some i ∧ S i) → F.Defined known
  | .ref id, known, nodes, nodes', hS, hext, hids, hp => by
    obtain ⟨i, hi, -⟩ := hp
    obtain ⟨⟨n, hn, hid⟩, -⟩ := getORNode_eq_some.1 hi
    exact (hids id).2 (hid ▸ mem_map_of_mem (mem_of_getElem? hn))
  | .node id [], _, _, _, _, _, _, hp => nomatch hp.choose_spec.1
  | .node id (a :: as), known, nodes, nodes', hS, hext, hids, hp =>
    ⟨cons_ne_nil a as, definedAlternatives_of_closed id none (a :: as) hS hext hids hp⟩

theorem AndForm.defined_of_closed : (A : AndForm) → {known : List Int} → {nodes nodes' : List OrNode} →
    Closed nodes' S → Extends (A.load nodes).2 nodes' → SameIds known nodes →
    (∀ p ∈ (A.load nodes).1.children, ∃ i, p = some i ∧ S i) → A.Defined known
  | .leaf _, _, _, _, _, _, _, _ => trivial
  | .node _ cs, _, _, _, hS, hext, hids, hp => definedChildren_of_closed cs hS hext hids hp

theorem definedAlternatives_of_closed (id : Int) (p : Option Nat) : (as : List AndForm) → {known : List Int} →
    {nodes nodes' : List OrNode} → Closed nodes' S → Extends (loadAlternatives id p as nodes).2 nodes' →
    SameIds known nodes → (∃ i, (loadAlternatives id p as nodes).1 = some i ∧ S i) → definedAlternatives id as known
  | [], _, _, _, _, _, _, _ => trivial
  | a :: as, known, nodes, nodes', hS, hext, hids, hp => by
    obtain ⟨hadd, hget, ⟨n, hn, ha⟩, -⟩ := addNodeById_spec (a.load nodes).2 (a.load nodes).1 id
    have hrest := (loadAlternatives_extends id
      (some (addNodeById (a.load nodes).2 (a.load nodes).1 id).1) as _).trans hext
    obtain ⟨i, hi, hSi⟩ := hp
    rw [loadAlternatives, loadAlternatives_fst id as hget] at hi
    have hSr : S (addNodeById (a.load nodes).2 (a.load nodes).1 id).1 := (Option.some.inj hi).symm ▸ hSi
    refine ⟨a.defined_of_closed hS (hadd.trans hrest) hids (hS.children hrest hSr hn ha), ?_⟩
    exact definedAlternatives_of_closed id _ as hS hext ((a.sameIds hids).add _ id)
      ⟨_, loadAlternatives_fst id as hget, hSr⟩

theorem definedChildren_of_closed : (cs : List OrForm) → {known : List Int} → {nodes nodes' : List OrNode} →
    Closed nodes' S → Extends (loadChildren cs nodes).2 nodes' → SameIds known nodes →
    (∀ p ∈ (loadChildren cs nodes).1, ∃ i, p = some i ∧ S i) → definedChildren cs known
  | [], _, _, _, _, _, _, _ => trivial
  | c :: cs, known, nodes, nodes', hS, hext, hids, hp => by
    obtain ⟨hfirst, hrest⟩ := forall_mem_cons.1 hp
    exact ⟨c.defined_of_closed hS ((loadChildren_extends cs _).trans hext) hids hfirst,
      definedChildren_of_closed cs hS hext (c.sameIds hids) hrest⟩

end

end

/-! ## The whole run -/

/-- The text begins with a null root, goes wrong where an OR node is due before it ends, or begins with an OR node
whose references are all to ids that have been met. -/
def Readable (text : Text) : Prop := text.head? = some '0' ∨ Breaks .node text ∨
  ∃ (F : OrForm) (r : Text), F.Spells text r ∧ F.Defined []

/-- With enough fuel the run returns, so it has not followed a null pointer, and leaves no null pointer behind. -/
def GetsSafely (junk : Junk) (text : Text) : Prop := ∃ N, ∀ fuel, N ≤ fuel →
  ∃ forest, get junk fuel .empty text = .ok forest ∧ forest.Sound

variable {junk : Junk} {text : Text} {fuel : Nat} {forest : PackedForest}

theorem get_of_ne_nil (h : text ≠ []) (h0 : text.head? ≠ some '0') :
    get junk fuel forest text = match readOrNode junk fuel (reading text) forest.nodes with
      | .error (.formatError nodes) => .ok { nodes := nodes, root := none }
      | .error e => .error e
      | .ok (orNode, _, nodes) =>
        match computeSpans fuel { nodes := nodes, root := orNode } with
        | .error e => .error e
        | .ok nodes =>
          (OrNode.copyUp nodes fuel orNode ⟨fun _ => false, fun _ => false⟩).map fun _ => ⟨nodes, orNode⟩ := by
  rw [get, ← Prod.mk.eta (p := (reading text).peek), peek_reading, peek_reading_snd h]
  exact if_neg h0

/-- What is read from a form whose references are defined is walked over. -/
theorem get_of_spells {F : OrForm} {r : Text} (hF : F.Spells text r) (hdef : F.Defined []) (h0 : text.head? ≠ some '0') :
    ∃ N, ∀ fuel, N ≤ fuel → ∃ nodes, get junk fuel .empty text = .ok ⟨nodes, (F.load []).1⟩ ∧
      bareNodes nodes = bareNodes (F.load []).2 ∧ PackedForest.Sound ⟨nodes, (F.load []).1⟩ := by
  have hne : text ≠ [] := ne_nil_of_length_pos (Nat.lt_of_le_of_lt (Nat.zero_le _) hF.length_lt)
  obtain ⟨hfine, hroot⟩ := F.fine hdef (fun k => Iff.rfl) .nil
  have hsound : PackedForest.Sound ⟨(F.load []).2, (F.load []).1⟩ := hfine.sound hroot
  obtain ⟨i, hi, -⟩ := hroot
  refine ⟨text.length + (places (F.load []).2).card + (F.load []).2.length + 1, fun fuel hfuel => ?_⟩
  obtain ⟨nodes, hspans, st, hcopy⟩ := walks_of_sound hi hsound
    (show (places (F.load []).2).card + (F.load []).2.length < fuel by omega)
  have hbare := (sound_of_computeSpans hspans).1
  refine ⟨nodes, ?_, hbare, hsound.congr hbare.symm⟩
  rw [get_of_ne_nil hne h0, show PackedForest.empty.nodes = [] from rfl, hF.read (by omega)]
  dsimp only
  rw [hspans, hi]
  dsimp only
  rw [hcopy]
  rfl

theorem get_of_breaks (h : Breaks .node text) (hfuel : text.length < fuel) (h0 : text.head? ≠ some '0') :
    ∃ nodes, get junk fuel forest text = .ok ⟨nodes, none⟩ := by
  obtain ⟨nodes, hrun⟩ := throws_of_breaks h fuel forest.nodes hfuel
  rw [get_of_ne_nil h.ne_nil h0, hrun]
  exact ⟨nodes, rfl⟩

theorem get_nil : get junk fuel forest [] ≠ .ok forest' := by
  cases fuel <;> nofun

/-- What a run that returns has read, and what it leaves behind. -/
theorem get_inv (h : get junk fuel .empty text = .ok forest) :
    (forest.root = none ∧ (text.head? = some '0' ∨ Breaks .node text)) ∨
      ∃ (F : OrForm) (r : Text), F.Spells text r ∧ F.Defined [] ∧ forest.root = (F.load []).1 ∧
        bareNodes forest.nodes = bareNodes (F.load []).2 ∧ forest.Sound := by
  by_cases hne : text = []
  · exact absurd (hne ▸ h) get_nil
  by_cases h0 : text.head? = some '0'
  · obtain ⟨r, rfl⟩ := head?_eq_some_iff.1 h0
    obtain rfl := Except.ok.inj h
    exact .inl ⟨rfl, .inl h0⟩
  rw [get_of_ne_nil hne h0] at h
  obtain ⟨hok, hbreak⟩ := readOrNode_sound junk fuel text PackedForest.empty.nodes
  cases hrun : readOrNode junk fuel (reading text) PackedForest.empty.nodes with
  | error e =>
    rw [hrun] at h
    cases e with
    | formatError nodes =>
      obtain rfl := Except.ok.inj h
      exact .inl ⟨rfl, .inr (hbreak nodes hrun)⟩
    | nullDeref => cases h
    | assertion => cases h
    | unfinished => cases h
  | ok result =>
    obtain ⟨p, s, nodes⟩ := result
    rw [hrun] at h
    dsimp only at h
    cases hspans : computeSpans fuel ⟨nodes, p⟩ with
    | error e =>
      rw [hspans] at h
      cases h
    | ok nodes' =>
      obtain ⟨hbare, hsound⟩ := sound_of_computeSpans hspans
      rw [hspans] at h
      cases p with
      | none => cases fuel <;> cases h
      | some i =>
        rcases hok _ _ _ hrun with ⟨-, hnone⟩ | ⟨F, r, hF, -, hload⟩
        · cases hnone
        obtain ⟨hp, hnodes⟩ := Prod.mk.inj hload
        have hreach : ∀ p, Reachable ⟨nodes, some i⟩ p →
            ∃ (j : Nat) (n : OrNode), p = some j ∧ nodes[j]? = some n ∧ n.alternatives ≠ [] :=
          hsound.resolve_left nofun
        have hdef : F.Defined [] := F.defined_of_closed (reachable_closed hreach) (hnodes ▸ .refl nodes)
          (fun k => Iff.rfl) ⟨i, hp.symm, .root⟩
        refine .inr ⟨F, r, hF, hdef, ?_⟩
        dsimp only at h
        cases hcopy : OrNode.copyUp nodes' fuel (some i) ⟨fun _ => false, fun _ => false⟩ with
        | error e =>
          rw [hcopy] at h
          cases h
        | ok st =>
          rw [hcopy] at h
          obtain rfl := Except.ok.inj h
          exact ⟨hp, hbare.trans (congrArg bareNodes hnodes), hsound.congr hbare.symm⟩

/-- **`get` returns with a null root or a sound one exactly where the text is readable.** -/
theorem getsSafely_iff (junk : Junk) (text : Text) : GetsSafely junk text ↔ Readable text := by
  constructor
  · rintro ⟨N, h⟩
    obtain ⟨forest, hrun, -⟩ := h N (Nat.le_refl N)
    rcases get_inv hrun with ⟨-, h0 | hbreak⟩ | ⟨F, r, hF, hdef, -⟩
    · exact .inl h0
    · exact .inr (.inl hbreak)
    · exact .inr (.inr ⟨F, r, hF, hdef⟩)
  · intro h
    by_cases h0 : text.head? = some '0'
    · obtain ⟨r, rfl⟩ := head?_eq_some_iff.1 h0
      exact ⟨0, fun fuel _ => ⟨⟨[], none⟩, rfl, .inl rfl⟩⟩
    rcases h.resolve_left h0 with hbreak | ⟨F, r, hF, hdef⟩
    · refine ⟨text.length + 1, fun fuel hfuel => ?_⟩
      obtain ⟨nodes, hrun⟩ := get_of_breaks hbreak hfuel h0
      exact ⟨_, hrun, .inl rfl⟩
    · obtain ⟨N, hN⟩ := get_of_spells hF hdef h0
      refine ⟨N, fun fuel hfuel => ?_⟩
      obtain ⟨nodes, hrun, -, hsound⟩ := hN fuel hfuel
      exact ⟨_, hrun, hsound⟩

theorem readLeaf_of_notMem {t : Text} {k : Nat} {ch : Char} {label : Text} (h : ')' ∉ t) :
    readLeaf k ch label (reading t) = .error .unfinished := by
  induction k generalizing t ch label with
  | zero => rfl
  | succ k ih =>
    have hhead : t.head? ≠ some ')' := fun hhead => h (mem_of_mem_head? hhead)
    rw [readLeaf, peek_reading, if_neg hhead]
    cases ht : t.dropWhile isSpace with
    | nil =>
      have hgood : ((reading t).peek.2.getChar ch).2.good = false := by
        cases t with
        | nil => rfl
        | cons c t => rw [peek_cons, getChar_exhausted ht]; exact good_failed
      exact readLeaf_of_not_good hgood
    | cons c u =>
      have hne : t ≠ [] := by rintro rfl; cases ht
      rw [peek_reading_snd hne, getChar_reading ht]
      exact ih fun hu => h ((dropWhile_suffix _).subset (ht ▸ mem_cons_of_mem c hu))

/-- A text that ends within a word: `while (in.peek() != ')')` goes on for ever. -/
theorem get_truncated (junk : Junk) (fuel : Nat) :
    get junk fuel .empty ['(', '#', '1', ' ', 'x'] = .error .unfinished := by
  have hopen : Opens ['(', '#', '1', ' ', 'x'] 1 [' ', 'x'] :=
    ⟨['1', ' ', 'x'], ⟨['#', '1', ' ', 'x'], rfl, rfl⟩, by decide, by decide, by decide⟩
  rw [get_of_ne_nil (cons_ne_nil _ _) (by decide)]
  cases fuel with
  | zero => rfl
  | succ fuel =>
    have hskip : skip [' ', 'x'] = ['x'] := rfl
    rw [readOrNode_of_opens hopen, skipBlanks_reading (by rw [hskip]; exact cons_ne_nil _ _), hskip]
    cases fuel with
    | zero => rfl
    | succ fuel =>
      have hleaf : readLeaf (fuel + 1) junk.ch [] (reading ['x']) = .error .unfinished := readLeaf_of_notMem (by decide)
      have hand : readAndNode junk (readOrNode junk (fuel + 1)) (fuel + 1) (reading ['x']) PackedForest.empty.nodes =
          .error .unfinished := by
        rw [readAndNode, skipBlanks_reading (t := ['x']) (cons_ne_nil _ _), show skip ['x'] = ['x'] from rfl]
        simp [hleaf]
      rw [if_neg (by decide), peek_cons, readAlternatives, if_neg (by decide), peek_cons, hand]

/-- The empty text, where `orNode->copyUp()` is called through the null pointer that the end of the text gives, and a
text that ends within a word. -/
theorem not_getsSafely : ¬ GetsSafely ⟨'(', 0⟩ [] ∧ ¬ GetsSafely ⟨'(', 0⟩ ['(', '#', '1', ' ', 'x'] := by
  refine ⟨?_, ?_⟩ <;> rintro ⟨N, h⟩ <;> obtain ⟨forest, hrun, -⟩ := h N (Nat.le_refl N)
  · exact get_nil hrun
  · rw [get_truncated] at hrun
    cases hrun

end Sbmt.Ghkm.ForestText
