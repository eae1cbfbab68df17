import Sbmt.Carmel.Wfst
import Sbmt.Lib.Assoc
import Sbmt.Lib.Interleave
import Sbmt.Lib.Worklist

/-!
# Composition of transducers

| here | there |
| --- | --- |
| `Transducer` | a valid `WFST` with its two alphabets |
| `threeState` | the loops of the 3 state filter (`carmel/src/compose.cc:301-477`): `leftLoop` with `b` indexed or neither, `rightLoop` with `a` indexed |
| `twoState` | the loops of the 2 state filter, with the mediate states (`:216-300`) |
| `Table.addArc` | `COMPOSEARC_GROUP` (`:127-135`), and the population of a new mediate state (`:254-281`) |

Each list is the `COMPOSEARC`s of a state in the order the loops come to them. A
hash table is walked in the order its keys were entered. `record` stands for
`cascade.record1`, `record2` and `record`, which give the group of an arc.
-/

namespace Sbmt.Carmel

open Sbmt.Lib List

/-- The names of the symbols; `*e*` is the first of every alphabet. -/
structure Alphabet where
  names : List String
  nodup : names.Nodup
  epsilon : names[epsilonIndex]? = some "*e*"

/-- The symbol of the other alphabet with the same name; -1 is `none`. -/
def Alphabet.mapTo (x o : Alphabet) (i : Nat) : Option Nat := (x.names[i]?).bind fun name => o.names.idxOf? name

structure Transducer (W : Type) extends Wfst W where
  inAlph : Alphabet
  outAlph : Alphabet
  inp_lt : ∀ arcs ∈ states, ∀ a ∈ arcs, a.inp < inAlph.names.length
  out_lt : ∀ arcs ∈ states, ∀ a ∈ arcs, a.out < outAlph.names.length

/-- A pointer to an arc, with the arc it points to. -/
structure HalfArc (W : Type) where
  ptr : ArcPtr
  arc : FSTArc W

variable {W : Type}

/-- The arcs of a state. -/
def Wfst.halfArcs (x : Wfst W) (s : Nat) : List (HalfArc W) := (x.arcs s).zipIdx.map fun p => ⟨⟨s, p.2⟩, p.1⟩

/-- Each arc goes to the front of the list of its label. -/
def indexBy (label : FSTArc W → Nat) (hs : List (HalfArc W)) : List (Nat × List (HalfArc W)) :=
  hs.foldl (fun index h => upsert (label h.arc) (fun l => h :: l.getD []) index) []

structure TrioKey where
  aState : Nat
  bState : Nat
  filter : Fin 3
deriving DecidableEq

/-- The letter that disappears is an index into the output alphabet of `a`, and is not empty. -/
structure HalfArcState where
  lDest : Nat
  rSource : Nat
  lHiddenLetter : Nat
  letter : lHiddenLetter ≠ epsilonIndex
deriving DecidableEq

/-- What an arc of the composition is made of: an arc of `a`, one of `b`, or one of each. -/
abbrev Origin (W : Type) := Joint (HalfArc W) (HalfArc W)

section Loops

variable (a b : Transducer W) (index : List (Nat × List (HalfArc W)))

/-- The arcs of `b` that read what an arc of `a` writes, looked up in the index of a state of `b`. -/
def matchesB (letter : Nat) : List (HalfArc W) :=
  ((a.outAlph.mapTo b.inAlph letter).bind fun i => find i index).getD []

def matchesA (letter : Nat) : List (HalfArc W) :=
  ((b.inAlph.mapTo a.outAlph letter).bind fun i => find i index).getD []

variable (key : TrioKey)

/-- Over the arcs of `a`: `epsilons` are the arcs of `b` with empty input, `answers` those for a letter. -/
def leftLoop (ls : List (HalfArc W)) (epsilons : List (HalfArc W)) (answers : Nat → List (HalfArc W)) :
    List (Origin W × TrioKey) :=
  (ls.flatMap fun l =>
    if l.arc.out = epsilonIndex then
      (if key.filter ≠ 2 then [(.left l, ⟨l.arc.dest, key.bState, 1⟩)] else []) ++
        (if key.filter = 0 then epsilons.map fun r => (.both l r, ⟨l.arc.dest, r.arc.dest, 0⟩) else [])
    else (answers l.arc.out).map fun r => (.both l r, ⟨l.arc.dest, r.arc.dest, 0⟩)) ++
  (if key.filter ≠ 1 then epsilons.map fun r => (.right r, ⟨key.aState, r.arc.dest, 2⟩) else [])

/-- Over the arcs of `b`: `epsilons` are the arcs of `a` with empty output. -/
def rightLoop (rs : List (HalfArc W)) (epsilons : List (HalfArc W)) (answers : Nat → List (HalfArc W)) :
    List (Origin W × TrioKey) :=
  (rs.flatMap fun r =>
    if r.arc.inp = epsilonIndex then
      (if key.filter ≠ 1 then [(.right r, ⟨key.aState, r.arc.dest, 2⟩)] else []) ++
        (if key.filter = 0 then epsilons.map fun l => (.both l r, ⟨l.arc.dest, r.arc.dest, 0⟩) else [])
    else (answers r.arc.inp).map fun l => (.both l r, ⟨l.arc.dest, r.arc.dest, 0⟩)) ++
  (if key.filter ≠ 2 then epsilons.map fun l => (.left l, ⟨l.arc.dest, key.bState, 1⟩) else [])

/-- The arcs that leave a state of the composition under the 3 state filter. -/
def threeState (indexThreshold : Nat) (key : TrioKey) : List (Origin W × TrioKey) :=
  let ls := a.halfArcs key.aState
  let rs := b.halfArcs key.bState
  if ls.length > rs.length then
    -- `aState` is the larger
    if ls.length > indexThreshold then
      let index := indexBy FSTArc.out ls
      rightLoop key rs ((find epsilonIndex index).getD []) (matchesA a b index)
    else
      leftLoop key ls (rs.filter fun r => r.arc.inp = epsilonIndex)
        fun c => rs.filter fun r => a.outAlph.mapTo b.inAlph c = some r.arc.inp
  else
    if rs.length > indexThreshold then
      let index := indexBy FSTArc.inp rs
      leftLoop key ls ((find epsilonIndex index).getD []) (matchesB a b index)
    else
      leftLoop key ls (rs.filter fun r => r.arc.inp = epsilonIndex)
        fun c => rs.filter fun r => a.outAlph.mapTo b.inAlph c = some r.arc.inp

/-- Over the arcs of `a` that write one letter: each to its mediate state, if the letter has a match. -/
def letterArcs (bIndex : List (Nat × List (HalfArc W))) (ll : Nat × List (HalfArc W)) :
    List (Origin W × (TrioKey ⊕ HalfArcState)) :=
  if h : ll.1 = epsilonIndex then
    (if key.filter = 0 then ll.2.map fun l => (.left l, .inl ⟨l.arc.dest, key.bState, 0⟩) else [])
  else
    match (a.outAlph.mapTo b.inAlph ll.1).bind fun i => find i bIndex with
    | none => []
    | some _ => ll.2.map fun l => (.left l, .inr ⟨l.arc.dest, key.bState, ll.1, h⟩)

/-- The arcs that leave a state of the composition under the 2 state filter. -/
def twoStateTrio : List (Origin W × (TrioKey ⊕ HalfArcState)) :=
  let aIndex := indexBy FSTArc.out (a.halfArcs key.aState)
  let bIndex := indexBy FSTArc.inp (b.halfArcs key.bState)
  aIndex.flatMap (letterArcs a b key bIndex) ++
    ((find epsilonIndex bIndex).getD []).map fun r => (.right r, .inl ⟨key.aState, r.arc.dest, 1⟩)

/-- The arcs that leave a mediate state. -/
def twoStateMediate (mediate : HalfArcState) : List (Origin W × (TrioKey ⊕ HalfArcState)) :=
  (matchesB a b (indexBy FSTArc.inp (b.halfArcs mediate.rSource)) mediate.lHiddenLetter).map fun r =>
    (.right r, .inl ⟨mediate.lDest, r.arc.dest, 0⟩)

def twoState : TrioKey ⊕ HalfArcState → List (Origin W × (TrioKey ⊕ HalfArcState))
  | .inl key => twoStateTrio a b key
  | .inr mediate => twoStateMediate a b mediate

end Loops

/-! ## Arcs and alphabets -/

/-- The step of a transducer along one of its arcs. -/
def Wfst.Takes (x : Wfst W) (s : Nat) (h : HalfArc W) (t : Nat) : Prop :=
  h.ptr.src = s ∧ x.arc? h.ptr = some h.arc ∧ h.arc.dest = t

theorem mem_halfArcs {x : Wfst W} {s : Nat} {h : HalfArc W} :
    h ∈ x.halfArcs s ↔ h.ptr.src = s ∧ x.arc? h.ptr = some h.arc := by
  unfold Wfst.halfArcs Wfst.arc?
  rw [mem_map]
  constructor
  · rintro ⟨p, hp, rfl⟩
    exact ⟨rfl, mem_zipIdx_iff_getElem?.1 hp⟩
  · rintro ⟨rfl, harc⟩
    exact ⟨(h.arc, h.ptr.pos), mem_zipIdx_iff_getElem?.2 harc, rfl⟩

theorem mem_halfArcs_takes {x : Wfst W} {s : Nat} {h : HalfArc W} : h ∈ x.halfArcs s ↔ x.Takes s h h.arc.dest := by
  rw [mem_halfArcs]
  unfold Wfst.Takes
  simp

theorem halfArcs_nodup (x : Wfst W) (s : Nat) : (x.halfArcs s).Nodup := by
  refine Nodup.of_map (fun h => h.ptr.pos) ?_
  unfold Wfst.halfArcs
  rw [map_map]
  show ((x.arcs s).zipIdx.map Prod.snd).Nodup
  rw [zipIdx_map_snd]
  exact nodup_range'

variable {i j : Nat} {x o : Alphabet}

theorem mapTo_eq_some : x.mapTo o i = some j ↔ ∃ name, x.names[i]? = some name ∧ o.names[j]? = some name := by
  unfold Alphabet.mapTo
  rw [Option.bind_eq_some_iff]
  exact exists_congr fun name => and_congr_right fun _ => idxOf?_eq_some o.nodup

theorem mapTo_comm : x.mapTo o i = some j ↔ o.mapTo x j = some i := by
  rw [mapTo_eq_some, mapTo_eq_some]
  exact exists_congr fun _ => and_comm

/-- Only the empty symbol has the name of the empty symbol. -/
theorem mapTo_epsilon (h : x.mapTo o i = some j) (hi : i = epsilonIndex) : j = epsilonIndex := by
  obtain ⟨name, hname, hj⟩ := mapTo_eq_some.1 h
  rw [hi, x.epsilon] at hname
  obtain rfl := Option.some.inj hname
  exact Option.some.inj (((idxOf?_eq_some o.nodup).2 hj).symm.trans ((idxOf?_eq_some o.nodup).2 o.epsilon))

/-! ## The index -/

section

variable (label : FSTArc W → Nat)

variable (hs : List (HalfArc W))
include hs

theorem indexBy_concat (h : HalfArc W) :
    indexBy label (hs ++ [h]) = upsert (label h.arc) (fun l => h :: l.getD []) (indexBy label hs) := by
  unfold indexBy
  rw [foldl_append]
  rfl

theorem getD_find_indexBy (c : Nat) :
    (find c (indexBy label hs)).getD [] = (hs.filter fun h => label h.arc = c).reverse := by
  induction hs using List.reverseRecOn with
  | nil => rfl
  | append_singleton hs h ih =>
    rw [indexBy_concat, find_upsert]
    by_cases hc : c = label h.arc
    · subst hc
      simp [ih]
    · simp [hc, ih, Ne.symm hc]

theorem isSome_find_indexBy (c : Nat) : (find c (indexBy label hs)).isSome ↔ ∃ h ∈ hs, label h.arc = c := by
  induction hs using List.reverseRecOn with
  | nil => simp [indexBy, find]
  | append_singleton hs h ih =>
    rw [indexBy_concat, find_upsert]
    by_cases hc : c = label h.arc
    · simp [hc]
    · simp [hc, ih, Ne.symm hc, or_and_right, exists_or]

theorem nodup_keys_indexBy : ((indexBy label hs).map Prod.fst).Nodup := by
  induction hs using List.reverseRecOn with
  | nil => exact nodup_nil
  | append_singleton hs h ih =>
    rw [indexBy_concat]
    exact nodup_keys_upsert _ ih

end

theorem mem_indexBy {label : FSTArc W → Nat} {hs ms : List (HalfArc W)} {c : Nat} :
    (c, ms) ∈ indexBy label hs ↔ ms = (hs.filter fun h => label h.arc = c).reverse ∧ ∃ h ∈ hs, label h.arc = c := by
  rw [← find_eq_some_iff (nodup_keys_indexBy label hs), ← isSome_find_indexBy, ← getD_find_indexBy]
  cases find c (indexBy label hs) with
  | none => simp
  | some ms' => simp [eq_comm]

/-! ## The steps the loops make -/

theorem nonEpsilon_eq_none {l : Nat} : Wfst.nonEpsilon l = none ↔ l = epsilonIndex := by
  unfold Wfst.nonEpsilon
  split <;> simp_all

theorem nonEpsilon_eq_some {l c : Nat} : Wfst.nonEpsilon l = some c ↔ l ≠ epsilonIndex ∧ l = c := by
  unfold Wfst.nonEpsilon
  split <;> simp_all

/-- The letter an arc of `a` writes. -/
def HalfArc.letterA (h : HalfArc W) : Option Nat := Wfst.nonEpsilon h.arc.out

/-- The letter an arc of `b` reads. -/
def HalfArc.letterB (h : HalfArc W) : Option Nat := Wfst.nonEpsilon h.arc.inp

def TrioKey.trio (key : TrioKey) : Nat × Nat × Fin 3 := (key.aState, key.bState, key.filter)

section Steps

variable (a b : Transducer W)

/-- A letter of `a` and a letter of `b` with the same name. -/
def SameName (c d : Nat) : Prop := a.outAlph.mapTo b.inAlph c = some d

abbrev ThreeStep := Step3 a.Takes b.Takes HalfArc.letterA HalfArc.letterB (SameName a b)

abbrev TwoStep := Step2 a.Takes b.Takes HalfArc.letterA HalfArc.letterB (SameName a b)

variable {a b} {key : TrioKey} {o : Origin W} {key' : TrioKey}

variable {r : HalfArc W} {c : Nat}

/-- An arc of `b` for a letter of `a`. -/
theorem letterB_of_sameName (hc : c ≠ epsilonIndex) (h : SameName a b c r.arc.inp) : r.letterB = some r.arc.inp := by
  refine nonEpsilon_eq_some.2 ⟨?_, rfl⟩
  intro hr
  exact hc (mapTo_epsilon (mapTo_comm.1 h) hr)

variable {l : HalfArc W}

theorem letterA_of_sameName {d : Nat} (hd : d ≠ epsilonIndex) (h : SameName a b l.arc.out d) :
    l.letterA = some l.arc.out := by
  refine nonEpsilon_eq_some.2 ⟨?_, rfl⟩
  intro hl
  exact hd (mapTo_epsilon h hl)

variable {answers : Nat → List (HalfArc W)} {epsilons : List (HalfArc W)}

/-- A loop over the arcs of one side: an arc that is empty to the other side goes alone or with an empty one, another
with each that answers it, and the empty arcs of the other side go alone. -/
theorem mem_loop {xs ys : List (HalfArc W)} {label : HalfArc W → Nat} {alone other : HalfArc W → Origin W × TrioKey}
    {pair : HalfArc W → HalfArc W → Origin W × TrioKey} {z : Origin W × TrioKey} {P Q R : Prop} [Decidable P] [Decidable Q]
    [Decidable R] :
    z ∈ (xs.flatMap fun x =>
        if label x = epsilonIndex then (if P then [alone x] else []) ++ (if R then ys.map (pair x) else [])
        else (answers (label x)).map (pair x)) ++ (if Q then ys.map other else []) ↔
      (∃ x ∈ xs, label x = epsilonIndex ∧ (P ∧ z = alone x ∨ R ∧ ∃ y ∈ ys, pair x y = z) ∨
        label x ≠ epsilonIndex ∧ ∃ y ∈ answers (label x), pair x y = z) ∨ Q ∧ ∃ y ∈ ys, other y = z := by
  simp only [mem_append, mem_flatMap, mem_ite_nil_right, mem_map]
  refine or_congr_left (exists_congr fun x => and_congr_right fun _ => ?_)
  split <;> simp [*]

theorem mem_leftLoop (hepsilons : ∀ r, r ∈ epsilons ↔ b.Takes key.bState r r.arc.dest ∧ r.arc.inp = epsilonIndex)
    (hanswers : ∀ c r, r ∈ answers c ↔ b.Takes key.bState r r.arc.dest ∧ SameName a b c r.arc.inp) :
    (o, key') ∈ leftLoop key (a.halfArcs key.aState) epsilons answers ↔ ThreeStep a b key.trio o key'.trio := by
  obtain ⟨p, q, f⟩ := key
  refine mem_loop.trans ?_
  simp only [mem_halfArcs_takes, hepsilons, hanswers]
  constructor
  · rintro (⟨l, hl, ⟨he, ⟨hf, ⟨⟩⟩ | ⟨rfl, r, ⟨hr, hre⟩, ⟨⟩⟩⟩ | ⟨he, r, ⟨hr, hname⟩, ⟨⟩⟩⟩ | ⟨hf, r, ⟨hr, hre⟩, ⟨⟩⟩)
    · exact .left hl (nonEpsilon_eq_none.2 he) hf
    · exact .silent hl hr (nonEpsilon_eq_none.2 he) (nonEpsilon_eq_none.2 hre)
    · exact .letter hl hr (nonEpsilon_eq_some.2 ⟨he, rfl⟩) (letterB_of_sameName he hname) hname
    · exact .right hr (nonEpsilon_eq_none.2 hre) hf
  · intro h
    obtain ⟨p', q', f'⟩ := key'
    cases h with
    | @left _ _ _ _ l h hl hf =>
      obtain rfl := h.2.2
      exact .inl ⟨l, h, .inl ⟨nonEpsilon_eq_none.1 hl, .inl ⟨hf, rfl⟩⟩⟩
    | @right _ _ _ _ r h hr hf =>
      obtain rfl := h.2.2
      exact .inr ⟨hf, r, ⟨h, nonEpsilon_eq_none.1 hr⟩, rfl⟩
    | @silent _ _ _ _ l r h h' hl hr =>
      obtain ⟨rfl, rfl⟩ := And.intro h.2.2 h'.2.2
      exact .inl ⟨l, h, .inl ⟨nonEpsilon_eq_none.1 hl, .inr ⟨rfl, r, ⟨h', nonEpsilon_eq_none.1 hr⟩, rfl⟩⟩⟩
    | @letter _ _ _ _ _ l r c d h h' hl hr hcd =>
      obtain ⟨rfl, rfl⟩ := And.intro h.2.2 h'.2.2
      obtain ⟨hne, rfl⟩ := nonEpsilon_eq_some.1 hl
      obtain ⟨-, rfl⟩ := nonEpsilon_eq_some.1 hr
      exact .inl ⟨l, h, .inr ⟨hne, r, ⟨h', hcd⟩, rfl⟩⟩

/-- The other loop makes the same steps. -/
theorem mem_rightLoop (hepsilons : ∀ l, l ∈ epsilons ↔ a.Takes key.aState l l.arc.dest ∧ l.arc.out = epsilonIndex)
    (hanswers : ∀ d l, l ∈ answers d ↔ a.Takes key.aState l l.arc.dest ∧ SameName a b l.arc.out d) :
    (o, key') ∈ rightLoop key (b.halfArcs key.bState) epsilons answers ↔ ThreeStep a b key.trio o key'.trio := by
  obtain ⟨p, q, f⟩ := key
  refine mem_loop.trans ?_
  simp only [mem_halfArcs_takes, hepsilons, hanswers]
  constructor
  · rintro (⟨r, hr, ⟨he, ⟨hf, ⟨⟩⟩ | ⟨rfl, l, ⟨hl, hle⟩, ⟨⟩⟩⟩ | ⟨he, l, ⟨hl, hname⟩, ⟨⟩⟩⟩ | ⟨hf, l, ⟨hl, hle⟩, ⟨⟩⟩)
    · exact .right hr (nonEpsilon_eq_none.2 he) hf
    · exact .silent hl hr (nonEpsilon_eq_none.2 hle) (nonEpsilon_eq_none.2 he)
    · exact .letter hl hr (letterA_of_sameName he hname) (nonEpsilon_eq_some.2 ⟨he, rfl⟩) hname
    · exact .left hl (nonEpsilon_eq_none.2 hle) hf
  · intro h
    obtain ⟨p', q', f'⟩ := key'
    cases h with
    | @left _ _ _ _ l h hl hf =>
      obtain rfl := h.2.2
      exact .inr ⟨hf, l, ⟨h, nonEpsilon_eq_none.1 hl⟩, rfl⟩
    | @right _ _ _ _ r h hr hf =>
      obtain rfl := h.2.2
      exact .inl ⟨r, h, .inl ⟨nonEpsilon_eq_none.1 hr, .inl ⟨hf, rfl⟩⟩⟩
    | @silent _ _ _ _ l r h h' hl hr =>
      obtain ⟨rfl, rfl⟩ := And.intro h.2.2 h'.2.2
      exact .inl ⟨r, h', .inl ⟨nonEpsilon_eq_none.1 hr, .inr ⟨rfl, l, ⟨h, nonEpsilon_eq_none.1 hl⟩, rfl⟩⟩⟩
    | @letter _ _ _ _ _ l r c d h h' hl hr hcd =>
      obtain ⟨rfl, rfl⟩ := And.intro h.2.2 h'.2.2
      obtain ⟨-, rfl⟩ := nonEpsilon_eq_some.1 hl
      obtain ⟨hne, rfl⟩ := nonEpsilon_eq_some.1 hr
      exact .inl ⟨r, h', .inr ⟨hne, l, ⟨h, hcd⟩, rfl⟩⟩

variable {h : HalfArc W} {s : Nat} {x : Wfst W} {label : FSTArc W → Nat}

/-- What is looked up in the index of a state. -/
theorem mem_lookup :
    h ∈ (find c (indexBy label (x.halfArcs s))).getD [] ↔ x.Takes s h h.arc.dest ∧ label h.arc = c := by
  rw [getD_find_indexBy, mem_reverse, mem_filter, mem_halfArcs_takes, decide_eq_true_iff]

theorem mem_matchesB {q : Nat} :
    r ∈ matchesB a b (indexBy FSTArc.inp (b.halfArcs q)) c ↔ b.Takes q r r.arc.dest ∧ SameName a b c r.arc.inp := by
  unfold matchesB SameName
  cases a.outAlph.mapTo b.inAlph c with
  | none => simp
  | some d =>
    rw [Option.bind_some, mem_lookup]
    simp [eq_comm]

theorem mem_matchesA {p d : Nat} :
    l ∈ matchesA a b (indexBy FSTArc.out (a.halfArcs p)) d ↔ a.Takes p l l.arc.dest ∧ SameName a b l.arc.out d := by
  unfold matchesA SameName
  rw [mapTo_comm]
  cases b.inAlph.mapTo a.outAlph d with
  | none => simp
  | some c =>
    rw [Option.bind_some, mem_lookup]
    simp [eq_comm]

theorem mem_filter_takes {P : HalfArc W → Prop} [DecidablePred P] :
    h ∈ (x.halfArcs s).filter (fun h => P h) ↔ x.Takes s h h.arc.dest ∧ P h := by
  rw [mem_filter, mem_halfArcs_takes, decide_eq_true_iff]

/-- **The three loops of the 3 state filter make the same steps.** -/
theorem mem_threeState {indexThreshold : Nat} :
    (o, key') ∈ threeState a b indexThreshold key ↔ ThreeStep a b key.trio o key'.trio := by
  unfold threeState
  simp only
  split
  · split
    · exact mem_rightLoop (fun l => mem_lookup) (fun d l => mem_matchesA)
    · exact mem_leftLoop (fun r => mem_filter_takes) (fun c r => mem_filter_takes)
  · split
    · exact mem_leftLoop (fun r => mem_lookup) (fun c r => mem_matchesB)
    · exact mem_leftLoop (fun r => mem_filter_takes) (fun c r => mem_filter_takes)

/-- The state between, or the state of a pair. -/
def between : TrioKey ⊕ HalfArcState → Lib.Between Nat Nat Nat
  | .inl key => .pair key.aState key.bState key.filter
  | .inr mediate => .mediate mediate.lDest mediate.rSource mediate.lHiddenLetter

theorem between_injective : Function.Injective between := by
  intro k k' h
  cases k with
  | inl key =>
    cases k' with
    | inl key' =>
      obtain ⟨p, q, f⟩ := key
      cases h
      rfl
    | inr mediate' => cases h
  | inr mediate =>
    cases k' with
    | inl key' => cases h
    | inr mediate' =>
      obtain ⟨p, q, c, hc⟩ := mediate
      cases h
      rfl

theorem mem_twoState {k k' : TrioKey ⊕ HalfArcState} :
    (o, k') ∈ twoState a b k ↔ TwoStep a b (between k) o (between k') := by
  cases k with
  | inl key =>
    obtain ⟨p, q, f⟩ := key
    unfold twoState twoStateTrio
    simp only [mem_append, mem_flatMap, mem_map]
    constructor
    · rintro (⟨⟨c, ls⟩, hll, hmem⟩ | ⟨r, hr, heq⟩)
      · obtain ⟨rfl, -⟩ := mem_indexBy.1 hll
        unfold letterArcs at hmem
        split at hmem
        · rename_i hempty
          simp only [mem_ite_nil_right, mem_map, mem_reverse, mem_filter_takes] at hmem
          obtain ⟨rfl, l, ⟨hl, hout⟩, heq⟩ := hmem
          cases heq
          exact .left hl (nonEpsilon_eq_none.2 (hout.trans hempty))
        · rename_i hletter
          split at hmem
          · cases hmem
          · rename_i ms hms
            simp only [mem_map, mem_reverse, mem_filter_takes] at hmem
            obtain ⟨l, ⟨hl, rfl⟩, heq⟩ := hmem
            cases heq
            obtain ⟨d, hd, hfind⟩ := Option.bind_eq_some_iff.1 hms
            -- an answer is there, for the letter is in the index of `b`
            obtain ⟨r, hr, rfl⟩ := (isSome_find_indexBy FSTArc.inp _ d).1 (by rw [hfind]; rfl)
            exact .ask hl (nonEpsilon_eq_some.2 ⟨hletter, rfl⟩) (mem_halfArcs_takes.1 hr)
              (letterB_of_sameName hletter hd) hd
      · cases heq
        obtain ⟨htakes, hempty⟩ := mem_lookup.1 hr
        exact .right htakes (nonEpsilon_eq_none.2 hempty)
    · intro h
      obtain ⟨s, hs⟩ : ∃ s, s = between k' := ⟨_, rfl⟩
      rw [← hs] at h
      cases h with
      | @left _ p' _ l h hl =>
        obtain rfl : k' = .inl ⟨p', q, 0⟩ := between_injective hs.symm
        obtain rfl := h.2.2
        have hempty := nonEpsilon_eq_none.1 hl
        refine .inl ⟨_, mem_indexBy.2 ⟨rfl, l, mem_halfArcs_takes.2 h, hempty⟩, ?_⟩
        unfold letterArcs
        rw [dif_pos rfl, mem_ite_nil_right]
        exact ⟨rfl, mem_map.2 ⟨l, mem_reverse.2 (mem_filter_takes.2 ⟨h, hempty⟩), rfl⟩⟩
      | @right _ _ q' _ r h hr =>
        obtain rfl : k' = .inl ⟨p, q', 1⟩ := between_injective hs.symm
        obtain rfl := h.2.2
        exact .inr ⟨r, mem_lookup.2 ⟨h, nonEpsilon_eq_none.1 hr⟩, rfl⟩
      | @ask _ p' _ _ _ l r c d h hl h' hr hcd =>
        obtain ⟨hletter, rfl⟩ := nonEpsilon_eq_some.1 hl
        obtain ⟨-, rfl⟩ := nonEpsilon_eq_some.1 hr
        obtain rfl : k' = .inr ⟨p', q, l.arc.out, hletter⟩ := between_injective hs.symm
        obtain rfl := h.2.2
        obtain rfl := h'.2.2
        refine .inl ⟨_, mem_indexBy.2 ⟨rfl, l, mem_halfArcs_takes.2 h, rfl⟩, ?_⟩
        obtain ⟨ms, hms⟩ := Option.isSome_iff_exists.1
          ((isSome_find_indexBy FSTArc.inp (b.halfArcs q) r.arc.inp).2 ⟨r, mem_halfArcs_takes.2 h', rfl⟩)
        have hfind : (a.outAlph.mapTo b.inAlph l.arc.out).bind (fun i => find i (indexBy FSTArc.inp (b.halfArcs q))) =
            some ms := by
          rw [show a.outAlph.mapTo b.inAlph l.arc.out = some r.arc.inp from hcd]
          exact hms
        unfold letterArcs
        rw [dif_neg hletter]
        simp only [hfind]
        exact mem_map.2 ⟨l, mem_reverse.2 (mem_filter_takes.2 ⟨h, rfl⟩), rfl⟩
  | inr mediate =>
    obtain ⟨p, q, c, hc⟩ := mediate
    unfold twoState twoStateMediate
    rw [mem_map]
    constructor
    · rintro ⟨r, hr, heq⟩
      cases heq
      obtain ⟨htakes, hname⟩ := mem_matchesB.1 hr
      exact .answer htakes (letterB_of_sameName hc hname) hname
    · intro h
      obtain ⟨s, hs⟩ : ∃ s, s = between k' := ⟨_, rfl⟩
      rw [← hs] at h
      cases h with
      | @answer _ _ q' _ r d h hr hcd =>
        obtain ⟨-, rfl⟩ := nonEpsilon_eq_some.1 hr
        obtain rfl : k' = .inl ⟨p, q', 0⟩ := between_injective hs.symm
        obtain rfl := h.2.2
        exact ⟨r, mem_matchesB.2 ⟨h, hcd⟩, rfl⟩

/-! ## No two arcs of a state have one origin -/

/-- Blocks that are told apart by a tag. -/
theorem nodup_flatMap_of_tag {α β γ : Type*} {ls : List α} {f : α → List β} (tag : β → γ) (key : α → γ)
    (hls : (ls.map key).Nodup) (hf : ∀ l ∈ ls, (f l).Nodup) (htag : ∀ l ∈ ls, ∀ x ∈ f l, tag x = key l) :
    (ls.flatMap f).Nodup := by
  rw [nodup_flatMap]
  refine ⟨hf, ?_⟩
  have hpairs : ls.Pairwise fun l l' => key l ≠ key l' := pairwise_map.1 hls
  refine hpairs.imp_of_mem ?_
  intro l l' hl hl' hne x hx hx'
  exact hne ((htag l hl x hx).symm.trans (htag l' hl' x hx'))

variable {P : Prop}

theorem nodup_ite {α : Type*} [Decidable P] {l : List α} (h : l.Nodup) : (if P then l else []).Nodup := by
  split
  · exact h
  · exact nodup_nil

variable {ls : List (HalfArc W)}

theorem nodup_map_left (h : ls.Nodup) : (ls.map (Joint.left : HalfArc W → Origin W)).Nodup :=
  h.map fun _ _ heq => Joint.left.inj heq

theorem nodup_map_right {rs : List (HalfArc W)} (h : rs.Nodup) :
    (rs.map (Joint.right : HalfArc W → Origin W)).Nodup := h.map fun _ _ heq => Joint.right.inj heq

/-- The origins of a loop: a block for each arc it goes over, then the silent arcs of the other side. -/
theorem nodup_blocks {block : HalfArc W → List (Origin W)}
    (tag : Origin W → Option (HalfArc W)) {other : HalfArc W → Origin W} [Decidable P] (hls : ls.Nodup)
    (hblock : ∀ l, (block l).Nodup) (htag : ∀ l, ∀ o ∈ block l, tag o = some l)
    (hother : (epsilons.map other).Nodup) (hnone : ∀ r, tag (other r) = none) :
    (ls.flatMap block ++ (if P then epsilons.map other else [])).Nodup := by
  refine nodup_append.2 ⟨?_, nodup_ite hother, ?_⟩
  · exact nodup_flatMap_of_tag tag some (hls.map (Option.some_injective _)) (fun l _ => hblock l) (fun l _ => htag l)
  · intro o ho o' ho' heq
    obtain ⟨l, -, hol⟩ := mem_flatMap.1 ho
    obtain ⟨-, r, -, rfl⟩ := by simpa only [mem_ite_nil_right, mem_map] using ho'
    have hsome := htag l o hol
    rw [heq, hnone r] at hsome
    cases hsome

/-- A block: the arc alone, and the arc with each of the silent ones, or with each that has its letter. -/
theorem nodup_block {answers : List (HalfArc W)} {alone : Origin W} {pair : HalfArc W → Origin W} {Q R : Prop}
    [Decidable P] [Decidable Q] [Decidable R] (hpair : Function.Injective pair) (halone : ∀ r, alone ≠ pair r)
    (hepsilons : epsilons.Nodup) (hanswers : answers.Nodup) :
    (if P then (if Q then [alone] else []) ++ (if R then epsilons.map pair else []) else answers.map pair).Nodup := by
  split
  · refine nodup_append.2 ⟨nodup_ite (nodup_singleton _), nodup_ite (hepsilons.map hpair), ?_⟩
    intro o ho o' ho' heq
    obtain ⟨-, rfl⟩ := by simpa only [mem_ite_nil_right, mem_singleton] using ho
    obtain ⟨-, r, -, rfl⟩ := by simpa only [mem_ite_nil_right, mem_map] using ho'
    exact halone r heq
  · exact hanswers.map hpair

theorem mem_block {answers : List (HalfArc W)} {alone : Origin W} {pair : HalfArc W → Origin W} {Q R : Prop}
    [Decidable P] [Decidable Q] [Decidable R]
    (ho : o ∈ if P then (if Q then [alone] else []) ++ (if R then epsilons.map pair else []) else answers.map pair) :
    o = alone ∨ ∃ r, o = pair r := by
  split at ho
  · rcases mem_append.1 ho with ho | ho
    · exact .inl (mem_singleton.1 (mem_ite_nil_right.1 ho).2)
    · obtain ⟨r, -, rfl⟩ := mem_map.1 (mem_ite_nil_right.1 ho).2
      exact .inr ⟨r, rfl⟩
  · obtain ⟨r, -, rfl⟩ := mem_map.1 ho
    exact .inr ⟨r, rfl⟩

theorem nodup_leftLoop (hls : ls.Nodup) (hepsilons : epsilons.Nodup) (hanswers : ∀ c, (answers c).Nodup) :
    ((leftLoop key ls epsilons answers).map Prod.fst).Nodup := by
  unfold leftLoop
  simp only [map_append, map_flatMap, apply_ite (List.map Prod.fst), map_map, map_nil,
    map_cons, Function.comp_def]
  refine nodup_blocks Joint.left? hls ?_ ?_ (nodup_map_right hepsilons) (fun _ => rfl)
  · intro l
    refine nodup_block (fun _ _ heq => (Joint.both.inj heq).2) ?_ hepsilons (hanswers _)
    intro r heq
    cases heq
  · intro l o ho
    rcases mem_block ho with rfl | ⟨r, rfl⟩
    · rfl
    · rfl

theorem nodup_rightLoop {rs : List (HalfArc W)} (hrs : rs.Nodup)
    (hepsilons : epsilons.Nodup) (hanswers : ∀ d, (answers d).Nodup) :
    ((rightLoop key rs epsilons answers).map Prod.fst).Nodup := by
  unfold rightLoop
  simp only [map_append, map_flatMap, apply_ite (List.map Prod.fst), map_map, map_nil,
    map_cons, Function.comp_def]
  refine nodup_blocks Joint.right? hrs ?_ ?_ (nodup_map_left hepsilons) (fun _ => rfl)
  · intro r
    refine nodup_block (fun _ _ heq => (Joint.both.inj heq).1) ?_ hepsilons (hanswers _)
    intro l heq
    cases heq
  · intro r o ho
    rcases mem_block ho with rfl | ⟨l, rfl⟩
    · rfl
    · rfl

theorem nodup_lookup {hs : List (HalfArc W)} (h : hs.Nodup) : ((find c (indexBy label hs)).getD []).Nodup := by
  rw [getD_find_indexBy]
  exact nodup_reverse.2 (h.filter _)

theorem nodup_bind_lookup {hs : List (HalfArc W)} {c : Option Nat} (h : hs.Nodup) :
    ((c.bind fun i => find i (indexBy label hs)).getD []).Nodup := by
  cases c with
  | none => exact nodup_nil
  | some c => exact nodup_lookup h

theorem nodup_threeState (indexThreshold : Nat) (key : TrioKey) :
    ((threeState a b indexThreshold key).map Prod.fst).Nodup := by
  have hls := halfArcs_nodup a.toWfst key.aState
  have hrs := halfArcs_nodup b.toWfst key.bState
  unfold threeState
  simp only
  split
  · split
    · exact nodup_rightLoop hrs (nodup_lookup hls) (fun _ => nodup_bind_lookup hls)
    · exact nodup_leftLoop hls (hrs.filter _) (fun _ => hrs.filter _)
  · split
    · exact nodup_leftLoop hls (nodup_lookup hrs) (fun _ => nodup_bind_lookup hrs)
    · exact nodup_leftLoop hls (hrs.filter _) (fun _ => hrs.filter _)

theorem letterArcs_origins (key : TrioKey) (bIndex : List (Nat × List (HalfArc W))) (ll : Nat × List (HalfArc W)) :
    letterArcs a b key bIndex ll = [] ∨ (letterArcs a b key bIndex ll).map Prod.fst = ll.2.map Joint.left := by
  unfold letterArcs
  split
  · split
    · right
      rw [map_map]
      rfl
    · exact .inl rfl
  · split
    · exact .inl rfl
    · right
      rw [map_map]
      rfl

theorem nodup_twoState (k : TrioKey ⊕ HalfArcState) : ((twoState a b k).map Prod.fst).Nodup := by
  cases k with
  | inr mediate =>
    unfold twoState twoStateMediate
    rw [map_map]
    exact nodup_map_right (nodup_bind_lookup (halfArcs_nodup b.toWfst mediate.rSource))
  | inl key =>
    have hls := halfArcs_nodup a.toWfst key.aState
    have hrs := halfArcs_nodup b.toWfst key.bState
    have hblock : ∀ ll ∈ indexBy FSTArc.out (a.halfArcs key.aState), ∀ bIndex,
        ((letterArcs a b key bIndex ll).map Prod.fst).Nodup ∧
          ∀ o ∈ (letterArcs a b key bIndex ll).map Prod.fst, o.left?.map (fun l => l.arc.out) = some ll.1 := by
      rintro ⟨c, ls⟩ hll bIndex
      obtain ⟨rfl, -⟩ := mem_indexBy.1 hll
      rcases letterArcs_origins key bIndex (c, _) with hnil | horigins
      · rw [hnil]
        exact ⟨nodup_nil, fun o ho => absurd ho not_mem_nil⟩
      · rw [horigins]
        refine ⟨nodup_map_left (nodup_reverse.2 (hls.filter _)), ?_⟩
        intro o ho
        obtain ⟨l, hl, rfl⟩ := mem_map.1 ho
        exact congrArg some (mem_filter_takes.1 (mem_reverse.1 hl)).2
    unfold twoState twoStateTrio
    rw [map_append, map_flatMap, map_map]
    refine nodup_append.2 ⟨?_, nodup_map_right (nodup_lookup hrs), ?_⟩
    · refine nodup_flatMap_of_tag (fun o => o.left?.map fun l => l.arc.out) (fun ll => some ll.1) ?_
        (fun ll hll => (hblock ll hll _).1) (fun ll hll => (hblock ll hll _).2)
      show ((indexBy FSTArc.out (a.halfArcs key.aState)).map (some ∘ Prod.fst)).Nodup
      rw [← map_map]
      exact (nodup_keys_indexBy _ _).map (Option.some_injective _)
    · intro o ho o' ho' heq
      obtain ⟨ll, hll, hol⟩ := mem_flatMap.1 ho
      obtain ⟨r, -, rfl⟩ := mem_map.1 ho'
      have hsome := (hblock ll hll _).2 o hol
      rw [heq] at hsome
      cases hsome

/-! ## Where the steps lead -/

/-- The arcs of an origin are arcs of `a` and of `b`. -/
def FromArcs (a b : Transducer W) (o : Origin W) : Prop :=
  (∀ l ∈ o.left?, a.arc? l.ptr = some l.arc) ∧ ∀ r ∈ o.right?, b.arc? r.ptr = some r.arc

theorem fromArcs_left (h : a.arc? l.ptr = some l.arc) : FromArcs a b (.left l) :=
  ⟨fun _ hl => Option.some.inj hl ▸ h, fun _ hr => (by cases hr)⟩

theorem fromArcs_right (h : b.arc? r.ptr = some r.arc) : FromArcs a b (.right r) :=
  ⟨fun _ hl => (by cases hl), fun _ hr => Option.some.inj hr ▸ h⟩

theorem fromArcs_both (hl : a.arc? l.ptr = some l.arc) (hr : b.arc? r.ptr = some r.arc) :
    FromArcs a b (.both l r) := ⟨fun _ h => Option.some.inj h ▸ hl, fun _ h => Option.some.inj h ▸ hr⟩

theorem Step3.fromArcs {k k' : Nat × Nat × Fin 3} (h : ThreeStep a b k o k') : FromArcs a b o := by
  cases h with
  | left h => exact fromArcs_left h.2.1
  | right h => exact fromArcs_right h.2.1
  | silent h h' => exact fromArcs_both h.2.1 h'.2.1
  | letter h h' => exact fromArcs_both h.2.1 h'.2.1

theorem Step2.fromArcs {k k' : Lib.Between Nat Nat Nat} (h : TwoStep a b k o k') : FromArcs a b o := by
  cases h with
  | left h => exact fromArcs_left h.2.1
  | right h => exact fromArcs_right h.2.1
  | ask h => exact fromArcs_left h.2.1
  | answer h => exact fromArcs_right h.2.1

theorem takes_lt {t : Nat} (htakes : x.Takes s h t) : t < x.numStates := by
  obtain ⟨-, harc, rfl⟩ := htakes
  exact (Wfst.arc?_lt harc).2

end Steps

/-! ## The two modes -/

/-- What leaves each state, the states that are populated when they are met, and room for all that can be met. -/
structure Mode (a b : Transducer W) (K : Type) where
  out : K → List (Origin W × K)
  eager : K → Bool
  trio : TrioKey → K
  room : Finset K
  closed : ∀ k ∈ room, ∀ p ∈ out k, p.2 ∈ room
  start : trio ⟨0, 0, 0⟩ ∈ room
  fromArcs : ∀ k, ∀ p ∈ out k, FromArcs a b p.1

section Modes

variable (a b : Transducer W)

def trioRoom : Finset TrioKey :=
  (Finset.range a.numStates ×ˢ Finset.range b.numStates ×ˢ (Finset.univ : Finset (Fin 3))).image
    fun p => ⟨p.1, p.2.1, p.2.2⟩

variable {a b} in
theorem mem_trioRoom {key : TrioKey} : key ∈ trioRoom a b ↔ key.aState < a.numStates ∧ key.bState < b.numStates := by
  unfold trioRoom
  rw [Finset.mem_image]
  constructor
  · rintro ⟨p, hp, rfl⟩
    simpa using hp
  · intro h
    exact ⟨key.trio, by simpa [TrioKey.trio] using h, rfl⟩

theorem start_mem_trioRoom : ⟨0, 0, 0⟩ ∈ trioRoom a b := mem_trioRoom.2 ⟨a.nonempty, b.nonempty⟩

def mediateRoom : Finset HalfArcState :=
  (Finset.range a.outAlph.names.length).biUnion fun c =>
    if h : c = epsilonIndex then ∅
    else (Finset.range a.numStates ×ˢ Finset.range b.numStates).image fun p => ⟨p.1, p.2, c, h⟩

variable {a b} in
theorem mem_mediateRoom {m : HalfArcState} : m ∈ mediateRoom a b ↔
    m.lHiddenLetter < a.outAlph.names.length ∧ m.lDest < a.numStates ∧ m.rSource < b.numStates := by
  obtain ⟨p, q, c, hc⟩ := m
  unfold mediateRoom
  simp only [Finset.mem_biUnion, Finset.mem_range]
  constructor
  · rintro ⟨c', hc', hmem⟩
    split at hmem
    · cases hmem
    · obtain ⟨r, hr, heq⟩ := Finset.mem_image.1 hmem
      cases heq
      exact ⟨hc', by simpa using hr⟩
  · rintro ⟨hlt, hp, hq⟩
    refine ⟨c, hlt, ?_⟩
    rw [dif_neg hc]
    exact Finset.mem_image.2 ⟨(p, q), by simpa using ⟨hp, hq⟩, rfl⟩

def threeStateMode (indexThreshold : Nat) : Mode a b TrioKey where
  out := threeState a b indexThreshold
  eager := fun _ => false
  trio := id
  room := trioRoom a b
  closed := by
    rintro ⟨p, q, f⟩ hk ⟨o, p', q', f'⟩ hmem
    obtain ⟨hp, hq⟩ := mem_trioRoom.1 hk
    refine mem_trioRoom.2 ?_
    cases mem_threeState.1 hmem with
    | left h => exact ⟨takes_lt h, hq⟩
    | right h => exact ⟨hp, takes_lt h⟩
    | silent h h' => exact ⟨takes_lt h, takes_lt h'⟩
    | letter h h' => exact ⟨takes_lt h, takes_lt h'⟩
  start := start_mem_trioRoom a b
  fromArcs := fun _ _ hp => Step3.fromArcs (mem_threeState.1 hp)

variable {arc : FSTArc W} {p : ArcPtr}

/-- An arc is in the list of a state. -/
theorem arc?_mem {x : Wfst W} (h : x.arc? p = some arc) : ∃ arcs ∈ x.states, arc ∈ arcs := by
  have hlt := (Wfst.arc?_lt h).1
  have hmem : arc ∈ x.arcs p.src := mem_of_getElem? h
  unfold Wfst.arcs at hmem
  rw [getD_eq_getElem?_getD, getElem?_eq_getElem hlt] at hmem
  exact ⟨_, getElem_mem hlt, hmem⟩

theorem Transducer.arc?_inp_lt (x : Transducer W) (h : x.arc? p = some arc) : arc.inp < x.inAlph.names.length := by
  obtain ⟨arcs, harcs, hmem⟩ := arc?_mem h
  exact x.inp_lt arcs harcs arc hmem

theorem Transducer.arc?_out_lt (x : Transducer W) (h : x.arc? p = some arc) : arc.out < x.outAlph.names.length := by
  obtain ⟨arcs, harcs, hmem⟩ := arc?_mem h
  exact x.out_lt arcs harcs arc hmem

variable {a b} in
theorem mem_twoRoom {k : TrioKey ⊕ HalfArcState} : k ∈ (trioRoom a b).disjSum (mediateRoom a b) ↔
    (between k).left < a.numStates ∧ (between k).right < b.numStates ∧
      ∀ c ∈ (between k).pending, c < a.outAlph.names.length := by
  cases k with
  | inl key =>
    rw [Finset.inl_mem_disjSum, mem_trioRoom]
    simp [between, Lib.Between.left, Lib.Between.right, Lib.Between.pending]
  | inr m =>
    rw [Finset.inr_mem_disjSum, mem_mediateRoom]
    simp only [between, Lib.Between.left, Lib.Between.right, Lib.Between.pending, mem_singleton, forall_eq]
    tauto

def twoStateMode : Mode a b (TrioKey ⊕ HalfArcState) where
  out := twoState a b
  eager := Sum.isRight
  trio := Sum.inl
  room := (trioRoom a b).disjSum (mediateRoom a b)
  closed := by
    rintro k hk ⟨o, k'⟩ hmem
    obtain ⟨hp, hq, -⟩ := mem_twoRoom.1 hk
    refine mem_twoRoom.2 ?_
    have hstep := mem_twoState.1 hmem
    generalize between k = s at hstep hp hq
    generalize between k' = s' at hstep
    cases hstep with
    | left h => exact ⟨takes_lt h, hq, fun _ hc => absurd hc not_mem_nil⟩
    | right h => exact ⟨hp, takes_lt h, fun _ hc => absurd hc not_mem_nil⟩
    | answer h => exact ⟨hp, takes_lt h, fun _ hc => absurd hc not_mem_nil⟩
    | ask h hl =>
      refine ⟨takes_lt h, hq, ?_⟩
      intro c hc
      obtain rfl := mem_singleton.1 hc
      obtain ⟨-, rfl⟩ := nonEpsilon_eq_some.1 hl
      exact a.arc?_out_lt h.2.1
  start := Finset.inl_mem_disjSum.2 (start_mem_trioRoom a b)
  fromArcs := fun _ _ hp => Step2.fromArcs (mem_twoState.1 hp)

end Modes

/-! ## The composition -/

inductive Composed (W : Type)
  | invalid
  | valid (c : Transducer W)

/-- The arc of an origin: the empty symbol where it has no side, and the weights of its sides. -/
def composeArc [Mul W] (dest group : Nat) : Origin W → FSTArc W
  | .left l => ⟨l.arc.inp, epsilonIndex, dest, l.arc.weight, group⟩
  | .right r => ⟨epsilonIndex, r.arc.out, dest, r.arc.weight, group⟩
  | .both l r => ⟨l.arc.inp, r.arc.out, dest, l.arc.weight * r.arc.weight, group⟩

/-- The arc to the merged final state; its group keeps it from being trained. -/
def finalArc [One W] (final : Nat) : FSTArc W := ⟨epsilonIndex, epsilonIndex, final, 1, lockedGroup⟩

section Compose

variable {a b : Transducer W} {K Γ : Type} [DecidableEq K] (τ : Table K (Origin W) Γ Nat)

/-- The arcs of a numbered state. -/
def tableArcs [Mul W] (j : Nat) : List (FSTArc W) :=
  List.zipWith (fun l g => composeArc l.dest g l.label) (τ.links j) (τ.stamps j)

def tableStates [Mul W] : List (List (FSTArc W)) :=
  (range τ.keys.length).map (tableArcs τ)

/-- The states with an arc to the merged final state in front, and that state. -/
def mergedStates [Monoid W] (finals : List Nat) : List (List (FSTArc W)) :=
  ((range τ.keys.length).map fun j =>
    if j ∈ finals then finalArc τ.keys.length :: tableArcs τ j else tableArcs τ j) ++ [[]]

/-- The arcs of a list lead to one of `n` states and have symbols of the alphabets. -/
def InBounds (a b : Transducer W) (n : Nat) (arcs : List (FSTArc W)) : Prop :=
  ∀ x ∈ arcs, x.dest < n ∧ x.inp < a.inAlph.names.length ∧ x.out < b.outAlph.names.length

theorem epsilon_lt (x : Alphabet) : epsilonIndex < x.names.length := (List.getElem?_eq_some_iff.1 x.epsilon).1

variable (m : Mode a b K)

variable {τ : Table K (Origin W) Γ Nat}

section

variable (hτ : Table.Built m.out (m.trio ⟨0, 0, 0⟩) τ)
include hτ

theorem inBounds_tableArcs [Mul W] {j : Nat}
    (hj : j < τ.keys.length) : InBounds a b τ.keys.length (tableArcs τ j) := by
  obtain ⟨hkeys, hlinks⟩ := hτ.full j _ (getElem?_eq_getElem hj)
  intro x hx
  unfold tableArcs at hx
  rw [← map_uncurry_zip_eq_zipWith] at hx
  obtain ⟨⟨l, g⟩, hlg, rfl⟩ := mem_map.1 hx
  have hl := (of_mem_zip hlg).1
  rw [hlinks, mem_reverse] at hl
  obtain ⟨⟨o, k⟩, hmem, rfl⟩ := mem_map.1 hl
  obtain ⟨hleft, hright⟩ := m.fromArcs _ _ hmem
  have hdest : List.idxOf k τ.keys < τ.keys.length := idxOf_lt_length_of_mem (hkeys _ hmem)
  cases o with
  | left l =>
    have hinp := a.arc?_inp_lt (hleft l rfl)
    exact ⟨hdest, hinp, epsilon_lt b.outAlph⟩
  | right r =>
    have hout := b.arc?_out_lt (hright r rfl)
    exact ⟨hdest, epsilon_lt a.inAlph, hout⟩
  | both l r =>
    have hinp := a.arc?_inp_lt (hleft l rfl)
    have hout := b.arc?_out_lt (hright r rfl)
    exact ⟨hdest, hinp, hout⟩

theorem inBounds_tableStates [Mul W] : ∀ arcs ∈ tableStates τ, InBounds a b (tableStates τ).length arcs := by
  intro arcs harcs
  unfold tableStates at harcs ⊢
  rw [length_map, length_range]
  obtain ⟨j, hj, rfl⟩ := mem_map.1 harcs
  exact inBounds_tableArcs m hτ (mem_range.1 hj)

theorem inBounds_mergedStates [Monoid W] (finals : List Nat) :
    ∀ arcs ∈ mergedStates τ finals, InBounds a b (mergedStates τ finals).length arcs := by
  intro arcs harcs
  have hlen : (mergedStates τ finals).length = τ.keys.length + 1 := by simp [mergedStates]
  rw [hlen]
  rcases mem_append.1 harcs with harcs | harcs
  · obtain ⟨j, hj, rfl⟩ := mem_map.1 harcs
    have htable : InBounds a b (τ.keys.length + 1) (tableArcs τ j) := by
      intro x hx
      obtain ⟨hdest, hlabels⟩ := inBounds_tableArcs m hτ (mem_range.1 hj) x hx
      exact ⟨Nat.lt_succ_of_lt hdest, hlabels⟩
    split
    · intro x hx
      rcases mem_cons.1 hx with rfl | hx
      · exact ⟨Nat.lt_succ_self _, epsilon_lt a.inAlph, epsilon_lt b.outAlph⟩
      · exact htable x hx
    · exact htable
  · obtain rfl := mem_singleton.1 harcs
    intro x hx
    cases hx

end

/-- A transducer from its states, over the input alphabet of `a` and the output alphabet of `b`. -/
def composedOf (a b : Transducer W) (states : List (List (FSTArc W))) (final : Nat) (hfinal : final < states.length)
    (hstates : ∀ arcs ∈ states, InBounds a b states.length arcs) : Transducer W where
  states := states
  final := final
  nonempty := Nat.lt_of_le_of_lt (Nat.zero_le _) hfinal
  final_lt := hfinal
  dest_lt := fun arcs harcs x hx => (hstates arcs harcs x hx).1
  inAlph := a.inAlph
  outAlph := b.outAlph
  inp_lt := fun arcs harcs x hx => (hstates arcs harcs x hx).2.1
  out_lt := fun arcs harcs x hx => (hstates arcs harcs x hx).2.2

/-- The numbers of the final states that were met, by the state of the filter. -/
def Mode.finals (τ : Table K (Origin W) Γ Nat) : List Nat :=
  [0, 1, 2].filterMap fun f => τ.keys.idxOf? (m.trio ⟨a.final, b.final, f⟩)

theorem finals_lt {f : Nat} (hf : f ∈ m.finals τ) : f < τ.keys.length := by
  obtain ⟨i, -, hi⟩ := mem_filterMap.1 hf
  obtain ⟨hlt, -⟩ := idxOf?_eq_some_iff.1 hi
  exact hlt

/-- One final state is the final state of the composition; more of them are merged into a new one. -/
def Mode.finish [Monoid W] (τ : Table K (Origin W) Γ Nat) (hτ : Table.Built m.out (m.trio ⟨0, 0, 0⟩) τ) : Composed W :=
  match h : m.finals τ with
  | [] => .invalid
  | [f] =>
    .valid (composedOf a b (tableStates τ) f
      (by
        rw [tableStates, length_map, length_range]
        exact finals_lt m (h ▸ mem_singleton.2 rfl))
      (inBounds_tableStates m hτ))
  | f₁ :: f₂ :: fs =>
    .valid (composedOf a b (mergedStates τ (f₁ :: f₂ :: fs)) τ.keys.length (by simp [mergedStates])
      (inBounds_mergedStates m hτ _))

variable (record : Γ → Origin W → Γ × Nat) (store : Γ)

theorem Mode.ends : ∃ τ, Table.run m.out m.eager record m.room.card (.start (m.trio ⟨0, 0, 0⟩) store) = some τ := by
  have hspec : ∃ τ : Table K (Origin W) Γ Nat, Table.run m.out m.eager record m.room.card
      (.start (m.trio ⟨0, 0, 0⟩) store) = some τ ∧ Table.Built m.out (m.trio ⟨0, 0, 0⟩) τ :=
    Table.run_spec m.closed m.start (Nat.le_refl _)
  obtain ⟨τ, hτ, -⟩ := hspec
  exact ⟨τ, hτ⟩

/-- All states that can be met, with their arcs. -/
def Mode.table : Table K (Origin W) Γ Nat :=
  (Table.run m.out m.eager record m.room.card (.start (m.trio ⟨0, 0, 0⟩) store)).get
    (Option.isSome_iff_exists.2 (m.ends record store))

theorem Mode.run_table : Table.run m.out m.eager record m.room.card (.start (m.trio ⟨0, 0, 0⟩) store) =
    some (m.table record store) := (Option.some_get _).symm

theorem Mode.built_table : Table.Built m.out (m.trio ⟨0, 0, 0⟩) (m.table record store) :=
  Table.run_built (m.run_table record store)

def Mode.compose [Monoid W] : Γ × Composed W :=
  ((m.table record store).store, m.finish (m.table record store) (m.built_table record store))

end Compose

/-- `a` and `b` composed; the store is what the cascade keeps of it. -/
def setCompose [Monoid W] {Γ : Type} (record : Γ → Origin W → Γ × Nat) (store : Γ) (indexThreshold : Nat)
    (preserveGroups : Bool) (a b : Transducer W) : Γ × Composed W :=
  if preserveGroups then (twoStateMode a b).compose record store
  else (threeStateMode a b indexThreshold).compose record store

end Sbmt.Carmel
