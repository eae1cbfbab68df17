import Mathlib
/-!
# The heap that shares its nodes (`graehl/shared/2heap.h`)

| here | there |
| --- | --- |
| `HeapNode`, `HeapMem` | a node of type `T`, what else it holds being its `data`; the nodes that have been allocated, by address |
| `wantsLeft` | `goLeft` (`2heap.h:294`) |

`none` is the null pointer, and the result of reading where there is no node.  `new` takes the next address.  The recursion
goes down one path of the heap, and gets as many turns as are asked for.

A heap in memory is a tree (`HTree`) that can be read there (`Shows`); its parts may be parts of other heaps as well, so
what is proved of the memory after an insertion is that nothing in it has changed but the node that is inserted
(`Added.frame`).
-/

namespace Sbmt.Shared

open List Option

variable {T : Type}

/-- `nDescend` is an `int`, and bounded by the number of states. -/
structure HeapNode (T : Type) where
  data : T
  left : Option Nat
  right : Option Nat
  nDescend : Nat
deriving DecidableEq

abbrev HeapMem (T : Type) := List (HeapNode T)

/-- `!left || (right && right->nDescend > left->nDescend)` -/
def wantsLeft (mem : HeapMem T) (n : HeapNode T) : Option Bool :=
  match n.left, n.right with
  | none, _ => some true
  | some _, none => some false
  | some l, some r => mem[r]?.bind fun right => mem[l]?.map fun left => decide (right.nDescend > left.nDescend)

/-- The root of the new heap; `lt` is the `operator<` of the nodes. -/
def newTreeHeapAdd (lt : T → T → Bool) : Nat → Option Nat → Nat → HeapMem T → Option (Nat × HeapMem T)
  | 0, _, _, _ => none
  | _ + 1, none, node, mem =>
    mem[node]?.map fun x => (node, mem.set node { x with left := none, right := none, nDescend := 0 })
  | fuel + 1, some heapRoot, node, mem => do
    let old ← mem[heapRoot]?
    let newRoot := mem.length
    let copy := { old with nDescend := old.nDescend + 1 }
    let mem := mem ++ [copy]
    let goLeft ← wantsLeft mem copy
    let x ← mem[node]?
    if lt copy.data x.data then
      -- `node` is the new root, and the copy goes on down
      let mem := mem.set node { x with left := copy.left, right := copy.right, nDescend := copy.nDescend }
      if goLeft then
        let (p, mem) ← newTreeHeapAdd lt fuel copy.left newRoot mem
        return (node, mem.modify node fun n => { n with left := some p })
      else
        let (p, mem) ← newTreeHeapAdd lt fuel copy.right newRoot mem
        return (node, mem.modify node fun n => { n with right := some p })
    else
      if goLeft then
        let (p, mem) ← newTreeHeapAdd lt fuel copy.left node mem
        return (newRoot, mem.modify newRoot fun n => { n with left := some p })
      else
        let (p, mem) ← newTreeHeapAdd lt fuel copy.right node mem
        return (newRoot, mem.modify newRoot fun n => { n with right := some p })

/-! ## Heaps as trees -/

/-- A heap with the addresses of its nodes and what these hold. -/
inductive HTree (T : Type) where
  | nil
  | node (addr : Nat) (data : T) (count : Nat) (left right : HTree T)

namespace HTree

def top : HTree T → Option T
  | nil => none
  | node _ d _ _ _ => some d

def elements : HTree T → List T
  | nil => []
  | node _ d _ l r => d :: (l.elements ++ r.elements)

def addrs : HTree T → List Nat
  | nil => []
  | node a _ _ l r => a :: (l.addrs ++ r.addrs)

def size (t : HTree T) : Nat := t.elements.length

def height : HTree T → Nat
  | nil => 0
  | node _ _ _ l r => max l.height r.height + 1

/-- No child is greater than its parent. -/
def Ordered (lt : T → T → Bool) : HTree T → Prop
  | nil => True
  | node _ d _ l r => (∀ e ∈ l.top, lt d e = false) ∧ (∀ e ∈ r.top, lt d e = false) ∧ l.Ordered lt ∧ r.Ordered lt

/-- `nDescend` counts the strict descendants. -/
def Counted : HTree T → Prop
  | nil => True
  | node _ _ c l r => c = l.size + r.size ∧ l.Counted ∧ r.Counted

/-- The two parts below a node differ by one at most. -/
def Balanced : HTree T → Prop
  | nil => True
  | node _ _ _ l r => l.size ≤ r.size + 1 ∧ r.size ≤ l.size + 1 ∧ l.Balanced ∧ r.Balanced

/-- The tree can be read at `p`. -/
def Shows (mem : HeapMem T) : HTree T → Option Nat → Prop
  | nil, p => p = none
  | node a d c l r, p => p = some a ∧ ∃ pl pr, mem[a]? = some ⟨d, pl, pr, c⟩ ∧ l.Shows mem pl ∧ r.Shows mem pr

/-- The tree with `kid` on the left or on the right, and `other` on the other side. -/
def join (goLeft : Bool) (a : Nat) (d : T) (c : Nat) (kid other : HTree T) : HTree T :=
  if goLeft then node a d c kid other else node a d c other kid

end HTree

/-- The node above such a tree. -/
def HeapNode.join (goLeft : Bool) (d : T) (kid other : Option Nat) (c : Nat) : HeapNode T :=
  if goLeft then ⟨d, kid, other, c⟩ else ⟨d, other, kid, c⟩

section

variable {lt : T → T → Bool} {mem mem' : HeapMem T} {b : Bool} {a c : Nat} {d : T} {kid other : HTree T} {p : Option Nat}

namespace HTree

@[simp] theorem size_nil : (nil : HTree T).size = 0 := rfl

@[simp] theorem size_node {l r : HTree T} : (node a d c l r).size = l.size + r.size + 1 := by simp [size, elements]

@[simp] theorem top_join : (join b a d c kid other).top = some d := by cases b <;> rfl

theorem elements_join : (join b a d c kid other).elements.Perm (d :: (kid.elements ++ other.elements)) := by
  cases b with
  | true => exact .refl _
  | false => exact perm_append_comm.cons d

theorem mem_addrs_join {i : Nat} : i ∈ (join b a d c kid other).addrs ↔ i = a ∨ i ∈ kid.addrs ∨ i ∈ other.addrs := by
  cases b with
  | true => simp [join, addrs]
  | false => simp [join, addrs, or_comm]

theorem ordered_join : (join b a d c kid other).Ordered lt ↔
    (∀ e ∈ kid.top, lt d e = false) ∧ (∀ e ∈ other.top, lt d e = false) ∧ kid.Ordered lt ∧ other.Ordered lt := by
  cases b with
  | true => exact Iff.rfl
  | false =>
    simp only [join, Bool.false_eq_true, if_false, Ordered]
    tauto

theorem counted_join : (join b a d c kid other).Counted ↔ c = kid.size + other.size ∧ kid.Counted ∧ other.Counted := by
  cases b with
  | true => exact Iff.rfl
  | false =>
    simp only [join, Bool.false_eq_true, if_false, Counted, Nat.add_comm other.size]
    tauto

theorem balanced_join : (join b a d c kid other).Balanced ↔
    kid.size ≤ other.size + 1 ∧ other.size ≤ kid.size + 1 ∧ kid.Balanced ∧ other.Balanced := by
  cases b with
  | true => exact Iff.rfl
  | false =>
    simp only [join, Bool.false_eq_true, if_false, Balanced]
    tauto

theorem height_join : (join b a d c kid other).height = max kid.height other.height + 1 := by
  cases b with
  | true => rfl
  | false => simp [join, height, max_comm]

theorem shows_join : (join b a d c kid other).Shows mem p ↔ p = some a ∧
    ∃ pk po, mem[a]? = some (.join b d pk po c) ∧ kid.Shows mem pk ∧ other.Shows mem po := by
  cases b with
  | true => exact Iff.rfl
  | false =>
    simp only [join, Bool.false_eq_true, if_false, Shows, HeapNode.join]
    constructor
    · rintro ⟨hp, pl, pr, hget, hl, hr⟩
      exact ⟨hp, pr, pl, hget, hr, hl⟩
    · rintro ⟨hp, pk, po, hget, hk, ho⟩
      exact ⟨hp, po, pk, hget, ho, hk⟩

/-- What is written elsewhere does not change what is read. -/
theorem Shows.frame : ∀ {t : HTree T} {p : Option Nat}, t.Shows mem p → (∀ i ∈ t.addrs, mem'[i]? = mem[i]?) → t.Shows mem' p
  | nil, _, h, _ => h
  | node a d c l r, p, ⟨hp, pl, pr, hget, hl, hr⟩, hsame => by
    refine ⟨hp, pl, pr, ?_, hl.frame fun i hi => hsame i (by simp [addrs, hi]), hr.frame fun i hi => hsame i (by simp [addrs, hi])⟩
    rw [hsame a (by simp [addrs]), hget]

theorem Shows.lt_length : ∀ {t : HTree T} {p : Option Nat}, t.Shows mem p → ∀ i ∈ t.addrs, i < mem.length
  | nil, _, _, i, hi => absurd hi not_mem_nil
  | node a d c l r, p, ⟨_, pl, pr, hget, hl, hr⟩, i, hi => by
    simp only [addrs, mem_cons, mem_append] at hi
    rcases hi with rfl | hi | hi
    · exact (List.getElem?_eq_some_iff.mp hget).1
    · exact hl.lt_length i hi
    · exact hr.lt_length i hi

end HTree

/-- The side that an insertion goes down. -/
def goesLeft (l r : HTree T) : Bool := decide (l.size = 0 ∨ l.size < r.size)

/-- The counts tell which side is smaller. -/
theorem wantsLeft_eq {l r : HTree T} {pl pr : Option Nat} (hl : l.Shows mem pl) (hr : r.Shows mem pr) (hlc : l.Counted)
    (hrc : r.Counted) : wantsLeft mem ⟨d, pl, pr, c⟩ = some (goesLeft l r) := by
  cases l with
  | nil =>
    obtain rfl : pl = none := hl
    simp [wantsLeft, goesLeft]
  | node al dl cl ll lr =>
    obtain ⟨rfl, _, _, hgetl, -, -⟩ := hl
    cases r with
    | nil =>
      obtain rfl : pr = none := hr
      simp [wantsLeft, goesLeft]
    | node ar dr cr rl rr =>
      obtain ⟨rfl, _, _, hgetr, -, -⟩ := hr
      simp [wantsLeft, goesLeft, hgetl, hgetr, hlc.1, hrc.1]

/-- The side of the smaller part, by name. -/
def Smaller (b : Bool) (kid other : HTree T) : Prop := if b then goesLeft kid other = true else goesLeft other kid = false

theorem Smaller.le (h : Smaller b kid other) : kid.size ≤ other.size := by
  cases b with
  | true =>
    have h : kid.size = 0 ∨ kid.size < other.size := of_decide_eq_true h
    omega
  | false =>
    have h : ¬(other.size = 0 ∨ other.size < kid.size) := of_decide_eq_false h
    omega

variable {pk po : Option Nat}

theorem wantsLeft_join (hk : kid.Shows mem pk) (ho : other.Shows mem po) (hkc : kid.Counted)
    (hoc : other.Counted) (h : Smaller b kid other) : wantsLeft mem (.join b d pk po c) = some b := by
  cases b with
  | true => exact (wantsLeft_eq hk ho hkc hoc).trans (congrArg some h)
  | false => exact (wantsLeft_eq ho hk hoc hkc).trans (congrArg some h)

/-! ## One turn -/

def HeapNode.setKid (b : Bool) (n : HeapNode T) (p : Nat) : HeapNode T :=
  if b then { n with left := some p } else { n with right := some p }

theorem setKid_join {q : Nat} : (HeapNode.join b d pk po c).setKid b q = .join b d (some q) po c := by
  cases b <;> rfl

/-- Before it goes on down: the greater of the two, `top`, stands where the root is to be, over the old root's parts; the other,
`rest`, is to be put below. -/
structure Prepared (lt : T → T → Bool) (mem : HeapMem T) (b : Bool) (a x : Nat) (d e : T) (pk po : Option Nat) (c : Nat)
    (mem₂ : HeapMem T) (target carried : Nat) (top rest : T) : Prop where
  turn : ∀ fuel, newTreeHeapAdd lt (fuel + 1) (some a) x mem =
    (newTreeHeapAdd lt fuel pk carried mem₂).map fun r => (target, r.2.modify target fun n => n.setKid b r.1)
  length : mem₂.length = mem.length + 1
  which : (target = x ∧ carried = mem.length ∧ top = e ∧ rest = d ∧ lt d e = true) ∨
    (target = mem.length ∧ carried = x ∧ top = d ∧ rest = e ∧ lt d e = false)
  root : mem₂[target]? = some (.join b top pk po (c + 1))
  below : ∃ n, mem₂[carried]? = some n ∧ n.data = rest
  frame : ∀ i < mem.length, i ≠ x → mem₂[i]? = mem[i]?

variable {nd : HeapNode T} {x : Nat}

theorem exists_prepared (lt : T → T → Bool) (hget : mem[a]? = some (.join b d pk po c)) (hx : mem[x]? = some nd)
    (hwants : wantsLeft (mem ++ [.join b d pk po (c + 1)]) (.join b d pk po (c + 1)) = some b) :
    ∃ mem2 target carried top rest, Prepared lt mem b a x d nd.data pk po c mem2 target carried top rest := by
  have hxlt : x < mem.length := (List.getElem?_eq_some_iff.mp hx).1
  have hx1 : (mem ++ [HeapNode.join b d pk po (c + 1)])[x]? = some nd := by rw [getElem?_append_left hxlt, hx]
  have hdata : (HeapNode.join b d pk po (c + 1)).data = d := by cases b <;> rfl
  have hframe : ∀ i < mem.length, (mem ++ [HeapNode.join b d pk po (c + 1)])[i]? = mem[i]? :=
    fun i hi => getElem?_append_left hi
  cases hlt : lt d nd.data with
  | true =>
    refine ⟨(mem ++ [HeapNode.join b d pk po (c + 1)]).set x (.join b nd.data pk po (c + 1)), x, mem.length, nd.data, d, ?_, by simp,
      .inl ⟨rfl, rfl, rfl, rfl, hlt⟩, ?_, ⟨.join b d pk po (c + 1), ?_, hdata⟩, fun i hi hne => ?_⟩
    · cases b <;> simp_all [newTreeHeapAdd, HeapNode.join, HeapNode.setKid, map_eq_bind]
    · rw [getElem?_set_self (by simp; omega)]
    · rw [getElem?_set_ne hxlt.ne, getElem?_append_right le_rfl, Nat.sub_self]
      rfl
    · rw [getElem?_set_ne hne.symm, hframe i hi]
  | false =>
    refine ⟨mem ++ [.join b d pk po (c + 1)], mem.length, x, d, nd.data, ?_, by simp, .inr ⟨rfl, rfl, rfl, rfl, hlt⟩, ?_,
      ⟨nd, hx1, rfl⟩, fun i hi _ => hframe i hi⟩
    · cases b <;> simp_all [newTreeHeapAdd, HeapNode.join, HeapNode.setKid, map_eq_bind]
    · rw [getElem?_append_right le_rfl, Nat.sub_self]
      rfl

/-! ## The insertion -/

/-- `operator<` orders the nodes strictly. -/
structure StrictLess (lt : T → T → Bool) : Prop where
  asymm : ∀ {x y : T}, lt x y = true → lt y x = false
  trans : ∀ {x y z : T}, lt x y = true → lt y z = true → lt x z = true

/-- From the tree `t` and the node at `x`, which holds `e`: the tree `t'` at `q`. -/
structure Added (lt : T → T → Bool) (mem : HeapMem T) (x : Nat) (e : T) (t : HTree T) (q : Nat) (mem' : HeapMem T)
    (t' : HTree T) : Prop where
  shows : t'.Shows mem' (some q)
  elements : t'.elements.Perm (e :: t.elements)
  ordered : t.Ordered lt → t'.Ordered lt
  counted : t'.Counted
  balanced : t.Balanced → t'.Balanced
  top : ∀ y ∈ t'.top, y = e ∨ y ∈ t.top
  addrs : ∀ i ∈ t'.addrs, i = x ∨ i ∈ t.addrs ∨ mem.length ≤ i
  frame : ∀ i < mem.length, i ≠ x → mem'[i]? = mem[i]?
  length : mem.length ≤ mem'.length

theorem added_nil (hx : mem[x]? = some nd) :
    Added lt mem x nd.data .nil x (mem.set x { nd with left := none, right := none, nDescend := 0 })
      (.node x nd.data 0 .nil .nil) where
  shows := ⟨rfl, none, none, by rw [getElem?_set_self (List.getElem?_eq_some_iff.mp hx).1], rfl, rfl⟩
  elements := .refl _
  ordered _ := ⟨fun _ h => (by cases h), fun _ h => (by cases h), trivial, trivial⟩
  counted := ⟨rfl, trivial, trivial⟩
  balanced _ := ⟨by simp, by simp, trivial, trivial⟩
  top y hy := .inl (mem_some.mp hy).symm
  addrs i hi := .inl (by simpa [HTree.addrs] using hi)
  frame i _ hne := getElem?_set_ne hne.symm
  length := by simp

/-- What an insertion into the smaller part makes of the whole. -/
theorem Prepared.added {e top rest : T} {mem2 mem3 : HeapMem T} {target carried q : Nat}
    {kid' : HTree T} (hless : StrictLess lt) (h : Prepared lt mem b a x d e pk po c mem2 target carried top rest)
    (hwhole : (HTree.join b a d c kid other).Shows mem (some a)) (hcount : (HTree.join b a d c kid other).Counted)
    (hother : other.Shows mem po) (hsmall : kid.size ≤ other.size) (hxlt : x < mem.length)
    (hx : x ∉ (HTree.join b a d c kid other).addrs) (hkid : Added lt mem2 carried rest kid q mem3 kid') :
    Added lt mem x e (.join b a d c kid other) target (mem3.modify target fun n => n.setKid b q)
      (.join b target top (c + 1) kid' other) := by
  obtain ⟨hc, hkc, hoc⟩ := HTree.counted_join.mp hcount
  have hlt : ∀ i ∈ (HTree.join b a d c kid other).addrs, i < mem.length := hwhole.lt_length
  have hxo : ∀ i ∈ other.addrs, i ≠ x := fun i hi heq => hx (HTree.mem_addrs_join.mpr (.inr (.inr (heq ▸ hi))))
  have hltk : ∀ i ∈ kid.addrs, i < mem.length := fun i hi => hlt i (HTree.mem_addrs_join.mpr (.inr (.inl hi)))
  have hlto : ∀ i ∈ other.addrs, i < mem.length := fun i hi => hlt i (HTree.mem_addrs_join.mpr (.inr (.inr hi)))
  have hsize : kid'.size = kid.size + 1 := hkid.elements.length_eq
  have hlength := h.length
  -- the two nodes that are written are the one inserted and the copy
  have hne : target ≠ carried := by
    rcases h.which with ⟨rfl, rfl, -⟩ | ⟨rfl, rfl, -⟩
    · exact hxlt.ne
    · exact hxlt.ne'
  have htarget : target = x ∨ target = mem.length := by
    rcases h.which with ⟨rfl, -⟩ | ⟨rfl, -⟩
    · exact .inl rfl
    · exact .inr rfl
  have hcarried : carried = x ∨ carried = mem.length := by
    rcases h.which with ⟨-, rfl, -⟩ | ⟨-, rfl, -⟩
    · exact .inr rfl
    · exact .inl rfl
  have htlt : target < mem2.length := by
    rcases htarget with rfl | rfl
    · omega
    · omega
  have hold : ∀ i < mem.length, i ≠ x → (mem3.modify target fun n => n.setKid b q)[i]? = mem[i]? := by
    intro i hi hix
    have hit : target ≠ i := by
      rintro rfl
      rcases htarget with rfl | rfl
      · exact hix rfl
      · exact lt_irrefl _ hi
    have hic : i ≠ carried := by
      rintro rfl
      rcases hcarried with rfl | rfl
      · exact hix rfl
      · exact lt_irrefl _ hi
    rw [getElem?_modify_ne _ _ hit, hkid.frame i (by omega) hic, h.frame i hi hix]
  have hroot : mem3[target]? = some (.join b top pk po (c + 1)) := by rw [hkid.frame target htlt hne, h.root]
  refine ⟨HTree.shows_join.mpr ⟨rfl, some q, po, ?_, ?_, ?_⟩, ?_, fun hord => ?_, ?_, fun hbal => ?_, fun y hy => ?_,
    fun i hi => ?_, hold, ?_⟩
  · rw [getElem?_modify_eq, hroot]
    exact congrArg some setKid_join
  · refine hkid.shows.frame fun i hi => getElem?_modify_ne _ _ ?_
    -- the part below does not come by the node above it
    rintro rfl
    rcases hkid.addrs _ hi with heq | hmem | hge
    · exact hne heq
    · rcases htarget with rfl | rfl
      · exact hx (HTree.mem_addrs_join.mpr (.inr (.inl hmem)))
      · exact lt_irrefl _ (hltk _ hmem)
    · omega
  · exact hother.frame fun i hi => hold i (hlto i hi) (hxo i hi)
  · have hswap : (top :: rest :: (kid.elements ++ other.elements)).Perm (e :: d :: (kid.elements ++ other.elements)) := by
      rcases h.which with ⟨-, -, rfl, rfl, -⟩ | ⟨-, -, rfl, rfl, -⟩
      · exact .refl _
      · exact .swap ..
    have hbelow := (hkid.elements.append_right other.elements).cons top
    exact HTree.elements_join.trans (hbelow.trans (hswap.trans (HTree.elements_join.symm.cons e)))
  · obtain ⟨hk, ho, hko, hoo⟩ := HTree.ordered_join.mp hord
    -- what is not below the old root is not below the new one
    have habove : ∀ y, lt d y = false → lt top y = false := by
      intro y hy
      rcases h.which with ⟨-, -, rfl, rfl, hde⟩ | ⟨-, -, rfl, rfl, -⟩
      · by_contra hlt
        rw [hless.trans hde (by simpa using hlt)] at hy
        cases hy
      · exact hy
    have hrest : lt top rest = false := by
      rcases h.which with ⟨-, -, rfl, rfl, hde⟩ | ⟨-, -, rfl, rfl, hde⟩
      · exact hless.asymm hde
      · exact hde
    refine HTree.ordered_join.mpr ⟨fun y hy => ?_, fun y hy => habove y (ho y hy), hkid.ordered hko, hoo⟩
    rcases hkid.top y hy with rfl | hy
    · exact hrest
    · exact habove y (hk y hy)
  · exact HTree.counted_join.mpr ⟨by omega, hkid.counted, hoc⟩
  · obtain ⟨h1, h2, hkb, hob⟩ := HTree.balanced_join.mp hbal
    exact HTree.balanced_join.mpr ⟨by omega, by omega, hkid.balanced hkb, hob⟩
  · rw [HTree.top_join, mem_some] at hy
    subst hy
    rw [HTree.top_join]
    rcases h.which with ⟨-, -, rfl, -⟩ | ⟨-, -, rfl, -⟩
    · exact .inl rfl
    · exact .inr rfl
  · rw [HTree.mem_addrs_join] at hi ⊢
    rcases hi with rfl | hi | hi
    · rcases htarget with rfl | rfl
      · exact .inl rfl
      · exact .inr (.inr le_rfl)
    · rcases hkid.addrs i hi with rfl | hi | hi
      · rcases hcarried with rfl | rfl
        · exact .inl rfl
        · exact .inr (.inr le_rfl)
      · exact .inr (.inl (.inr (.inl hi)))
      · exact .inr (.inr (by omega))
    · exact .inr (.inl (.inr (.inr hi)))
  · have := hkid.length
    simp
    omega

/-- The insertion into the tree with its smaller part on side `b`, given what it does there. -/
theorem added_join (hless : StrictLess lt) (hsmall : Smaller b kid other)
    (ih : ∀ {fuel : Nat} {p : Option Nat} {x : Nat} {mem : HeapMem T} {nd : HeapNode T}, kid.height < fuel → kid.Shows mem p →
      kid.Counted → x ∉ kid.addrs → mem[x]? = some nd →
      ∃ q mem' t', newTreeHeapAdd lt fuel p x mem = some (q, mem') ∧ Added lt mem x nd.data kid q mem' t')
    {fuel : Nat} (hfuel : (HTree.join b a d c kid other).height < fuel)
    (hshows : (HTree.join b a d c kid other).Shows mem p) (hcount : (HTree.join b a d c kid other).Counted)
    (hx : x ∉ (HTree.join b a d c kid other).addrs) (hnd : mem[x]? = some nd) :
    ∃ q mem' t', newTreeHeapAdd lt fuel p x mem = some (q, mem') ∧
      Added lt mem x nd.data (.join b a d c kid other) q mem' t' := by
  obtain ⟨rfl, pk, po, hget, hkid, hother⟩ := HTree.shows_join.mp hshows
  obtain ⟨hc, hkc, hoc⟩ := HTree.counted_join.mp hcount
  have hxlt : x < mem.length := (List.getElem?_eq_some_iff.mp hnd).1
  rw [HTree.height_join] at hfuel
  obtain ⟨fuel, rfl⟩ : ∃ n, fuel = n + 1 := ⟨fuel - 1, by omega⟩
  have hcopied : ∀ {t : HTree T} {p : Option Nat}, t.Shows mem p → t.Shows (mem ++ [.join b d pk po (c + 1)]) p :=
    fun h => h.frame fun i hi => getElem?_append_left (h.lt_length i hi)
  obtain ⟨mem2, target, carried, top, rest, hprep⟩ := exists_prepared lt hget hnd
    (wantsLeft_join (hcopied hkid) (hcopied hother) hkc hoc hsmall)
  obtain ⟨n, hn, hrest⟩ := hprep.below
  have hlt := hshows.lt_length
  have hxk : ∀ i ∈ kid.addrs, i < mem.length ∧ i ≠ x := fun i hi =>
    ⟨hlt i (HTree.mem_addrs_join.mpr (.inr (.inl hi))), fun heq => hx (HTree.mem_addrs_join.mpr (.inr (.inl (heq ▸ hi))))⟩
  have hcarried : carried ∉ kid.addrs := by
    intro hmem
    rcases hprep.which with ⟨-, rfl, -⟩ | ⟨-, rfl, -⟩
    · exact lt_irrefl _ (hxk _ hmem).1
    · exact (hxk _ hmem).2 rfl
  have hkid2 : kid.Shows mem2 pk := hkid.frame fun i hi => hprep.frame i (hxk i hi).1 (hxk i hi).2
  obtain ⟨q, mem3, kid', hrun, hadded⟩ := ih (show kid.height < fuel by omega) hkid2 hkc hcarried hn
  rw [hrest] at hadded
  refine ⟨target, _, _, ?_, hprep.added hless hshows hcount hother hsmall.le hxlt hx hadded⟩
  rw [hprep.turn, hrun]
  rfl

/-- **An insertion ends, and adds the node to what was there.** -/
theorem newTreeHeapAdd_added (hless : StrictLess lt) : ∀ (t : HTree T) {fuel : Nat} {p : Option Nat} {x : Nat} {mem : HeapMem T}
    {nd : HeapNode T}, t.height < fuel → t.Shows mem p → t.Counted → x ∉ t.addrs → mem[x]? = some nd →
    ∃ q mem' t', newTreeHeapAdd lt fuel p x mem = some (q, mem') ∧ Added lt mem x nd.data t q mem' t'
  | .nil, fuel + 1, p, x, mem, nd, _, hshows, _, _, hnd => by
    obtain rfl : p = none := hshows
    exact ⟨_, _, _, by simp [newTreeHeapAdd, hnd], added_nil hnd⟩
  | .node a d c l r, fuel, p, x, mem, nd, hfuel, hshows, hcount, hx, hnd => by
    cases hside : goesLeft l r with
    | true => exact added_join (b := true) hless hside (newTreeHeapAdd_added hless l) hfuel hshows hcount hx hnd
    | false =>
      have hfuel' : (HTree.join false a d c r l).height < fuel := hfuel
      exact added_join (b := false) hless hside (newTreeHeapAdd_added hless r) hfuel' hshows hcount hx hnd

/-- **Inserting a node that is not in the heap gives a heap in order that holds it and the old elements, counted right and as
balanced as the old one was; no other node is changed, so the old heap is still there**, and so is every other that the node is not in. -/
theorem newTreeHeapAdd_correct (hless : StrictLess lt) {t : HTree T} {heapRoot : Option Nat} {x fuel : Nat} {nd : HeapNode T}
    (hshows : t.Shows mem heapRoot) (hordered : t.Ordered lt) (hcounted : t.Counted) (hnd : mem[x]? = some nd) (hx : x ∉ t.addrs)
    (hfuel : t.height < fuel) :
    ∃ q mem' t', newTreeHeapAdd lt fuel heapRoot x mem = some (q, mem') ∧ HTree.Shows mem' t' (some q) ∧ t'.Ordered lt ∧
      t'.elements.Perm (nd.data :: t.elements) ∧ t'.Counted ∧ (t.Balanced → t'.Balanced) ∧
      (∀ i < mem.length, i ≠ x → mem'[i]? = mem[i]?) ∧
      ∀ (p : Option Nat) (u : HTree T), u.Shows mem p → x ∉ u.addrs → u.Shows mem' p := by
  obtain ⟨q, mem', t', hrun, h⟩ := newTreeHeapAdd_added hless t hfuel hshows hcounted hx hnd
  refine ⟨q, mem', t', hrun, h.shows, h.ordered hordered, h.elements, h.counted, h.balanced, h.frame, fun p u hu hxu => ?_⟩
  exact hu.frame fun i hi => h.frame i (hu.lt_length i hi) fun heq => hxu (heq ▸ hi)

end

theorem strictLess_gt : StrictLess fun x y : Nat => decide (x > y) where
  asymm h := by
    simp only [decide_eq_true_eq, decide_eq_false_iff_not] at h ⊢
    omega
  trans h h' := by
    simp only [decide_eq_true_eq] at h h' ⊢
    omega

/-- A heap of two nodes, and a third that is put on top of it. -/
def twoNodes : HeapMem Nat := [⟨7, none, none, 0⟩, ⟨5, some 0, none, 1⟩, ⟨2, none, none, 0⟩]

theorem newTreeHeapAdd_correct_two : ∃ q mem' t', newTreeHeapAdd (fun x y => decide (x > y)) 3 (some 1) 2 twoNodes = some (q, mem') ∧
    HTree.Shows mem' t' (some q) ∧ t'.Ordered (fun x y => decide (x > y)) ∧ t'.elements.Perm [2, 5, 7] := by
  have hshows : (HTree.node 1 5 1 (.node 0 7 0 .nil .nil) .nil).Shows twoNodes (some 1) :=
    ⟨rfl, _, _, rfl, ⟨rfl, _, _, rfl, rfl, rfl⟩, rfl⟩
  have hordered : (HTree.node 1 5 1 (.node 0 7 0 .nil .nil) .nil).Ordered fun x y => decide (x > y) := by
    simp [HTree.Ordered, HTree.top]
  obtain ⟨q, mem', t', hrun, h⟩ := newTreeHeapAdd_correct strictLess_gt (x := 2) hshows hordered
    ⟨rfl, ⟨rfl, trivial, trivial⟩, trivial⟩ rfl (by decide) (by decide : _ < 3)
  exact ⟨q, mem', t', hrun, h.1, h.2.1, h.2.2.1⟩

end Sbmt.Shared
