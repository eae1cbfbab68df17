import Sbmt.Lib.Assoc
import Sbmt.Lib.Machine
import Sbmt.Lib.Sift
/-!
# The priority table (`sbmt_decoder/include/sbmt/hash/impl/priority_table.ipp`)

A vector ordered as a heap, with an index from keys to positions, so that an element in the middle can be
found, changed and taken out.

| here | there |
| --- | --- |
| `Traits` | `extract_key`, `extract_priority`, `compare_priorities` |
| `PriorityTable` | `priority_heap`, and `entry_index` with the key each slot was hashed by |
| `swap`, `parent`, `leftChild`, `rightChild` | `:246-322`; positions count from zero, so the root is its own left child |
| `percolateUp`, `percolateDown` | `:326-369` |
| `insert`, `replace`, `modify` | `:187-244` |
| `eraseAt`, `eraseKey`, `pop` | `erase`, `pop` (`:123-172`) |

`entry_index` is an `oa_hashtable`, which behaves as a finite map (`Sbmt.Hash.OaHashtable`); one stands for it here.

`erase` moves the last element to the gap and percolates down from `priority_heap.begin()`, not from the
gap.  For `pop` the two are one place.
-/

namespace Sbmt.Hash

open Sbmt.Lib Option

variable {V K P : Type}

structure Traits (V K P : Type) where
  key : V → K
  priority : V → P
  compare : P → P → Bool

/-- `compare_priorities` of the priorities of two elements. -/
def Traits.less (T : Traits V K P) (a b : V) : Bool := T.compare (T.priority a) (T.priority b)

theorem Traits.less_strictWeak {T : Traits V K P} (h : StrictWeak T.compare) : StrictWeak T.less := ⟨h.asymm, h.negTrans⟩

structure PriorityTable (V K : Type) where
  heap : List V
  entryIndex : List (K × Nat)

def parent (x : Nat) : Nat := x / 2

def leftChild (x : Nat) : Nat := x * 2

def rightChild (x : Nat) : Nat := x * 2 + 1

theorem parent_lt : ∀ x, 0 < x → parent x < x := fun _ h => Nat.div_lt_self h Nat.one_lt_two

theorem parent_eq {c x : Nat} (h : parent c = x) : c = leftChild x ∨ c = rightChild x := by
  unfold parent at h
  unfold leftChild rightChild
  omega

namespace PriorityTable

section

variable [DecidableEq K] (T : Traits V K P) (t : PriorityTable V K)

def empty : PriorityTable V K := ⟨[], []⟩

/-- The elements trade places, and so do the positions their slots hold. -/
def swap (x₁ x₂ : Nat) : PriorityTable V K :=
  match t.heap[x₁]?, t.heap[x₂]? with
  | some v₁, some v₂ =>
    { heap := swapAt t.heap x₁ x₂
      entryIndex :=
        match find (T.key v₁) t.entryIndex, find (T.key v₂) t.entryIndex with
        | some p₁, some p₂ => upsert (T.key v₂) (fun _ => p₁) (upsert (T.key v₁) (fun _ => p₂) t.entryIndex)
        | _, _ => t.entryIndex }
  | _, _ => t

omit [DecidableEq K] in
/-- `compare_priorities(priority(x1), priority(x2))`, and no if either is past the tail. -/
def lessAt (x₁ x₂ : Nat) : Bool :=
  match t.heap[x₁]?, t.heap[x₂]? with
  | some v₁, some v₂ => T.less v₁ v₂
  | _, _ => false

/-- The loop of `percolate_up`. -/
def upLoop : Nat → PriorityTable V K → Nat → PriorityTable V K
  | 0, t, _ => t
  | fuel + 1, t, x =>
    if x = 0 then t
    else if t.lessAt T (parent x) x then upLoop fuel (t.swap T x (parent x)) (parent x)
    else t

def percolateUp (x : Nat) : PriorityTable V K := upLoop T x t x

omit [DecidableEq K] in
/-- Where the element at `x` goes next: to its greatest child, or nowhere. -/
def next (x : Nat) : Nat :=
  let y := if t.lessAt T x (leftChild x) then leftChild x else x
  if t.lessAt T y (rightChild x) then rightChild x else y

/-- The loop of `percolate_down`. -/
def downLoop : Nat → PriorityTable V K → Nat → PriorityTable V K
  | 0, t, _ => t
  | fuel + 1, t, x =>
    if x < t.heap.length then
      if t.next T x = x then t else downLoop fuel (t.swap T x (t.next T x)) (t.next T x)
    else t

def percolateDown (x : Nat) : PriorityTable V K := downLoop T t.heap.length t x

omit [DecidableEq K] in
def top : Option V := t.heap.head?

/-- `push_back`, and `pop_back` again if the key is there already. -/
def insert (val : V) : PriorityTable V K × Bool :=
  match find (T.key val) t.entryIndex with
  | some _ => (t, false)
  | none =>
    let t' : PriorityTable V K :=
      ⟨t.heap ++ [val], upsert (T.key val) (fun _ => t.heap.length) t.entryIndex⟩
    (t'.percolateUp T (t'.heap.length - 1), true)

/-- A new value for the element at `pos`, `old` until now. -/
def put (pos : Nat) (old val : V) : PriorityTable V K :=
  let t' : PriorityTable V K := { t with heap := t.heap.set pos val }
  if T.less old val then t'.percolateUp T pos else t'.percolateDown T pos

def replace (pos : Nat) (val : V) : PriorityTable V K × Bool :=
  match t.heap[pos]? with
  | none => (t, false)
  | some old => if T.key val ≠ T.key old then (t, false) else (t.put T pos old val, true)

/-- The exception "priority_table invalidated!" is no table. -/
def modify (pos : Nat) (f : V → V) : Option (PriorityTable V K) :=
  match t.heap[pos]? with
  | none => none
  | some old => if T.key old ≠ T.key (f old) then none else some (t.put T pos old (f old))

def eraseAt (pos : Nat) : PriorityTable V K :=
  let t' := t.swap T pos (t.heap.length - 1)
  match t'.heap.getLast? with
  | none => t'
  | some last => percolateDown T ⟨t'.heap.dropLast, remove (T.key last) t'.entryIndex⟩ 0

def eraseKey (k : K) : PriorityTable V K × Bool :=
  match find k t.entryIndex with
  | none => (t, false)
  | some pos => (t.eraseAt T pos, true)

def pop : PriorityTable V K := t.eraseAt T 0

/-- `top`, `pop`, until the table is empty. -/
def drainLoop : Nat → PriorityTable V K → List V
  | 0, _ => []
  | fuel + 1, t =>
    match t.top with
    | none => []
    | some v => v :: drainLoop fuel (t.pop T)

def drain : List V := drainLoop T t.heap.length t

end

/-- The calls.  What `modify` is given may not change the key, or the table is no longer valid
(`priority_table.hpp:152-157`). -/
inductive Op (T : Traits V K P) where
  | insert (val : V)
  | replace (k : K) (val : V)
  | modify (k : K) (f : V → V) (hf : ∀ v, T.key (f v) = T.key v)
  | erase (k : K)
  | pop

/-- One call; the position handed to `replace` and `modify` is found by its key, and an empty table is not popped. -/
def step [DecidableEq K] {T : Traits V K P} (t : PriorityTable V K) : Op T → Option (PriorityTable V K)
  | .insert val => some (t.insert T val).1
  | .replace k val => (find k t.entryIndex).map fun pos => (t.replace T pos val).1
  | .modify k f _ => (find k t.entryIndex).bind fun pos => t.modify T pos f
  | .erase k => some (t.eraseKey T k).1
  | .pop => if t.heap = [] then none else some (t.pop T)

/-! ## The index -/

section

variable [DecidableEq K] {T : Traits V K P} {t : PriorityTable V K} {x x₁ x₂ : Nat}

/-- The index knows where every key is, and no others. -/
def Indexed (T : Traits V K P) (t : PriorityTable V K) : Prop :=
  ∀ k i, find k t.entryIndex = some i ↔ ∃ v, t.heap[i]? = some v ∧ T.key v = k

variable {v : V}

theorem Indexed.find_key (h : Indexed T t) {i : Nat} (hv : t.heap[i]? = some v) :
    find (T.key v) t.entryIndex = some i := (h _ i).mpr ⟨v, hv, rfl⟩

/-- A key is in one place. -/
theorem Indexed.unique (h : Indexed T t) {i j : Nat} {w : V} (hv : t.heap[i]? = some v) (hw : t.heap[j]? = some w)
    (hk : T.key v = T.key w) : i = j := by
  have hi := h.find_key hv
  rw [hk, h.find_key hw] at hi
  exact (Option.some.inj hi).symm

@[simp] theorem swap_heap : (t.swap T x₁ x₂).heap = swapAt t.heap x₁ x₂ := by
  unfold swap
  split
  · rfl
  · rename_i h
    unfold swapAt
    split
    · rename_i a b ha hb
      exact absurd hb (h a b ha)
    · rfl

theorem Indexed.swap (h : Indexed T t) : Indexed T (t.swap T x₁ x₂) := by
  unfold PriorityTable.swap
  split
  · rename_i v1 v2 h1 h2
    have hx1 := (List.getElem?_eq_some_iff.mp h1).1
    have hx2 := (List.getElem?_eq_some_iff.mp h2).1
    intro k i
    simp only [h.find_key h1, h.find_key h2, find_upsert, getElem?_swapAt hx1 hx2]
    by_cases hk2 : k = T.key v2
    · subst hk2
      rw [if_pos rfl, Option.some.injEq]
      constructor
      · rintro rfl
        by_cases heq : x₁ = x₂
        · subst heq
          exact ⟨v1, by rw [if_pos rfl, h1], by rw [mem_unique h1 h2]⟩
        · exact ⟨v2, by rw [if_neg heq, if_pos rfl, h2], rfl⟩
      · rintro ⟨v, hv, hkey⟩
        split at hv
        · rename_i hi
          rw [h1] at hv
          cases hv
          rw [hi, h.unique h1 h2 hkey]
        · split at hv
          · rename_i hi
            exact hi.symm
          · rename_i hi2 _
            exact absurd (h.unique hv h2 hkey) hi2
    · rw [if_neg hk2]
      by_cases hk1 : k = T.key v1
      · subst hk1
        rw [if_pos rfl, Option.some.injEq]
        constructor
        · rintro rfl
          exact ⟨v1, by rw [if_pos rfl, h1], rfl⟩
        · rintro ⟨v, hv, hkey⟩
          split at hv
          · rename_i hi
            exact hi.symm
          · split at hv
            · rw [h2] at hv
              cases hv
              exact absurd hkey.symm hk2
            · rename_i hi1
              exact absurd (h.unique hv h1 hkey) hi1
      · rw [if_neg hk1, h k i]
        -- neither of the two has this key
        have hne1 : ∀ v, t.heap[x₁]? = some v → T.key v ≠ k := fun v hv hkey => by
          rw [h1] at hv; cases hv; exact hk1 hkey.symm
        have hne2 : ∀ v, t.heap[x₂]? = some v → T.key v ≠ k := fun v hv hkey => by
          rw [h2] at hv; cases hv; exact hk2 hkey.symm
        refine exists_congr fun v => and_congr_left fun hkey => ?_
        by_cases hi2 : i = x₂
        · subst hi2
          rw [if_pos rfl]
          exact iff_of_false (fun hv => hne2 v hv hkey) fun hv => hne1 v hv hkey
        · rw [if_neg hi2]
          by_cases hi1 : i = x₁
          · subst hi1
            rw [if_pos rfl]
            exact iff_of_false (fun hv => hne1 v hv hkey) fun hv => hne2 v hv hkey
          · rw [if_neg hi1]
  · exact h

/-- The same elements, in another order, and indexed still. -/
structure Rearranged (T : Traits V K P) (t t' : PriorityTable V K) : Prop where
  perm : t'.heap.Perm t.heap
  indexed : Indexed T t → Indexed T t'

theorem Rearranged.refl (t : PriorityTable V K) : Rearranged T t t := ⟨.refl _, id⟩

theorem Rearranged.trans {t' t'' : PriorityTable V K} (h : Rearranged T t t') (h' : Rearranged T t' t'') :
    Rearranged T t t'' := ⟨h'.perm.trans h.perm, fun hi => h'.indexed (h.indexed hi)⟩

variable (t x₁ x₂) in
theorem rearranged_swap : Rearranged T t (t.swap T x₁ x₂) :=
  ⟨by rw [swap_heap]; exact swapAt_perm _ _ _, Indexed.swap⟩

theorem rearranged_upLoop : ∀ (fuel : Nat) (t : PriorityTable V K) (x : Nat), Rearranged T t (upLoop T fuel t x)
  | 0, t, _ => .refl t
  | fuel + 1, t, x => by
    unfold upLoop
    split
    · exact .refl t
    · split
      · exact (rearranged_swap t x (parent x)).trans (rearranged_upLoop fuel _ _)
      · exact .refl t

theorem rearranged_downLoop : ∀ (fuel : Nat) (t : PriorityTable V K) (x : Nat), Rearranged T t (downLoop T fuel t x)
  | 0, t, _ => .refl t
  | fuel + 1, t, x => by
    unfold downLoop
    split
    · split
      · exact .refl t
      · exact (rearranged_swap t x (t.next T x)).trans (rearranged_downLoop fuel _ _)
    · exact .refl t

/-! ## The order -/

omit [DecidableEq K] in
theorem lessAt_iff : t.lessAt T x₁ x₂ = true ↔
    ∃ a b, t.heap[x₁]? = some a ∧ t.heap[x₂]? = some b ∧ T.less a b = true := by
  unfold lessAt
  split
  · rename_i v1 v2 h1 h2
    simp [h1, h2]
  · rename_i h
    simp only [Bool.false_eq_true, false_iff, not_exists, not_and]
    exact fun a b ha hb => absurd hb (h a b ha)

omit [DecidableEq K] in
theorem atMost_of_lessAt (h : t.lessAt T x₁ x₂ = false) : AtMost T.less t.heap[x₂]? t.heap[x₁]? := by
  intro b hb a ha
  by_contra hless
  exact absurd (lessAt_iff.mpr ⟨a, b, ha, hb, Bool.eq_true_of_not_eq_false hless⟩) (by simp [h])

theorem sifted_upLoop (hlt : StrictWeak T.less) : ∀ {fuel : Nat} {t : PriorityTable V K} {x : Nat},
    UpHole T.less parent t.heap x → x ≤ fuel → Sifted T.less parent (upLoop T fuel t x).heap
  | 0, t, x, h, hx => h.stop fun h0 => absurd h0 (not_lt.mpr hx)
  | fuel + 1, t, x, h, hx => by
    unfold upLoop
    split
    · exact h.stop fun hpos => absurd hpos (by omega)
    · rename_i h0
      have hpos := Nat.pos_of_ne_zero h0
      have hpar := parent_lt x hpos
      split
      · rename_i hless
        obtain ⟨b, a, hb, ha, hless⟩ := lessAt_iff.mp hless
        refine sifted_upLoop hlt ?_ (by omega : parent x ≤ fuel)
        rw [swap_heap]
        exact h.step hlt parent_lt hpos ha hb hless
      · rename_i hless
        exact h.stop fun _ => atMost_of_lessAt (Bool.eq_false_iff.mpr hless)

omit [DecidableEq K] in
/-- Where the element goes next is its greatest child, if that is greater than it. -/
theorem next_spec (hlt : StrictWeak T.less) (t : PriorityTable V K) (x : Nat) :
    (t.next T x = x ∧ ∀ c, 0 < c → parent c = x → AtMost T.less t.heap[c]? t.heap[x]?) ∨
    (0 < t.next T x ∧ parent (t.next T x) = x ∧ t.next T x ≠ x ∧ ∃ a b, t.heap[x]? = some a ∧
      t.heap[t.next T x]? = some b ∧ T.less a b = true ∧ ∀ c, 0 < c → parent c = x → AtMost T.less t.heap[c]? (some b)) := by
  have hirrefl : ∀ y, t.lessAt T y y = false := by
    intro y
    rw [Bool.eq_false_iff]
    intro h
    obtain ⟨a, b, ha, hb, hless⟩ := lessAt_iff.mp h
    rw [mem_unique ha hb] at hless
    exact absurd (hlt.asymm hless) (by simp [hless])
  have hright : rightChild x ≠ x ∧ parent (rightChild x) = x ∧ 0 < rightChild x := by
    unfold rightChild parent
    omega
  unfold next
  by_cases hl : t.lessAt T x (leftChild x) = true
  · have hleft : 0 < leftChild x ∧ parent (leftChild x) = x ∧ leftChild x ≠ x := by
      have hne : leftChild x ≠ x := fun heq => by
        rw [heq, hirrefl] at hl
        cases hl
      unfold leftChild parent at *
      omega
    obtain ⟨a, b, ha, hb, hab⟩ := lessAt_iff.mp hl
    simp only [hl, if_true]
    refine .inr ?_
    by_cases hr : t.lessAt T (leftChild x) (rightChild x) = true
    · obtain ⟨b', d, hb', hd, hbd⟩ := lessAt_iff.mp hr
      rw [hb] at hb'
      cases hb'
      simp only [hr, if_true]
      have had : T.less a d = true := by
        by_contra h
        have hda : AtMost T.less (some d) (some a) := atMost_some.mpr (Bool.eq_false_iff.mpr h)
        have hba := (AtMost.of_less hlt hbd).trans hlt hda
        rw [atMost_some, hab] at hba
        cases hba
      refine ⟨hright.2.2, hright.2.1, hright.1, a, d, ha, hd, had, fun c hc hcp => ?_⟩
      rcases parent_eq hcp with rfl | rfl
      · rw [hb]
        exact .of_less hlt hbd
      · rw [hd]
        exact .refl hlt _
    · have hr := Bool.eq_false_iff.mpr hr
      simp only [hr, Bool.false_eq_true, if_false]
      refine ⟨hleft.1, hleft.2.1, hleft.2.2, a, b, ha, hb, hab, fun c hc hcp => ?_⟩
      rcases parent_eq hcp with rfl | rfl
      · rw [hb]
        exact .refl hlt _
      · exact hb ▸ atMost_of_lessAt hr
  · have hl := Bool.eq_false_iff.mpr hl
    have hleft := atMost_of_lessAt hl
    simp only [hl, Bool.false_eq_true, if_false]
    by_cases hr : t.lessAt T x (rightChild x) = true
    · obtain ⟨a, d, ha, hd, had⟩ := lessAt_iff.mp hr
      simp only [hr, if_true]
      refine .inr ⟨hright.2.2, hright.2.1, hright.1, a, d, ha, hd, had, fun c hc hcp => ?_⟩
      rcases parent_eq hcp with rfl | rfl
      · rw [ha] at hleft
        exact hleft.trans hlt (.of_less hlt had)
      · rw [hd]
        exact .refl hlt _
    · have hr := Bool.eq_false_iff.mpr hr
      simp only [hr, Bool.false_eq_true, if_false]
      refine .inl ⟨trivial, fun c hc hcp => ?_⟩
      rcases parent_eq hcp with rfl | rfl
      · exact hleft
      · exact atMost_of_lessAt hr

omit [DecidableEq K] in
/-- Past the end there is nothing below. -/
theorem sifted_of_end {l : List V} {x : Nat} (h : DownHole T.less parent 0 l x) (hx : l.length ≤ x) :
    Sifted T.less parent l := by
  refine siftedFrom_zero.1 (h.stop fun c hc hcp => ?_)
  have := parent_lt c hc
  rw [List.getElem?_eq_none (by omega)]
  exact atMost_none_left _

theorem sifted_downLoop (hlt : StrictWeak T.less) : ∀ {fuel : Nat} {t : PriorityTable V K} {x : Nat},
    DownHole T.less parent 0 t.heap x → t.heap.length ≤ fuel + x → Sifted T.less parent (downLoop T fuel t x).heap
  | 0, _, _, h, hx => sifted_of_end h (by rwa [Nat.zero_add] at hx)
  | fuel + 1, t, x, h, hx => by
    unfold downLoop
    split
    · rcases next_spec hlt t x with ⟨hnext, hall⟩ | ⟨hpos, hpar, hne, a, b, ha, hb, hless, hbest⟩
      · rw [if_pos hnext]
        exact siftedFrom_zero.1 (h.stop hall)
      · rw [if_neg hne]
        refine sifted_downLoop hlt ?_ ?_
        · rw [swap_heap]
          exact h.step hlt parent_lt (Nat.zero_le x) hpos hpar ha hb hless hbest
        · have := parent_lt _ hpos
          rw [swap_heap, length_swapAt]
          omega
    · exact sifted_of_end h (by omega)

/-! ## The operations -/

/-- What an operation leaves: some elements, indexed, and ordered if they were. -/
structure Leaves (T : Traits V K P) (t : PriorityTable V K) (l : List V) (t' : PriorityTable V K) : Prop where
  perm : t'.heap.Perm l
  indexed : Indexed T t'
  sifted : Sifted T.less parent t.heap → Sifted T.less parent t'.heap

theorem Leaves.refl (hi : Indexed T t) : Leaves T t t.heap t := ⟨.refl _, hi, id⟩

variable {pos : Nat} {val : V}

theorem insert_of_mem (h : find (T.key val) t.entryIndex = some pos) : t.insert T val = (t, false) := by
  unfold insert
  rw [h]

/-- A new key at the end. -/
theorem Indexed.append (hi : Indexed T t) (h : find (T.key val) t.entryIndex = none) :
    Indexed T ⟨t.heap ++ [val], upsert (T.key val) (fun _ => t.heap.length) t.entryIndex⟩ := by
  intro k i
  rw [find_upsert]
  by_cases hk : k = T.key val
  · subst hk
    rw [if_pos rfl, Option.some.injEq]
    constructor
    · rintro rfl
      exact ⟨val, by rw [List.getElem?_concat_length], rfl⟩
    · rintro ⟨v, hv, hkey⟩
      by_contra hne
      -- anywhere else the key would have been found
      have hlt : i < t.heap.length := by
        have := (List.getElem?_eq_some_iff.mp hv).1
        rw [List.length_append, List.length_singleton] at this
        omega
      rw [List.getElem?_append_left hlt] at hv
      have hfind := hi.find_key hv
      rw [hkey, h] at hfind
      cases hfind
  · rw [if_neg hk, hi k i]
    refine exists_congr fun v => and_congr_left fun hkey => ?_
    rcases lt_trichotomy i t.heap.length with hlt | rfl | hgt
    · rw [List.getElem?_append_left hlt]
    · rw [List.getElem?_eq_none le_rfl, List.getElem?_concat_length]
      exact iff_of_false (fun hv => by cases hv) fun hv => by cases hv; exact hk hkey.symm
    · rw [List.getElem?_eq_none hgt.le, List.getElem?_eq_none (by rw [List.length_append, List.length_singleton]; omega)]

/-- Another value under the same key. -/
theorem Indexed.set (hi : Indexed T t) {old : V} (hold : t.heap[pos]? = some old)
    (hkey : T.key val = T.key old) : Indexed T { t with heap := t.heap.set pos val } := by
  intro k i
  rw [hi k i]
  by_cases hip : i = pos
  · subst hip
    rw [hold, List.getElem?_set_self (List.getElem?_eq_some_iff.mp hold).1]
    simp [hkey]
  · rw [List.getElem?_set_ne (Ne.symm hip)]

theorem insert_leaves (hlt : StrictWeak T.less) (hi : Indexed T t) (h : find (T.key val) t.entryIndex = none) :
    (t.insert T val).2 = true ∧ Leaves T t (val :: t.heap) (t.insert T val).1 := by
  obtain ⟨t', ht'⟩ : ∃ t' : PriorityTable V K, t' =
    ⟨t.heap ++ [val], upsert (T.key val) (fun _ => t.heap.length) t.entryIndex⟩ := ⟨_, rfl⟩
  have hins : t.insert T val = (t'.percolateUp T (t'.heap.length - 1), true) := by
    unfold insert
    rw [h, ht']
  have hr : Rearranged T t' (t'.percolateUp T (t'.heap.length - 1)) := rearranged_upLoop _ _ _
  have hindexed : Indexed T t' := ht' ▸ hi.append h
  refine ⟨by rw [hins], ?_⟩
  rw [hins]
  refine ⟨hr.perm.trans ?_, hr.indexed hindexed, fun hs => ?_⟩
  · rw [ht']
    exact List.perm_append_singleton val t.heap
  · refine sifted_upLoop hlt ?_ le_rfl
    rw [ht']
    simpa using hs.concat parent_lt val

theorem put_leaves (hlt : StrictWeak T.less) (hi : Indexed T t) {old : V} (hold : t.heap[pos]? = some old)
    (hkey : T.key val = T.key old) : Leaves T t (t.heap.set pos val) (t.put T pos old val) := by
  obtain ⟨t', ht'⟩ : ∃ t' : PriorityTable V K, t' = { t with heap := t.heap.set pos val } := ⟨_, rfl⟩
  have hheap : t'.heap = t.heap.set pos val := by rw [ht']
  have hindexed : Indexed T t' := ht' ▸ hi.set hold hkey
  unfold put
  rw [← ht']
  split
  · rename_i hless
    have hr : Rearranged T t' (t'.percolateUp T pos) := rearranged_upLoop _ _ _
    refine ⟨hheap ▸ hr.perm, hr.indexed hindexed, fun hs => sifted_upLoop hlt ?_ le_rfl⟩
    rw [hheap]
    exact hs.set_up hlt parent_lt hold hless
  · rename_i hless
    have hr : Rearranged T t' (t'.percolateDown T pos) := rearranged_downLoop _ _ _
    refine ⟨hheap ▸ hr.perm, hr.indexed hindexed, fun hs => sifted_downLoop hlt ?_ (Nat.le_add_right _ _)⟩
    rw [hheap]
    exact hs.set_down hlt parent_lt hold (Bool.eq_false_iff.mpr hless)

/-! ## `erase` -/

omit [DecidableEq K] in
/-- The vector with its last element in the gap at `pos`. -/
def cut (l : List V) (pos : Nat) : List V := (swapAt l pos (l.length - 1)).dropLast

theorem getElem?_cut {l : List V} (hpos : pos < l.length) (i : Nat) :
    (cut l pos)[i]? = if i + 1 < l.length then (if i = pos then l[l.length - 1]? else l[i]?) else none := by
  rw [cut, List.getElem?_dropLast, length_swapAt, getElem?_swapAt hpos (by omega)]
  by_cases hi : i + 1 < l.length
  · rw [if_pos hi, if_pos (by omega), if_neg (by omega : i ≠ l.length - 1)]
  · rw [if_neg hi, if_neg (by omega)]

theorem cut_perm {l : List V} (hv : l[pos]? = some v) : (v :: cut l pos).Perm l := by
  have hpos := (List.getElem?_eq_some_iff.mp hv).1
  have hlast : (swapAt l pos (l.length - 1)).getLast? = some v := by
    rw [List.getLast?_eq_getElem?, length_swapAt, getElem?_swapAt hpos (by omega), if_pos rfl, hv]
  have hsplit : cut l pos ++ [v] = swapAt l pos (l.length - 1) := List.dropLast_append_getLast? v hlast
  refine (List.perm_append_singleton v (cut l pos)).symm.trans ?_
  rw [hsplit]
  exact swapAt_perm _ _ _

/-- The table before `erase` repairs it. -/
theorem eraseAt_eq (hv : t.heap[pos]? = some v) (hi : Indexed T t) :
    ∃ t' : PriorityTable V K, t.eraseAt T pos = t'.percolateDown T 0 ∧ t'.heap = cut t.heap pos ∧ Indexed T t' := by
  have hpos := (List.getElem?_eq_some_iff.mp hv).1
  have hlast : (t.swap T pos (t.heap.length - 1)).heap.getLast? = some v := by
    rw [swap_heap, List.getLast?_eq_getElem?, length_swapAt, getElem?_swapAt hpos (by omega), if_pos rfl, hv]
  refine ⟨⟨(t.swap T pos (t.heap.length - 1)).heap.dropLast,
    remove (T.key v) (t.swap T pos (t.heap.length - 1)).entryIndex⟩, ?_, by rw [swap_heap, cut], ?_⟩
  · unfold eraseAt
    dsimp only
    rw [hlast]
  · have hswap : Indexed T (t.swap T pos (t.heap.length - 1)) := hi.swap
    intro k i
    rw [find_remove, List.getElem?_dropLast]
    have hat : (t.swap T pos (t.heap.length - 1)).heap[(t.swap T pos (t.heap.length - 1)).heap.length - 1]? = some v := by
      rw [← List.getLast?_eq_getElem?, hlast]
    by_cases hk : k = T.key v
    · subst hk
      rw [if_pos rfl]
      refine iff_of_false (fun h => by cases h) ?_
      rintro ⟨w, hw, hkey⟩
      split at hw
      · have := hswap.unique hw hat hkey
        omega
      · cases hw
    · rw [if_neg hk, hswap k i]
      refine exists_congr fun w => and_congr_left fun hkey => ?_
      by_cases hil : i < (t.swap T pos (t.heap.length - 1)).heap.length - 1
      · rw [if_pos hil]
      · rw [if_neg hil]
        refine iff_of_false (fun hw => ?_) fun hw => by cases hw
        have hlen := (List.getElem?_eq_some_iff.mp hw).1
        obtain rfl : i = (t.swap T pos (t.heap.length - 1)).heap.length - 1 := by omega
        rw [hat] at hw
        cases hw
        exact hk hkey.symm

theorem eraseAt_perm (hv : t.heap[pos]? = some v) (hi : Indexed T t) :
    (v :: (t.eraseAt T pos).heap).Perm t.heap ∧ Indexed T (t.eraseAt T pos) := by
  obtain ⟨t', hes, hheap, hindexed⟩ := eraseAt_eq hv hi
  have hr : Rearranged T t' (t'.percolateDown T 0) := rearranged_downLoop _ _ _
  rw [hes]
  refine ⟨((hr.perm.trans (.of_eq hheap)).cons v).trans (cut_perm hv), hr.indexed hindexed⟩

/-- The last element, moved to the gap at `pos`, is between what stands above and what stands below. -/
def FitsAt (T : Traits V K P) (t : PriorityTable V K) (pos : Nat) : Prop :=
  pos = 0 ∨ AtMost T.less t.heap[t.heap.length - 1]? t.heap[parent pos]? ∧
    ∀ c, parent c = pos → c + 1 < t.heap.length → AtMost T.less t.heap[c]? t.heap[t.heap.length - 1]?

/-- The gap at the root is repaired. -/
theorem sifted_pop (hlt : StrictWeak T.less) (hi : Indexed T t) (hs : Sifted T.less parent t.heap) (hne : t.heap ≠ []) :
    Sifted T.less parent (t.pop T).heap := by
  have hpos := List.length_pos_of_ne_nil hne
  obtain ⟨t', hes, hheap, -⟩ := eraseAt_eq (List.getElem?_eq_getElem hpos) hi
  rw [pop, hes]
  refine sifted_downLoop hlt ⟨fun i hi0 _ hpar => ?_, fun h => absurd h (lt_irrefl 0)⟩ (Nat.le_add_right _ _)
  have := parent_lt i hi0
  rw [hheap, getElem?_cut hpos, getElem?_cut hpos, if_neg hi0.ne']
  split
  · rw [if_pos (by omega)]
    exact hs i hi0
  · exact atMost_none_left _

/-- A gap anywhere else is not: percolating from the root finds everything in order there. -/
theorem eraseAt_heap (hlt : StrictWeak T.less) (hi : Indexed T t) (hs : Sifted T.less parent t.heap)
    (hpos : pos < t.heap.length) (h0 : pos ≠ 0) : (t.eraseAt T pos).heap = cut t.heap pos := by
  obtain ⟨t', hes, hheap, -⟩ := eraseAt_eq (List.getElem?_eq_getElem hpos) hi
  have hroot : (cut t.heap pos)[0]? = t.heap[0]? := by
    rw [getElem?_cut hpos, if_pos (by omega), if_neg h0.symm]
  have hmax : ∀ i : Nat, AtMost T.less (cut t.heap pos)[i]? (cut t.heap pos)[0]? := by
    intro i
    rw [hroot, getElem?_cut hpos]
    split
    · split
      · exact hs.le_root hlt parent_lt (t.heap.length - 1)
      · exact hs.le_root hlt parent_lt i
    · exact atMost_none_left _
  have hnext : t'.next T 0 = 0 := by
    rcases next_spec hlt t' 0 with ⟨h, -⟩ | ⟨-, -, -, a, b, ha, hb, hless, -⟩
    · exact h
    · have := hmax (t'.next T 0)
      rw [← hheap, ha, hb, atMost_some, hless] at this
      cases this
  rw [hes, percolateDown]
  cases hlen : t'.heap.length with
  | zero => exact hheap
  | succ m =>
    rw [downLoop, if_pos (by omega), if_pos hnext]
    exact hheap

/-- **`erase` keeps the order exactly if the last element fits in the gap.** -/
theorem sifted_eraseAt_iff (hlt : StrictWeak T.less) (hi : Indexed T t) (hs : Sifted T.less parent t.heap)
    (hpos : pos < t.heap.length) : Sifted T.less parent (t.eraseAt T pos).heap ↔ t.FitsAt T pos := by
  rcases Nat.eq_zero_or_pos pos with rfl | h0
  · exact iff_of_true (sifted_pop hlt hi hs (List.ne_nil_of_length_pos hpos)) (.inl rfl)
  · rw [eraseAt_heap hlt hi hs hpos h0.ne']
    have hget := getElem?_cut hpos
    have hpar := parent_lt pos h0
    constructor
    · intro h
      refine .inr ⟨?_, fun c hc hcl => ?_⟩
      · by_cases hlast : pos + 1 < t.heap.length
        · have := h pos h0
          rwa [hget, hget, if_pos hlast, if_pos rfl, if_pos (by omega), if_neg hpar.ne] at this
        · have hlast : t.heap.length - 1 = pos := by omega
          rw [hlast]
          exact hs pos h0
      · have hc0 : 0 < c := Nat.pos_of_ne_zero fun hc0 => by subst hc0; exact h0.ne hc
        have hcp := parent_lt c hc0
        have := h c hc0
        rwa [hget, hget, hc, if_pos hcl, if_neg (by omega), if_pos (by omega), if_pos rfl] at this
    · rintro (h | ⟨habove, hbelow⟩)
      · exact absurd h h0.ne'
      · intro i hi0
        have hpi := parent_lt i hi0
        rw [hget i]
        by_cases hil : i + 1 < t.heap.length
        · rw [if_pos hil, hget (parent i), if_pos (by omega : parent i + 1 < t.heap.length)]
          by_cases hip : i = pos
          · subst hip
            rw [if_pos rfl, if_neg hpi.ne]
            exact habove
          · rw [if_neg hip]
            by_cases hpp : parent i = pos
            · rw [if_pos hpp]
              exact hbelow i hpp hil
            · rw [if_neg hpp]
              exact hs i hi0
        · rw [if_neg hil]
          exact atMost_none_left _

/-! ## Runs -/

/-- The order holds, and with it what it is for: the top is of the highest priority, and popping yields all elements from
the highest priority down. -/
structure InOrder (T : Traits V K P) (t : PriorityTable V K) : Prop where
  sifted : Sifted T.less parent t.heap
  top : ∀ v ∈ t.top, ∀ w ∈ t.heap, T.less v w = false
  all : (t.drain T).Perm t.heap
  sorted : NonIncreasing T.less (t.drain T)

omit [DecidableEq K] in
theorem top_max (hlt : StrictWeak T.less) (hs : Sifted T.less parent t.heap) : ∀ v ∈ t.top, ∀ w ∈ t.heap, T.less v w = false := by
  intro v hv w hw
  obtain ⟨i, hi⟩ := List.getElem?_of_mem hw
  have := hs.le_root hlt parent_lt i
  rw [top, List.head?_eq_getElem?, mem_def] at hv
  rwa [hi, hv, atMost_some] at this

theorem drainLoop_spec (hlt : StrictWeak T.less) : ∀ {fuel : Nat} {t : PriorityTable V K}, Indexed T t →
    Sifted T.less parent t.heap → t.heap.length ≤ fuel →
    (drainLoop T fuel t).Perm t.heap ∧ NonIncreasing T.less (drainLoop T fuel t)
  | 0, t, _, _, hfuel => by
    rw [List.length_eq_zero_iff.mp (Nat.le_zero.mp hfuel)]
    exact ⟨.refl _, List.Pairwise.nil⟩
  | fuel + 1, t, hi, hs, hfuel => by
    unfold drainLoop
    cases hheap : t.heap with
    | nil =>
      rw [top, hheap]
      exact ⟨.refl _, List.Pairwise.nil⟩
    | cons v rest =>
      have hv : t.heap[0]? = some v := by rw [hheap]; rfl
      obtain ⟨hperm, hindexed⟩ := eraseAt_perm hv hi
      have hsifted := sifted_pop hlt hi hs (by rw [hheap]; exact List.cons_ne_nil v rest)
      have hlen := hperm.length_eq
      rw [List.length_cons] at hlen
      obtain ⟨ihp, ihs⟩ := drainLoop_spec hlt hindexed hsifted (by omega : _ ≤ fuel)
      have htop : t.top = some v := by rw [top, hheap]; rfl
      rw [htop, ← hheap]
      refine ⟨(ihp.cons v).trans hperm, List.pairwise_cons.mpr ⟨fun w hw => ?_, ihs⟩⟩
      exact top_max hlt hs v htop w (hperm.mem_iff.mp (List.mem_cons_of_mem v (ihp.mem_iff.mp hw)))

theorem inOrder_iff (hlt : StrictWeak T.less) (hi : Indexed T t) : InOrder T t ↔ Sifted T.less parent t.heap := by
  refine ⟨InOrder.sifted, fun hs => ?_⟩
  obtain ⟨hperm, hsorted⟩ := drainLoop_spec hlt hi hs le_rfl
  exact ⟨hs, top_max hlt hs, hperm, hsorted⟩

/-- The element that `erase` moves to the gap fits there; other calls are all the same. -/
def Fits (t : PriorityTable V K) : Op T → Prop
  | .erase k => ∀ pos ∈ find k t.entryIndex, t.FitsAt T pos
  | _ => True

theorem Indexed.bound (h : Indexed T t) {k : K} (hk : find k t.entryIndex = some pos) :
    ∃ v, t.heap[pos]? = some v ∧ pos < t.heap.length := by
  obtain ⟨v, hv, -⟩ := (h k pos).mp hk
  exact ⟨v, hv, (List.getElem?_eq_some_iff.mp hv).1⟩

/-- One call: the index is right, and the order kept exactly if what is moved fits. -/
theorem step_spec (hlt : StrictWeak T.less) (hi : Indexed T t) {op : Op T} {t' : PriorityTable V K}
    (h : t.step op = some t') : Indexed T t' ∧
      (Sifted T.less parent t.heap → (Sifted T.less parent t'.heap ↔ t.Fits op)) := by
  -- all calls but `erase` keep the order
  have hkeep : ∀ {l}, Leaves T t l t' → Indexed T t' ∧
      (Sifted T.less parent t.heap → (Sifted T.less parent t'.heap ↔ True)) :=
    fun hl => ⟨hl.indexed, fun hs => iff_of_true (hl.sifted hs) trivial⟩
  cases op with
  | insert val =>
    cases h
    cases hfind : find (T.key val) t.entryIndex with
    | none => exact hkeep (insert_leaves hlt hi hfind).2
    | some pos =>
      rw [insert_of_mem hfind] at hkeep ⊢
      exact hkeep (.refl hi)
  | replace k val =>
    obtain ⟨pos, hpos, rfl⟩ := map_eq_some_iff.mp h
    obtain ⟨old, hold, -⟩ := hi.bound hpos
    by_cases hkey : T.key val = T.key old
    · have hrep : t.replace T pos val = (t.put T pos old val, true) := by simp [replace, hold, hkey]
      rw [hrep] at hkeep ⊢
      exact hkeep (put_leaves hlt hi hold hkey)
    · have hrep : t.replace T pos val = (t, false) := by simp [replace, hold, hkey]
      rw [hrep] at hkeep ⊢
      exact hkeep (.refl hi)
  | modify k f hf =>
    obtain ⟨pos, hpos, hmod⟩ := bind_eq_some_iff.mp h
    obtain ⟨old, hold, -⟩ := hi.bound hpos
    have hput : t.modify T pos f = some (t.put T pos old (f old)) := by simp [modify, hold, hf]
    rw [hput] at hmod
    cases hmod
    exact hkeep (put_leaves hlt hi hold (hf old))
  | erase k =>
    cases h
    cases hfind : find k t.entryIndex with
    | none =>
      have her : t.eraseKey T k = (t, false) := by rw [eraseKey, hfind]
      rw [her]
      exact ⟨hi, fun hs => iff_of_true hs fun pos hpos => by rw [hfind] at hpos; cases hpos⟩
    | some pos =>
      have her : t.eraseKey T k = (t.eraseAt T pos, true) := by rw [eraseKey, hfind]
      obtain ⟨v, hv, hlen⟩ := hi.bound hfind
      rw [her]
      refine ⟨(eraseAt_perm hv hi).2, fun hs => (sifted_eraseAt_iff hlt hi hs hlen).trans ?_⟩
      constructor
      · intro hfit pos' hpos'
        rw [hfind] at hpos'
        cases hpos'
        exact hfit
      · exact fun hfit => hfit pos hfind
  | pop =>
    have hne : t.heap ≠ [] := fun hne => by simp [step, hne] at h
    have hpop : t.step (T := T) .pop = some (t.pop T) := by simp [step, hne]
    rw [hpop] at h
    cases h
    have hpos := List.length_pos_of_ne_nil hne
    refine ⟨(eraseAt_perm (List.getElem?_eq_getElem hpos) hi).2, fun hs => iff_of_true (sifted_pop hlt hi hs hne) trivial⟩

/-- **A run leaves every table it comes to in order exactly if at each `erase` of a run the last element fits in the gap.** -/
theorem inOrder_throughout_iff {T : Traits V K P} (hcompare : StrictWeak T.compare) (ops : List (Op T)) :
    Machine.Throughout step (InOrder T) ops empty ↔ Machine.Along step Fits ops empty := by
  have hlt := Traits.less_strictWeak hcompare
  have hi : Indexed T (empty : PriorityTable V K) := by
    intro k i
    exact iff_of_false (fun h => by cases h) fun ⟨v, hv, _⟩ => by simp [empty] at hv
  have hs : Sifted T.less parent (empty : PriorityTable V K).heap := fun i _ => by simp [empty]
  refine Machine.throughout_iff_along (I := Indexed T) (fun t op t' hi h => (step_spec hlt hi h).1)
    (fun t op t' hi hq h => ?_) hi ((inOrder_iff hlt hi).mpr hs)
  obtain ⟨hi', hiff⟩ := step_spec hlt hi h
  rw [inOrder_iff hlt hi']
  exact hiff hq.sifted

end

/-! ## Index and heap, whatever the order -/

section

variable [DecidableEq K] {T : Traits V K P} {t : PriorityTable V K}

/-- `find`, and the element the iterator it returns stands for. -/
def lookup (k : K) (t : PriorityTable V K) : Option V := (find k t.entryIndex).bind fun i => t.heap[i]?

/-- The index takes each key to the slot of its element and back, both are of one size, and a key is found just if an
element has it. -/
structure Coherent (T : Traits V K P) (t : PriorityTable V K) : Prop where
  indexed : Indexed T t
  injective : ∀ k k' i, find k t.entryIndex = some i → find k' t.entryIndex = some i → k = k'
  size : t.entryIndex.length = t.heap.length
  found : ∀ k, (find k t.entryIndex).isSome = true ↔ ∃ v ∈ t.heap, T.key v = k
  lookup : ∀ k v, lookup k t = some v ↔ v ∈ t.heap ∧ T.key v = k

/-- What the calls keep: no key is entered twice. -/
structure Keyed (T : Traits V K P) (t : PriorityTable V K) : Prop where
  indexed : Indexed T t
  keys : (t.entryIndex.map Prod.fst).Nodup

theorem Keyed.coherent (h : Keyed T t) : Coherent T t := by
  have hfound : ∀ k, (find k t.entryIndex).isSome = true ↔ ∃ v ∈ t.heap, T.key v = k := by
    intro k
    constructor
    · intro hk
      obtain ⟨i, hi⟩ := isSome_iff_exists.1 hk
      obtain ⟨v, hv, hkey⟩ := (h.indexed k i).1 hi
      exact ⟨v, List.mem_of_getElem? hv, hkey⟩
    · rintro ⟨v, hv, hkey⟩
      obtain ⟨i, hi⟩ := List.mem_iff_getElem?.1 hv
      rw [(h.indexed k i).2 ⟨v, hi, hkey⟩]
      rfl
  refine ⟨h.indexed, fun k k' i hk hk' => ?_, ?_, hfound, fun k v => ?_⟩
  · obtain ⟨v, hv, rfl⟩ := (h.indexed k i).1 hk
    obtain ⟨v', hv', rfl⟩ := (h.indexed k' i).1 hk'
    rw [mem_unique hv hv']
  · have hheap : (t.heap.map T.key).Nodup := by
      refine List.pairwise_map.2 (List.pairwise_iff_getElem.2 fun i j hi hj hlt hkey => ?_)
      have := h.indexed.unique (List.getElem?_eq_getElem hi) (List.getElem?_eq_getElem hj) hkey
      omega
    have hperm : (t.entryIndex.map Prod.fst).Perm (t.heap.map T.key) := by
      refine (List.perm_ext_iff_of_nodup h.keys hheap).2 fun k => ?_
      rw [List.mem_map, List.mem_map, ← hfound k, isSome_iff_exists]
      refine Iff.trans ?_ (exists_congr fun i => (find_eq_some_iff h.keys).symm)
      constructor
      · rintro ⟨⟨k, i⟩, hki, rfl⟩
        exact ⟨i, hki⟩
      · rintro ⟨i, hki⟩
        exact ⟨(k, i), hki, rfl⟩
    simpa using hperm.length_eq
  · unfold PriorityTable.lookup
    rw [bind_eq_some_iff]
    constructor
    · rintro ⟨i, hi, hv⟩
      obtain ⟨w, hw, hkey⟩ := (h.indexed k i).1 hi
      obtain rfl := mem_unique hw hv
      exact ⟨List.mem_of_getElem? hv, hkey⟩
    · rintro ⟨hv, hkey⟩
      obtain ⟨i, hi⟩ := List.mem_iff_getElem?.1 hv
      exact ⟨i, (h.indexed k i).2 ⟨v, hi, hkey⟩, hi⟩

theorem keys_swap (h : (t.entryIndex.map Prod.fst).Nodup) (x₁ x₂ : Nat) : ((t.swap T x₁ x₂).entryIndex.map Prod.fst).Nodup := by
  unfold PriorityTable.swap
  split
  · split
    · exact nodup_keys_upsert _ (nodup_keys_upsert _ h)
    · exact h
  · exact h

theorem keys_upLoop : ∀ (fuel : Nat) {t : PriorityTable V K} (x : Nat), (t.entryIndex.map Prod.fst).Nodup →
    ((upLoop T fuel t x).entryIndex.map Prod.fst).Nodup
  | 0, _, _, h => h
  | fuel + 1, t, x, h => by
    unfold PriorityTable.upLoop
    split
    · exact h
    · split
      · exact keys_upLoop fuel _ (keys_swap h x (parent x))
      · exact h

theorem keys_downLoop : ∀ (fuel : Nat) {t : PriorityTable V K} (x : Nat), (t.entryIndex.map Prod.fst).Nodup →
    ((downLoop T fuel t x).entryIndex.map Prod.fst).Nodup
  | 0, _, _, h => h
  | fuel + 1, t, x, h => by
    unfold PriorityTable.downLoop
    split
    · split
      · exact h
      · exact keys_downLoop fuel _ (keys_swap h x (t.next T x))
    · exact h

theorem Keyed.insert (h : Keyed T t) (val : V) : Keyed T (t.insert T val).1 := by
  unfold PriorityTable.insert
  split
  · exact h
  · rename_i hnone
    exact ⟨(rearranged_upLoop _ _ _).indexed (h.indexed.append hnone), keys_upLoop _ _ (nodup_keys_upsert _ h.keys)⟩

theorem Keyed.put (h : Keyed T t) {pos : Nat} {old val : V} (hold : t.heap[pos]? = some old) (hkey : T.key val = T.key old) :
    Keyed T (t.put T pos old val) := by
  have hset := h.indexed.set hold hkey
  unfold PriorityTable.put
  split
  · exact ⟨(rearranged_upLoop _ _ _).indexed hset, keys_upLoop _ _ h.keys⟩
  · exact ⟨(rearranged_downLoop _ _ _).indexed hset, keys_downLoop _ _ h.keys⟩

theorem Keyed.eraseAt (h : Keyed T t) {pos : Nat} (hpos : pos < t.heap.length) : Keyed T (t.eraseAt T pos) := by
  refine ⟨(eraseAt_perm (List.getElem?_eq_getElem hpos) h.indexed).2, ?_⟩
  have hswap := keys_swap (T := T) h.keys pos (t.heap.length - 1)
  unfold PriorityTable.eraseAt
  dsimp only
  split
  · exact hswap
  · exact keys_downLoop _ _ (hswap.sublist (List.Sublist.map _ List.filter_sublist))

theorem Keyed.step (h : Keyed T t) {op : Op T} {t' : PriorityTable V K} (hstep : t.step op = some t') : Keyed T t' := by
  cases op with
  | insert val =>
    cases hstep
    exact h.insert val
  | replace k val =>
    obtain ⟨pos, hpos, rfl⟩ := map_eq_some_iff.1 hstep
    obtain ⟨old, hold, -⟩ := h.indexed.bound hpos
    by_cases hkey : T.key val = T.key old
    · simpa [PriorityTable.replace, hold, hkey] using h.put hold hkey
    · simpa [PriorityTable.replace, hold, hkey] using h
  | modify k f hf =>
    obtain ⟨pos, hpos, hmod⟩ := bind_eq_some_iff.1 hstep
    obtain ⟨old, hold, -⟩ := h.indexed.bound hpos
    have hput : t.modify T pos f = some (t.put T pos old (f old)) := by simp [modify, hold, hf]
    rw [hput] at hmod
    cases hmod
    exact h.put hold (hf old)
  | erase k =>
    cases hstep
    unfold eraseKey
    split
    · exact h
    · rename_i pos hpos
      obtain ⟨v, hv, hlen⟩ := h.indexed.bound hpos
      exact h.eraseAt hlen
  | pop =>
    have hne : t.heap ≠ [] := fun hne => by simp [PriorityTable.step, hne] at hstep
    simp only [PriorityTable.step, if_neg hne, Option.some.injEq] at hstep
    subst hstep
    exact h.eraseAt (List.length_pos_of_ne_nil hne)

/-- **Index and heap agree in every table that calls lead to**, whatever `compare_priorities` says. -/
theorem coherent_throughout (T : Traits V K P) (ops : List (Op T)) : Machine.Throughout step (Coherent T) ops empty := by
  have hempty : Keyed T (empty : PriorityTable V K) :=
    ⟨fun k i => iff_of_false (fun h => by cases h) fun ⟨v, hv, _⟩ => by simp [empty] at hv, List.nodup_nil⟩
  have hkeyed : Machine.Throughout step (Keyed T) ops empty :=
    Machine.throughout_of_step (P := fun _ _ => True) (fun _ _ _ h _ hstep => h.step hstep) hempty Machine.along_true
  exact hkeyed.mono fun _ => Keyed.coherent

end

section

/-- Pairs of a key and a priority. -/
def pairs : Traits (Nat × Nat) Nat Nat := ⟨Prod.fst, Prod.snd, fun a b => decide (a < b)⟩

def fivePairs : List (Op pairs) := [.insert (1, 100), .insert (2, 90), .insert (3, 80), .insert (4, 70), .insert (5, 1)]

/-- What was put in last can go again. -/
theorem inOrder_throughout_iff_fivePairs : StrictWeak pairs.compare ∧
    Machine.Throughout step (InOrder pairs) (fivePairs ++ [.erase 5, .modify 2 (fun p => (p.1, 75)) fun _ => rfl, .pop]) empty := by
  refine ⟨.ofKey id, (inOrder_throughout_iff (.ofKey id) _).mpr ?_⟩
  have hinsert : ∀ {t : PriorityTable (Nat × Nat) Nat} {val : Nat × Nat} {ops : List (Op pairs)},
      Machine.Along step Fits ops (t.insert pairs val).1 → Machine.Along step Fits (.insert val :: ops) t :=
    fun h => .cons rfl trivial h
  refine hinsert (hinsert (hinsert (hinsert (hinsert (.cons rfl ?_ (.cons rfl trivial (.cons rfl trivial trivial)))))))
  intro pos hpos
  obtain rfl : 4 = pos := Option.some.inj hpos
  refine .inr ⟨atMost_some.mpr rfl, fun c hc hcl => ?_⟩
  have hcl : c + 1 < 5 := hcl
  unfold parent at hc
  omega

/-- The last of five takes the place of the second, above two that are more than it. -/
theorem not_inOrder_erase : ∃ t, Machine.run step (fivePairs ++ [.erase 2]) empty = some t ∧
    t.drain pairs = [(1, 100), (4, 70), (3, 80), (5, 1)] ∧ ¬ InOrder pairs t := by
  have hdrain : drain pairs ((fivePairs.foldl (fun t op => (t.step op).getD t) empty).eraseKey pairs 2).1 =
      [(1, 100), (4, 70), (3, 80), (5, 1)] := by decide
  refine ⟨_, rfl, hdrain, fun h => ?_⟩
  have hsorted := (congrArg (NonIncreasing pairs.less) hdrain).mp h.sorted
  have := (List.pairwise_cons.mp (List.pairwise_cons.mp hsorted).2).1 (3, 80) (by simp)
  exact absurd this (by decide)

end

end PriorityTable

end Sbmt.Hash
