import Sbmt.Lib.Machine
import Sbmt.Lib.OpenAddressing
/-!
# The open-addressing hash table (`sbmt_decoder/include/sbmt/hash/impl/oa_hashtable.ipp`)

| here | there |
| --- | --- |
| `DoubleHash` | `double_hash_generator` (`:40-67`) |
| `OaTable` | `oa_table_c` (`oa_table_c.ipp:96-350`): the slots between the two guards, and the counters |
| `KeyTraits`, `LoadFactor` | `extract_key`, `hash_key`, `equal_keys`, and what is computed with `lf` |
| `findValue`, `findInsertion` | `:282-321` |
| `insert`, `erase`, `find`, `rehash`, `clear` | `:194-229`, `:246-263`, `:325-333`, `:367-393` |

A loop that goes once around the table has seen all there is to see, so a loop that has not ended by then
never ends; the loops here are given that many turns, and `none` where that is not enough.  `none` is also
where the constructor of `oa_table_c` throws.
-/

namespace Sbmt.Hash

open Sbmt.Lib List

variable {V K : Type}

def oaPrimeList : List Nat := [53, 97, 193, 389, 769, 1543, 3079, 6151, 12289, 24593, 49157, 98317, 196613, 393241,
  786433, 1572869, 3145739, 6291469, 12582917, 25165843, 50331653, 100663319, 201326611, 402653189, 805306457,
  1610612741, 3221225473, 4294967291]

/-- The first of the list that is not less, or the last. -/
def oaNextPrime (n : Nat) : Nat := (oaPrimeList.find? (n ≤ ·)).getD 4294967291

structure DoubleHash where
  k : Nat
  m : Nat
  last : Nat

namespace DoubleHash

def init (hashV mod : Nat) : DoubleHash := ⟨1 + hashV % (mod - 1), mod, hashV % mod⟩

def next (hg : DoubleHash) : Nat × DoubleHash := (hg.last, { hg with last := (hg.last + hg.k) % hg.m })

end DoubleHash

structure OaTable (V : Type) where
  slots : List (Slot V)
  maxNonEmpty : Nat
  numOccupied : Nat
  numNonEmpty : Nat

namespace OaTable

/-- The constructor; it throws where there would be no slot left empty. -/
def make (maxOccupied tableSize : Nat) : Option (OaTable V) :=
  if tableSize ≤ maxOccupied ∨ tableSize ≤ 0 then none else some ⟨replicate tableSize .empty, maxOccupied, 0, 0⟩

variable (tbl : OaTable V)

def size : Nat := tbl.slots.length

def setValueAt (idx : Nat) (v : V) : OaTable V :=
  match tbl.slots[idx]? with
  | none => tbl
  | some slot => { tbl with
      slots := tbl.slots.set idx (.occupied v)
      numOccupied := if slot.value?.isSome then tbl.numOccupied else tbl.numOccupied + 1
      numNonEmpty := if slot.isEmpty then tbl.numNonEmpty + 1 else tbl.numNonEmpty }

def eraseValueAt (idx : Nat) : OaTable V :=
  match tbl.slots[idx]? with
  | some (.occupied _) => { tbl with slots := tbl.slots.set idx .erased, numOccupied := tbl.numOccupied - 1 }
  | _ => tbl

/-- What an iterator at `idx` points to; nothing unless the slot is occupied. -/
def valueAt (idx : Nat) : Option V := tbl.slots[idx]?.bind Slot.value?

def clear : OaTable V :=
  { tbl with slots := replicate tbl.size .empty, numOccupied := 0, numNonEmpty := 0 }

end OaTable

structure KeyTraits (V K : Type) where
  extractKey : V → K
  hashKey : K → Nat
  equalKeys : K → K → Bool

/-- What is computed with the load factor `lf`, however it is rounded: `size_type(lf * p)`, `size_type(n / lf + 1)`, and
`count / size <= lf / 2`.  The factor is less than one, and a prime comes out less. -/
structure LoadFactor where
  scale : Nat → Nat
  stretch : Nat → Nat
  sparse : Nat → Nat → Bool
  scale_lt : ∀ p, 0 < p → scale p < p

namespace OaHashtable

section

variable (T : KeyTraits V K) (lf : LoadFactor)

/-- The loop of `find_value`. -/
def findLoop (tbl : OaTable V) (k : K) : Nat → DoubleHash → Option Nat
  | 0, _ => none
  | fuel + 1, hg =>
    match tbl.slots[hg.next.1]? with
    | some (.occupied v) => if T.equalKeys (T.extractKey v) k then some hg.next.1 else findLoop tbl k fuel hg.next.2
    | some .erased => findLoop tbl k fuel hg.next.2
    | some .empty => some hg.next.1
    | none => none

variable (tbl : OaTable V)

def findValue (k : K) : Option Nat :=
  findLoop T tbl k tbl.size (.init (T.hashKey k) tbl.size)

/-- The inner loop of `find_insertion`: the key may still come, behind the slot that is free. -/
def blankLoop (tbl : OaTable V) (k : K) (blankPos : Nat) : Nat → DoubleHash → Option Nat
  | 0, _ => none
  | fuel + 1, hg =>
    match tbl.slots[hg.next.1]? with
    | some (.occupied v) =>
      if T.equalKeys (T.extractKey v) k then some hg.next.1 else blankLoop tbl k blankPos fuel hg.next.2
    | some .erased => blankLoop tbl k blankPos fuel hg.next.2
    | some .empty => some blankPos
    | none => none

/-- The outer loop of `find_insertion`. -/
def insertionLoop (tbl : OaTable V) (k : K) : Nat → DoubleHash → Option Nat
  | 0, _ => none
  | fuel + 1, hg =>
    match tbl.slots[hg.next.1]? with
    | some (.occupied v) =>
      if T.equalKeys (T.extractKey v) k then some hg.next.1 else insertionLoop tbl k fuel hg.next.2
    | some .erased => blankLoop T tbl k hg.next.1 fuel hg.next.2
    | some .empty => some hg.next.1
    | none => none

def findInsertion (k : K) : Option Nat :=
  insertionLoop T tbl k tbl.size (.init (T.hashKey k) tbl.size)

/-- `oa_hashtable(n)`. -/
def create (n : Nat) : Option (OaTable V) := OaTable.make (lf.scale (oaNextPrime n)) (oaNextPrime (n + 1))

/-- The values of a table put into another. -/
def refill (new : OaTable V) (vs : List V) : Option (OaTable V) :=
  vs.foldlM (fun new v => (findInsertion T new (T.extractKey v)).map fun pos => new.setValueAt pos v) new

def rehash (n : Nat) : Option (OaTable V) :=
  if n < tbl.numOccupied then some tbl
  else
    let newTableSize :=
      if n = tbl.maxNonEmpty then tbl.size
      else if oaNextPrime (lf.stretch n) ≤ n then oaNextPrime (n + 1) else oaNextPrime (lf.stretch n)
    (OaTable.make n newTableSize).bind fun new => refill T new (values tbl.slots)

/-- The slot the value is in, and whether it is new. -/
def insert (obj : V) : Option (OaTable V × Nat × Bool) :=
  (findInsertion T tbl (T.extractKey obj)).bind fun pos =>
    if (tbl.valueAt pos).isSome then some (tbl, pos, false)
    else
      let tbl := tbl.setValueAt pos obj
      if tbl.numNonEmpty > tbl.maxNonEmpty then
        (if tbl.numOccupied < tbl.maxNonEmpty ∧ lf.sparse tbl.numOccupied tbl.size then rehash T lf tbl tbl.maxNonEmpty
          else rehash T lf tbl (2 * tbl.maxNonEmpty + 1)).bind fun tbl =>
          (findValue T tbl (T.extractKey obj)).map fun pos => (tbl, pos, true)
      else some (tbl, pos, true)

def erase (k : K) : Option (OaTable V × Nat) :=
  (findValue T tbl k).map fun pos => if (tbl.valueAt pos).isSome then (tbl.eraseValueAt pos, 1) else (tbl, 0)

/-- What the iterator points to, and nothing for `end`. -/
def find (k : K) : Option (Option V) := (findValue T tbl k).map tbl.valueAt

end

/-- The calls. -/
inductive Op (V K : Type) where
  | insert (obj : V)
  | erase (k : K)
  | find (k : K)
  | rehash (n : Nat)
  | clear

/-- What a call returns, iterators as what they point to. -/
inductive Result (V : Type) where
  | inserted (at_ : Option V) (inserting : Bool)
  | erased (count : Nat)
  | found (v : Option V)
  | done
deriving DecidableEq

def step (T : KeyTraits V K) (lf : LoadFactor) (tbl : OaTable V) : Op V K → Option (OaTable V × Result V)
  | .insert obj => (insert T lf tbl obj).map fun (tbl, pos, inserting) => (tbl, .inserted (tbl.valueAt pos) inserting)
  | .erase k => (erase T tbl k).map fun (tbl, count) => (tbl, .erased count)
  | .find k => (find T tbl k).map fun v => (tbl, .found v)
  | .rehash n => (rehash T lf tbl n).map fun tbl => (tbl, .done)
  | .clear => some (tbl.clear, .done)

def run (T : KeyTraits V K) (lf : LoadFactor) : List (Op V K) → OaTable V → Option (OaTable V × List (Result V))
  | [], tbl => some (tbl, [])
  | op :: ops, tbl =>
    (step T lf tbl op).bind fun (tbl, result) =>
      (run T lf ops tbl).map fun (tbl, results) => (tbl, result :: results)

/-! ## The map it is -/

/-- The same calls on a finite map, given as the list of its values, no two with equal keys. -/
def mapStep (T : KeyTraits V K) (live : List V) : Op V K → List V × Result V
  | .insert obj =>
    match live.find? fun v => T.equalKeys (T.extractKey v) (T.extractKey obj) with
    | some v => (live, .inserted (some v) false)
    | none => (obj :: live, .inserted (some obj) true)
  | .erase k =>
    (live.filter fun v => !T.equalKeys (T.extractKey v) k,
      .erased (if live.any fun v => T.equalKeys (T.extractKey v) k then 1 else 0))
  | .find k => (live, .found (live.find? fun v => T.equalKeys (T.extractKey v) k))
  | .rehash _ => (live, .done)
  | .clear => ([], .done)

def mapRun (T : KeyTraits V K) : List (Op V K) → List V → List V × List (Result V)
  | [], live => (live, [])
  | op :: ops, live =>
    let rest := mapRun T ops (mapStep T live op).1
    (rest.1, (mapStep T live op).2 :: rest.2)

/-- What is stored under a key: by the first insert since there was nothing. -/
def stored (T : KeyTraits V K) (k : K) (v : Option V) : Op V K → Option V
  | .insert obj => if T.equalKeys (T.extractKey obj) k then v.or (some obj) else v
  | .erase k' => if T.equalKeys k' k then none else v
  | .clear => none
  | _ => v

/-- The primes of the list last for a call. -/
def Affordable (tbl : OaTable V) : Op V K → Prop
  | .insert _ => tbl.numNonEmpty = tbl.maxNonEmpty → 2 * tbl.maxNonEmpty + 2 ≤ 4294967291
  | .rehash n => n + 1 ≤ 4294967291
  | _ => True

/-- They last for all of a sequence of calls. -/
def PrimesLast (T : KeyTraits V K) (lf : LoadFactor) : List (Op V K) → OaTable V → Prop
  | [], _ => True
  | op :: ops, tbl => Affordable tbl op ∧ ∀ next ∈ step T lf tbl op, PrimesLast T lf ops next.1

instance (tbl : OaTable V) : ∀ op : Op V K, Decidable (Affordable tbl op)
  | .insert _ => inferInstanceAs (Decidable (_ → _))
  | .rehash _ => inferInstanceAs (Decidable (_ ≤ _))
  | .erase _ | .find _ | .clear => .isTrue trivial

instance decidablePrimesLast (T : KeyTraits V K) (lf : LoadFactor) : ∀ (ops : List (Op V K)) (tbl : OaTable V),
    Decidable (PrimesLast T lf ops tbl)
  | [], _ => .isTrue trivial
  | op :: ops, tbl =>
    have := fun next : OaTable V × Result V => decidablePrimesLast T lf ops next.1
    inferInstanceAs (Decidable (Affordable tbl op ∧ ∀ next ∈ step T lf tbl op, PrimesLast T lf ops next.1))

/-! ## Probing -/

/-- The `i`th of the positions that `double_hash_generator` makes of a hash value. -/
def probe (m hash i : Nat) : Nat := (hash % m + i * (1 + hash % (m - 1))) % m

/-- The generator after `i` of them. -/
def generator (m hash i : Nat) : DoubleHash := ⟨1 + hash % (m - 1), m, probe m hash i⟩

theorem generator_init (m hash : Nat) : DoubleHash.init hash m = generator m hash 0 := by
  simp [DoubleHash.init, generator, probe]

theorem generator_next (m hash i : Nat) : (generator m hash i).next = (probe m hash i, generator m hash (i + 1)) := by
  simp only [DoubleHash.next, generator, probe, Nat.mod_add_mod, Nat.add_assoc, Nat.succ_mul]

theorem exists_probe {m : Nat} (hm : m.Prime) (hash s : Nat) (hs : s < m) : ∃ i < m, probe m hash i = s := by
  have h2 := hm.two_le
  have hk : hash % (m - 1) < m - 1 := Nat.mod_lt _ (by omega)
  exact exists_step hm (by omega) (by omega : 1 + hash % (m - 1) < m) (hash % m) s hs

theorem probe_lt {m : Nat} (hm : 0 < m) (hash i : Nat) : probe m hash i < m := Nat.mod_lt _ hm

section

variable {T : KeyTraits V K} {tbl : OaTable V} {k : K} {i : Nat}

/-- The places where a search of `k` looks in this table. -/
def look (T : KeyTraits V K) (tbl : OaTable V) (k : K) (i : Nat) : Nat := probe tbl.size (T.hashKey k) i

/-- A search of `k` has looked in `i` places; it found nothing, and nothing to stop it. -/
def Passed (T : KeyTraits V K) (tbl : OaTable V) (k : K) (i : Nat) : Prop :=
  ∀ j < i, tbl.slots[look T tbl k j]? ≠ some .empty ∧
    ∀ v, tbl.slots[look T tbl k j]? = some (.occupied v) → T.equalKeys (T.extractKey v) k = false

/-- The key is in the table, in slot `s`. -/
def FoundAt (T : KeyTraits V K) (tbl : OaTable V) (k : K) (s : Nat) : Prop :=
  ∃ v, tbl.slots[s]? = some (.occupied v) ∧ T.equalKeys (T.extractKey v) k = true

/-- The key is not in the table. -/
def Absent (T : KeyTraits V K) (tbl : OaTable V) (k : K) : Prop :=
  ∀ v ∈ values tbl.slots, T.equalKeys (T.extractKey v) k = false

/-- Slot `s` is free, and a search of `k` comes by it. -/
def FreeAt (T : KeyTraits V K) (tbl : OaTable V) (k : K) (s : Nat) : Prop :=
  (∃ old, tbl.slots[s]? = some old ∧ old.value? = none) ∧ ProbeReaches (probe tbl.size) tbl.slots (T.hashKey k) s

/-- A table in which searches end, and end right. -/
structure Searchable (T : KeyTraits V K) (tbl : OaTable V) : Prop where
  prime : tbl.size.Prime
  placed : Placed (probe tbl.size) T.extractKey T.equalKeys T.hashKey tbl.slots
  room : nonEmptyCount tbl.slots < tbl.size

theorem Passed.succ (h : Passed T tbl k i) (hne : tbl.slots[look T tbl k i]? ≠ some .empty)
    (hno : ∀ v, tbl.slots[look T tbl k i]? = some (.occupied v) → T.equalKeys (T.extractKey v) k = false) :
    Passed T tbl k (i + 1) := by
  intro j hj
  rcases Nat.lt_succ_iff_lt_or_eq.mp hj with hj | rfl
  · exact h j hj
  · exact ⟨hne, hno⟩

theorem Passed.occupied (h : Passed T tbl k i) {v : V} (hslot : tbl.slots[look T tbl k i]? = some (.occupied v))
    (hne : ¬ T.equalKeys (T.extractKey v) k = true) : Passed T tbl k (i + 1) := by
  refine h.succ (fun hempty => ?_) fun w hw => ?_
  · rw [hslot] at hempty
    cases hempty
  · rw [hslot] at hw
    cases hw
    exact Bool.eq_false_iff.mpr hne

theorem Passed.erased (h : Passed T tbl k i) (hslot : tbl.slots[look T tbl k i]? = some .erased) : Passed T tbl k (i + 1) := by
  refine h.succ (fun hempty => ?_) fun w hw => ?_
  · rw [hslot] at hempty
    cases hempty
  · rw [hslot] at hw
    cases hw

section

variable {σ : Type}

/-- A loop that looks at one position after the other; its body returns, or goes on with what it remembers. -/
def probeLoop (body : σ → Nat → Slot V → σ ⊕ Nat) (tbl : OaTable V) : Nat → σ → DoubleHash → Option Nat
  | 0, _, _ => none
  | fuel + 1, st, hg =>
    match tbl.slots[hg.next.1]? with
    | none => none
    | some slot =>
      match body st hg.next.1 slot with
      | .inl st => probeLoop body tbl fuel st hg.next.2
      | .inr r => some r

def findBody (T : KeyTraits V K) (k : K) : Unit → Nat → Slot V → Unit ⊕ Nat
  | (), idx, .occupied v => if T.equalKeys (T.extractKey v) k then .inr idx else .inl ()
  | (), _, .erased => .inl ()
  | (), idx, .empty => .inr idx

def insertionBody (T : KeyTraits V K) (k : K) : Option Nat → Nat → Slot V → Option Nat ⊕ Nat
  | blank, idx, .occupied v => if T.equalKeys (T.extractKey v) k then .inr idx else .inl blank
  | blank, idx, .erased => .inl (some (blank.getD idx))
  | blank, idx, .empty => .inr (blank.getD idx)

variable (T : KeyTraits V K) (tbl : OaTable V) (k : K)

theorem findLoop_eq : ∀ (fuel : Nat) (hg : DoubleHash),
    findLoop T tbl k fuel hg = probeLoop (findBody T k) tbl fuel () hg
  | 0, _ => rfl
  | fuel + 1, hg => by
    simp only [findLoop, probeLoop]
    match tbl.slots[hg.next.1]? with
    | none | some .empty => rfl
    | some (.occupied v) =>
      simp only [findBody]
      cases T.equalKeys (T.extractKey v) k with
      | true => rfl
      | false => exact findLoop_eq fuel hg.next.2
    | some .erased => exact findLoop_eq fuel hg.next.2

theorem blankLoop_eq (blank : Nat) : ∀ (fuel : Nat) (hg : DoubleHash),
    blankLoop T tbl k blank fuel hg = probeLoop (insertionBody T k) tbl fuel (some blank) hg
  | 0, _ => rfl
  | fuel + 1, hg => by
    simp only [blankLoop, probeLoop]
    match tbl.slots[hg.next.1]? with
    | none | some .empty => rfl
    | some (.occupied v) =>
      simp only [insertionBody]
      cases T.equalKeys (T.extractKey v) k with
      | true => rfl
      | false => exact blankLoop_eq blank fuel hg.next.2
    | some .erased => exact blankLoop_eq blank fuel hg.next.2

theorem insertionLoop_eq : ∀ (fuel : Nat) (hg : DoubleHash),
    insertionLoop T tbl k fuel hg = probeLoop (insertionBody T k) tbl fuel none hg
  | 0, _ => rfl
  | fuel + 1, hg => by
    simp only [insertionLoop, probeLoop]
    match tbl.slots[hg.next.1]? with
    | none | some .empty => rfl
    | some (.occupied v) =>
      simp only [insertionBody]
      cases T.equalKeys (T.extractKey v) k with
      | true => rfl
      | false => exact insertionLoop_eq fuel hg.next.2
    | some .erased => exact blankLoop_eq T tbl k hg.next.1 fuel hg.next.2

end

section

theorem Passed.reaches (hp : Passed T tbl k i) : ProbeReaches (probe tbl.size) tbl.slots (T.hashKey k) (look T tbl k i) :=
  ⟨i, rfl, fun j hj => (hp j hj).1⟩

/-- The slot that is remembered, or this one. -/
theorem free_getD {blank : Option Nat} (hblank : ∀ s ∈ blank, FreeAt T tbl k s) (hp : Passed T tbl k i) {slot : Slot V}
    (hslot : tbl.slots[look T tbl k i]? = some slot) (hfree : slot.value? = none) :
    FreeAt T tbl k (blank.getD (look T tbl k i)) := by
  cases blank with
  | none => exact ⟨⟨slot, hslot, hfree⟩, hp.reaches⟩
  | some s => exact hblank s rfl

variable {σ : Type} (h : Searchable T tbl)
include h

theorem Searchable.lookup (k : K) (i : Nat) : ∃ slot, tbl.slots[look T tbl k i]? = some slot :=
  ⟨_, getElem?_eq_getElem (probe_lt h.prime.pos _ _)⟩

/-- Some turns are left, for an empty slot is still ahead. -/
theorem Searchable.ahead (hp : Passed T tbl k i) {fuel : Nat} (hfuel : tbl.size ≤ i + fuel) : fuel ≠ 0 := by
  rintro rfl
  obtain ⟨s, hs, hempty⟩ := exists_empty h.room
  obtain ⟨j, hj, hjs⟩ := exists_probe h.prime (T.hashKey k) s hs
  refine (hp j (by omega)).1 ?_
  rw [look, hjs, hempty]

variable (E : KeyEquality T.equalKeys T.hashKey)
include E

theorem Searchable.absent (hp : Passed T tbl k i)
    (hempty : tbl.slots[look T tbl k i]? = some .empty) : Absent T tbl k :=
  h.placed.absent E hempty fun j hj w hw => (hp j hj).2 w hw

/-- A loop that returns at the key and goes on past any other value ends: at the key, or with what its body makes of an
empty slot. -/
theorem probeLoop_spec {body : σ → Nat → Slot V → σ ⊕ Nat} {I : σ → Prop} {Q : Nat → Prop}
    (hoccupied : ∀ st idx v, body st idx (.occupied v) = if T.equalKeys (T.extractKey v) k then .inr idx else .inl st)
    (herased : ∀ st i, I st → Passed T tbl k i → tbl.slots[look T tbl k i]? = some .erased →
      ∃ st', body st (look T tbl k i) .erased = .inl st' ∧ I st')
    (hempty : ∀ st i, I st → Passed T tbl k i → tbl.slots[look T tbl k i]? = some .empty →
      ∃ s, body st (look T tbl k i) .empty = .inr s ∧ Q s) :
    ∀ {fuel i : Nat} {st : σ}, I st → Passed T tbl k i → tbl.size ≤ i + fuel →
      ∃ s, probeLoop body tbl fuel st (generator tbl.size (T.hashKey k) i) = some s ∧
        (FoundAt T tbl k s ∨ Q s ∧ Absent T tbl k)
  | 0, i, st, _, hp, hfuel => absurd rfl (h.ahead hp hfuel)
  | fuel + 1, i, st, hst, hp, hfuel => by
    obtain ⟨slot, hslot⟩ := h.lookup k i
    have hturn : probeLoop body tbl (fuel + 1) st (generator tbl.size (T.hashKey k) i) =
        match body st (look T tbl k i) slot with
        | .inl st => probeLoop body tbl fuel st (generator tbl.size (T.hashKey k) (i + 1))
        | .inr r => some r := by
      simp only [probeLoop, generator_next]
      rw [show tbl.slots[probe tbl.size (T.hashKey k) i]? = some slot from hslot]
      rfl
    rw [hturn]
    cases slot with
    | empty =>
      obtain ⟨s, hs, hQ⟩ := hempty st i hst hp hslot
      exact ⟨s, by rw [hs], .inr ⟨hQ, h.absent E hp hslot⟩⟩
    | occupied v =>
      rw [hoccupied]
      by_cases heq : T.equalKeys (T.extractKey v) k = true
      · rw [if_pos heq]
        exact ⟨_, rfl, .inl ⟨v, hslot, heq⟩⟩
      · rw [if_neg heq]
        exact probeLoop_spec hoccupied herased hempty hst (hp.occupied hslot heq) (by omega)
    | erased =>
      obtain ⟨st', hst', hI⟩ := herased st i hst hp hslot
      rw [hst']
      exact probeLoop_spec hoccupied herased hempty hI (hp.erased hslot) (by omega)

/-- **Finding ends, at the key or without it.** -/
theorem findValue_spec (k : K) :
    ∃ s, findValue T tbl k = some s ∧ (FoundAt T tbl k s ∨ tbl.valueAt s = none ∧ Absent T tbl k) := by
  rw [findValue, findLoop_eq, generator_init]
  refine probeLoop_spec (Q := fun s => tbl.valueAt s = none) h E (fun _ _ _ => rfl) (I := fun _ => True)
    (fun _ _ _ _ _ => ⟨(), rfl, trivial⟩)
    (fun _ i _ _ hempty => ⟨_, rfl, ?_⟩) trivial (fun j hj => absurd hj (Nat.not_lt_zero j)) (Nat.le_add_left _ _)
  rw [OaTable.valueAt, hempty]
  rfl

/-- **Looking for a place ends, at the key or at a free slot on the key's way.** -/
theorem findInsertion_spec (k : K) :
    ∃ s, findInsertion T tbl k = some s ∧ (FoundAt T tbl k s ∨ FreeAt T tbl k s ∧ Absent T tbl k) := by
  rw [findInsertion, insertionLoop_eq, generator_init]
  -- the slot that is remembered is free, and on the key's way
  refine probeLoop_spec (Q := FreeAt T tbl k) h E (I := fun blank => ∀ s ∈ blank, FreeAt T tbl k s) (fun _ _ _ => rfl)
    (fun blank i hI hp hslot => ?_) (fun blank i hI hp hslot => ?_) (fun _ h => nomatch h)
    (fun j hj => absurd hj (Nat.not_lt_zero j)) (Nat.le_add_left _ _)
  · refine ⟨_, rfl, fun s hs => ?_⟩
    rw [← Option.some.inj hs]
    exact free_getD hI hp hslot rfl
  · exact ⟨_, rfl, free_getD hI hp hslot rfl⟩

end

/-! ## The primes -/

/-- A number is prime if some power that makes one has the order of the whole group: it is enough to look at the
prime factors of the order. -/
theorem prime_of_order {p : Nat} (a : ZMod p) (qs : List Nat) (hqs : ∀ q ∈ qs, q.Prime) (hprod : qs.prod = p - 1)
    (hone : a ^ (p - 1) = 1) (hne : ∀ q ∈ qs, a ^ ((p - 1) / q) ≠ 1) : p.Prime := by
  refine lucas_primality p a hone fun q hq hdvd => ?_
  rw [← hprod, Prime.dvd_prod_iff hq.prime] at hdvd
  obtain ⟨r, hr, hdvd⟩ := hdvd
  rw [(Nat.prime_dvd_prime_iff_eq hq (hqs r hr)).mp hdvd]
  exact hne r hr

/-- The six that are too large to try all divisors. -/
theorem prime_of_large : ∀ p ∈ [201326611, 402653189, 805306457, 1610612741, 3221225473, 4294967291], p.Prime := by
  simp only [forall_mem_cons, not_mem_nil, false_implies, implies_true, and_true]
  refine ⟨prime_of_order 2 [2, 3, 5, 6710887] ?_ ?_ ?_ ?_, prime_of_order 2 [2, 2, 7, 7, 7, 269, 1091] ?_ ?_ ?_ ?_,
    prime_of_order 3 [2, 2, 2, 17, 5921371] ?_ ?_ ?_ ?_, prime_of_order 2 [2, 2, 5, 11, 1399, 5233] ?_ ?_ ?_ ?_,
    prime_of_order 5 (3 :: replicate 30 2) ?_ ?_ ?_ ?_, prime_of_order 2 [2, 5, 19, 22605091] ?_ ?_ ?_ ?_⟩
  all_goals norm_num
  all_goals reduce_mod_char
  all_goals decide

theorem prime_of_mem : ∀ p ∈ oaPrimeList, p.Prime := by
  have hsmall : ∀ p ∈ oaPrimeList.take 22, p.Prime := by
    norm_num [oaPrimeList]
  exact forall_mem_append.mpr ⟨hsmall, prime_of_large⟩

theorem oaNextPrime_prime (n : Nat) : (oaNextPrime n).Prime := by
  unfold oaNextPrime
  cases h : oaPrimeList.find? (n ≤ ·) with
  | some p => exact prime_of_mem p (mem_of_find?_eq_some h)
  | none => exact prime_of_mem 4294967291 (by simp [oaPrimeList])

/-- Up to its last prime the list has one that is not less. -/
theorem le_oaNextPrime {n : Nat} (hn : n ≤ 4294967291) : n ≤ oaNextPrime n := by
  unfold oaNextPrime
  cases h : oaPrimeList.find? (n ≤ ·) with
  | some p => simpa using find?_some h
  | none => exact hn

/-! ## What the operations keep -/

/-- The values are where they are found, and counted. -/
structure Kept (T : KeyTraits V K) (tbl : OaTable V) : Prop where
  prime : tbl.size.Prime
  placed : Placed (probe tbl.size) T.extractKey T.equalKeys T.hashKey tbl.slots
  occupied : tbl.numOccupied = (values tbl.slots).length
  nonEmpty : tbl.numNonEmpty = nonEmptyCount tbl.slots

/-- And there is a slot left empty: fewer are in use than there are. -/
structure Inv (T : KeyTraits V K) (tbl : OaTable V) : Prop extends Kept T tbl where
  fits : tbl.numNonEmpty ≤ tbl.maxNonEmpty
  small : tbl.maxNonEmpty < tbl.size

theorem Inv.searchable (h : Inv T tbl) : Searchable T tbl :=
  ⟨h.prime, h.placed, by rw [← h.nonEmpty]; exact h.fits.trans_lt h.small⟩

/-- Values with equal keys are one value. -/
theorem Kept.unique (h : Kept T tbl) (E : KeyEquality T.equalKeys T.hashKey) {v w : V} (hv : v ∈ values tbl.slots)
    (hw : w ∈ values tbl.slots) (hvk : T.equalKeys (T.extractKey v) k = true) (hwk : T.equalKeys (T.extractKey w) k = true) :
    v = w := by
  obtain ⟨s, hs⟩ := mem_values.mp hv
  obtain ⟨s', hs'⟩ := mem_values.mp hw
  have hss := h.placed.apart s s' v w hs hs' (E.trans hvk (E.symm hwk))
  rw [hss, hs'] at hs
  cases hs
  rfl

theorem values_replicate (m : Nat) : values (replicate m (.empty : Slot V)) = [] := by
  simp [values, Slot.value?]

theorem inv_replicate {cap m : Nat} (hm : m.Prime) (hcap : cap < m) :
    Inv T (⟨replicate m .empty, cap, 0, 0⟩ : OaTable V) := by
  have hsize : (⟨replicate m .empty, cap, 0, 0⟩ : OaTable V).size = m := length_replicate
  refine ⟨⟨?_, placed_replicate m, ?_, ?_⟩, Nat.zero_le _, ?_⟩
  · rw [hsize]
    exact hm
  · rw [values_replicate]
    rfl
  · simp only [nonEmptyCount, countP_replicate]
    rfl
  · rw [hsize]
    exact hcap

theorem make_eq {cap m : Nat} (hcap : cap < m) :
    OaTable.make cap m = some (⟨replicate m .empty, cap, 0, 0⟩ : OaTable V) := by
  rw [OaTable.make, if_neg (by omega)]

/-- What a new value changes. -/
structure Added (T : KeyTraits V K) (tbl : OaTable V) (s : Nat) (v : V) (tbl' : OaTable V) : Prop where
  kept : Kept T tbl'
  values : (values tbl'.slots).Perm (v :: values tbl.slots)
  size : tbl'.size = tbl.size
  maxNonEmpty : tbl'.maxNonEmpty = tbl.maxNonEmpty
  numNonEmpty : tbl'.numNonEmpty ≤ tbl.numNonEmpty + 1
  valueAt : tbl'.valueAt s = some v

theorem setValueAt_added (h : Kept T tbl) (E : KeyEquality T.equalKeys T.hashKey) {v : V} {s : Nat}
    (hfree : FreeAt T tbl (T.extractKey v) s) (habsent : Absent T tbl (T.extractKey v)) :
    Added T tbl s v (tbl.setValueAt s v) := by
  obtain ⟨⟨old, hold, hnone⟩, hreach⟩ := hfree
  have hlen := (List.getElem?_eq_some_iff.mp hold).1
  have hset : tbl.setValueAt s v = { tbl with
      slots := tbl.slots.set s (.occupied v), numOccupied := tbl.numOccupied + 1
      numNonEmpty := if old.isEmpty then tbl.numNonEmpty + 1 else tbl.numNonEmpty } := by
    rw [OaTable.setValueAt, hold]
    simp [hnone]
  have hvalues := values_set hold (.occupied v)
  rw [hnone] at hvalues
  have hvalues : (Lib.values (tbl.slots.set s (.occupied v))).Perm (v :: Lib.values tbl.slots) := hvalues
  have hcount := nonEmptyCount_set hold (.occupied v)
  have hsize : (tbl.slots.set s (.occupied v)).length = tbl.slots.length := length_set
  rw [hset]
  refine ⟨⟨?_, ?_, ?_, ?_⟩, hvalues, hsize, rfl, ?_, ?_⟩
  · rw [OaTable.size, hsize]
    exact h.prime
  · rw [OaTable.size, hsize]
    exact h.placed.set E hold hreach habsent
  · rw [hvalues.length_eq, length_cons, h.occupied]
  · rw [h.nonEmpty]
    by_cases hempty : old.isEmpty = true
    · rw [if_pos hempty] at hcount ⊢
      exact hcount.symm
    · rw [if_neg hempty] at hcount ⊢
      exact (Nat.succ.inj hcount).symm
  · split
    · exact le_rfl
    · exact Nat.le_succ _
  · rw [OaTable.valueAt, getElem?_set_self hlen]
    rfl

theorem eraseValueAt_kept (h : Inv T tbl) {v : V} {s : Nat} (hs : tbl.slots[s]? = some (.occupied v)) :
    Inv T (tbl.eraseValueAt s) ∧ (v :: values (tbl.eraseValueAt s).slots).Perm (values tbl.slots) := by
  have herase : tbl.eraseValueAt s = { tbl with slots := tbl.slots.set s .erased, numOccupied := tbl.numOccupied - 1 } := by
    rw [OaTable.eraseValueAt, hs]
  have hvalues : (v :: Lib.values (tbl.slots.set s .erased)).Perm (Lib.values tbl.slots) := values_set hs .erased
  have hcount := nonEmptyCount_set hs .erased
  have hsize : (tbl.slots.set s .erased).length = tbl.slots.length := length_set
  have hlen := hvalues.length_eq
  rw [length_cons] at hlen
  rw [herase]
  refine ⟨⟨⟨?_, ?_, ?_, ?_⟩, h.fits, ?_⟩, hvalues⟩
  · rw [OaTable.size, hsize]
    exact h.prime
  · rw [OaTable.size, hsize]
    exact h.placed.erase s
  · dsimp only
    rw [h.occupied]
    omega
  · rw [h.nonEmpty]
    simpa [Slot.isEmpty] using hcount.symm
  · rw [OaTable.size, hsize]
    exact h.small

theorem values_length_le (slots : List (Slot V)) : (values slots).length ≤ nonEmptyCount slots := by
  rw [values, length_filterMap_eq_countP]
  apply countP_mono_left
  intro slot _ h
  cases slot with
  | empty => cases h
  | occupied v => rfl
  | erased => rfl

/-! ## Rehashing -/

/-- No two values have equal keys. -/
def Distinct (T : KeyTraits V K) (vs : List V) : Prop :=
  vs.Pairwise fun v w => T.equalKeys (T.extractKey v) (T.extractKey w) = false

theorem unequal_symm (E : KeyEquality T.equalKeys T.hashKey) {a b : K} (h : T.equalKeys a b = false) :
    T.equalKeys b a = false := by
  rw [Bool.eq_false_iff] at h ⊢
  exact fun hba => h (E.symm hba)

theorem Distinct.perm {vs ws : List V} (h : Distinct T vs) (E : KeyEquality T.equalKeys T.hashKey) (hp : vs.Perm ws) :
    Distinct T ws :=
  List.Pairwise.perm h hp fun hvw => unequal_symm E hvw

theorem refill_spec (E : KeyEquality T.equalKeys T.hashKey) : ∀ (vs : List V) {new : OaTable V}, Inv T new →
    new.numNonEmpty + vs.length ≤ new.maxNonEmpty → Distinct T (values new.slots ++ vs) →
    ∃ new', refill T new vs = some new' ∧ Inv T new' ∧ (values new'.slots).Perm (values new.slots ++ vs)
  | [], new, h, _, _ => ⟨new, rfl, h, by rw [append_nil]⟩
  | v :: vs, new, h, hroom, hdistinct => by
    have hv : ∀ w ∈ values new.slots, T.equalKeys (T.extractKey w) (T.extractKey v) = false := fun w hw =>
      (pairwise_append.mp hdistinct).2.2 w hw v mem_cons_self
    obtain ⟨s, hs, hfound⟩ := findInsertion_spec h.searchable E (T.extractKey v)
    have hfree : FreeAt T new (T.extractKey v) s := by
      rcases hfound with ⟨w, hw, heq⟩ | ⟨hfree, -⟩
      · rw [hv w (mem_values.mpr ⟨s, hw⟩)] at heq
        cases heq
      · exact hfree
    have hadded := setValueAt_added h.toKept E hfree hv
    have hmid : (values (new.setValueAt s v).slots ++ vs).Perm (values new.slots ++ v :: vs) :=
      (hadded.values.append_right vs).trans perm_middle.symm
    have hinv : Inv T (new.setValueAt s v) := by
      refine ⟨hadded.kept, ?_, ?_⟩
      · have := hadded.numNonEmpty
        rw [hadded.maxNonEmpty]
        rw [length_cons] at hroom
        omega
      · rw [hadded.maxNonEmpty, hadded.size]
        exact h.small
    obtain ⟨new', hnew', hinv', hperm⟩ := refill_spec E vs hinv
      (by
        have := hadded.numNonEmpty
        rw [hadded.maxNonEmpty]
        rw [length_cons] at hroom
        omega)
      (hdistinct.perm E hmid.symm)
    refine ⟨new', ?_, hinv', hperm.trans hmid⟩
    rw [← hnew', refill, foldlM_cons, hs]
    rfl

variable (lf : LoadFactor)

/-- **A table is rehashed into one with the same values**, if they fit. -/
theorem rehash_spec (h : Kept T tbl) (E : KeyEquality T.equalKeys T.hashKey) {n : Nat} (hfit : tbl.numOccupied ≤ n)
    (hsmall : tbl.maxNonEmpty < tbl.size) (hn : n ≠ tbl.maxNonEmpty → n + 1 ≤ 4294967291) :
    ∃ tbl', rehash T lf tbl n = some tbl' ∧ Inv T tbl' ∧ (values tbl'.slots).Perm (values tbl.slots) := by
  unfold rehash
  rw [if_neg (by omega)]
  extract_lets newTableSize
  have hsize : newTableSize.Prime ∧ n < newTableSize := by
    simp only [newTableSize]
    split
    · rename_i hmax
      exact ⟨h.prime, hmax ▸ hsmall⟩
    · rename_i hmax
      split
      · exact ⟨oaNextPrime_prime _, le_oaNextPrime (hn hmax)⟩
      · exact ⟨oaNextPrime_prime _, by omega⟩
  have hempty := inv_replicate (T := T) hsize.1 hsize.2
  obtain ⟨new', hnew', hinv', hperm⟩ := refill_spec E (values tbl.slots) hempty
    (by
      rw [← h.occupied, Nat.zero_add]
      exact hfit)
    (by
      rw [values_replicate]
      exact h.placed.pairwise)
  rw [values_replicate] at hperm
  refine ⟨new', ?_, hinv', hperm⟩
  rw [make_eq hsize.2, Option.bind_some, hnew']

/-! ## Inserting -/

/-- What `insert` does: the value that was there, or the new one and nothing else. -/
inductive Inserted (T : KeyTraits V K) (tbl : OaTable V) (obj : V) : Option (OaTable V × Nat × Bool) → Prop where
  | old (s : Nat) (v : V) (hmem : v ∈ values tbl.slots) (heq : T.equalKeys (T.extractKey v) (T.extractKey obj) = true)
      (hat : tbl.valueAt s = some v) : Inserted T tbl obj (some (tbl, s, false))
  | new (s : Nat) (tbl' : OaTable V) (habsent : Absent T tbl (T.extractKey obj)) (hinv : Inv T tbl')
      (hvalues : (values tbl'.slots).Perm (obj :: values tbl.slots)) (hat : tbl'.valueAt s = some obj) :
      Inserted T tbl obj (some (tbl', s, true))

theorem FoundAt.valueAt {s : Nat} (h : FoundAt T tbl k s) :
    ∃ v ∈ values tbl.slots, tbl.valueAt s = some v ∧ T.equalKeys (T.extractKey v) k = true := by
  obtain ⟨v, hv, heq⟩ := h
  exact ⟨v, mem_values.mpr ⟨s, hv⟩, by rw [OaTable.valueAt, hv]; rfl, heq⟩

theorem valueAt_eq_some {s : Nat} {v : V} : tbl.valueAt s = some v ↔ tbl.slots[s]? = some (.occupied v) := by
  rw [OaTable.valueAt]
  constructor
  · intro h
    obtain ⟨slot, hslot, hv⟩ := Option.bind_eq_some_iff.mp h
    cases slot with
    | occupied w =>
      cases hv
      exact hslot
    | empty => cases hv
    | erased => cases hv
  · intro h
    rw [h]
    rfl

theorem FreeAt.valueAt {s : Nat} (h : FreeAt T tbl k s) : tbl.valueAt s = none := by
  obtain ⟨⟨old, hold, hnone⟩, -⟩ := h
  rw [OaTable.valueAt, hold]
  exact hnone

/-- After rehashing the value is looked for again, and found. -/
theorem findValue_rehash (h : Kept T tbl) (E : KeyEquality T.equalKeys T.hashKey) {n : Nat} (hfit : tbl.numOccupied ≤ n)
    (hsmall : tbl.maxNonEmpty < tbl.size) (hn : n ≠ tbl.maxNonEmpty → n + 1 ≤ 4294967291) {obj : V}
    (hobj : obj ∈ values tbl.slots) :
    ∃ tbl' s, rehash T lf tbl n = some tbl' ∧ Inv T tbl' ∧ (values tbl'.slots).Perm (values tbl.slots) ∧
      findValue T tbl' (T.extractKey obj) = some s ∧ tbl'.valueAt s = some obj := by
  obtain ⟨tbl', hrun, hinv, hperm⟩ := rehash_spec lf h E hfit hsmall hn
  have hmem := hperm.mem_iff.mpr hobj
  obtain ⟨s, hs, hfound | ⟨-, habsent⟩⟩ := findValue_spec hinv.searchable E (T.extractKey obj)
  · obtain ⟨v, hv, hat, heq⟩ := hfound.valueAt
    rw [hinv.unique E hv hmem heq (E.refl _)] at hat
    exact ⟨tbl', s, hrun, hinv, hperm, hs, hat⟩
  · have := habsent obj hmem
    rw [E.refl] at this
    cases this

/-- A full table is rehashed as large as it is if it would be half empty. -/
def Roomy (tbl : OaTable V) : Prop :=
  tbl.numOccupied + 1 < tbl.maxNonEmpty ∧ lf.sparse (tbl.numOccupied + 1) tbl.size = true

theorem insert_spec (h : Inv T tbl) (E : KeyEquality T.equalKeys T.hashKey) (obj : V)
    (hroom : tbl.numNonEmpty = tbl.maxNonEmpty → Roomy lf tbl ∨ 2 * tbl.maxNonEmpty + 2 ≤ 4294967291) :
    Inserted T tbl obj (insert T lf tbl obj) := by
  unfold insert
  obtain ⟨s, hs, hfound | ⟨hfree, habsent⟩⟩ := findInsertion_spec h.searchable E (T.extractKey obj)
  · obtain ⟨v, hv, hat, heq⟩ := hfound.valueAt
    rw [hs, Option.bind_some, if_pos (by rw [hat]; rfl)]
    exact .old s v hv heq hat
  · rw [hs, Option.bind_some, if_neg (by rw [hfree.valueAt]; exact Bool.false_ne_true)]
    extract_lets new
    have hadded : Added T tbl s obj new := setValueAt_added h.toKept E hfree habsent
    have hsmall : new.maxNonEmpty < new.size := by
      rw [hadded.maxNonEmpty, hadded.size]
      exact h.small
    have hmem : obj ∈ values new.slots := hadded.values.mem_iff.mpr mem_cons_self
    by_cases hfull : new.numNonEmpty > new.maxNonEmpty
    · rw [if_pos hfull]
      have hmax : new.maxNonEmpty = tbl.maxNonEmpty := hadded.maxNonEmpty
      have hcount : new.numNonEmpty ≤ tbl.numNonEmpty + 1 := hadded.numNonEmpty
      have hfits := h.fits
      have hoccupied : new.numOccupied ≤ new.numNonEmpty := by
        rw [hadded.kept.occupied, hadded.kept.nonEmpty]
        exact values_length_le _
      split
      · rename_i hsparse
        obtain ⟨tbl', s', hrun, hinv, hperm, hs', hat⟩ := findValue_rehash lf hadded.kept E (n := new.maxNonEmpty)
          hsparse.1.le hsmall (fun hne => absurd rfl hne) hmem
        rw [hrun, Option.bind_some, hs']
        exact .new s' tbl' habsent hinv (hperm.trans hadded.values) hat
      · rename_i hsparse
        have hlast : 2 * tbl.maxNonEmpty + 2 ≤ 4294967291 := by
          refine (hroom (by omega)).resolve_left fun hroomy => hsparse ?_
          have hone : new.numOccupied = tbl.numOccupied + 1 := by
            rw [hadded.kept.occupied, hadded.values.length_eq, length_cons, h.occupied]
          rw [hone, hmax, hadded.size]
          exact hroomy
        obtain ⟨tbl', s', hrun, hinv, hperm, hs', hat⟩ := findValue_rehash lf hadded.kept E
          (n := 2 * new.maxNonEmpty + 1) (by omega) hsmall (fun _ => by omega) hmem
        rw [hrun, Option.bind_some, hs']
        exact .new s' tbl' habsent hinv (hperm.trans hadded.values) hat
    · rw [if_neg hfull]
      exact .new s new habsent ⟨hadded.kept, by omega, hsmall⟩ hadded.values hadded.valueAt

/-! ## Running -/

/-- The table and the map it is. -/
structure Refines (T : KeyTraits V K) (tbl : OaTable V) (live : List V) : Prop where
  inv : Inv T tbl
  values : (values tbl.slots).Perm live

section

variable {live : List V}

theorem Refines.distinct (h : Refines T tbl live) (E : KeyEquality T.equalKeys T.hashKey) : Distinct T live :=
  Distinct.perm h.inv.placed.pairwise E h.values

/-- What is found under a key is the one value there is. -/
theorem Refines.find_live (h : Refines T tbl live) (E : KeyEquality T.equalKeys T.hashKey) {v : V}
    (hv : v ∈ Lib.values tbl.slots) (hk : T.equalKeys (T.extractKey v) k = true) :
    live.find? (fun v => T.equalKeys (T.extractKey v) k) = some v := by
  cases hfind : live.find? fun v => T.equalKeys (T.extractKey v) k with
  | none => exact absurd hk (find?_eq_none.mp hfind v (h.values.mem_iff.mp hv))
  | some w =>
    have hw := h.values.mem_iff.mpr (mem_of_find?_eq_some hfind)
    have hwk : T.equalKeys (T.extractKey w) k = true := by simpa using find?_some hfind
    rw [h.inv.unique E hw hv hwk hk]

theorem Refines.find_absent (h : Refines T tbl live) (ha : Absent T tbl k) :
    live.find? (fun v => T.equalKeys (T.extractKey v) k) = none := by
  refine find?_eq_none.mpr fun v hv => ?_
  rw [ha v (h.values.mem_iff.mpr hv)]
  exact Bool.false_ne_true

section

variable (lf : LoadFactor)

section

variable (h : Refines T tbl live)
include h

variable (E : KeyEquality T.equalKeys T.hashKey)
include E

theorem step_insert {obj : V}
    (hroom : tbl.numNonEmpty = tbl.maxNonEmpty → Roomy lf tbl ∨ 2 * tbl.maxNonEmpty + 2 ≤ 4294967291) :
    ∃ tbl', step T lf tbl (.insert obj) = some (tbl', (mapStep T live (.insert obj)).2) ∧
      Refines T tbl' (mapStep T live (.insert obj)).1 := by
  have hspec := insert_spec lf h.inv E obj hroom
  unfold step mapStep
  dsimp only
  generalize insert T lf tbl obj = r at hspec
  cases hspec with
  | old s v hmem heq hat =>
    rw [h.find_live E hmem heq]
    exact ⟨tbl, by simp [hat], h⟩
  | new s tbl' habsent hinv hvalues hat =>
    rw [h.find_absent habsent]
    exact ⟨tbl', by simp [hat], hinv, hvalues.trans (h.values.cons obj)⟩

theorem step_find (k : K) : find T tbl k = some (live.find? fun v => T.equalKeys (T.extractKey v) k) := by
  unfold find
  obtain ⟨s, hs, hfound | ⟨hnone, habsent⟩⟩ := findValue_spec h.inv.searchable E k
  · obtain ⟨v, hv, hat, heq⟩ := hfound.valueAt
    rw [hs, h.find_live E hv heq, Option.map_some, hat]
  · rw [hs, h.find_absent habsent, Option.map_some, hnone]

theorem step_erase (k : K) : ∃ tbl', step T lf tbl (.erase k) = some (tbl', (mapStep T live (.erase k)).2) ∧
      Refines T tbl' (mapStep T live (.erase k)).1 := by
  unfold step mapStep erase
  obtain ⟨s, hs, ⟨v, hslot, heq⟩ | ⟨hnone, habsent⟩⟩ := findValue_spec h.inv.searchable E k
  · obtain ⟨hinv, hperm⟩ := eraseValueAt_kept h.inv hslot
    have hmem : v ∈ live := h.values.mem_iff.mp (mem_values.mpr ⟨s, hslot⟩)
    have hany : live.any (fun v => T.equalKeys (T.extractKey v) k) = true := any_eq_true.mpr ⟨v, hmem, heq⟩
    have hat : tbl.valueAt s = some v := by
      rw [OaTable.valueAt, hslot]
      rfl
    have hothers : ∀ w ∈ Lib.values (tbl.eraseValueAt s).slots, (!T.equalKeys (T.extractKey w) k) = true := by
      intro w hw
      have hvw := rel_of_pairwise_cons ((h.distinct E).perm E (hperm.trans h.values).symm) hw
      rw [Bool.not_eq_true', Bool.eq_false_iff]
      intro hwk
      rw [E.trans heq (E.symm hwk)] at hvw
      cases hvw
    refine ⟨tbl.eraseValueAt s, by simp [hs, hat, hany], hinv, ?_⟩
    have hfilter := (hperm.trans h.values).filter fun w => !T.equalKeys (T.extractKey w) k
    rw [filter_cons_of_neg (by simp [heq]), filter_eq_self.mpr hothers] at hfilter
    exact hfilter
  · have hno : ∀ w ∈ live, (!T.equalKeys (T.extractKey w) k) = true := by
      intro w hw
      rw [habsent w (h.values.mem_iff.mpr hw)]
      rfl
    have hany : live.any (fun v => T.equalKeys (T.extractKey v) k) = false := by
      rw [any_eq_false]
      intro w hw
      simpa using hno w hw
    refine ⟨tbl, by simp [hs, hnone, hany], h.inv, ?_⟩
    have hfilter := filter_eq_self.mpr hno
    dsimp only
    rw [hfilter]
    exact h.values

theorem step_rehash {n : Nat} (hn : n + 1 ≤ 4294967291) :
    ∃ tbl', rehash T lf tbl n = some tbl' ∧ Refines T tbl' live := by
  by_cases hfew : n < tbl.numOccupied
  · refine ⟨tbl, ?_, h⟩
    rw [rehash, if_pos hfew]
  · obtain ⟨tbl', hrun, hinv, hperm⟩ := rehash_spec lf h.inv.toKept E (Nat.le_of_not_lt hfew) h.inv.small
      fun _ => hn
    exact ⟨tbl', hrun, hinv, hperm.trans h.values⟩

/-- **A call does to the table what it does to the map, and returns the same.** -/
theorem step_refines {op : Op V K} (hop : Affordable tbl op) :
    ∃ tbl', step T lf tbl op = some (tbl', (mapStep T live op).2) ∧ Refines T tbl' (mapStep T live op).1 := by
  cases op with
  | insert obj => exact step_insert lf h E fun hfull => .inr (hop hfull)
  | erase k => exact step_erase lf h E k
  | find k =>
    refine ⟨tbl, ?_, h⟩
    rw [step, step_find h E]
    rfl
  | rehash n =>
    obtain ⟨tbl', hrun, hrefines⟩ := step_rehash lf h E hop
    refine ⟨tbl', ?_, hrefines⟩
    rw [step, hrun]
    rfl
  | clear =>
    refine ⟨tbl.clear, rfl, inv_replicate h.inv.prime h.inv.small, ?_⟩
    exact (values_replicate tbl.size) ▸ Perm.refl _

end

theorem run_refines (E : KeyEquality T.equalKeys T.hashKey) : ∀ {ops : List (Op V K)} {tbl : OaTable V} {live : List V},
    Refines T tbl live → PrimesLast T lf ops tbl →
    ∃ tbl', run T lf ops tbl = some (tbl', (mapRun T ops live).2) ∧ Refines T tbl' (mapRun T ops live).1
  | [], tbl, _, h, _ => ⟨tbl, rfl, h⟩
  | op :: ops, tbl, live, h, hlast => by
    obtain ⟨tbl1, hstep, h1⟩ := step_refines lf h E hlast.1
    obtain ⟨tbl', hrun, h'⟩ := run_refines E h1 (hlast.2 _ hstep)
    refine ⟨tbl', ?_, h'⟩
    rw [run, hstep, Option.bind_some]
    dsimp only
    rw [hrun]
    rfl

end

/-! ## How large a table is -/

/-- The table is as large as another. -/
def SameSize (tbl tbl' : OaTable V) : Prop := tbl'.maxNonEmpty = tbl.maxNonEmpty ∧ tbl'.size = tbl.size

theorem SameSize.trans {tbl tbl1 tbl' : OaTable V} (h : SameSize tbl tbl1) (h' : SameSize tbl1 tbl') :
    SameSize tbl tbl' := ⟨h'.1.trans h.1, h'.2.trans h.2⟩

theorem setValueAt_sameSize (tbl : OaTable V) (s : Nat) (v : V) : SameSize tbl (tbl.setValueAt s v) := by
  unfold OaTable.setValueAt
  split
  · exact ⟨rfl, rfl⟩
  · exact ⟨rfl, length_set⟩

theorem eraseValueAt_sameSize (tbl : OaTable V) (s : Nat) : SameSize tbl (tbl.eraseValueAt s) := by
  unfold OaTable.eraseValueAt
  split
  · exact ⟨rfl, length_set⟩
  · exact ⟨rfl, rfl⟩

theorem erase_sameSize {r : OaTable V × Nat} (h : erase T tbl k = some r) : SameSize tbl r.1 := by
  obtain ⟨s, -, rfl⟩ := Option.map_eq_some_iff.mp h
  split
  · exact eraseValueAt_sameSize tbl s
  · exact ⟨rfl, rfl⟩

theorem refill_sameSize : ∀ {vs : List V} {new new' : OaTable V}, refill T new vs = some new' → SameSize new new'
  | [], new, new', h => by
    obtain rfl : new = new' := Option.some.inj h
    exact ⟨rfl, rfl⟩
  | v :: vs, new, new', h => by
    obtain ⟨mid, hmid, hrest⟩ := Option.bind_eq_some_iff.mp h
    obtain ⟨s, -, rfl⟩ := Option.map_eq_some_iff.mp hmid
    exact (setValueAt_sameSize new s v).trans (refill_sameSize hrest)

theorem make_size {cap m : Nat} {new : OaTable V} (h : OaTable.make cap m = some new) :
    new.maxNonEmpty = cap ∧ new.size = m := by
  unfold OaTable.make at h
  split at h
  · cases h
  · obtain rfl := Option.some.inj h
    exact ⟨rfl, length_replicate⟩

/-- The size of a table that may hold `n`, where another size was used before. -/
def grownSize (n : Nat) : Nat :=
  if oaNextPrime (lf.stretch n) ≤ n then oaNextPrime (n + 1) else oaNextPrime (lf.stretch n)

theorem rehash_size {lf : LoadFactor} {n : Nat} {tbl' : OaTable V} (h : rehash T lf tbl n = some tbl')
    (hfit : tbl.numOccupied ≤ n) :
    tbl'.maxNonEmpty = n ∧ tbl'.size = if n = tbl.maxNonEmpty then tbl.size else grownSize lf n := by
  unfold rehash at h
  rw [if_neg (by omega)] at h
  obtain ⟨new, hnew, hrefill⟩ := Option.bind_eq_some_iff.mp h
  obtain ⟨hmax, hsize⟩ := refill_sameSize hrefill
  obtain ⟨hmax', hsize'⟩ := make_size hnew
  exact ⟨hmax.trans hmax', hsize.trans hsize'⟩

/-- A table grows only when it is full and would not be half empty. -/
theorem insert_size {lf : LoadFactor} {obj : V} {r : OaTable V × Nat × Bool} (h : Inv T tbl)
    (E : KeyEquality T.equalKeys T.hashKey) (hrun : insert T lf tbl obj = some r) :
    SameSize tbl r.1 ∨
      ¬ Roomy lf tbl ∧ r.1.maxNonEmpty = 2 * tbl.maxNonEmpty + 1 ∧
        r.1.size = grownSize lf (2 * tbl.maxNonEmpty + 1) := by
  unfold insert at hrun
  obtain ⟨s, hs, hfound | ⟨hfree, habsent⟩⟩ := findInsertion_spec h.searchable E (T.extractKey obj)
  · obtain ⟨v, -, hat, -⟩ := hfound.valueAt
    rw [hs, Option.bind_some, if_pos (by rw [hat]; rfl)] at hrun
    obtain rfl := Option.some.inj hrun
    exact .inl ⟨rfl, rfl⟩
  · rw [hs, Option.bind_some, if_neg (by rw [hfree.valueAt]; exact Bool.false_ne_true)] at hrun
    have hadded : Added T tbl s obj (tbl.setValueAt s obj) := setValueAt_added h.toKept E hfree habsent
    have hone : (tbl.setValueAt s obj).numOccupied = tbl.numOccupied + 1 := by
      rw [hadded.kept.occupied, hadded.values.length_eq, length_cons, h.occupied]
    have hmax := hadded.maxNonEmpty
    have hsize := hadded.size
    have hoccupied := values_length_le tbl.slots
    rw [← h.occupied, ← h.nonEmpty] at hoccupied
    have hfits := h.fits
    dsimp only at hrun
    split at hrun
    · obtain ⟨new, hnew, hfind⟩ := Option.bind_eq_some_iff.mp hrun
      obtain ⟨pos, -, rfl⟩ := Option.map_eq_some_iff.mp hfind
      split at hnew
      · rename_i hsparse
        obtain ⟨hmax', hsize'⟩ := rehash_size hnew hsparse.1.le
        rw [if_pos rfl] at hsize'
        exact .inl ⟨hmax'.trans hmax, hsize'.trans hsize⟩
      · rename_i hsparse
        rw [hone, hmax, hsize] at hsparse
        rw [hmax] at hnew
        obtain ⟨hmax', hsize'⟩ := rehash_size hnew (by omega)
        rw [if_neg (by omega)] at hsize'
        exact .inr ⟨hsparse, hmax', hsize'⟩
    · obtain rfl := Option.some.inj hrun
      exact .inl ⟨hmax, hsize⟩

/-! ## Keys that are kept elsewhere -/

/-- Two ways to read the keys of a table that agree on its values. -/
structure SameKeys (T T' : KeyTraits V K) (vs : List V) : Prop where
  extractKey : ∀ v ∈ vs, T'.extractKey v = T.extractKey v
  hashKey : T'.hashKey = T.hashKey
  equalKeys : T'.equalKeys = T.equalKeys

theorem Refines.congr {T' : KeyTraits V K} (h : Refines T tbl live) (hsame : SameKeys T T' live) :
    Refines T' tbl live := by
  obtain ⟨⟨⟨hprime, hplaced, hoccupied, hnonEmpty⟩, hfits, hsmall⟩, hvalues⟩ := h
  have hkey : ∀ (s : Nat) (v : V), tbl.slots[s]? = some (.occupied v) → T'.extractKey v = T.extractKey v :=
    fun s v hs => hsame.extractKey v (hvalues.mem_iff.mp (mem_values.mpr ⟨s, hs⟩))
  refine ⟨⟨⟨hprime, ⟨?_, ?_⟩, hoccupied, hnonEmpty⟩, hfits, hsmall⟩, hvalues⟩
  · intro s v hs
    rw [hkey s v hs, hsame.hashKey]
    exact hplaced.reaches s v hs
  · intro s s' v v' hs hs' heq
    rw [hkey s v hs, hkey s' v' hs', hsame.equalKeys] at heq
    exact hplaced.apart s s' v v' hs hs' heq

/-! ## The map, key by key -/

section

variable (E : KeyEquality T.equalKeys T.hashKey)
include E

theorem find?_filter_unequal (live : List V) (k k' : K) :
    (live.filter fun v => !T.equalKeys (T.extractKey v) k').find? (fun v => T.equalKeys (T.extractKey v) k) =
      if T.equalKeys k' k then none else live.find? fun v => T.equalKeys (T.extractKey v) k := by
  rw [find?_filter]
  by_cases hk : T.equalKeys k' k = true
  · rw [if_pos hk, find?_eq_none]
    intro v _
    rw [E.congr hk]
    cases T.equalKeys (T.extractKey v) k <;> simp
  · rw [if_neg hk]
    congr 1
    funext v
    by_cases hv : T.equalKeys (T.extractKey v) k = true
    · have hvk' : T.equalKeys (T.extractKey v) k' = false := by
        rw [Bool.eq_false_iff]
        exact fun hvk' => hk (E.trans (E.symm hvk') hv)
      rw [hv, hvk']
      rfl
    · rw [Bool.eq_false_iff.mpr hv]
      exact decide_eq_false (by simp)

theorem mapStep_stored (live : List V) (k : K) (op : Op V K) :
    (mapStep T live op).1.find? (fun v => T.equalKeys (T.extractKey v) k) =
      stored T k (live.find? fun v => T.equalKeys (T.extractKey v) k) op := by
  cases op with
  | insert obj =>
    simp only [mapStep, stored]
    by_cases hk : T.equalKeys (T.extractKey obj) k = true
    · rw [if_pos hk]
      have hsame : (fun v => T.equalKeys (T.extractKey v) (T.extractKey obj)) =
          fun v => T.equalKeys (T.extractKey v) k := funext fun v => E.congr hk _
      rw [hsame]
      cases hfind : live.find? fun v => T.equalKeys (T.extractKey v) k with
      | some v => exact hfind
      | none => simp [hk]
    · rw [if_neg hk]
      split
      · rfl
      · simp [hk]
  | erase k' => exact find?_filter_unequal E live k k'
  | find _ => rfl
  | rehash _ => rfl
  | clear => rfl

theorem mapRun_stored (k : K) : ∀ (ops : List (Op V K)) (live : List V),
    (mapRun T ops live).1.find? (fun v => T.equalKeys (T.extractKey v) k) =
      ops.foldl (stored T k) (live.find? fun v => T.equalKeys (T.extractKey v) k)
  | [], _ => rfl
  | op :: ops, live => by
    rw [foldl_cons, ← mapStep_stored E]
    exact mapRun_stored k ops _

end

theorem oaNextPrime_mono {m n : Nat} (hmn : m ≤ n) (hn : n ≤ 4294967291) : oaNextPrime m ≤ oaNextPrime n := by
  have hsorted : oaPrimeList.Pairwise (· < ·) := by decide
  have hmem : oaNextPrime n ∈ oaPrimeList := by
    unfold oaNextPrime
    cases h : oaPrimeList.find? (n ≤ ·) with
    | some p => exact mem_of_find?_eq_some h
    | none => decide
  have hle : m ≤ oaNextPrime n := hmn.trans (le_oaNextPrime hn)
  generalize oaNextPrime n = q at hmem hle
  unfold oaNextPrime
  cases h : oaPrimeList.find? (m ≤ ·) with
  | none => exact absurd (decide_eq_true hle) (find?_eq_none.mp h q hmem)
  | some p =>
    obtain ⟨-, before, after, happ, hbefore⟩ := find?_eq_some_iff_append.mp h
    rw [happ] at hmem hsorted
    rcases mem_append.mp hmem with hq | hq
    · have := hbefore q hq
      simp [hle] at this
    · rcases mem_cons.mp hq with rfl | hq
      · exact le_rfl
      · exact (rel_of_pairwise_cons (pairwise_append.mp hsorted).2.1 hq).le

variable (T) in
theorem create_refines {n : Nat} (hn : n + 1 ≤ 4294967291) : ∃ tbl, create lf n = some tbl ∧ Refines T tbl [] := by
  have hlt : lf.scale (oaNextPrime n) < oaNextPrime (n + 1) :=
    (lf.scale_lt _ (oaNextPrime_prime n).pos).trans_le (oaNextPrime_mono (Nat.le_succ n) hn)
  exact ⟨_, make_eq hlt, inv_replicate (oaNextPrime_prime _) hlt, (values_replicate _) ▸ Perm.refl _⟩

/-- **The table is a finite map.**  The calls return what they return on the map; a key has the value of the first insert
since there was nothing under it; the size is the number of keys, and none of them is in two slots.  There is always a
slot left that is empty, so the calls return at all. -/
theorem oaHashtable_refines (T : KeyTraits V K) (E : KeyEquality T.equalKeys T.hashKey) (lf : LoadFactor) (n : Nat)
    (hn : n + 1 ≤ 4294967291) :
    ∃ tbl, create lf n = some tbl ∧ ∀ ops, PrimesLast T lf ops tbl →
      ∃ tbl', run T lf ops tbl = some (tbl', (mapRun T ops []).2) ∧
        (∀ k, find T tbl' k = some (ops.foldl (stored T k) none)) ∧
        (values tbl'.slots).Perm (mapRun T ops []).1 ∧ tbl'.numOccupied = (mapRun T ops []).1.length ∧
        (∀ s s' v v', tbl'.valueAt s = some v → tbl'.valueAt s' = some v' →
          T.equalKeys (T.extractKey v) (T.extractKey v') = true → s = s') ∧
        tbl'.numNonEmpty = nonEmptyCount tbl'.slots ∧ nonEmptyCount tbl'.slots < tbl'.size := by
  obtain ⟨tbl, hcreate, h⟩ := create_refines T lf hn
  refine ⟨tbl, hcreate, fun ops hlast => ?_⟩
  obtain ⟨tbl', hrun, h'⟩ := run_refines lf E h hlast
  refine ⟨tbl', hrun, fun k => ?_, h'.values, ?_, fun s s' v v' hv hv' => ?_, h'.inv.nonEmpty, h'.inv.searchable.room⟩
  · rw [step_find h' E, mapRun_stored E]
    rfl
  · rw [h'.inv.occupied, h'.values.length_eq]
  · exact h'.inv.placed.apart s s' v v' (valueAt_eq_some.mp hv) (valueAt_eq_some.mp hv')

end

/-- All keys collide; one of them is erased, and comes again behind the mark it left. -/
theorem oaHashtable_refines_colliding :
    let T : KeyTraits (Nat × Nat) Nat := ⟨Prod.fst, fun _ => 7, fun a b => a == b⟩
    let lf : LoadFactor := ⟨(· / 2), (2 * ·), fun count size => 4 * count ≤ size, fun _ h => Nat.div_lt_self h one_lt_two⟩
    ∃ tbl, create lf 5 = some tbl ∧ ∃ tbl', run T lf
      [.insert (1, 10), .insert (2, 20), .erase 1, .insert (2, 30), .find 1, .insert (1, 40), .rehash 100, .find 1] tbl =
        some (tbl', [.inserted (some (1, 10)) true, .inserted (some (2, 20)) true, .erased 1, .inserted (some (2, 20)) false,
          .found none, .inserted (some (1, 40)) true, .done, .found (some (1, 40))]) ∧ tbl'.numOccupied = 2 := by
  intro T lf
  have E : KeyEquality T.equalKeys T.hashKey := ⟨by simp [T], by simp [T], by simp [T], fun _ => rfl⟩
  obtain ⟨tbl, hcreate, h⟩ := oaHashtable_refines T E lf 5 (by decide)
  refine ⟨tbl, hcreate, ?_⟩
  obtain ⟨tbl', hrun, -, -, hsize, -⟩ := h
    [.insert (1, 10), .insert (2, 20), .erase 1, .insert (2, 30), .find 1, .insert (1, 40), .rehash 100, .find 1] (by
      cases hcreate
      decide +kernel)
  exact ⟨tbl', hrun, hsize⟩

end

end OaHashtable

end Sbmt.Hash
