import Mathlib
/-!
# The cache in front of a function (`graehl/shared/dynamic_hash_cache.hpp`)

| here | there |
| --- | --- |
| `PascalWordsString` | `pascal_words_string` (`dynamic_sized.hpp:41-66`): the length, and the words behind it |
| `DynamicHashCache` | the cache and its counters; an entry is a `dynamic_pair` (`dynamic_sized.hpp:68-73`) |
| `flush`, `construct` | `:64-83`, the constructor (`:116-125`) |
| `find`, `call`, `callWith` | `find` (`:136-157`), `operator()(p,len)` (`:165-194`), `operator()(p,len,r)` (`:196-227`) |

`memory` is what the storage holds before anything is written to it.  A key is the `len` words at `p`.  The words of an
entry are counted in 32 bits, its own and `max_len` more, so `max_len + 1 < 2^32`.  So is the place of an entry,
`i*max_object_words` (`dynamic_sized.hpp:100-103`): the table is one of fewer than 2^32 words in all, where no two
slots share a place.

`find` reduces the 64-bit hash by the size of the table, the operators cut it to 32 bits first.
-/

namespace Sbmt.Hash

open List Function

variable {R : Type}

def doublingPrimeList : List Nat := [53, 97, 193, 389, 769, 1543, 3079, 6151, 12289, 24593, 49157, 98317, 196613, 393241,
  786433, 1572869, 3145739, 6291469, 12582917, 25165843, 50331653, 100663319, 201326611, 402653189, 805306457,
  1610612741, 3221225473, 4294967291]

/-- The first that is not less than `n`, or the last. -/
def nextDoubledPrimeIn (n : Nat) : List Nat → Nat
  | [] => 0
  | [last] => last
  | p :: q :: rest => if n ≤ p then p else nextDoubledPrimeIn n (q :: rest)

def nextDoubledPrime (n : Nat) : Nat := nextDoubledPrimeIn n doublingPrimeList

structure PascalWordsString where
  front : Nat
  words : List UInt32
deriving DecidableEq

namespace PascalWordsString

variable (s : PascalWordsString)

def isNull : Bool := s.front == 2 ^ 32 - 1

def setNull : PascalWordsString := { s with front := 2 ^ 32 - 1 }

def equal (p : List UInt32) : Bool := s.front == p.length && s.words.take p.length == p

/-- The words behind the new ones stay. -/
def set (p : List UInt32) : PascalWordsString := ⟨p.length, p ++ s.words.drop p.length⟩

end PascalWordsString

structure CacheEntry (R : Type) where
  result : R
  key : PascalWordsString

structure DynamicHashCache (R : Type) where
  nCollide : Nat
  nMiss : Nat
  nHit : Nat
  cachesize : Nat
  maxLen : Nat
  cache : Nat → CacheEntry R

namespace DynamicHashCache

def flush (c : DynamicHashCache R) : DynamicHashCache R :=
  { c with
    nCollide := 0
    nMiss := 0
    nHit := 0
    cache := fun i => if i < c.cachesize then { c.cache i with key := (c.cache i).key.setNull } else c.cache i }

def construct (memory : Nat → CacheEntry R) (maxLen cacheSize : Nat) : DynamicHashCache R :=
  flush ⟨0, 0, 0, nextDoubledPrime cacheSize, maxLen, memory⟩

variable (hashQuads64 : List UInt32 → UInt64)

/-- `unsigned(hash_quads_64(p,len) % cachesize)`. -/
def findSlot (cachesize : Nat) (p : List UInt32) : Nat := (hashQuads64 p).toNat % cachesize

/-- `(unsigned)hash_quads_64(p,len) % cachesize`. -/
def callSlot (cachesize : Nat) (p : List UInt32) : Nat := (hashQuads64 p).toUInt32.toNat % cachesize

/-- The slot of the key, or `cachesize`. -/
def find (c : DynamicHashCache R) (p : List UInt32) : Nat × DynamicHashCache R :=
  let i := findSlot hashQuads64 c.cachesize p
  if (c.cache i).key.equal p then (i, { c with nHit := c.nHit + 1 }) else (c.cachesize, c)

/-- `r` is what is stored, and given back, on a miss. -/
def callWith (c : DynamicHashCache R) (p : List UInt32) (r : R) : R × DynamicHashCache R :=
  let i := callSlot hashQuads64 c.cachesize p
  let e := c.cache i
  if e.key.equal p then (e.result, { c with nHit := c.nHit + 1 })
  else
    (r, { c with
      nCollide := if e.key.isNull then c.nCollide else c.nCollide + 1
      nMiss := c.nMiss + 1
      cache := update c.cache i ⟨r, e.key.set p⟩ })

variable (b : List UInt32 → R) (c : DynamicHashCache R)

def call (p : List UInt32) : R × DynamicHashCache R := callWith hashQuads64 c p (b p)

inductive Op (R : Type) where
  | call (p : List UInt32)
  | callWith (p : List UInt32) (r : R)
  | find (p : List UInt32)
  | flush

def exec : Op R → DynamicHashCache R
  | .call p => (call hashQuads64 b c p).2
  | .callWith p r => (callWith hashQuads64 c p r).2
  | .find p => (find hashQuads64 c p).2
  | .flush => c.flush

def run (ops : List (Op R)) : DynamicHashCache R := ops.foldl (exec hashQuads64 b) c

/-! ## What is asked of it -/

/-- `assert(len <= max_len)`. -/
def Op.Fits (maxLen : Nat) : Op R → Prop
  | .call p => p.length ≤ maxLen
  | .callWith p _ => p.length ≤ maxLen
  | .find p => p.length ≤ maxLen
  | .flush => True

/-- A result that is handed in is the one that the function gives. -/
def Op.Honest : Op R → Prop
  | .callWith p r => r = b p
  | _ => True

/-- The key stored last into slot `s`, with one more operation. -/
def storedBy (cachesize s : Nat) (last : Option (List UInt32)) : Op R → Option (List UInt32)
  | .call p => if callSlot hashQuads64 cachesize p = s then some p else last
  | .callWith p _ => if callSlot hashQuads64 cachesize p = s then some p else last
  | .find _ => last
  | .flush => none

/-- The key stored last into slot `s` since the last flush. -/
def lastStored (cachesize s : Nat) (ops : List (Op R)) : Option (List UInt32) :=
  ops.foldl (storedBy hashQuads64 cachesize s) none

/-! ## Keys in slots -/

section

variable {s : PascalWordsString} {p q : List UInt32} {maxLen : Nat}

theorem set_equal : (s.set p).equal q = true ↔ q = p := by
  simp only [PascalWordsString.equal, PascalWordsString.set, Bool.and_eq_true, beq_iff_eq]
  constructor
  · rintro ⟨hlen, htake⟩
    rw [← htake, ← hlen, take_left]
  · rintro rfl
    exact ⟨rfl, take_left⟩

theorem setNull_equal (hq : q.length ≤ maxLen) (hmax : maxLen + 1 < 2 ^ 32) : s.setNull.equal q = false := by
  have hne : (2 ^ 32 - 1 == q.length) = false := by
    rw [beq_eq_false_iff_ne]
    omega
  simp only [PascalWordsString.equal, PascalWordsString.setNull, hne, Bool.false_and]

end

theorem nextDoubledPrime_pos (n : Nat) : 0 < nextDoubledPrime n := by
  have hmem : ∀ l : List Nat, l ≠ [] → nextDoubledPrimeIn n l ∈ l := by
    intro l hl
    induction l with
    | nil => exact absurd rfl hl
    | cons p rest ih =>
      cases rest with
      | nil => exact mem_singleton_self p
      | cons q rest =>
        rw [nextDoubledPrimeIn]
        split_ifs
        · exact mem_cons_self
        · exact mem_cons_of_mem p (ih (cons_ne_nil q rest))
  have hpos : ∀ p ∈ doublingPrimeList, 0 < p := by decide
  exact hpos _ (hmem doublingPrimeList (cons_ne_nil _ _))

/-! ## What the slots hold -/

/-- A slot holds the key stored last into it. -/
structure Tracks (c : DynamicHashCache R) (last : Nat → Option (List UInt32)) : Prop where
  pos : 0 < c.cachesize
  maxLen_lt : c.maxLen + 1 < 2 ^ 32
  equal_iff : ∀ s < c.cachesize, ∀ q : List UInt32, q.length ≤ c.maxLen →
    ((c.cache s).key.equal q = true ↔ last s = some q)

/-- A slot holds what the function gives for its key. -/
def Sound : Prop :=
  ∀ s < c.cachesize, ∀ q : List UInt32, q.length ≤ c.maxLen →
    (c.cache s).key.equal q = true → (c.cache s).result = b q

section

variable {hashQuads64 b} {c : DynamicHashCache R} {last : Nat → Option (List UInt32)} {p : List UInt32} {r : R}
  {op : Op R}

theorem Tracks.callSlot_lt (h : Tracks c last) (p : List UInt32) : callSlot hashQuads64 c.cachesize p < c.cachesize :=
  Nat.mod_lt _ h.pos

theorem Tracks.findSlot_lt (h : Tracks c last) (p : List UInt32) : findSlot hashQuads64 c.cachesize p < c.cachesize :=
  Nat.mod_lt _ h.pos

theorem callWith_hit (r : R) (hit : (c.cache (callSlot hashQuads64 c.cachesize p)).key.equal p = true) :
    callWith hashQuads64 c p r =
      ((c.cache (callSlot hashQuads64 c.cachesize p)).result, { c with nHit := c.nHit + 1 }) :=
  if_pos hit

theorem callWith_miss (r : R) (miss : ¬ (c.cache (callSlot hashQuads64 c.cachesize p)).key.equal p = true) :
    callWith hashQuads64 c p r =
      (r, { c with
        nCollide := if (c.cache (callSlot hashQuads64 c.cachesize p)).key.isNull then c.nCollide else c.nCollide + 1
        nMiss := c.nMiss + 1
        cache := update c.cache (callSlot hashQuads64 c.cachesize p)
          ⟨r, (c.cache (callSlot hashQuads64 c.cachesize p)).key.set p⟩ }) :=
  if_neg miss

variable (c p r) in
theorem callWith_sizes :
    (callWith hashQuads64 c p r).2.cachesize = c.cachesize ∧ (callWith hashQuads64 c p r).2.maxLen = c.maxLen := by
  by_cases hit : (c.cache (callSlot hashQuads64 c.cachesize p)).key.equal p = true
  · rw [callWith_hit r hit]
    exact ⟨rfl, rfl⟩
  · rw [callWith_miss r hit]
    exact ⟨rfl, rfl⟩

variable (c p) in
variable (hashQuads64) in
theorem find_snd :
    ∃ n, (find hashQuads64 c p).2 = { c with nHit := n } := by
  simp only [find]
  split_ifs
  · exact ⟨c.nHit + 1, rfl⟩
  · exact ⟨c.nHit, rfl⟩

/-- Whatever was in the slots. -/
theorem tracks_flush (hpos : 0 < c.cachesize) (hmax : c.maxLen + 1 < 2 ^ 32) : Tracks c.flush fun _ => none := by
  refine ⟨hpos, hmax, ?_⟩
  intro s hs q hq
  have hkey : (c.flush.cache s).key = (c.cache s).key.setNull := congrArg CacheEntry.key (if_pos hs)
  rw [hkey, setNull_equal hq hmax]
  simp

theorem Tracks.sound (h : Tracks c fun _ => none) : Sound b c := by
  intro s hs q hq heq
  exact absurd ((h.equal_iff s hs q hq).mp heq) (by simp)

theorem Tracks.callWith (h : Tracks c last) (hp : p.length ≤ c.maxLen) (r : R) :
    Tracks (callWith hashQuads64 c p r).2
      fun s => if callSlot hashQuads64 c.cachesize p = s then some p else last s := by
  by_cases hit : (c.cache (callSlot hashQuads64 c.cachesize p)).key.equal p = true
  · rw [callWith_hit r hit]
    refine ⟨h.pos, h.maxLen_lt, ?_⟩
    intro s hs q hq
    split_ifs with hslot
    · have hlast := (h.equal_iff _ (h.callSlot_lt p) p hp).mp hit
      rw [← hslot, ← hlast]
      exact h.equal_iff _ (h.callSlot_lt p) q hq
    · exact h.equal_iff s hs q hq
  · rw [callWith_miss r hit]
    refine ⟨h.pos, h.maxLen_lt, ?_⟩
    intro s hs q hq
    dsimp only
    split_ifs with hslot
    · subst hslot
      rw [update_self, set_equal, Option.some.injEq, eq_comm]
    · rw [update_of_ne (Ne.symm hslot)]
      exact h.equal_iff s hs q hq

theorem Sound.callWith (hsound : Sound b c) (hr : r = b p) : Sound b (callWith hashQuads64 c p r).2 := by
  by_cases hit : (c.cache (callSlot hashQuads64 c.cachesize p)).key.equal p = true
  · rw [callWith_hit r hit]
    exact hsound
  · rw [callWith_miss r hit]
    intro s hs q hq
    dsimp only
    by_cases hslot : s = callSlot hashQuads64 c.cachesize p
    · subst hslot
      rw [update_self, set_equal]
      rintro rfl
      exact hr
    · rw [update_of_ne hslot]
      exact hsound s hs q hq

theorem callWith_fst (h : Tracks c last) (hsound : Sound b c) (hp : p.length ≤ c.maxLen) :
    (call hashQuads64 b c p).1 = b p := by
  rw [call]
  by_cases hit : (c.cache (callSlot hashQuads64 c.cachesize p)).key.equal p = true
  · rw [callWith_hit _ hit]
    exact hsound _ (h.callSlot_lt p) p hp hit
  · rw [callWith_miss _ hit]

variable (hashQuads64) in
theorem find_fst (h : Tracks c last) (hp : p.length ≤ c.maxLen) :
    (find hashQuads64 c p).1 < c.cachesize ↔ last (findSlot hashQuads64 c.cachesize p) = some p := by
  rw [← h.equal_iff _ (h.findSlot_lt p) p hp]
  simp only [find]
  split_ifs with hit
  · exact iff_of_true (h.findSlot_lt p) hit
  · exact iff_of_false (lt_irrefl _) hit

/-- One operation. -/
theorem Tracks.exec (h : Tracks c last) (hop : op.Fits c.maxLen) :
    Tracks (exec hashQuads64 b c op) (fun s => storedBy hashQuads64 c.cachesize s (last s) op) := by
  cases op with
  | call p => exact h.callWith hop (b p)
  | callWith p r => exact h.callWith hop r
  | find p =>
    obtain ⟨n, hn⟩ := find_snd hashQuads64 c p
    rw [DynamicHashCache.exec, hn]
    exact ⟨h.pos, h.maxLen_lt, h.equal_iff⟩
  | flush => exact tracks_flush h.pos h.maxLen_lt

theorem Sound.exec (h : Tracks c last) (hsound : Sound b c) (hop : op.Honest b) : Sound b (exec hashQuads64 b c op) := by
  cases op with
  | call p => exact hsound.callWith rfl
  | callWith p r => exact hsound.callWith hop
  | find p =>
    obtain ⟨n, hn⟩ := find_snd hashQuads64 c p
    rw [DynamicHashCache.exec, hn]
    exact hsound
  | flush => exact (tracks_flush h.pos h.maxLen_lt).sound

variable (c op) in
variable (hashQuads64 b) in
theorem exec_sizes :
    (DynamicHashCache.exec hashQuads64 b c op).cachesize = c.cachesize ∧
      (DynamicHashCache.exec hashQuads64 b c op).maxLen = c.maxLen := by
  cases op with
  | call p => exact callWith_sizes c p (b p)
  | callWith p r => exact callWith_sizes c p r
  | find p =>
    obtain ⟨n, hn⟩ := find_snd hashQuads64 c p
    rw [DynamicHashCache.exec, hn]
    exact ⟨rfl, rfl⟩
  | flush => exact ⟨rfl, rfl⟩

variable (hashQuads64 b) in
/-- Any number of them. -/
theorem Tracks.run {ops : List (Op R)} (h : Tracks c last) (hops : ∀ op ∈ ops, op.Fits c.maxLen) :
    Tracks (run hashQuads64 b c ops) (fun s => ops.foldl (storedBy hashQuads64 c.cachesize s) (last s)) ∧
      (Sound b c → (∀ op ∈ ops, op.Honest b) → Sound b (run hashQuads64 b c ops)) ∧
      (run hashQuads64 b c ops).cachesize = c.cachesize ∧ (run hashQuads64 b c ops).maxLen = c.maxLen := by
  induction ops generalizing c last with
  | nil => exact ⟨h, fun hs _ => hs, rfl, rfl⟩
  | cons op ops ih =>
    obtain ⟨hsize, hmax⟩ := exec_sizes hashQuads64 b c op
    have hop := hops op mem_cons_self
    have hops' : ∀ op' ∈ ops, op'.Fits (DynamicHashCache.exec hashQuads64 b c op).maxLen := by
      rw [hmax]
      exact fun op' h => hops op' (mem_cons_of_mem op h)
    obtain ⟨htracks, hsound, hsize', hmax'⟩ := ih (h.exec hop) hops'
    rw [hsize] at htracks hsize'
    rw [hmax] at hmax'
    refine ⟨htracks, fun hs hhonest => ?_, hsize', hmax'⟩
    exact hsound (Sound.exec h hs (hhonest op mem_cons_self)) fun op' h => hhonest op' (mem_cons_of_mem op h)

end

theorem tracks_construct (memory : Nat → CacheEntry R) {maxLen : Nat} (hmax : maxLen + 1 < 2 ^ 32) (cacheSize : Nat) :
    Tracks (construct memory maxLen cacheSize) fun _ => none :=
  tracks_flush (nextDoubledPrime_pos cacheSize) hmax

/-- In any run from the constructor the function's value is given back for a key, and `find` gives a slot exactly when
the slot it looks at had the key stored into it last. -/
theorem run_construct (memory : Nat → CacheEntry R) {maxLen : Nat} (hmax : maxLen + 1 < 2 ^ 32) (cacheSize : Nat)
    {ops : List (Op R)} (hops : ∀ op ∈ ops, op.Fits maxLen) {p : List UInt32} (hp : p.length ≤ maxLen) :
    let c := run hashQuads64 b (construct memory maxLen cacheSize) ops
    ((∀ op ∈ ops, op.Honest b) → (call hashQuads64 b c p).1 = b p) ∧
      ((find hashQuads64 c p).1 < c.cachesize ↔
        lastStored hashQuads64 (nextDoubledPrime cacheSize) (findSlot hashQuads64 (nextDoubledPrime cacheSize) p) ops =
          some p) := by
  intro c
  have hinit := tracks_construct memory hmax cacheSize
  obtain ⟨htracks, hsound, hsize, hmaxLen⟩ := Tracks.run hashQuads64 b hinit hops
  have hp' : p.length ≤ c.maxLen := by
    rw [hmaxLen]
    exact hp
  refine ⟨fun hhonest => callWith_fst htracks (hsound hinit.sound hhonest) hp', ?_⟩
  have hfind := find_fst hashQuads64 htracks hp'
  rw [hsize] at hfind
  rw [hsize]
  exact hfind

/-- **The cache gives the function's values, and `find` knows the key stored last, in every run, exactly when the hash
of the key and its lower 32 bits leave the same remainder by the size of the table.** An entry has fewer than 2^32 words
(`hmax`), and so has the table. -/
theorem find_knows_iff (hashQuads64 : List UInt32 → UInt64) (b : List UInt32 → R) (memory : Nat → CacheEntry R)
    (maxLen cacheSize : Nat) (hmax : maxLen + 1 < 2 ^ 32) (p : List UInt32) (hp : p.length ≤ maxLen) :
    (∀ ops : List (Op R), (∀ op ∈ ops, op.Fits maxLen) →
      let c := run hashQuads64 b (construct memory maxLen cacheSize) ops
      ((∀ op ∈ ops, op.Honest b) → (call hashQuads64 b c p).1 = b p) ∧
        ((find hashQuads64 c p).1 < c.cachesize ↔
          lastStored hashQuads64 (nextDoubledPrime cacheSize) (callSlot hashQuads64 (nextDoubledPrime cacheSize) p) ops =
            some p)) ↔
      (hashQuads64 p).toNat % nextDoubledPrime cacheSize =
        (hashQuads64 p).toUInt32.toNat % nextDoubledPrime cacheSize := by
  constructor
  · intro h
    -- the key has just been stored
    have hfits : ∀ op ∈ [Op.call (R := R) p], op.Fits maxLen := by
      intro op hop
      rw [mem_singleton.mp hop]
      exact hp
    obtain ⟨-, hfind⟩ := h [.call p] hfits
    have hknown := hfind.mpr (if_pos rfl)
    have hlooked := ((run_construct hashQuads64 b memory hmax cacheSize hfits hp).2).mp hknown
    by_contra hne
    have hother : callSlot hashQuads64 (nextDoubledPrime cacheSize) p ≠
        findSlot hashQuads64 (nextDoubledPrime cacheSize) p := fun heq => hne heq.symm
    rw [lastStored, foldl_cons, storedBy, if_neg hother] at hlooked
    cases hlooked
  · intro hslots ops hops
    have hsame : callSlot hashQuads64 (nextDoubledPrime cacheSize) p =
        findSlot hashQuads64 (nextDoubledPrime cacheSize) p := hslots.symm
    rw [hsame]
    exact run_construct hashQuads64 b memory hmax cacheSize hops hp

def zeroMemory : Nat → CacheEntry Nat := fun _ => ⟨0, 0, []⟩

/-- A hash below 2^32. -/
theorem find_knows_small :
    (find (fun _ => 60) (run (fun _ => 60) List.length (construct zeroMemory 2 1) [.call [5]]) [5]).1 < 53 := by
  have h := ((find_knows_iff (fun _ => 60) List.length zeroMemory 2 1 (by decide) [5] (by decide)).mpr (by decide)
    [.call [5]] (by simp [Op.Fits])).2
  exact h.mpr (by decide)

/-- The hash is 2^32, and the table has 53 slots: the key is stored in slot 0, and looked for in slot 42. -/
theorem not_find_knows :
    ¬ ((find (fun _ => 2 ^ 32) (run (fun _ => 2 ^ 32) List.length (construct zeroMemory 2 1) [.call [5]]) [5]).1 < 53 ↔
      lastStored (R := Nat) (fun _ => 2 ^ 32) 53 (callSlot (fun _ => 2 ^ 32) 53 [5]) [.call [5]] = some [5]) := by
  decide

end DynamicHashCache

end Sbmt.Hash
