import Sbmt.Hash.OaHashtable
/-!
# Double hashing (`sbmt_decoder/include/sbmt/hash/impl/oa_hashtable.ipp`)

| here | there |
| --- | --- |
| `DoubleHash.positions`, `DoubleHash.after` | what so many calls of `double_hash_generator::next` return, and the generator behind them (`oa_hashtable.ipp:54-60`) |

A loop that returns at an empty slot ends, wherever the one empty slot may be and whatever the others hold
(`probeLoop_ends`): the positions come by every slot in as many turns as there are slots.
-/

namespace Sbmt.Hash

open Sbmt.Lib

variable {V K σ : Type}

namespace DoubleHash

/-- What the next `n` calls of `next` return. -/
def positions : Nat → DoubleHash → List Nat
  | 0, _ => []
  | n + 1, hg => hg.next.1 :: positions n hg.next.2

/-- The generator after `n` calls. -/
def after : Nat → DoubleHash → DoubleHash
  | 0, hg => hg
  | n + 1, hg => after n hg.next.2

/-- What the constructor asserts, and that the sum which `next` makes fits a `std::size_t`. -/
structure InWord (hg : DoubleHash) : Prop where
  last_lt : hg.last < hg.m
  step_pos : 0 < hg.k
  sum_lt : hg.last + hg.k < 2 ^ 64

end DoubleHash

namespace OaHashtable

open DoubleHash

/-! ## The positions -/

theorem after_generator (m hash : Nat) : ∀ n i : Nat, after n (generator m hash i) = generator m hash (i + n)
  | 0, _ => rfl
  | n + 1, i => by
    rw [after, generator_next, after_generator m hash n (i + 1), Nat.add_right_comm, Nat.add_assoc]

theorem positions_generator (m hash : Nat) : ∀ n i : Nat,
    positions n (generator m hash i) = (List.range' i n).map (probe m hash)
  | 0, _ => rfl
  | n + 1, i => by
    rw [positions, generator_next, positions_generator m hash n (i + 1), List.range'_succ, List.map_cons]

/-- As many positions as there are slots, and none is missing. -/
theorem positions_perm {m : Nat} (hm : m.Prime) (hash : Nat) :
    (positions m (DoubleHash.init hash m)).Perm (List.range m) := by
  rw [generator_init, positions_generator, ← List.range_eq_range']
  have hsub : List.range m ⊆ (List.range m).map (probe m hash) := by
    intro s hs
    obtain ⟨i, hi, his⟩ := exists_probe hm hash s (List.mem_range.mp hs)
    exact List.mem_map.mpr ⟨i, List.mem_range.mpr hi, his⟩
  have hle : ((List.range m).map (probe m hash)).length ≤ (List.range m).length := by simp
  exact ((List.subperm_of_subset List.nodup_range hsub).perm_of_length_le hle).symm

theorem inWord_generator {m : Nat} (hm : 1 < m) (hword : m < 2 ^ 63) (hash i : Nat) : (generator m hash i).InWord where
  last_lt := probe_lt (by omega) hash i
  step_pos := Nat.lt_of_lt_of_le Nat.one_pos (Nat.le_add_right 1 _)
  sum_lt := by
    have hlast : probe m hash i < m := probe_lt (by omega) hash i
    have hstep : hash % (m - 1) < m - 1 := Nat.mod_lt _ (by omega)
    simp only [generator]
    omega

theorem lt_word_of_mem : ∀ m ∈ oaPrimeList, m < 2 ^ 63 := by decide

/-! ## The loops -/

/-- A loop whose body returns at an empty slot ends when the positions come by one. -/
theorem probeLoop_isSome {body : σ → Nat → Slot V → σ ⊕ Nat} {tbl : OaTable V} {hash : Nat} (hpos : 0 < tbl.size)
    (hbody : ∀ st idx, ∃ r, body st idx .empty = .inr r) {j : Nat} (hj : tbl.slots[probe tbl.size hash j]? = some .empty) :
    ∀ {fuel i : Nat} (st : σ), i ≤ j → j < i + fuel → (probeLoop body tbl fuel st (generator tbl.size hash i)).isSome
  | 0, _, _, hij, hfuel => by omega
  | fuel + 1, i, st, hij, hfuel => by
    have hlt : probe tbl.size hash i < tbl.slots.length := probe_lt hpos hash i
    simp only [probeLoop, generator_next, List.getElem?_eq_getElem hlt]
    rcases Nat.eq_or_lt_of_le hij with rfl | hij
    · obtain ⟨r, hr⟩ := hbody st (probe tbl.size hash i)
      rw [List.getElem?_eq_getElem hlt, Option.some.injEq] at hj
      rw [hj, hr]
      rfl
    · cases body st (probe tbl.size hash i) tbl.slots[probe tbl.size hash i] with
      | inl st => exact probeLoop_isSome hpos hbody hj st hij (by omega)
      | inr r => rfl

/-- **A loop that returns at an empty slot ends**, if one of the slots is empty, in as many turns as there are slots. -/
theorem probeLoop_ends {body : σ → Nat → Slot V → σ ⊕ Nat} {tbl : OaTable V} (hm : tbl.size.Prime)
    (hempty : ∃ s : Nat, tbl.slots[s]? = some .empty) (hbody : ∀ st idx, ∃ r, body st idx .empty = .inr r) (hash : Nat)
    (st : σ) : (probeLoop body tbl tbl.size st (DoubleHash.init hash tbl.size)).isSome := by
  obtain ⟨s, hs⟩ := hempty
  obtain ⟨j, hj, hjs⟩ := exists_probe hm hash s (List.getElem?_eq_some_iff.mp hs).1
  rw [generator_init]
  exact probeLoop_isSome hm.pos hbody (hjs ▸ hs) st (Nat.zero_le j) (by omega)

/-- **Over a table whose size is in the list, the first positions for any hash value are all the slots, each once.** No sum on
the way leaves the machine word, and every probe loop ends if one slot is empty: any that returns at an empty slot, and those of
the two searches. -/
theorem doubleHash_permutes {m : Nat} (hm : m ∈ oaPrimeList) (hash : Nat) :
    (positions m (DoubleHash.init hash m)).Perm (List.range m) ∧
    (∀ n, (after n (DoubleHash.init hash m)).InWord) ∧
    ∀ (V : Type) (tbl : OaTable V), tbl.size = m → (∃ s : Nat, tbl.slots[s]? = some .empty) →
      (∀ (σ : Type) (body : σ → Nat → Slot V → σ ⊕ Nat), (∀ st idx, ∃ r, body st idx .empty = .inr r) →
        ∀ st, (probeLoop body tbl m st (DoubleHash.init hash m)).isSome) ∧
      ∀ (K : Type) (T : KeyTraits V K) (k : K), (findValue T tbl k).isSome ∧ (findInsertion T tbl k).isSome := by
  have hprime := prime_of_mem m hm
  refine ⟨positions_perm hprime hash, fun n => ?_, ?_⟩
  · rw [generator_init, after_generator]
    exact inWord_generator hprime.one_lt (lt_word_of_mem m hm) hash _
  · rintro V tbl rfl hempty
    refine ⟨fun σ body hbody st => probeLoop_ends hprime hempty hbody hash st, fun K T k => ⟨?_, ?_⟩⟩
    · rw [findValue, findLoop_eq]
      exact probeLoop_ends hprime hempty (fun _ idx => ⟨idx, rfl⟩) _ _
    · rw [findInsertion, insertionLoop_eq]
      exact probeLoop_ends hprime hempty (fun blank idx => ⟨blank.getD idx, rfl⟩) _ _

theorem doubleHash_permutes_first : (positions 53 (DoubleHash.init 1000 53)).Perm (List.range 53) :=
  (doubleHash_permutes (by decide : 53 ∈ oaPrimeList) 1000).1

end OaHashtable

end Sbmt.Hash
