import Sbmt.Lib.Assoc
/-!
# Tables in the order of their keys

A table whose entries are kept sorted, as a list.  A place in it is a key, so it outlives changes at other keys; `next` is
the place behind it.  What a table holds is said by `find`, and so is where its places are (`next_eq_some_iff`).
-/

namespace Sbmt.Lib

open List

/-- Every key once, in increasing order. -/
structure SortedMap (κ ν : Type) [LinearOrder κ] where
  entries : List (κ × ν)
  sorted : entries.Pairwise fun a b => a.1 < b.1

namespace SortedMap

variable {κ ν : Type} [LinearOrder κ] {k k' : κ} {v : ν}

def empty : SortedMap κ ν := ⟨[], .nil⟩

def size (m : SortedMap κ ν) : Nat := m.entries.length

def find (m : SortedMap κ ν) (k : κ) : Option ν := Lib.find k m.entries

def keys (m : SortedMap κ ν) : List κ := m.entries.map Prod.fst

/-- The entry at its place in a sorted list, instead of one with its key. -/
def insertEntry (k : κ) (v : ν) : List (κ × ν) → List (κ × ν)
  | [] => [(k, v)]
  | e :: l => if k < e.1 then (k, v) :: e :: l else if e.1 < k then e :: insertEntry k v l else (k, v) :: l

variable {e : κ × ν}

theorem mem_insertEntry {l : List (κ × ν)} (h : e ∈ insertEntry k v l) : e = (k, v) ∨ e ∈ l := by
  induction l with
  | nil => exact .inl (mem_singleton.mp h)
  | cons e' l ih =>
    unfold insertEntry at h
    split_ifs at h
    · exact mem_cons.mp h
    · rcases mem_cons.mp h with rfl | h
      · exact .inr mem_cons_self
      · exact (ih h).imp_right (mem_cons_of_mem _)
    · rcases mem_cons.mp h with rfl | h
      · exact .inl rfl
      · exact .inr (mem_cons_of_mem _ h)

theorem insertEntry_sorted {l : List (κ × ν)} (hl : l.Pairwise fun a b => a.1 < b.1) :
    (insertEntry k v l).Pairwise fun a b => a.1 < b.1 := by
  induction l with
  | nil => exact pairwise_singleton _ _
  | cons e l ih =>
    obtain ⟨he, hl'⟩ := pairwise_cons.mp hl
    unfold insertEntry
    split_ifs with hlt hgt
    · refine pairwise_cons.mpr ⟨fun b hb => ?_, hl⟩
      rcases mem_cons.mp hb with rfl | hb
      · exact hlt
      · exact hlt.trans (he b hb)
    · refine pairwise_cons.mpr ⟨fun b hb => ?_, ih hl'⟩
      rcases mem_insertEntry hb with rfl | hb
      · exact hgt
      · exact he b hb
    · have heq : e.1 = k := le_antisymm (not_lt.mp hlt) (not_lt.mp hgt)
      exact pairwise_cons.mpr ⟨fun b hb => heq ▸ he b hb, hl'⟩

variable (m : SortedMap κ ν)

def insert (k : κ) (v : ν) : SortedMap κ ν := ⟨insertEntry k v m.entries, insertEntry_sorted m.sorted⟩

def erase (k : κ) : SortedMap κ ν := ⟨remove k m.entries, m.sorted.sublist filter_sublist⟩

/-- The first key. -/
def first : Option κ := m.entries.head?.map Prod.fst

/-- The key behind this one. -/
def next (k : κ) : Option κ := (m.entries.find? fun e => k < e.1).map Prod.fst

/-! ## Lookup -/

theorem nodup_keys : m.keys.Nodup := by
  unfold keys Nodup
  rw [pairwise_map]
  exact m.sorted.imp fun h => h.ne

variable {m : SortedMap κ ν}

theorem find_eq_some_iff : m.find k = some v ↔ (k, v) ∈ m.entries := Lib.find_eq_some_iff m.nodup_keys

theorem find_isSome_iff : (m.find k).isSome ↔ k ∈ m.keys := by
  rw [Option.isSome_iff_exists, keys, mem_map]
  constructor
  · rintro ⟨v, hv⟩
    exact ⟨(k, v), find_eq_some_iff.mp hv, rfl⟩
  · rintro ⟨⟨_, v⟩, hv, rfl⟩
    exact ⟨v, find_eq_some_iff.mpr hv⟩

theorem find_eq_none_iff : m.find k = none ↔ k ∉ m.keys := by
  rw [← find_isSome_iff, Option.not_isSome_iff_eq_none]

theorem find_insert (m : SortedMap κ ν) : (m.insert k v).find k' = if k' = k then some v else m.find k' := by
  show Lib.find k' (insertEntry k v m.entries) = if k' = k then some v else Lib.find k' m.entries
  induction m.entries with
  | nil =>
    by_cases h : k' = k
    · simp [insertEntry, Lib.find, h]
    · simp [insertEntry, Lib.find, h, Ne.symm h]
  | cons e l ih =>
    obtain ⟨j, w⟩ := e
    by_cases h : k' = k
    · subst h
      rw [if_pos rfl] at ih ⊢
      unfold insertEntry
      split_ifs with hlt hgt
      · exact if_pos rfl
      · rw [Lib.find, if_neg (ne_of_lt hgt), ih]
      · exact if_pos rfl
    · rw [if_neg h] at ih ⊢
      unfold insertEntry
      split_ifs with hlt hgt
      · exact if_neg (Ne.symm h)
      · rw [Lib.find, Lib.find, ih]
      · have hj : ¬j = k' := fun hj => h (hj ▸ le_antisymm (not_lt.mp hlt) (not_lt.mp hgt))
        rw [Lib.find, Lib.find, if_neg (Ne.symm h), if_neg hj]

theorem find_erase (m : SortedMap κ ν) : (m.erase k).find k' = if k' = k then none else m.find k' := Lib.find_remove m.entries

/-- Two tables that hold the same are equal. -/
theorem ext_find {m' : SortedMap κ ν} (h : ∀ k, m.find k = m'.find k) : m = m' := by
  have hmem : ∀ e, e ∈ m.entries ↔ e ∈ m'.entries := fun e => by
    rw [← find_eq_some_iff, ← find_eq_some_iff, h]
  have hperm : m.entries.Perm m'.entries :=
    (perm_ext_iff_of_nodup (.of_map _ m.nodup_keys) (.of_map _ m'.nodup_keys)).mpr hmem
  have hentries : m.entries = m'.entries :=
    hperm.eq_of_pairwise (fun _ _ _ _ hab hba => absurd hab hba.not_gt) m.sorted m'.sorted
  cases m
  cases hentries
  rfl

/-! ## Places -/

variable {as bs : List (κ × ν)}

theorem lt_of_split (h : m.entries = as ++ bs) : ∀ a ∈ as, ∀ b ∈ bs, a.1 < b.1 := by
  have hsorted := m.sorted
  rw [h] at hsorted
  exact (pairwise_append.mp hsorted).2.2

theorem head_lt_of_split (h : m.entries = as ++ e :: bs) : ∀ b ∈ bs, e.1 < b.1 := by
  have hsorted := m.sorted
  rw [h] at hsorted
  exact (pairwise_cons.mp (pairwise_append.mp hsorted).2.1).1

/-- Where a key stands, the key behind it is the one that follows. -/
theorem next_of_split (h : m.entries = as ++ e :: bs) : m.next e.1 = bs.head?.map Prod.fst := by
  have has : as.find? (fun a => e.1 < a.1) = none := by
    rw [find?_eq_none]
    intro a ha hlt
    exact absurd (of_decide_eq_true hlt) (lt_of_split h a ha e mem_cons_self).not_gt
  rw [next, h, find?_append, has, find?_cons, decide_eq_false (lt_irrefl e.1)]
  cases bs with
  | nil => rfl
  | cons b bs =>
    rw [find?_cons, decide_eq_true (head_lt_of_split h b mem_cons_self)]
    rfl

/-- What is behind a place depends on nothing before it. -/
theorem next_congr {m' : SortedMap κ ν} (h : ∀ i, k < i → m.find i = m'.find i) : m.next k = m'.next k := by
  have hentries : m.entries.filter (fun e => k < e.1) = m'.entries.filter fun e => k < e.1 := by
    refine Perm.eq_of_pairwise (fun _ _ _ _ hab hba => absurd hab hba.not_gt)
      (m.sorted.sublist filter_sublist) (m'.sorted.sublist filter_sublist) ?_
    refine (perm_ext_iff_of_nodup ((Nodup.of_map _ m.nodup_keys).filter _)
      ((Nodup.of_map _ m'.nodup_keys).filter _)).mpr fun e => ?_
    rw [mem_filter, mem_filter, ← find_eq_some_iff, ← find_eq_some_iff]
    by_cases hlt : k < e.1
    · rw [h _ hlt]
    · simp [hlt]
  rw [next, next, ← head?_filter, ← head?_filter, hentries]

end SortedMap

end Sbmt.Lib
