import Mathlib
/-!
# Tables as association lists

A table that is only searched by key, changed at a key, or walked over.  Where the order of the walk
is not specified, the list's order stands for it.
-/

namespace Sbmt.Lib

variable {κ ν μ : Type} [DecidableEq κ] {k k' : κ} {v : ν} {l l' : List (κ × ν)}

def find (k : κ) : List (κ × ν) → Option ν
  | [] => none
  | (k', v) :: l => if k' = k then some v else find k l

theorem find_eq_none (h : ∀ e ∈ l, e.1 ≠ k) : find k l = none := by
  induction l with
  | nil => rfl
  | cons e l ih =>
    rw [find, if_neg (h e List.mem_cons_self)]
    exact ih fun e' he' => h e' (List.mem_cons_of_mem _ he')

/-- Change the entry at a key, or make one at the end. -/
def upsert (k : κ) (f : Option ν → ν) : List (κ × ν) → List (κ × ν)
  | [] => [(k, f none)]
  | (k', v) :: l => if k' = k then (k', f (some v)) :: l else (k', v) :: upsert k f l

/-- Take out the entry at a key. -/
def remove (k : κ) (l : List (κ × ν)) : List (κ × ν) := l.filter fun e => e.1 ≠ k

theorem find_remove (l : List (κ × ν)) : find k' (remove k l) = if k' = k then none else find k' l := by
  induction l with
  | nil => simp [remove, find]
  | cons e l ih =>
    obtain ⟨j, v⟩ := e
    by_cases hj : j = k
    · subst hj
      have hrest : remove j ((j, v) :: l) = remove j l := by simp [remove]
      rw [hrest, ih]
      by_cases h : k' = j
      · rw [if_pos h, if_pos h]
      · rw [if_neg h, if_neg h, find, if_neg (Ne.symm h)]
    · have hrest : remove k ((j, v) :: l) = (j, v) :: remove k l := by simp [remove, hj]
      rw [hrest, find, find, ih]
      by_cases h : j = k'
      · subst h
        rw [if_pos rfl, if_pos rfl, if_neg hj]
      · rw [if_neg h, if_neg h]

variable (f : Option ν → ν)

theorem find_upsert (l : List (κ × ν)) :
    find k' (upsert k f l) = if k' = k then some (f (find k l)) else find k' l := by
  induction l with
  | nil =>
    by_cases h : k' = k
    · simp [upsert, find, h]
    · simp [upsert, find, h, Ne.symm h]
  | cons e l ih =>
    obtain ⟨j, v⟩ := e
    by_cases hj : j = k
    · by_cases h : k' = k
      · simp [upsert, find, hj, h]
      · simp [upsert, find, hj, h, Ne.symm h]
    · by_cases h : k' = k
      · subst h
        simpa [upsert, find, hj] using ih
      · simp [upsert, find, hj, h, ih]

theorem find_map (f : ν → μ) : ∀ l : List (κ × ν), find k (l.map fun e => (e.1, f e.2)) = (find k l).map f
  | [] => rfl
  | (j, v) :: l => by
    by_cases h : j = k
    · simp [find, h]
    · simp [find, h, find_map f l]

theorem mem_keys_upsert : k' ∈ (upsert k f l).map Prod.fst ↔ k' = k ∨ k' ∈ l.map Prod.fst := by
  induction l with
  | nil => simp [upsert]
  | cons e l ih =>
    obtain ⟨j, v⟩ := e
    by_cases hj : j = k
    · simp [upsert, hj]
    · simp only [upsert, hj, if_false, List.map_cons, List.mem_cons, ih]
      tauto

theorem nodup_keys_upsert (h : (l.map Prod.fst).Nodup) : ((upsert k f l).map Prod.fst).Nodup := by
  induction l with
  | nil => simp [upsert]
  | cons e l ih =>
    obtain ⟨j, v⟩ := e
    obtain ⟨hj', hl⟩ := List.nodup_cons.mp h
    by_cases hj : j = k
    · simpa [upsert, hj] using h
    · rw [upsert, if_neg hj, List.map_cons, List.nodup_cons, mem_keys_upsert, not_or]
      exact ⟨⟨hj, hj'⟩, ih hl⟩

/-- With distinct keys a table is its set of entries. -/
theorem find_eq_some_iff (h : (l.map Prod.fst).Nodup) : find k l = some v ↔ (k, v) ∈ l := by
  induction l with
  | nil => simp [find]
  | cons e l ih =>
    obtain ⟨j, w⟩ := e
    obtain ⟨hj, hl⟩ := List.nodup_cons.mp h
    by_cases hk : j = k
    · subst hk
      have hnot : (j, v) ∉ l := fun hm => hj (List.mem_map.mpr ⟨_, hm, rfl⟩)
      simp [find, hnot, eq_comm]
    · simp [find, hk, ih hl, Ne.symm hk]

theorem find_perm (hp : l'.Perm l) (h : (l.map Prod.fst).Nodup) : find k l' = find k l := by
  have h' : (l'.map Prod.fst).Nodup := (hp.map Prod.fst).nodup_iff.mpr h
  ext v
  rw [find_eq_some_iff h, find_eq_some_iff h', hp.mem_iff]

end Sbmt.Lib
