import Mathlib
/-!
# Open addressing

A table of slots that are empty, occupied or erased.  Every hash value has its own sequence of positions,
and a value stands at one of the positions of its key's hash with no empty slot before it.  That is all a
search needs (`Placed`): it can stop at the first empty slot (`Placed.absent`), if only there is one, and a
value may be put in any free slot that a search of its key comes by (`Placed.set`).  Erasing leaves a mark,
so that no slot becomes empty again (`Placed.erase`).
-/

namespace Sbmt.Lib

open List

variable {V K : Type} {m : Nat}

inductive Slot (V : Type) where
  | empty
  | occupied (v : V)
  | erased

namespace Slot

def value? : Slot V → Option V
  | occupied v => some v
  | _ => none

def isEmpty : Slot V → Bool
  | empty => true
  | _ => false

end Slot

/-- What the occupied slots hold. -/
def values (slots : List (Slot V)) : List V := slots.filterMap Slot.value?

def nonEmptyCount (slots : List (Slot V)) : Nat := slots.countP fun s => !s.isEmpty

/-- Steps of `k` around a circle of prime length come by every place. -/
theorem exists_step (hm : m.Prime) {k : Nat} (hk : 0 < k) (hkm : k < m) (h s : Nat) (hs : s < m) :
    ∃ i < m, (h + i * k) % m = s := by
  have hcop : Nat.Coprime m k := Nat.coprime_of_lt_prime hk.ne' hkm hm
  have hinj : Function.Injective fun i : Fin m => (⟨(h + i * k) % m, Nat.mod_lt _ hm.pos⟩ : Fin m) := by
    intro i j hij
    have hmod : h + i * k ≡ h + j * k [MOD m] := congrArg Fin.val hij
    have hmul : (i : Nat) * k ≡ j * k [MOD m] := Nat.ModEq.add_left_cancel' h hmod
    have heq := Nat.ModEq.cancel_right_of_coprime hcop hmul
    exact Fin.ext (Nat.ModEq.eq_of_lt_of_lt heq i.isLt j.isLt)
  obtain ⟨i, hi⟩ := (Finite.injective_iff_surjective.mp hinj) ⟨s, hs⟩
  exact ⟨i, i.isLt, congrArg Fin.val hi⟩

/-- A comparison of keys, and a hash function that goes by it. -/
structure KeyEquality (equal : K → K → Bool) (hash : K → Nat) : Prop where
  refl : ∀ a, equal a a = true
  symm : ∀ {a b}, equal a b = true → equal b a = true
  trans : ∀ {a b c}, equal a b = true → equal b c = true → equal a c = true
  hash_eq : ∀ {a b}, equal a b = true → hash a = hash b

theorem KeyEquality.congr {equal : K → K → Bool} {hash : K → Nat} (E : KeyEquality equal hash) {a b : K}
    (h : equal a b = true) (c : K) : equal c a = equal c b :=
  Bool.eq_iff_iff.mpr ⟨fun hc => E.trans hc h, fun hc => E.trans hc (E.symm h)⟩

/-- A search of `hash` comes by `s` before it comes to an empty slot; its `i`th look is at `pos hash i`. -/
def ProbeReaches (pos : Nat → Nat → Nat) (slots : List (Slot V)) (hash s : Nat) : Prop :=
  ∃ i, pos hash i = s ∧ ∀ j < i, slots[pos hash j]? ≠ some Slot.empty

/-- Every value is where a search of its key comes by, and no key is in two places. -/
structure Placed (pos : Nat → Nat → Nat) (key : V → K) (equal : K → K → Bool) (hash : K → Nat) (slots : List (Slot V)) : Prop where
  reaches : ∀ (s : Nat) (v : V), slots[s]? = some (Slot.occupied v) → ProbeReaches pos slots (hash (key v)) s
  apart : ∀ (s s' : Nat) (v v' : V), slots[s]? = some (Slot.occupied v) → slots[s']? = some (Slot.occupied v') →
    equal (key v) (key v') = true → s = s'

section

variable {pos : Nat → Nat → Nat} {key : V → K} {equal : K → K → Bool} {hash : K → Nat} {slots : List (Slot V)} {s : Nat}
  {v : V} {old : Slot V}

theorem mem_values : v ∈ values slots ↔ ∃ s : Nat, slots[s]? = some (Slot.occupied v) := by
  simp only [values, mem_filterMap]
  constructor
  · rintro ⟨slot, hmem, hv⟩
    obtain ⟨s, hs⟩ := getElem?_of_mem hmem
    cases slot with
    | occupied w =>
      cases hv
      exact ⟨s, hs⟩
    | empty => cases hv
    | erased => cases hv
  · rintro ⟨s, hs⟩
    exact ⟨_, mem_of_getElem? hs, rfl⟩

/-- If one more slot can be empty, one is. -/
theorem exists_empty (h : nonEmptyCount slots < slots.length) : ∃ s < slots.length, slots[s]? = some Slot.empty := by
  by_contra hno
  have hall : ∀ slot ∈ slots, (!slot.isEmpty) = true := by
    intro slot hmem
    obtain ⟨s, hs⟩ := getElem?_of_mem hmem
    cases slot with
    | empty => exact absurd ⟨s, (List.getElem?_eq_some_iff.mp hs).1, hs⟩ hno
    | occupied v => rfl
    | erased => rfl
  exact absurd (countP_eq_length.mpr hall) h.ne

/-! ## What a change of one slot does -/

theorem values_set (hold : slots[s]? = some old) (new : Slot V) :
    (old.value?.toList ++ values (slots.set s new)).Perm (new.value?.toList ++ values slots) := by
  induction slots generalizing s with
  | nil => simp at hold
  | cons slot slots ih =>
    have hcons : ∀ (x : Slot V) (l : List (Slot V)), values (x :: l) = x.value?.toList ++ values l := by
      intro x l
      cases hx : x.value? with
      | none => simp [values, hx]
      | some v => simp [values, hx]
    cases s with
    | zero =>
      cases hold
      rw [set_cons_zero, hcons, hcons]
      exact perm_append_comm_assoc _ _ _
    | succ s =>
      rw [set_cons_succ, hcons, hcons]
      refine (perm_append_comm_assoc _ _ _).trans ?_
      exact ((ih (by simpa using hold)).append_left _).trans (perm_append_comm_assoc _ _ _)

theorem nonEmptyCount_set (hold : slots[s]? = some old) (new : Slot V) :
    nonEmptyCount (slots.set s new) + (if old.isEmpty then 0 else 1) =
      nonEmptyCount slots + if new.isEmpty then 0 else 1 := by
  induction slots generalizing s with
  | nil => simp at hold
  | cons slot slots ih =>
    simp only [nonEmptyCount] at ih ⊢
    cases s with
    | zero =>
      cases hold
      rw [set_cons_zero, countP_cons, countP_cons]
      cases old.isEmpty <;> cases new.isEmpty <;> simp
    | succ s =>
      have := ih (s := s) (by simpa using hold)
      rw [set_cons_succ, countP_cons, countP_cons]
      omega

theorem ProbeReaches.set {h t : Nat} (hr : ProbeReaches pos slots h t) {new : Slot V} (hnew : new.isEmpty = false) (s : Nat) :
    ProbeReaches pos (slots.set s new) h t := by
  obtain ⟨i, hi, hbefore⟩ := hr
  refine ⟨i, hi, fun j hj hempty => ?_⟩
  by_cases hs : s = pos h j
  · subst hs
    rw [getElem?_set_self'] at hempty
    obtain ⟨x, -, rfl⟩ := Option.map_eq_some_iff.mp hempty
    cases hnew
  · rw [getElem?_set_ne hs] at hempty
    exact hbefore j hj hempty

/-! ## Placed tables -/

theorem placed_replicate (n : Nat) : Placed pos key equal hash (replicate n (.empty : Slot V)) := by
  have hno : ∀ (s : Nat) (v : V), (replicate n (.empty : Slot V))[s]? ≠ some (Slot.occupied v) := by
    intro s v h
    have := eq_of_mem_replicate (mem_of_getElem? h)
    cases this
  exact ⟨fun s v h => absurd h (hno s v), fun s _ v _ h => absurd h (hno s v)⟩

variable (h : Placed pos key equal hash slots)
include h

/-- A search that has come to an empty slot without finding the key can stop. -/
theorem Placed.absent (E : KeyEquality equal hash) {k : K} {i : Nat}
    (hempty : slots[pos (hash k) i]? = some Slot.empty)
    (hbefore : ∀ j < i, ∀ w, slots[pos (hash k) j]? = some (Slot.occupied w) → equal (key w) k = false) :
    ∀ w ∈ values slots, equal (key w) k = false := by
  intro w hw
  obtain ⟨s, hs⟩ := mem_values.mp hw
  rw [Bool.eq_false_iff]
  intro heq
  obtain ⟨i', hi', hfull⟩ := h.reaches s w hs
  rw [E.hash_eq heq] at hi' hfull
  rcases lt_trichotomy i' i with hlt | rfl | hgt
  · rw [← hi'] at hs
    exact absurd heq (by simp [hbefore i' hlt w hs])
  · rw [hi', hs] at hempty
    cases hempty
  · exact hfull i hgt hempty

theorem Placed.set (E : KeyEquality equal hash) (hold : slots[s]? = some old)
    (hreach : ProbeReaches pos slots (hash (key v)) s) (habsent : ∀ w ∈ values slots, equal (key w) (key v) = false) :
    Placed pos key equal hash (slots.set s (.occupied v)) := by
  have hlen := (List.getElem?_eq_some_iff.mp hold).1
  have hself : (slots.set s (.occupied v))[s]? = some (Slot.occupied v) := getElem?_set_self hlen
  have hother : ∀ t, t ≠ s → (slots.set s (.occupied v))[t]? = slots[t]? := fun t ht => getElem?_set_ne (Ne.symm ht)
  have hnone : ∀ t w, t ≠ s → (slots.set s (.occupied v))[t]? = some (Slot.occupied w) → equal (key w) (key v) = false := by
    intro t w ht hw
    rw [hother t ht] at hw
    exact habsent w (mem_values.mpr ⟨t, hw⟩)
  constructor
  · intro t w hw
    by_cases ht : t = s
    · subst ht
      rw [hself] at hw
      cases hw
      exact hreach.set rfl t
    · rw [hother t ht] at hw
      exact (h.reaches t w hw).set rfl s
  · intro t t' w w' hw hw' heq
    by_cases ht : t = s
    · by_cases ht' : t' = s
      · rw [ht, ht']
      · subst ht
        rw [hself] at hw
        cases hw
        exact absurd (E.symm heq) (by simp [hnone t' w' ht' hw'])
    · by_cases ht' : t' = s
      · subst ht'
        rw [hself] at hw'
        cases hw'
        exact absurd heq (by simp [hnone t w ht hw])
      · rw [hother t ht] at hw
        rw [hother t' ht'] at hw'
        exact h.apart t t' w w' hw hw' heq

theorem Placed.erase (s : Nat) : Placed pos key equal hash (slots.set s .erased) := by
  have hwas : ∀ (t : Nat) (w : V), (slots.set s .erased)[t]? = some (Slot.occupied w) → slots[t]? = some (Slot.occupied w) := by
    intro t w hw
    by_cases ht : s = t
    · subst ht
      rw [getElem?_set_self'] at hw
      obtain ⟨x, -, hx⟩ := Option.map_eq_some_iff.mp hw
      cases hx
    · rwa [getElem?_set_ne ht] at hw
  exact ⟨fun t w hw => (h.reaches t w (hwas t w hw)).set rfl s,
    fun t t' w w' hw hw' heq => h.apart t t' w w' (hwas t w hw) (hwas t' w' hw') heq⟩

/-- The values of a placed table have different keys. -/
theorem Placed.pairwise : (values slots).Pairwise fun v w => equal (key v) (key w) = false := by
  rw [values, pairwise_filterMap, pairwise_iff_getElem]
  intro s s' hs hs' hlt v hv w hw
  rw [Bool.eq_false_iff]
  intro heq
  have hat : ∀ {t : Nat} (ht : t < slots.length) {u : V}, slots[t].value? = some u → slots[t]? = some (Slot.occupied u) := by
    intro t ht u hu
    rw [getElem?_eq_getElem ht]
    cases hslot : slots[t] with
    | occupied x =>
      rw [hslot] at hu
      cases hu
      rfl
    | empty => rw [hslot] at hu; cases hu
    | erased => rw [hslot] at hu; cases hu
  exact hlt.ne (h.apart s s' v w (hat hs hv) (hat hs' hw) heq)

end

end Sbmt.Lib
