import Mathlib

/-!
# Searching and replacing until nothing is found

`replaceWhile p q` is the loop `while ((pos = s.find(p)) != npos) s.replace(pos, |p|, q)`. A character written out as
a pattern, and the pattern read back as the character, give the text again unless an occurrence of the pattern begins
or ends inside another one (`collapse_expand_iff`).
-/

namespace Sbmt.Lib.Replace

open List

variable {α : Type*} [DecidableEq α]

/-- One `find` and one `replace`: at the first occurrence of `p`, which is not empty. -/
def replaceFirst (p q : List α) : List α → Option (List α)
  | [] => none
  | x :: s => if p <+: x :: s then some (q ++ (x :: s).drop p.length) else (replaceFirst p q s).map (x :: ·)

/-- At most so many rounds of the loop. -/
def replaceWhile (p q : List α) : Nat → List α → List α
  | 0, s => s
  | n + 1, s =>
    match replaceFirst p q s with
    | some s' => replaceWhile p q n s'
    | none => s

variable {p q s s' : List α} {c d x : α}

theorem replaceFirst_eq_some (h : replaceFirst p q s = some s') :
    ∃ u v, s = u ++ (p ++ v) ∧ s' = u ++ (q ++ v) := by
  induction s generalizing s' with
  | nil => cases h
  | cons x s ih =>
    rw [replaceFirst] at h
    split at h
    · next hp =>
      obtain ⟨v, hv⟩ := hp
      refine ⟨[], v, hv.symm, ?_⟩
      rw [← Option.some.inj h, ← hv, drop_left]
      rfl
    · obtain ⟨t, ht, rfl⟩ := Option.map_eq_some_iff.1 h
      obtain ⟨u, v, rfl, rfl⟩ := ih ht
      exact ⟨x :: u, v, rfl, rfl⟩

theorem replaceFirst_eq_none (hne : p ≠ []) : replaceFirst p q s = none ↔ ¬ p <:+: s := by
  induction s with
  | nil => simp [replaceFirst, hne]
  | cons x s ih =>
    rw [replaceFirst, infix_cons_iff]
    split
    · next hp => simp [hp]
    · next hp => simp [hp, ih]

/-! ## Writing a character out -/

/-- Every `c` written out as `p`. -/
def expand (c : α) (p s : List α) : List α := s.flatMap fun x => if x = c then p else [x]

@[simp] theorem expand_nil : expand c p [] = [] := rfl

@[simp] theorem expand_cons_self : expand c p (c :: s) = p ++ expand c p s := by simp [expand]

theorem expand_cons_of_ne (h : x ≠ c) : expand c p (x :: s) = x :: expand c p s := by simp [expand, h]

@[simp] theorem expand_append (s t : List α) : expand c p (s ++ t) = expand c p s ++ expand c p t :=
  flatMap_append

theorem expand_of_notMem (h : c ∉ s) : expand c p s = s := by
  induction s with
  | nil => rfl
  | cons x s ih =>
    obtain ⟨hx, hs⟩ := ne_and_not_mem_of_not_mem_cons h
    rw [expand_cons_of_ne (Ne.symm hx), ih hs]

theorem notMem_expand (h : c ∉ p) (s : List α) : c ∉ expand c p s := by
  induction s with
  | nil => exact not_mem_nil
  | cons x s ih =>
    by_cases hx : x = c
    · subst hx
      simp [h, ih]
    · simp [expand_cons_of_ne hx, Ne.symm hx, ih]

theorem mem_expand (h : x ∈ expand c p s) : x ∈ p ∨ x ∈ s := by
  obtain ⟨y, hy, hx⟩ := mem_flatMap.1 h
  split at hx
  · exact .inl hx
  · exact .inr (mem_singleton.1 hx ▸ hy)

/-- As long as the replacement does not bring the character back, one round is spent for each. -/
theorem replaceWhile_char (h : c ∉ p) {n : Nat} (hn : s.count c ≤ n) :
    replaceWhile [c] p n s = expand c p s := by
  induction n generalizing s with
  | zero => exact (expand_of_notMem (count_eq_zero.1 (Nat.le_zero.1 hn))).symm
  | succ n ih =>
    rw [replaceWhile]
    cases hfirst : replaceFirst [c] p s with
    | none =>
      have hno : ¬ [c] <:+: s := (replaceFirst_eq_none (by simp)).1 hfirst
      exact (expand_of_notMem fun hc => hno ((singleton_infix_iff c s).2 hc)).symm
    | some s' =>
      obtain ⟨u, v, rfl, rfl⟩ := replaceFirst_eq_some hfirst
      have hp : p.count c = 0 := count_eq_zero.2 h
      dsimp only
      rw [ih]
      · simp [expand_of_notMem h]
      · simp only [count_append, count_cons_self, count_nil, hp] at hn ⊢
        omega

/-! ## Reading it back -/

/-- One pass from left to right, which writes `c` for `p`; the first argument says how much of an occurrence is left. -/
def collapse (p : List α) (c : α) : Nat → List α → List α
  | _, [] => []
  | k + 1, _ :: s => collapse p c k s
  | 0, x :: s => if p <+: x :: s then c :: collapse p c (p.length - 1) s else x :: collapse p c 0 s

theorem collapse_drop (k : Nat) (s : List α) : collapse p c k s = collapse p c 0 (s.drop k) := by
  induction k generalizing s with
  | zero => rfl
  | succ k ih =>
    cases s with
    | nil => rfl
    | cons x s => exact ih s

theorem collapse_append (hne : p ≠ []) (s : List α) : collapse p c 0 (p ++ s) = c :: collapse p c 0 s := by
  cases p with
  | nil => exact absurd rfl hne
  | cons y p => simp [collapse, collapse_drop p.length]

theorem collapse_cons (h : ¬ p <+: x :: s) : collapse p c 0 (x :: s) = x :: collapse p c 0 s := by
  rw [collapse, if_neg h]

theorem collapse_eq_self (h : ¬ p <:+: s) : collapse p c 0 s = s := by
  induction s with
  | nil => rfl
  | cons x s ih =>
    rw [infix_cons_iff, not_or] at h
    rw [collapse_cons h.1, ih h.2]

theorem mem_collapse {k : Nat} (h : x ∈ collapse p c k s) : x = c ∨ x ∈ s := by
  induction s generalizing k with
  | nil => cases k <;> cases h
  | cons y s ih =>
    cases k with
    | succ k => exact (ih h).imp_right (mem_cons_of_mem y)
    | zero =>
      rw [collapse] at h
      split at h
      · rcases mem_cons.1 h with hx | hx
        · exact .inl hx
        · exact (ih hx).imp_right (mem_cons_of_mem y)
      · rcases mem_cons.1 h with hx | hx
        · exact .inr (hx ▸ mem_cons_self)
        · exact (ih hx).imp_right (mem_cons_of_mem y)

omit [DecidableEq α] in
/-- No occurrence runs over a character that the pattern does not have. -/
theorem prefix_of_prefix_append_cons {u v w : List α} (hc : c ∉ p) (h : p <+: u ++ c :: v) : p <+: u ++ w := by
  have hle : p.length ≤ u.length := by
    by_contra hlt
    have hget := h.getElem (Nat.lt_of_not_le hlt)
    simp only [getElem_append_right (Nat.le_refl _), Nat.sub_self, getElem_cons_zero] at hget
    exact hc (hget ▸ getElem_mem _)
  exact (prefix_of_prefix_length_le h (prefix_append u _) hle).trans (prefix_append u w)

theorem replaceFirst_collapse (hne : p ≠ []) (hc : c ∉ p) (h : replaceFirst p [c] s = some s') :
    collapse p c 0 s' = collapse p c 0 s := by
  have hcne : ∀ v : List α, ¬ p <+: c :: v := by
    intro v hv
    cases p with
    | nil => exact hne rfl
    | cons y p => exact hc ((cons_prefix_cons.1 hv).1 ▸ mem_cons_self)
  induction s generalizing s' with
  | nil => cases h
  | cons x s ih =>
    rw [replaceFirst] at h
    split at h
    · next hp =>
      obtain ⟨v, hv⟩ := hp
      rw [← Option.some.inj h, ← hv, drop_left, collapse_append hne]
      exact collapse_cons (hcne v)
    · next hp =>
      obtain ⟨t, ht, rfl⟩ := Option.map_eq_some_iff.1 h
      obtain ⟨u, v, hs, ht'⟩ := replaceFirst_eq_some ht
      have hp' : ¬ p <+: x :: t := by
        intro hbad
        rw [ht', ← cons_append] at hbad
        refine hp ?_
        rw [hs]
        exact prefix_of_prefix_append_cons hc hbad
      rw [collapse_cons hp, collapse_cons hp', ih ht]

/-- A round that shortens the text is spent on every occurrence the pass finds. -/
theorem replaceWhile_collapse (hlen : 2 ≤ p.length) (hc : c ∉ p) {n : Nat} (hn : s.length ≤ n) :
    replaceWhile p [c] n s = collapse p c 0 s := by
  have hne : p ≠ [] := ne_nil_of_length_pos (by omega)
  induction n generalizing s with
  | zero => rw [length_eq_zero_iff.1 (Nat.le_zero.1 hn)]; rfl
  | succ n ih =>
    rw [replaceWhile]
    cases hfirst : replaceFirst p [c] s with
    | none => exact (collapse_eq_self ((replaceFirst_eq_none hne).1 hfirst)).symm
    | some s' =>
      have hshort : s'.length < s.length := by
        obtain ⟨u, v, rfl, rfl⟩ := replaceFirst_eq_some hfirst
        simp only [length_append, length_singleton]
        omega
      dsimp only
      rw [ih (by omega), replaceFirst_collapse hne hc hfirst]

/-- What has been collapsed can be written out again. -/
theorem expand_collapse (hne : p ≠ []) (h : c ∉ s) : expand c p (collapse p c 0 s) = s := by
  induction hn : s.length using Nat.strong_induction_on generalizing s with
  | _ n ih =>
    cases s with
    | nil => rfl
    | cons x s =>
      by_cases hp : p <+: x :: s
      · obtain ⟨v, hv⟩ := hp
        have hv' : v.length < n := by
          have := congrArg List.length hv
          have := length_pos_iff.2 hne
          simp only [length_append] at *
          omega
        rw [← hv] at h ⊢
        rw [collapse_append hne, expand_cons_self, ih v.length hv' (fun hc => h (mem_append_right p hc)) rfl]
      · obtain ⟨hx, hs⟩ := ne_and_not_mem_of_not_mem_cons h
        rw [collapse_cons hp, expand_cons_of_ne (Ne.symm hx), ih s.length (by simp [← hn]) hs rfl]

/-! ## A pattern with the same character at both ends -/

/-- Where `p` is the beginning of what is written out, `s` has `p`, with the last character written out or not. -/
theorem prefix_expand_iff {m : List α} {y : α} (hd : d ∉ m) (hc : c ∉ m) (hp : p.head? = some d) :
    m ++ [y] <+: expand c p s ↔ (m ++ [y] <+: s ∧ y ≠ c) ∨ (y = d ∧ m ++ [c] <+: s) := by
  induction m generalizing s with
  | nil =>
    cases s with
    | nil => simp
    | cons x s =>
      by_cases hx : x = c
      · subst hx
        cases p with
        | nil => cases hp
        | cons z p =>
          obtain rfl : z = d := Option.some.inj hp
          simp
      · simp [expand_cons_of_ne hx, Ne.symm hx]
        rintro rfl
        exact hx
  | cons z m ih =>
    obtain ⟨hdz, hdm⟩ := ne_and_not_mem_of_not_mem_cons hd
    obtain ⟨hcz, hcm⟩ := ne_and_not_mem_of_not_mem_cons hc
    cases s with
    | nil => simp
    | cons x s =>
      by_cases hx : x = c
      · subst hx
        cases p with
        | nil => cases hp
        | cons w p =>
          obtain rfl : w = d := Option.some.inj hp
          simp [Ne.symm hdz, Ne.symm hcz]
      · simp only [expand_cons_of_ne hx, cons_append, cons_prefix_cons, ih hdm hcm]
        tauto

/-- **What is written out is read back exactly where the text has neither the pattern nor, in place of the last
character of one, the character that is written out.** -/
theorem collapse_expand_iff {m : List α} (hd : d ∉ m) (hc : c ∉ m) (hcd : c ≠ d) :
    collapse (d :: (m ++ [d])) c 0 (expand c (d :: (m ++ [d])) s) = s ↔
      ¬ d :: (m ++ [d]) <:+: s ∧ ¬ d :: (m ++ [c]) <:+: s := by
  induction s with
  | nil => simp [collapse]
  | cons x s ih =>
    rw [infix_cons_iff, infix_cons_iff]
    by_cases hx : x = c
    · subst hx
      rw [expand_cons_self, collapse_append (by simp), cons_inj_right, ih]
      simp [Ne.symm hcd]
    · rw [expand_cons_of_ne hx]
      have hiff := prefix_expand_iff (s := s) (y := d) hd hc (p := d :: (m ++ [d])) rfl
      by_cases hp : d :: (m ++ [d]) <+: x :: expand c (d :: (m ++ [d])) s
      · obtain ⟨v, hv⟩ := hp
        rw [← hv, collapse_append (by simp)]
        obtain ⟨rfl, htail⟩ := List.cons.inj hv
        simp only [cons_prefix_cons, true_and]
        constructor
        · exact fun h => absurd (List.cons.inj h).1 hcd
        · tauto
      · rw [collapse_cons hp, cons_inj_right]
        rw [cons_prefix_cons] at hp
        simp only [cons_prefix_cons, not_or]
        tauto

omit [DecidableEq α] in
/-- An occurrence cannot begin where its first character is missing. -/
theorem infix_append_iff {m t u : List α} (hd : d ∉ m) : d :: u <:+: m ++ t ↔ d :: u <:+: t := by
  induction m with
  | nil => rfl
  | cons z m ih =>
    obtain ⟨hz, hm⟩ := ne_and_not_mem_of_not_mem_cons hd
    simp [infix_cons_iff, cons_prefix_cons, hz, ih hm]

/-- What another pattern of the same shape can be made of when the text is written out. -/
theorem infix_expand_iff {m l : List α} {y : α} (hd : d ∉ m) (hc : c ∉ m) (hd' : d ∉ l)
    (hlen : m.length = l.length) (hne : m ≠ l) (hcd : c ≠ d) :
    d :: (m ++ [y]) <:+: expand c (d :: (l ++ [d])) s ↔
      ((d :: (m ++ [y]) <:+: s ∨ c :: (m ++ [y]) <:+: s) ∧ y ≠ c) ∨
        (y = d ∧ (d :: (m ++ [c]) <:+: s ∨ c :: (m ++ [c]) <:+: s)) := by
  induction s with
  | nil => simp
  | cons x s ih =>
    have hiff := prefix_expand_iff (s := s) (y := y) hd hc (p := d :: (l ++ [d])) rfl
    by_cases hx : x = c
    · subst hx
      have hstart : ¬ m ++ [y] <+: l ++ (d :: expand x (d :: (l ++ [d])) s) := by
        intro h
        have hm : m <+: l ++ (d :: expand x (d :: (l ++ [d])) s) := (prefix_append m [y]).trans h
        exact hne (append_inj (prefix_iff_eq_append.1 hm) hlen).1
      have hshape : expand x (d :: (l ++ [d])) (x :: s) = d :: (l ++ (d :: expand x (d :: (l ++ [d])) s)) := by
        simp
      rw [hshape, infix_cons_iff, infix_append_iff hd']
      simp only [cons_prefix_cons, hstart, hiff, infix_cons_iff, true_and, and_false, false_or,
        Ne.symm hcd, false_and]
      grind
    · rw [expand_cons_of_ne hx]
      simp only [cons_prefix_cons, hiff, infix_cons_iff, Ne.symm hx, false_and, false_or]
      grind

end Sbmt.Lib.Replace
