import Sbmt.Ghkm.ForestText

/-!
# Parentheses in the words of a forest (`PackedForest.C:246-258`, `:304-316`)

A word is written with `-RRB-` and `-LRB-` for its parentheses and read back by the same search, from the left.  An
occurrence that shares a dash with the one that was written is found first, or hides it, so a word without `-RRB-` and
`-LRB-` of its own comes back exactly if it has none of `overlaps` (`unescape_escape_iff`).
-/

namespace Sbmt.Ghkm.ForestText

open Sbmt.Lib Sbmt.Lib.Phrase Sbmt.Lib.Replace

/-- What makes an occurrence of `-RRB-` or `-LRB-` that is not the one written for a parenthesis. -/
def overlaps : List Text :=
  [['-', 'R', 'R', 'B', ')'], ['-', 'R', 'R', 'B', '('], ['(', 'R', 'R', 'B', '-'], ['(', 'R', 'R', 'B', '('],
    ['(', 'R', 'R', 'B', ')'], ['-', 'L', 'R', 'B', '(']]

variable {w : Text}

theorem escape_eq (w : Text) : escape w = expand '(' lrb (expand ')' rrb w) := by
  rw [escape, replaceWhile_char (by decide) List.count_le_length, replaceWhile_char (by decide) List.count_le_length]

theorem unescape_eq (t : Text) : unescape t = collapse lrb '(' 0 (collapse rrb ')' 0 t) := by
  rw [unescape, replaceWhile_collapse (by decide) (by decide) (Nat.le_refl _),
    replaceWhile_collapse (by decide) (by decide) (Nat.le_refl _)]

theorem expand_comm (w : Text) : expand '(' lrb (expand ')' rrb w) = expand ')' rrb (expand '(' lrb w) := by
  induction w with
  | nil => rfl
  | cons c w ih =>
    by_cases hr : c = ')'
    · subst hr
      rw [expand_cons_self, expand_append, ih, expand_of_notMem (show '(' ∉ rrb by decide),
        expand_cons_of_ne (show ')' ≠ '(' by decide), expand_cons_self]
    by_cases hl : c = '('
    · subst hl
      rw [expand_cons_of_ne hr, expand_cons_self, ih, expand_cons_self, expand_append,
        expand_of_notMem (show ')' ∉ lrb by decide)]
    · rw [expand_cons_of_ne hr, expand_cons_of_ne hl, ih, expand_cons_of_ne hl, expand_cons_of_ne hr]

/-- Each of the two searches has to give back what it was given. -/
theorem unescape_escape_split (w : Text) : unescape (escape w) = w ↔
    collapse rrb ')' 0 (expand ')' rrb (expand '(' lrb w)) = expand '(' lrb w ∧
      collapse lrb '(' 0 (expand '(' lrb w) = w := by
  rw [unescape_eq, escape_eq, expand_comm]
  constructor
  · intro h
    have hno : '(' ∉ collapse rrb ')' 0 (expand ')' rrb (expand '(' lrb w)) := by
      intro hmem
      rcases mem_collapse hmem with hc | hmem
      · exact absurd hc (by decide)
      · rcases mem_expand hmem with hp | hmem
        · exact absurd hp (by decide)
        · exact notMem_expand (by decide) w hmem
    have hfirst : collapse rrb ')' 0 (expand ')' rrb (expand '(' lrb w)) = expand '(' lrb w := by
      rw [← expand_collapse (show lrb ≠ [] by decide) hno, h]
    exact ⟨hfirst, hfirst ▸ h⟩
  · rintro ⟨hfirst, hsecond⟩
    rw [hfirst, hsecond]

/-- **A word comes back from the text exactly if no two patterns overlap in it.** -/
theorem unescape_escape_iff (hr : ¬ rrb <:+: w) (hl : ¬ lrb <:+: w) :
    unescape (escape w) = w ↔ ∀ p ∈ overlaps, ¬ p <:+: w := by
  have hfirst : collapse rrb ')' 0 (expand ')' rrb (expand '(' lrb w)) = expand '(' lrb w ↔
      ¬ rrb <:+: expand '(' lrb w ∧ ¬ ['-', 'R', 'R', 'B', ')'] <:+: expand '(' lrb w :=
    collapse_expand_iff (m := ['R', 'R', 'B']) (by decide) (by decide) (by decide)
  have hsecond : collapse lrb '(' 0 (expand '(' lrb w) = w ↔
      ¬ lrb <:+: w ∧ ¬ ['-', 'L', 'R', 'B', '('] <:+: w :=
    collapse_expand_iff (m := ['L', 'R', 'B']) (by decide) (by decide) (by decide)
  have hdash : ∀ y, '-' :: (['R', 'R', 'B'] ++ [y]) <:+: expand '(' lrb w ↔
      ((['-', 'R', 'R', 'B', y] <:+: w ∨ ['(', 'R', 'R', 'B', y] <:+: w) ∧ y ≠ '(') ∨
        (y = '-' ∧ (['-', 'R', 'R', 'B', '('] <:+: w ∨ ['(', 'R', 'R', 'B', '('] <:+: w)) := fun y =>
    infix_expand_iff (l := ['L', 'R', 'B']) (by decide) (by decide) (by decide) rfl (by decide) (by decide)
  have hwhole : rrb <:+: expand '(' lrb w ↔ _ := hdash '-'
  have hparen : ['-', 'R', 'R', 'B', ')'] <:+: expand '(' lrb w ↔ _ := hdash ')'
  rw [unescape_escape_split, hfirst, hsecond, hwhole, hparen]
  rw [rrb] at hr
  simp only [overlaps, List.forall_mem_cons, List.not_mem_nil, false_imp_iff, implies_true, and_true, hl]
  have hdash' : ¬ ('-' : Char) = '(' := by decide
  have hparen' : ¬ (')' : Char) = '(' := by decide
  have hdashr : ¬ (')' : Char) = '-' := by decide
  simp only [hr, hdash', hparen', hdashr, ne_eq, not_false_eq_true, and_true, true_and, false_and, or_false, not_or]
  tauto

/-- What `in >> label` reads, and the loop of a leaf. -/
def IsWord (w : Text) : Prop := w ≠ [] ∧ ∀ c ∈ w, isSpace c = false

theorem isWord_expand {c : Char} {p : Text} (hp : IsWord p) (hw : IsWord w) : IsWord (expand c p w) := by
  refine ⟨?_, fun d hd => (mem_expand hd).elim (hp.2 d) (hw.2 d)⟩
  obtain ⟨d, v, rfl⟩ := List.exists_cons_of_ne_nil hw.1
  by_cases hd : d = c
  · subst hd
    simp [hp.1]
  · simp [expand_cons_of_ne hd]

theorem isWord_escape (hw : IsWord w) : IsWord (escape w) := by
  rw [escape_eq]
  have hl : IsWord lrb := ⟨by decide, by simp [lrb, isSpace]⟩
  have hr : IsWord rrb := ⟨by decide, by simp [rrb, isSpace]⟩
  exact isWord_expand hl (isWord_expand hr hw)

theorem notMem_escape_left (w : Text) : '(' ∉ escape w := by
  rw [escape_eq]
  exact notMem_expand (by decide) _

theorem notMem_escape_right (w : Text) : ')' ∉ escape w := by
  rw [escape_eq, expand_comm]
  exact notMem_expand (by decide) _

end Sbmt.Ghkm.ForestText
