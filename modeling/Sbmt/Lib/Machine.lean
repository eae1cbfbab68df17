import Mathlib

/-!
# Runs of a machine whose threads take turns

`next s a` is the state after act `a`, or `none` where `a` cannot happen. A run
is a list of acts, so a theorem about every run is one about every schedule.
`Along P` says something of every step of a run, `Throughout Q` of every state
it visits.
-/

namespace Sbmt.Lib.Machine

open Option

variable {σ α : Type*} (next : σ → α → Option σ)

/-- The state a run ends in, if it never gets stuck. -/
def run : List α → σ → Option σ
  | [], s => some s
  | a :: as, s => (next s a).bind (run as)

/-- `P` holds of every step the run takes. -/
def Along (P : σ → α → Prop) : List α → σ → Prop
  | [], _ => True
  | a :: as, s => ∀ s', next s a = some s' → P s a ∧ Along P as s'

/-- `Q` holds of every state the run visits. -/
def Throughout (Q : σ → Prop) : List α → σ → Prop
  | [], s => Q s
  | a :: as, s => Q s ∧ ∀ s', next s a = some s' → Throughout Q as s'

variable {next} {P : σ → α → Prop} {Q : σ → Prop}

variable {as bs : List α}

theorem run_append : ∀ {s : σ}, run next (as ++ bs) s = (run next as s).bind (run next bs) := by
  induction as with
  | nil => intro s; rfl
  | cons a as ih =>
    intro s
    simp only [List.cons_append, run]
    cases next s a with
    | none => rfl
    | some s' => exact ih

theorem along_append : ∀ {s : σ}, Along next P (as ++ bs) s ↔
    Along next P as s ∧ ∀ s', run next as s = some s' → Along next P bs s' := by
  induction as with
  | nil => intro s; simp [Along, run]
  | cons a as ih =>
    intro s
    simp only [List.cons_append, Along, run, ih]
    constructor
    · intro h
      refine ⟨fun s' hs => ⟨(h s' hs).1, (h s' hs).2.1⟩, ?_⟩
      intro s2 hrun
      obtain ⟨s', hs, hrun⟩ := bind_eq_some_iff.1 hrun
      exact (h s' hs).2.2 s2 hrun
    · rintro ⟨h1, h2⟩ s' hs
      refine ⟨(h1 s' hs).1, (h1 s' hs).2, fun s2 hrun => h2 s2 ?_⟩
      rw [hs]
      exact hrun

theorem along_true : ∀ {s : σ}, Along next (fun _ _ => True) as s := by
  induction as with
  | nil => exact trivial
  | cons a as ih => exact fun s' _ => ⟨trivial, ih⟩

/-- A step that happens, with the rest of the run after it. -/
theorem Along.cons {a : α} {s s' : σ} (hs : next s a = some s') (ha : P s a) (h : Along next P as s') :
    Along next P (a :: as) s := by
  intro s1 hs1
  rw [hs] at hs1
  cases hs1
  exact ⟨ha, h⟩

theorem Throughout.first {s : σ} (h : Throughout next Q as s) : Q s := by
  cases as with
  | nil => exact h
  | cons a as => exact h.1

theorem throughout_append : ∀ {s s' : σ}, Throughout next Q (as ++ bs) s → run next as s = some s' →
    Throughout next Q as s ∧ Throughout next Q bs s' := by
  induction as with
  | nil =>
    intro s s' h hrun
    obtain rfl := Option.some.inj hrun
    exact ⟨h.first, h⟩
  | cons a as ih =>
    intro s s' h hrun
    obtain ⟨s1, hs, hrest⟩ := bind_eq_some_iff.1 hrun
    obtain ⟨-, hbs⟩ := ih (h.2 s1 hs) hrest
    refine ⟨⟨h.1, fun s2 hs2 => ?_⟩, hbs⟩
    obtain rfl : s1 = s2 := mem_unique hs hs2
    exact (ih (h.2 s1 hs) hrest).1

/-- The invariant rule: what every allowed step keeps holds in every state a
run of allowed steps visits. -/
theorem throughout_of_step (hstep : ∀ s a s', Q s → P s a → next s a = some s' → Q s') :
    ∀ {s : σ}, Q s → Along next P as s → Throughout next Q as s := by
  induction as with
  | nil => exact fun hq _ => hq
  | cons a as ih => exact fun hq ha => ⟨hq, fun s' hs => ih (hstep _ _ _ hq (ha s' hs).1 hs) (ha s' hs).2⟩

/-- Where a step keeps `Q` exactly if it is allowed, a run keeps it throughout exactly if all its steps are. -/
theorem throughout_iff_along {I : σ → Prop} (hI : ∀ s a s', I s → next s a = some s' → I s')
    (hstep : ∀ s a s', I s → Q s → next s a = some s' → (Q s' ↔ P s a)) :
    ∀ {s : σ}, I s → Q s → (Throughout next Q as s ↔ Along next P as s) := by
  induction as with
  | nil => exact fun _ hq => iff_of_true hq trivial
  | cons a as ih =>
    intro s hi hq
    constructor
    · intro h s' hs
      have hq' := (h.2 s' hs).first
      exact ⟨(hstep s a s' hi hq hs).mp hq', (ih (hI s a s' hi hs) hq').mp (h.2 s' hs)⟩
    · intro h
      refine ⟨hq, fun s' hs => ?_⟩
      have hq' := (hstep s a s' hi hq hs).mpr (h s' hs).1
      exact (ih (hI s a s' hi hs) hq').mpr (h s' hs).2

/-- The same rule at the run's end. -/
theorem run_of_step (hstep : ∀ s a s', Q s → P s a → next s a = some s' → Q s') :
    ∀ {s s' : σ}, Q s → Along next P as s → run next as s = some s' → Q s' := by
  induction as with
  | nil =>
    intro s s' hq _ hrun
    cases hrun
    exact hq
  | cons a as ih =>
    intro s s' hq ha hrun
    obtain ⟨s1, hs, hrun⟩ := bind_eq_some_iff.1 hrun
    exact ih (hstep _ _ _ hq (ha s1 hs).1 hs) (ha s1 hs).2 hrun

theorem Throughout.mono {Q' : σ → Prop} (h : ∀ s, Q s → Q' s) :
    ∀ {s : σ}, Throughout next Q as s → Throughout next Q' as s := by
  induction as with
  | nil => exact fun hq => h _ hq
  | cons a as ih => exact fun hq => ⟨h _ hq.1, fun s' hs => ih (hq.2 s' hs)⟩

end Sbmt.Lib.Machine
