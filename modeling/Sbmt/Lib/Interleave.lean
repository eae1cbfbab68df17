import Mathlib

/-!
# Two runs in step on their letters

Two machines run side by side. A label of either is silent or has a letter; a
letter of the first and a letter of the second have to be taken together, and
the silent labels can be taken in many orders. A filter in the state of the pair
leaves one order of each.

`Step3` is the filter with three states: silent labels are taken in pairs as
long as both sides have one. `Step2` is the filter with two states, where labels
are taken one at a time: a letter of the first side leads to a state between,
from which the second side has to answer.

Both leave exactly one interleaving of each two runs that agree on their letters
(`step3_bijOn`, `step2_bijOn`).
-/

namespace Sbmt.Lib

open Option

variable {V L A B LA LB σ τ : Type*}

/-- A run of a machine and the labels it takes. -/
inductive Run (r : V → L → V → Prop) : V → List L → V → Prop
  | nil (v : V) : Run r v [] v
  | cons {v w u : V} {l : L} {ls : List L} (h : r v l w) (rest : Run r w ls u) : Run r v (l :: ls) u

variable {ls : List L} {v : V} {r : V → L → V → Prop}

/-- A run seen through a map of the states. -/
theorem Run.map {V' : Type*} {r' : V' → L → V' → Prop} (e : V → V')
    (he : ∀ v l w, r v l w → r' (e v) l (e w)) {w : V} (h : Run r v ls w) : Run r' (e v) ls (e w) := by
  induction h with
  | nil v => exact .nil _
  | cons hstep _ ih => exact .cons (he _ _ _ hstep) ih

/-- Each label of a run is taken by a step. -/
theorem Run.label {w : V} (h : Run r v ls w) : ∀ l ∈ ls, ∃ u u', r u l u' := by
  induction h with
  | nil v => exact fun l hl => absurd hl List.not_mem_nil
  | cons hstep _ ih =>
    intro l hl
    rcases List.mem_cons.1 hl with rfl | hl
    · exact ⟨_, _, hstep⟩
    · exact ih l hl

/-- A run that starts in the image of a map, when no step leaves the image. -/
theorem Run.lift {V' : Type*} {r' : V' → L → V' → Prop} (e : V → V')
    (he : ∀ v l w', r' (e v) l w' → ∃ w, e w = w' ∧ r v l w) {w' : V'} (h : Run r' (e v) ls w') :
    ∃ w, e w = w' ∧ Run r v ls w := by
  obtain ⟨v', hv'⟩ : ∃ v', v' = e v := ⟨_, rfl⟩
  rw [← hv'] at h
  induction h generalizing v with
  | nil => exact ⟨v, hv'.symm, .nil v⟩
  | cons hstep _ ih =>
    subst hv'
    obtain ⟨w, rfl, hw⟩ := he _ _ _ hstep
    obtain ⟨u, hu, hrun⟩ := ih rfl
    exact ⟨u, hu, .cons hw hrun⟩

/-- Labels of one side or of both. -/
inductive Joint (LA LB : Type*)
  | left (l : LA)
  | right (r : LB)
  | both (l : LA) (r : LB)

namespace Joint

def left? : Joint LA LB → Option LA
  | left l => some l
  | right _ => none
  | both l _ => some l

def right? : Joint LA LB → Option LB
  | left _ => none
  | right r => some r
  | both _ r => some r

/-- The labels of the first side. -/
def lefts (os : List (Joint LA LB)) : List LA := os.filterMap left?

def rights (os : List (Joint LA LB)) : List LB := os.filterMap right?

@[simp] theorem lefts_nil : lefts ([] : List (Joint LA LB)) = [] := rfl
@[simp] theorem rights_nil : rights ([] : List (Joint LA LB)) = [] := rfl
@[simp] theorem lefts_left (l : LA) (os : List (Joint LA LB)) : lefts (left l :: os) = l :: lefts os := rfl
@[simp] theorem rights_left (l : LA) (os : List (Joint LA LB)) : rights (left l :: os) = rights os := rfl
@[simp] theorem lefts_right (r : LB) (os : List (Joint LA LB)) : lefts (right r :: os) = lefts os := rfl
@[simp] theorem rights_right (r : LB) (os : List (Joint LA LB)) : rights (right r :: os) = r :: rights os := rfl
@[simp] theorem lefts_both (l : LA) (r : LB) (os : List (Joint LA LB)) : lefts (both l r :: os) = l :: lefts os := rfl
@[simp] theorem rights_both (l : LA) (r : LB) (os : List (Joint LA LB)) : rights (both l r :: os) = r :: rights os := rfl

end Joint

open Joint

/-- The first label is not silent. -/
def Loud (letter : L → Option σ) (ls : List L) : Prop := ∀ l ∈ ls.head?, letter l ≠ none

theorem Loud.nil (letter : L → Option σ) : Loud letter [] := fun _ h => by cases h

theorem loud_cons {letter : L → Option σ} {l : L} : Loud letter (l :: ls) ↔ letter l ≠ none := by
  unfold Loud
  simp

/-- The filter with three states has states. -/
instance neZero_three : NeZero 3 := ⟨by decide⟩

section Filters

variable (ra : A → LA → A → Prop) (rb : B → LB → B → Prop) (la : LA → Option σ) (lb : LB → Option τ) (M : σ → τ → Prop)

/-- The letters agree, one by one. -/
def Agree (pa : List LA) (pb : List LB) : Prop := List.Forall₂ M (pa.filterMap la) (pb.filterMap lb)

/-- The filter with three states: 1 after a silent label of the first side alone, 2 after one of the second. -/
inductive Step3 : A × B × Fin 3 → Joint LA LB → A × B × Fin 3 → Prop
  | left {p p' : A} {q : B} {f : Fin 3} {l : LA} (h : ra p l p') (hl : la l = none) (hf : f ≠ 2) :
      Step3 (p, q, f) (.left l) (p', q, 1)
  | right {p : A} {q q' : B} {f : Fin 3} {r : LB} (h : rb q r q') (hr : lb r = none) (hf : f ≠ 1) :
      Step3 (p, q, f) (.right r) (p, q', 2)
  | silent {p p' : A} {q q' : B} {l : LA} {r : LB} (h : ra p l p') (h' : rb q r q') (hl : la l = none)
      (hr : lb r = none) : Step3 (p, q, 0) (.both l r) (p', q', 0)
  | letter {p p' : A} {q q' : B} {f : Fin 3} {l : LA} {r : LB} {c : σ} {d : τ} (h : ra p l p') (h' : rb q r q')
      (hl : la l = some c) (hr : lb r = some d) (hcd : M c d) : Step3 (p, q, f) (.both l r) (p', q', 0)

/-- What a state of the filter promises of what is to come. -/
def Fits3 (f : Fin 3) (pa : List LA) (pb : List LB) : Prop := (f = 1 → Loud lb pb) ∧ (f = 2 → Loud la pa)

variable {ra rb la lb M} {pa : List LA} {pb : List LB}

variable {l : LA}

theorem agree_left (hl : la l = none) : Agree la lb M (l :: pa) pb ↔ Agree la lb M pa pb := by
  unfold Agree
  rw [List.filterMap_cons_none hl]

variable {r : LB}

theorem agree_right (hr : lb r = none) : Agree la lb M pa (r :: pb) ↔ Agree la lb M pa pb := by
  unfold Agree
  rw [List.filterMap_cons_none hr]

theorem agree_letter {c : σ} {d : τ} (hl : la l = some c) (hr : lb r = some d) :
    Agree la lb M (l :: pa) (r :: pb) ↔ M c d ∧ Agree la lb M pa pb := by
  unfold Agree
  rw [List.filterMap_cons_some hl, List.filterMap_cons_some hr, List.forall₂_cons]

/-! ## Three states -/

variable {os : List (Joint LA LB)}

theorem step3_sound {k k' : A × B × Fin 3} (h : Run (Step3 ra rb la lb M) k os k') :
    Run ra k.1 (lefts os) k'.1 ∧ Run rb k.2.1 (rights os) k'.2.1 ∧ Agree la lb M (lefts os) (rights os) ∧
      Fits3 la lb k.2.2 (lefts os) (rights os) := by
  induction h with
  | nil k => exact ⟨.nil _, .nil _, .nil, fun _ => .nil lb, fun _ => .nil la⟩
  | cons hstep _ ih =>
    obtain ⟨iha, ihb, ihagree, ihfits⟩ := ih
    cases hstep with
    | left h hl hf =>
      exact ⟨.cons h iha, ihb, (agree_left hl).2 ihagree, fun _ => ihfits.1 rfl, fun hf2 => absurd hf2 hf⟩
    | right h hr hf =>
      exact ⟨iha, .cons h ihb, (agree_right hr).2 ihagree, fun hf1 => absurd hf1 hf, fun _ => ihfits.2 rfl⟩
    | silent h h' hl hr =>
      refine ⟨.cons h iha, .cons h' ihb, (agree_left hl).2 ((agree_right hr).2 ihagree), ?_, ?_⟩
      · intro hf
        cases hf
      · intro hf
        cases hf
    | letter h h' hl hr hcd =>
      refine ⟨.cons h iha, .cons h' ihb, (agree_letter hl hr).2 ⟨hcd, ihagree⟩, ?_, ?_⟩
      · intro _
        exact loud_cons.2 (by rw [hr]; exact some_ne_none _)
      · intro _
        exact loud_cons.2 (by rw [hl]; exact some_ne_none _)

section Weave

variable (la lb)

/-- The one order of two runs that passes: silent labels in pairs, then alone, then the letters together. -/
def weave3 : List LA → List LB → List (Joint LA LB)
  | [], [] => []
  | [], r :: pb => .right r :: weave3 [] pb
  | l :: pa, [] => .left l :: weave3 pa []
  | l :: pa, r :: pb =>
    match la l, lb r with
    | none, none => .both l r :: weave3 pa pb
    | none, some _ => .left l :: weave3 pa (r :: pb)
    | some _, none => .right r :: weave3 (l :: pa) pb
    | some _, some _ => .both l r :: weave3 pa pb
termination_by pa pb => pa.length + pb.length

theorem lefts_weave3 (pa : List LA) (pb : List LB) : lefts (weave3 la lb pa pb) = pa := by
  fun_induction weave3 la lb pa pb <;> simp_all

theorem rights_weave3 (pa : List LA) (pb : List LB) : rights (weave3 la lb pa pb) = pb := by
  fun_induction weave3 la lb pa pb <;> simp_all

end Weave

theorem weave3_left (hl : la l = none) (hloud : Loud lb pb) :
    weave3 la lb (l :: pa) pb = .left l :: weave3 la lb pa pb := by
  cases pb with
  | nil => rw [weave3]
  | cons r pb =>
    obtain ⟨d, hd⟩ := ne_none_iff_exists'.1 (loud_cons.1 hloud)
    rw [weave3, hl, hd]

theorem weave3_right (hr : lb r = none) (hloud : Loud la pa) :
    weave3 la lb pa (r :: pb) = .right r :: weave3 la lb pa pb := by
  cases pa with
  | nil => rw [weave3]
  | cons l pa =>
    obtain ⟨c, hc⟩ := ne_none_iff_exists'.1 (loud_cons.1 hloud)
    rw [weave3, hc, hr]

/-- A label left alone at the end is silent. -/
theorem Agree.left_silent (h : Agree la lb M (l :: pa) []) : la l = none := by
  cases hl : la l with
  | none => rfl
  | some c =>
    unfold Agree at h
    rw [List.filterMap_cons_some hl] at h
    cases h

theorem Agree.right_silent (h : Agree la lb M [] (r :: pb)) : lb r = none := by
  cases hr : lb r with
  | none => rfl
  | some d =>
    unfold Agree at h
    rw [List.filterMap_cons_some hr] at h
    cases h

/-- After a silent label of the first side the second side is loud. -/
theorem fits3_one (hloud : Loud lb pb) : Fits3 la lb 1 pa pb := ⟨fun _ => hloud, fun h => absurd h (by decide)⟩

theorem fits3_two (hloud : Loud la pa) : Fits3 la lb 2 pa pb := ⟨fun h => absurd h (by decide), fun _ => hloud⟩

theorem fits3_zero : Fits3 la lb 0 pa pb := ⟨fun h => absurd h (by decide), fun h => absurd h (by decide)⟩

variable {f : Fin 3}

theorem Fits3.ne_one (h : Fits3 la lb f pa (r :: pb)) (hr : lb r = none) : f ≠ 1 :=
  fun hf => loud_cons.1 (h.1 hf) hr

theorem Fits3.ne_two (h : Fits3 la lb f (l :: pa) pb) (hl : la l = none) : f ≠ 2 :=
  fun hf => loud_cons.1 (h.2 hf) hl

variable {q q' : B} {p p' : A}

/-- Two runs that agree, in the order of `weave3`. -/
theorem run_weave3 (ha : Run ra p pa p') (hb : Run rb q pb q')
    (hagree : Agree la lb M pa pb) (hfits : Fits3 la lb f pa pb) :
    ∃ f', Run (Step3 ra rb la lb M) (p, q, f) (weave3 la lb pa pb) (p', q', f') := by
  fun_induction weave3 la lb pa pb generalizing p q f with
  | case1 =>
    cases ha
    cases hb
    exact ⟨f, .nil _⟩
  | case2 r pb ih =>
    have hr := hagree.right_silent
    cases hb with
    | cons hstep hrest =>
      obtain ⟨f', hrun⟩ := ih ha hrest ((agree_right hr).1 hagree) (fits3_two (.nil la))
      exact ⟨f', .cons (.right hstep hr (hfits.ne_one hr)) hrun⟩
  | case3 l pa ih =>
    have hl := hagree.left_silent
    cases ha with
    | cons hstep hrest =>
      obtain ⟨f', hrun⟩ := ih hrest hb ((agree_left hl).1 hagree) (fits3_one (.nil lb))
      exact ⟨f', .cons (.left hstep hl (hfits.ne_two hl)) hrun⟩
  | case4 l pa r pb hr hl ih =>
    cases ha with
    | cons hstepa hresta =>
    cases hb with
    | cons hstepb hrestb =>
      obtain ⟨f', hrun⟩ := ih hresta hrestb ((agree_right hr).1 ((agree_left hl).1 hagree)) fits3_zero
      have hf : f = 0 := by
        have h1 := hfits.ne_one hr
        have h2 := hfits.ne_two hl
        omega
      subst hf
      exact ⟨f', .cons (.silent hstepa hstepb hl hr) hrun⟩
  | case5 l pa r pb d hr hl ih =>
    cases ha with
    | cons hstep hrest =>
      have hloud : Loud lb (r :: pb) := loud_cons.2 (by rw [hr]; exact some_ne_none d)
      obtain ⟨f', hrun⟩ := ih hrest hb ((agree_left hl).1 hagree) (fits3_one hloud)
      exact ⟨f', .cons (.left hstep hl (hfits.ne_two hl)) hrun⟩
  | case6 l pa r pb c hr hl ih =>
    cases hb with
    | cons hstep hrest =>
      have hloud : Loud la (l :: pa) := loud_cons.2 (by rw [hl]; exact some_ne_none c)
      obtain ⟨f', hrun⟩ := ih ha hrest ((agree_right hr).1 hagree) (fits3_two hloud)
      exact ⟨f', .cons (.right hstep hr (hfits.ne_one hr)) hrun⟩
  | case7 l pa r pb c d hr hl ih =>
    obtain ⟨hcd, hrestAgree⟩ := (agree_letter hl hr).1 hagree
    cases ha with
    | cons hstepa hresta =>
    cases hb with
    | cons hstepb hrestb =>
      obtain ⟨f', hrun⟩ := ih hresta hrestb hrestAgree fits3_zero
      exact ⟨f', .cons (.letter hstepa hstepb hl hr hcd) hrun⟩

/-- A run is in the order of `weave3`. -/
theorem weave3_of_run {k k' : A × B × Fin 3} (h : Run (Step3 ra rb la lb M) k os k') :
    weave3 la lb (lefts os) (rights os) = os := by
  induction h with
  | nil k => simp [weave3]
  | cons hstep hrest ih =>
    obtain ⟨-, -, -, hloudb, hlouda⟩ := step3_sound hrest
    cases hstep with
    | left h hl hf => rw [lefts_left, rights_left, weave3_left hl (hloudb rfl), ih]
    | right h hr hf => rw [lefts_right, rights_right, weave3_right hr (hlouda rfl), ih]
    | silent h h' hl hr => rw [lefts_both, rights_both, weave3, hl, hr, ih]
    | letter h h' hl hr hcd => rw [lefts_both, rights_both, weave3, hl, hr, ih]

/-- The filter with three states leaves one interleaving of each two runs that agree. -/
theorem step3_bijOn :
    Set.BijOn (fun os => (lefts os, rights os)) {os | ∃ f, Run (Step3 ra rb la lb M) (p, q, 0) os (p', q', f)}
      {r | Run ra p r.1 p' ∧ Run rb q r.2 q' ∧ Agree la lb M r.1 r.2} := by
  refine ⟨?_, ?_, ?_⟩
  · rintro os ⟨f, hrun⟩
    obtain ⟨ha, hb, hagree, -⟩ := step3_sound hrun
    exact ⟨ha, hb, hagree⟩
  · rintro os ⟨f, hrun⟩ os' ⟨f', hrun'⟩ heq
    obtain ⟨hlefts, hrights⟩ := Prod.mk.inj heq
    rw [← weave3_of_run hrun, ← weave3_of_run hrun', hlefts, hrights]
  · rintro ⟨pa, pb⟩ ⟨ha, hb, hagree⟩
    obtain ⟨f, hrun⟩ := run_weave3 ha hb hagree fits3_zero
    exact ⟨weave3 la lb pa pb, ⟨f, hrun⟩, Prod.ext (lefts_weave3 la lb pa pb) (rights_weave3 la lb pa pb)⟩

/-! ## Two states -/

/-- The state of a pair, or the state between: the first side has read a letter, the second side is to answer. -/
inductive Between (A B σ : Type*)
  | pair (p : A) (q : B) (f : Fin 3)
  | mediate (p : A) (q : B) (c : σ)
deriving DecidableEq

variable (ra rb la lb M) in
/-- The filter with two states: 1 after a silent label of the second side. -/
inductive Step2 : Between A B σ → Joint LA LB → Between A B σ → Prop
  | left {p p' : A} {q : B} {l : LA} (h : ra p l p') (hl : la l = none) :
      Step2 (.pair p q 0) (.left l) (.pair p' q 0)
  | right {p : A} {q q' : B} {f : Fin 3} {r : LB} (h : rb q r q') (hr : lb r = none) :
      Step2 (.pair p q f) (.right r) (.pair p q' 1)
  | ask {p p' : A} {q q' : B} {f : Fin 3} {l : LA} {r : LB} {c : σ} {d : τ} (h : ra p l p') (hl : la l = some c)
      (h' : rb q r q') (hr : lb r = some d) (hcd : M c d) : Step2 (.pair p q f) (.left l) (.mediate p' q c)
  | answer {p : A} {q q' : B} {c : σ} {r : LB} {d : τ} (h : rb q r q') (hr : lb r = some d) (hcd : M c d) :
      Step2 (.mediate p q c) (.right r) (.pair p q' 0)

namespace Between

def left : Between A B σ → A
  | .pair p _ _ => p
  | .mediate p _ _ => p

def right : Between A B σ → B
  | .pair _ q _ => q
  | .mediate _ q _ => q

/-- The letter that waits for its answer. -/
def pending : Between A B σ → List σ
  | .pair _ _ _ => []
  | .mediate _ _ c => [c]

variable (la lb) in
/-- What a state promises of what is to come. -/
def Fits : Between A B σ → List LA → List LB → Prop
  | .pair _ _ f, pa, _ => f = 1 → Loud la pa
  | .mediate _ _ _, _, pb => Loud lb pb

end Between

/-- The letters agree, one of the first side being already taken. -/
theorem step2_sound {k k' : Between A B σ} (h : Run (Step2 ra rb la lb M) k os k') (hk' : k'.pending = []) :
    Run ra k.left (lefts os) k'.left ∧ Run rb k.right (rights os) k'.right ∧
      List.Forall₂ M (k.pending ++ (lefts os).filterMap la) ((rights os).filterMap lb) ∧
      k.Fits la lb (lefts os) (rights os) := by
  induction h with
  | nil k =>
    refine ⟨.nil _, .nil _, ?_, ?_⟩
    · rw [hk']
      exact .nil
    · cases k with
      | pair p q f => exact fun _ => .nil la
      | mediate p q c => cases hk'
  | cons hstep _ ih =>
    obtain ⟨iha, ihb, ihagree, ihfits⟩ := ih hk'
    cases hstep with
    | left h hl =>
      exact ⟨.cons h iha, ihb, (agree_left hl).2 ihagree, fun hf => absurd hf (by decide)⟩
    | right h hr => exact ⟨iha, .cons h ihb, (agree_right hr).2 ihagree, fun _ => ihfits rfl⟩
    | ask h hl h' hr hcd =>
      refine ⟨.cons h iha, ihb, ?_, ?_⟩
      · rw [lefts_left, List.filterMap_cons_some hl]
        exact ihagree
      · intro _
        exact loud_cons.2 (by rw [hl]; exact some_ne_none _)
    | answer h hr hcd =>
      refine ⟨iha, .cons h ihb, ?_, ?_⟩
      · rw [rights_right, List.filterMap_cons_some hr]
        exact .cons hcd ihagree
      · exact loud_cons.2 (by rw [hr]; exact some_ne_none _)

section Weave2

variable (la lb)

/-- The one order of two runs that passes: the silent labels of the first side, those of the second, a letter
and its answer. -/
def weave2 : List LA → List LB → List (Joint LA LB)
  | [], pb => pb.map .right
  | l :: pa, pb =>
    match la l, pb with
    | none, pb => .left l :: weave2 pa pb
    | some _, [] => .left l :: weave2 pa []
    | some _, r :: pb =>
      match lb r with
      | none => .right r :: weave2 (l :: pa) pb
      | some _ => .left l :: .right r :: weave2 pa pb
termination_by pa pb => pa.length + pb.length

theorem lefts_weave2 (pa : List LA) (pb : List LB) : lefts (weave2 la lb pa pb) = pa := by
  fun_induction weave2 la lb pa pb with
  | case1 pb => induction pb <;> simp_all
  | _ => simp_all

theorem rights_weave2 (pa : List LA) (pb : List LB) : rights (weave2 la lb pa pb) = pb := by
  fun_induction weave2 la lb pa pb with
  | case1 pb => induction pb <;> simp_all
  | _ => simp_all

end Weave2

theorem weave2_left (hl : la l = none) : weave2 la lb (l :: pa) pb = .left l :: weave2 la lb pa pb := by
  rw [weave2.eq_def]
  simp only [hl]

theorem weave2_right (hr : lb r = none) (hloud : Loud la pa) :
    weave2 la lb pa (r :: pb) = .right r :: weave2 la lb pa pb := by
  cases pa with
  | nil => simp [weave2]
  | cons l pa =>
    obtain ⟨c, hc⟩ := ne_none_iff_exists'.1 (loud_cons.1 hloud)
    rw [weave2.eq_def]
    simp only [hc, hr]

theorem weave2_letter {c : σ} (hl : la l = some c) (hloud : Loud lb (r :: pb)) :
    weave2 la lb (l :: pa) (r :: pb) = .left l :: .right r :: weave2 la lb pa pb := by
  obtain ⟨d, hd⟩ := ne_none_iff_exists'.1 (loud_cons.1 hloud)
  rw [weave2.eq_def]
  simp only [hl, hd]

/-- What is silent to the end is taken by the second side alone. -/
theorem run_rights (hb : Run rb q pb q') (hagree : Agree la lb M [] pb) :
    ∃ f', Run (Step2 ra rb la lb M) (.pair p q f) (pb.map .right) (.pair p q' f') := by
  induction hb generalizing f with
  | nil q => exact ⟨f, .nil _⟩
  | cons hstep _ ih =>
    have hr := hagree.right_silent
    obtain ⟨f', hrun⟩ := ih (f := 1) ((agree_right hr).1 hagree)
    exact ⟨f', .cons (.right hstep hr) hrun⟩

/-- Two runs that agree, in the order of `weave2`. -/
theorem run_weave2 (ha : Run ra p pa p') (hb : Run rb q pb q')
    (hagree : Agree la lb M pa pb) (hfits : f = 1 → Loud la pa) (hf : f ≠ 2) :
    ∃ f', Run (Step2 ra rb la lb M) (.pair p q f) (weave2 la lb pa pb) (.pair p' q' f') := by
  fun_induction weave2 la lb pa pb generalizing p q f with
  | case1 pb =>
    cases ha
    exact run_rights hb hagree
  | case2 l pa pb hl ih =>
    have hzero : f = 0 := by
      have hone : f ≠ 1 := fun h1 => loud_cons.1 (hfits h1) hl
      omega
    subst hzero
    cases ha with
    | cons hstep hrest =>
      obtain ⟨f', hrun⟩ := ih (f := 0) hrest hb ((agree_left hl).1 hagree) (fun h => absurd h (by decide)) (by decide)
      exact ⟨f', .cons (.left hstep hl) hrun⟩
  | case3 l pa c hl ih =>
    rw [hagree.left_silent] at hl
    cases hl
  | case4 l pa c r pb hl hr ih =>
    cases hb with
    | cons hstep hrest =>
      have hloud : Loud la (l :: pa) := loud_cons.2 (by rw [hl]; exact some_ne_none c)
      obtain ⟨f', hrun⟩ := ih (f := 1) ha hrest ((agree_right hr).1 hagree) (fun _ => hloud) (by decide)
      exact ⟨f', .cons (.right hstep hr) hrun⟩
  | case5 l pa c r pb hl d hr ih =>
    obtain ⟨hcd, hrestAgree⟩ := (agree_letter hl hr).1 hagree
    cases ha with
    | cons hstepa hresta =>
    cases hb with
    | cons hstepb hrestb =>
      obtain ⟨f', hrun⟩ := ih (f := 0) hresta hrestb hrestAgree (fun h => absurd h (by decide)) (by decide)
      exact ⟨f', .cons (.ask hstepa hl hstepb hr hcd) (.cons (.answer hstepb hr hcd) hrun)⟩

variable (la lb) in
/-- The order of `weave2` from a state on. -/
def Between.weave : Between A B σ → List LA → List LB → List (Joint LA LB)
  | .pair _ _ _, pa, pb => weave2 la lb pa pb
  | .mediate _ _ _, _, [] => []
  | .mediate _ _ _, pa, r :: pb => .right r :: weave2 la lb pa pb

/-- A run is in the order of `weave2`. -/
theorem weave2_of_run {k k' : Between A B σ} (h : Run (Step2 ra rb la lb M) k os k')
    (hk' : k'.pending = []) : k.weave la lb (lefts os) (rights os) = os := by
  induction h with
  | nil k =>
    cases k with
    | pair p q f => simp [Between.weave, weave2]
    | mediate p q c => cases hk'
  | @cons _ _ _ _ os hstep hrest ih =>
    obtain ⟨-, -, hagree, hfits⟩ := step2_sound hrest hk'
    have ih := ih hk'
    cases hstep with
    | left h hl => exact (weave2_left hl).trans (congrArg _ ih)
    | right h hr => exact (weave2_right hr (hfits rfl)).trans (congrArg _ ih)
    | ask h hl h' hr hcd =>
      -- the letter is answered in the rest, so the rest has a label of the second side
      obtain ⟨r, pb, hpb⟩ : ∃ r pb, rights os = r :: pb := by
        refine List.exists_cons_of_ne_nil ?_
        intro hnil
        rw [hnil] at hagree
        cases hagree
      rw [hpb] at ih hfits
      rw [rights_left, hpb]
      exact (weave2_letter hl hfits).trans (congrArg _ ih)
    | answer h hr hcd => exact congrArg _ ih

/-- The filter with two states leaves one interleaving of each two runs that agree. -/
theorem step2_bijOn : Set.BijOn (fun os => (lefts os, rights os))
      {os | ∃ f, Run (Step2 ra rb la lb M) (.pair p q 0) os (.pair p' q' f)}
      {r | Run ra p r.1 p' ∧ Run rb q r.2 q' ∧ Agree la lb M r.1 r.2} := by
  refine ⟨?_, ?_, ?_⟩
  · rintro os ⟨f, hrun⟩
    obtain ⟨ha, hb, hagree, -⟩ := step2_sound hrun rfl
    exact ⟨ha, hb, hagree⟩
  · rintro os ⟨f, hrun⟩ os' ⟨f', hrun'⟩ heq
    obtain ⟨hlefts, hrights⟩ := Prod.mk.inj heq
    rw [← weave2_of_run hrun rfl, ← weave2_of_run hrun' rfl, hlefts, hrights]
  · rintro ⟨pa, pb⟩ ⟨ha, hb, hagree⟩
    obtain ⟨f, hrun⟩ := run_weave2 ha hb hagree (fun h => absurd h (by decide)) (by decide : (0 : Fin 3) ≠ 2)
    exact ⟨weave2 la lb pa pb, ⟨f, hrun⟩, Prod.ext (lefts_weave2 la lb pa pb) (rights_weave2 la lb pa pb)⟩

end Filters

end Sbmt.Lib
