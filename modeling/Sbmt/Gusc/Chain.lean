import Sbmt.Gusc.Generator
/-!
# Chains of generators (`gusc/gusc/generator/chain.hpp`)

| here | there |
| --- | --- |
| `GeneratorChain` | `generator_chain` (`chain.hpp:22-57`): the generator of generators, and the one that is being read |
| `GeneratorChain.skipEmpties`, `make` | `skip_empties` (`:40-44`) and the constructor (`:49-56`) |

`gg()` copies the current generator and moves `gg` on, which may touch the store, and so may reading the
copy.  The loop of `skip_empties` takes a turn for each generator that is left, at most; it gets that many.
-/

namespace Sbmt.Gusc

open Sbmt.Lib

section

theorem run_bind_eq {β γ : Type} {x : StateM σ β} {f : β → StateM σ γ} {s s' : σ} {b : β} (h : x.run s = (b, s')) :
    (x >>= f).run s = (f b).run s' := by
  rw [StateT.run_bind, h]
  rfl

variable {σ GG G α : Type} [Peekable GG G] [Generator σ GG G] [Peekable G α] [Generator σ G α]

/-- From the store `s` on the generator yields the values of `l` and is then exhausted; it leaves the store `t`. -/
inductive Yields : σ → G → List α → σ → Prop
  | done {s : σ} {g : G} : peek? g = none → Yields s g [] s
  | next {s s' t : σ} {g g' : G} {a : α} {l : List α} : peek? g = some a → (Generator.pop g).run s = (g', s') →
      Yields s' g' l t → Yields s g (a :: l) t

/-- The generators that `gg` yields, read to the end one after the other. -/
inductive YieldsAll : σ → GG → List (List α) → σ → Prop
  | done {s : σ} {gg : GG} : peek? gg = none → YieldsAll s gg [] s
  | next {s s' s'' t : σ} {gg gg' : GG} {g : G} {l : List α} {ls : List (List α)} : peek? gg = some g →
      (Generator.pop gg).run s = (gg', s') → Yields s' g l s'' → YieldsAll s'' gg' ls t → YieldsAll s gg (l :: ls) t

structure GeneratorChain (fuel : Nat) (GG G : Type) where
  gg : GG
  g : Option G

namespace GeneratorChain

variable {fuel : Nat}

def more (c : GeneratorChain fuel GG G) : Bool := c.g.isSome

instance : Peekable (GeneratorChain fuel GG G) α := ⟨fun c => c.g.bind peek?⟩

def skipEmpties : Nat → GG → G → StateM σ (GeneratorChain fuel GG G)
  | 0, gg, g => pure ⟨gg, if Gusc.more g then some g else none⟩
  | n + 1, gg, g =>
    if Gusc.more g then pure ⟨gg, some g⟩
    else match peek? gg with
      | none => pure ⟨gg, none⟩
      | some next => do
        let gg ← Generator.pop gg
        skipEmpties n gg next

/-- The constructor. -/
def make (gg : GG) : StateM σ (GeneratorChain fuel GG G) :=
  match peek? gg with
  | none => pure ⟨gg, none⟩
  | some g => do
    let gg ← Generator.pop gg
    skipEmpties fuel gg g

def pop (c : GeneratorChain fuel GG G) : StateM σ (GeneratorChain fuel GG G) :=
  match c.g with
  | none => pure c
  | some g => do
    let g ← Generator.pop g
    skipEmpties fuel c.gg g

instance : Generator σ (GeneratorChain fuel GG G) α := ⟨pop⟩

/-- `while (c) { use(*c); ++c; }` comes by the values of `l` and stops: the truth value is the right one
before each turn and after the last, and there is a value whenever it is true. -/
inductive Reads : σ → GeneratorChain fuel GG G → List α → σ → Prop
  | done {s : σ} {c : GeneratorChain fuel GG G} : c.more = false → Reads s c [] s
  | next {s s' t : σ} {c c' : GeneratorChain fuel GG G} {a : α} {l : List α} : c.more = true → peek? c = some a →
      c.pop.run s = (c', s') → Reads s' c' l t → Reads s c (a :: l) t

/-- What `skip_empties` leaves reads as `l`, when it is begun with a generator `g`. -/
def Resumes (fuel n : Nat) (s : σ) (gg : GG) (g : G) (l : List α) (t : σ) : Prop :=
  ∃ (c : GeneratorChain fuel GG G) (s' : σ), (skipEmpties n gg g).run s = (c, s') ∧ Reads s' c l t

omit [Generator σ G α] in
theorem skipEmpties_of_more {n : Nat} {s : σ} {gg : GG} {g : G} (h : Gusc.more g = true) :
    (skipEmpties n gg g : StateM σ (GeneratorChain fuel GG G)).run s = (⟨gg, some g⟩, s) := by
  cases n <;> simp [skipEmpties, h, StateT.run, pure, StateT.pure]

/-- If the chain goes on with `rest` once the current generator is exhausted, it yields what that one has left first. -/
theorem resumes_append {s1 t : σ} {gg : GG} {m : Nat} {rest : List α} (hm : m ≤ fuel)
    (hrest : ∀ (n : Nat) (g : G), m ≤ n → peek? g = none → Resumes fuel n s1 gg g rest t) {s : σ} {g : G} {l : List α}
    (h : Yields s g l s1) {n : Nat} (hn : m ≤ n) : Resumes fuel n s gg g (l ++ rest) t := by
  induction h generalizing n with
  | done hpeek => exact hrest n _ hn hpeek
  | @next s s' s1 g g' a l hpeek hpop _ ih =>
    have hmore : Gusc.more g = true := by simp [Gusc.more, hpeek]
    obtain ⟨c, s2, hskip, hreads⟩ := ih hrest hm
    refine ⟨⟨gg, some g⟩, s, skipEmpties_of_more hmore, .next rfl hpeek ?_ hreads⟩
    exact (run_bind_eq hpop).trans hskip

/-- The step over an exhausted generator: to the next one, or to the end. -/
theorem resumes_of_yieldsAll {s t : σ} {gg : GG} {ls : List (List α)} (h : YieldsAll s gg ls t) (hfuel : ls.length ≤ fuel) :
    ∀ (n : Nat) (g : G), ls.length ≤ n → peek? g = none → Resumes fuel n s gg g ls.flatten t := by
  induction h with
  | @done s gg hgg =>
    intro n g _ hpeek
    have hskip : (skipEmpties n gg g : StateM σ (GeneratorChain fuel GG G)).run s = (⟨gg, none⟩, s) := by
      cases n <;> simp [skipEmpties, Gusc.more, hpeek, hgg, StateT.run, pure, StateT.pure]
    exact ⟨⟨gg, none⟩, s, hskip, .done rfl⟩
  | @next s s' s'' t gg gg' g' l ls hgg hpop hl _ ih =>
    intro n g hn hpeek
    obtain ⟨n, rfl⟩ : ∃ m, n = m + 1 := ⟨n - 1, by simp only [List.length_cons] at hn; omega⟩
    rw [List.length_cons] at hn hfuel
    obtain ⟨c, s2, hskip, hreads⟩ :=
      resumes_append (by omega) (ih (by omega)) hl (show ls.length ≤ n by omega)
    refine ⟨c, s2, ?_, hreads⟩
    have hstep : (skipEmpties (n + 1) gg g : StateM σ (GeneratorChain fuel GG G)) =
        Generator.pop gg >>= fun gg => skipEmpties n gg g' := by
      simp [skipEmpties, Gusc.more, hpeek, hgg]
    rw [hstep, run_bind_eq hpop, hskip]

/-- **A chain yields what its generators yield, one after the other, and is then exhausted**, whichever of them are empty. -/
theorem make_reads {s t : σ} {gg : GG} {ls : List (List α)} (h : YieldsAll s gg ls t) (hfuel : ls.length ≤ fuel) :
    ∃ (c : GeneratorChain fuel GG G) (s' : σ), (make gg).run s = (c, s') ∧ Reads s' c ls.flatten t := by
  cases h with
  | done hgg => exact ⟨⟨gg, none⟩, s, by simp [make, hgg, StateT.run, pure, StateT.pure], .done rfl⟩
  | @next s s' s'' t gg gg' g l ls hgg hpop hl hls =>
    rw [List.length_cons] at hfuel
    have hless : ls.length ≤ fuel := by omega
    obtain ⟨c, s2, hskip, hreads⟩ := resumes_append hless (resumes_of_yieldsAll hls hless) hl hless
    refine ⟨c, s2, ?_, hreads⟩
    have hstep : (make gg : StateM σ (GeneratorChain fuel GG G)) = Generator.pop gg >>= fun gg => skipEmpties fuel gg g := by
      simp [make, hgg]
    rw [hstep, run_bind_eq hpop, hskip]

end GeneratorChain

/-! ## Generators that share nothing -/

theorem yields_list (s : σ) : ∀ l : List α, Yields s l l s
  | [] => .done rfl
  | _ :: l => .next rfl rfl (yields_list s l)

theorem yieldsAll_list (s : σ) : ∀ ls : List (List α), YieldsAll s ls ls s
  | [] => .done rfl
  | l :: ls => .next rfl rfl (yields_list s l) (yieldsAll_list s ls)

theorem make_reads_empties : ∃ (c : GeneratorChain 6 (List (List Nat)) (List Nat)) (s' : Unit),
    (GeneratorChain.make [[], [], [1, 2], [], [], [3]]).run () = (c, s') ∧ GeneratorChain.Reads s' c [1, 2, 3] () :=
  GeneratorChain.make_reads (yieldsAll_list () [[], [], [1, 2], [], [], [3]]) (by decide)

end

end Sbmt.Gusc
