import Sbmt.Gusc.Generator
/-!
# No generator loses what it took

An `Account` gives every state of a generator a stake, such that yielding a value `a` takes the part
`key a` out of the stake and leaves the rest with the generator that remains.  It also carries a size,
which bounds how often the generator can move on, counting for every value it yields a weight `wt`:
where the values are generators themselves, these are their own stake and size.

The accounts compose as the generators do (`listAccount`, `iteratorAccount`, `finiteUnionAccount`,
`unionHeapAccount`).  `drain_keeps` is what they are for: the values of a whole run carry the whole
stake, whatever the queues preferred.
-/

namespace Sbmt.Gusc

open Sbmt.Lib List

variable {P E G Gen α β : Type} {worth : P → Multiset E}

/-- A stake for every state of a generator over a shared set of claims. -/
structure Account (worth : P → Multiset E) (G : Type) {α : Type} [Peekable G α] [Generator (Finset P) G α]
    (key : α → Stake P E) (wt : α → Nat) (Good : α → Prop) where
  stake : G → Stake P E
  size : G → Nat
  Inv : G → Prop
  good : ∀ {g a}, Inv g → peek? g = some a → Good a
  pop : ∀ {g a}, Inv g → peek? g = some a → Keeps worth (Generator.pop g) (stake g) (fun g' => key a + stake g')
    fun g' => Inv g' ∧ wt a + size g' < size g
  done : ∀ {g}, Inv g → peek? g = none → stake g = 0

theorem more_eq_true [Peekable G α] {g : G} : more g = true ↔ ∃ a, peek? g = some a := Option.isSome_iff_exists

theorem peek?_eq_none [Peekable G α] {g : G} (h : more g = false) : peek? g = none :=
  Option.not_isSome_iff_eq_none.mp (Bool.eq_false_iff.mp h)

/-! ## Running a generator to its end -/

/-- **A drained generator has yielded its whole stake.** -/
theorem Account.drain_keeps [Peekable G α] [Generator (Finset P) G α] {key : α → Stake P E} {wt : α → Nat}
    {Good : α → Prop} (A : Account worth G key wt Good) : ∀ {fuel : Nat} {g : G}, A.Inv g → A.size g ≤ fuel →
    Keeps worth (drain fuel g) (A.stake g) (fun l => (l.map key).sum) fun l => ∀ a ∈ l, Good a
  | 0, g, hg, hfuel => by
    cases hp : peek? g with
    | none => exact .pure (A.done hg hp) (by simp)
    | some a =>
      obtain ⟨-, -, hlt⟩ := A.pop hg hp ∅
      omega
  | fuel + 1, g, hg, hfuel => by
    unfold drain
    cases hp : peek? g with
    | none => exact .pure (A.done hg hp) (by simp)
    | some a =>
      refine (A.pop hg hp).bind fun g' ⟨hg', hlt⟩ => ?_
      have ih := (A.drain_keeps hg' (by omega : A.size g' ≤ fuel)).frame (key a)
      rw [add_comm] at ih
      refine ih.bind fun l hl => .pure ?_ ?_
      · rw [map_cons, sum_cons, add_comm]
      · simpa using ⟨A.good hg hp, hl⟩

/-! ## Generators that share nothing -/

def listAccount (worth : P → Multiset E) (key : α → Stake P E) (wt : α → Nat) (Good : α → Prop) :
    Account worth (List α) key wt Good where
  stake l := (l.map key).sum
  size l := (l.map fun a => wt a + 1).sum
  Inv l := ∀ a ∈ l, Good a
  good {l a} hl hp := hl a (mem_of_mem_head? hp)
  pop {l a} hl hp := by
    cases l with
    | nil => cases hp
    | cons b l =>
      cases hp
      refine .pure (by rw [map_cons, sum_cons, tail_cons]) ⟨?_, by simp⟩
      intro c hc
      exact hl c (mem_cons_of_mem a hc)
  done {l} _ hp := by
    cases l with
    | nil => rfl
    | cons b l => cases hp

/-! ## `iterator_from_generator` -/

section Iterator

variable [Peekable G α] [Generator (Finset P) G α] {key : β → Stake P E} {wt : β → Nat} {Good : β → Prop} {f : α → β}

variable (A : Account worth G (fun a => key (f a)) (fun a => wt (f a)) fun a => Good (f a))

variable (i : IteratorFromGenerator G α β)

/-- The memoized value is still to be yielded. -/
def iteratorStake : Stake P E :=
  match i.s with
  | none => 0
  | some (t, result) => key result + A.stake t.generator

def iteratorSize : Nat :=
  match i.s with
  | none => 0
  | some (t, result) => wt result + A.size t.generator + 1

def IteratorInv : Prop :=
  ∀ t result, i.s = some (t, result) → A.Inv t.generator ∧ t.transform = f ∧ Good result

theorem IteratorFromGenerator.make_keeps
    {g : G} (hg : A.Inv g) : Keeps worth (IteratorFromGenerator.make ⟨g, f⟩) (A.stake g) (iteratorStake A)
      fun i => IteratorInv A i ∧ iteratorSize A i ≤ A.size g := by
  cases hp : peek? g with
  | none =>
    simp only [IteratorFromGenerator.make, hp]
    refine .pure (A.done hg hp) ⟨?_, Nat.zero_le _⟩
    rintro t r ⟨⟩
  | some a =>
    simp only [IteratorFromGenerator.make, hp, TransformGenerator.call, bind_assoc, pure_bind]
    refine (A.pop hg hp).bind fun g' ⟨hg', hlt⟩ => .pure rfl ⟨?_, ?_⟩
    · rintro t r ⟨⟩
      exact ⟨hg', rfl, A.good hg hp⟩
    · show wt (f a) + A.size g' + 1 ≤ A.size g
      omega

def iteratorAccount :
    Account worth (IteratorFromGenerator G α β) key wt Good where
  stake := iteratorStake A
  size := iteratorSize A
  Inv := IteratorInv A
  good {i b} hi hp := by
    obtain ⟨⟨t, r⟩, hs, rfl⟩ := Option.map_eq_some_iff.mp hp
    exact (hi t r hs).2.2
  pop {i b} hi hp := by
    obtain ⟨⟨⟨g, f'⟩, r⟩, hs, rfl⟩ := Option.map_eq_some_iff.mp hp
    obtain ⟨hg, rfl, -⟩ := hi _ r hs
    obtain ⟨_⟩ := i
    cases hs
    have := (IteratorFromGenerator.make_keeps A hg).frame (key r)
    refine (this.congr (add_comm _ _) fun i _ => add_comm _ _).mono fun i' ⟨hi', hle⟩ => ⟨hi', ?_⟩
    exact Nat.lt_succ_of_le (Nat.add_le_add_left hle _)
  done {i} _ hp := by
    obtain ⟨s⟩ := i
    cases s with
    | none => rfl
    | some _ => cases hp

end Iterator

/-! ## `finite_union_generator` -/

section Union

variable [Peekable G α] [Generator (Finset P) G α] {key : α → Stake P E} {wt : α → Nat} {Good : α → Prop}
  {H : HeapAlg} {lt : α → α → Bool}

/-- A generator in a queue: accounted for, and not empty. -/
def Account.Queued (A : Account worth G key wt Good) (g : G) : Prop := A.Inv g ∧ more g = true

section

variable (A : Account worth G key wt Good)

/-- Back into the queue if there is more: the stake and the size of an empty generator are nothing. -/
theorem Account.requeue_stake (q : List G) {g : G} (hg : A.Inv g) :
    ((if more g then H.push (compareCurrent lt) g q else q).map A.stake).sum = A.stake g + (q.map A.stake).sum := by
  split
  · exact H.push_sum A.stake
  · rename_i hm
    rw [A.done hg (peek?_eq_none (Bool.eq_false_iff.mpr hm)), zero_add]

variable (H lt) in
theorem Account.requeue_size (q : List G) (g : G) :
    ((if more g then H.push (compareCurrent lt) g q else q).map A.size).sum ≤ A.size g + (q.map A.size).sum := by
  split
  · exact (H.push_sum A.size).le
  · exact Nat.le_add_left _ _

variable (H lt) in
theorem Account.requeue_queued {q : List G} {g : G} (hg : A.Inv g)
    (hq : ∀ x ∈ q, A.Queued x) : ∀ x ∈ if more g then H.push (compareCurrent lt) g q else q, A.Queued x := by
  split
  · rename_i hm
    intro x hx
    rcases H.mem_push.mp hx with rfl | hx
    · exact ⟨hg, hm⟩
    · exact hq x hx
  · exact hq

end

theorem peek?_queue {A : Account worth G key wt Good} {q : List G} (hq : ∀ x ∈ q, A.Queued x)
    (hp : q.head?.bind peek? = none) : q = [] := by
  cases q with
  | nil => rfl
  | cons g q =>
    obtain ⟨a, ha⟩ := more_eq_true.mp (hq g mem_cons_self).2
    rw [head?_cons, Option.bind_some, ha] at hp
    cases hp

theorem FiniteUnion.pop_cons (g : G) (q : List G) : FiniteUnion.pop (σ := Finset P) (⟨g :: q⟩ : FiniteUnion H lt G) =
    Generator.pop g >>= fun g' => pure ⟨if more g' then
      H.push (compareCurrent lt) g' (H.pop (compareCurrent lt) (g :: q)) else H.pop (compareCurrent lt) (g :: q)⟩ := rfl

def finiteUnionAccount (A : Account worth G key wt Good) : Account worth (FiniteUnion H lt G) key wt Good where
  stake f := (f.heap.map A.stake).sum
  size f := (f.heap.map A.size).sum
  Inv f := ∀ g ∈ f.heap, A.Queued g
  good {f a} hf hp := by
    obtain ⟨g, hg, hp⟩ := Option.bind_eq_some_iff.mp hp
    exact A.good (hf g (mem_of_mem_head? hg)).1 hp
  pop {f a} hf hp := by
    obtain ⟨heap⟩ := f
    cases heap with
    | nil => cases hp
    | cons g q =>
      have hg := (hf g mem_cons_self).1
      have hpop := (A.pop hg hp).frame (q.map A.stake).sum
      show Keeps worth (FiniteUnion.pop ⟨g :: q⟩) _ _ _
      rw [FiniteUnion.pop_cons]
      refine hpop.bind fun g' ⟨hg', hlt⟩ => .pure ?_ ⟨?_, ?_⟩
      · rw [A.requeue_stake _ hg', H.pop_sum, add_assoc]
      · refine A.requeue_queued H lt hg' fun x hx => ?_
        exact hf x (mem_cons_of_mem g (H.mem_pop.mp hx))
      · have := A.requeue_size H lt (H.pop (compareCurrent lt) (g :: q)) g'
        rw [H.pop_sum] at this
        simp only [map_cons, sum_cons]
        omega
  done {f} hf hp := by rw [peek?_queue hf hp]; rfl

theorem FiniteUnion.make_account (A : Account worth G key wt Good) (H : HeapAlg) (lt : α → α → Bool)
    {rng : List G} (hrng : ∀ g ∈ rng, A.Inv g) :
    (finiteUnionAccount A).Inv (FiniteUnion.make H lt rng) ∧
    (finiteUnionAccount A).stake (FiniteUnion.make H lt rng) = (rng.map A.stake).sum ∧
    (finiteUnionAccount A).size (FiniteUnion.make H lt rng) ≤ (rng.map A.size).sum := by
  -- from any queue that is already there
  suffices h : ∀ (rng q : List G), (∀ g ∈ rng, A.Inv g) → (∀ g ∈ q, A.Queued g) →
      (∀ g ∈ rng.foldl (fun heap g => if more g then H.push (compareCurrent lt) g heap else heap) q, A.Queued g) ∧
      ((rng.foldl (fun heap g => if more g then H.push (compareCurrent lt) g heap else heap) q).map A.stake).sum =
        (rng.map A.stake).sum + (q.map A.stake).sum ∧
      ((rng.foldl (fun heap g => if more g then H.push (compareCurrent lt) g heap else heap) q).map A.size).sum ≤
        (rng.map A.size).sum + (q.map A.size).sum by
    obtain ⟨h1, h2, h3⟩ := h rng [] hrng (by simp)
    exact ⟨h1, h2.trans (add_zero _), h3⟩
  intro rng
  induction rng with
  | nil => exact fun q _ hq => ⟨hq, by simp, by simp⟩
  | cons g rng ih =>
    intro q hrng hq
    have hg := hrng g mem_cons_self
    obtain ⟨h1, h2, h3⟩ := ih _ (fun x hx => hrng x (mem_cons_of_mem g hx))
      (A.requeue_queued H lt hg hq)
    refine ⟨h1, ?_, ?_⟩
    · rw [foldl_cons, h2, A.requeue_stake q hg]
      exact add_left_comm _ _ _ |>.trans (add_assoc _ _ _).symm
    · have := A.requeue_size H lt q g
      simp only [foldl_cons, map_cons, sum_cons] at h3 ⊢
      omega

end Union

/-! ## `union_heap_generator` -/

section UnionHeap

variable [Peekable G α] [Generator (Finset P) G α] [Peekable Gen G] [Generator (Finset P) Gen G]
  {key : α → Stake P E} {wt : α → Nat} {Good : α → Prop} {H : HeapAlg} {fuel : Nat} {lt : α → α → Bool}
  {A : Account worth G key wt Good} (B : Account worth Gen A.stake A.size A.Inv)

/-- The outer generator holds ready a generator that is not empty, or nothing. -/
def Ready (gen : Gen) : Prop := B.Inv gen ∧ ∀ g, peek? gen = some g → more g = true

theorem skipEmpties_keeps : ∀ {n : Nat} {gen : Gen}, B.Inv gen → B.size gen ≤ n →
    Keeps worth (skipEmpties n gen) (B.stake gen) B.stake fun gen' => Ready B gen' ∧ B.size gen' ≤ B.size gen
  | 0, gen, hgen, hn => by
    refine .pure rfl ⟨⟨hgen, fun g hp => ?_⟩, le_rfl⟩
    obtain ⟨-, -, hlt⟩ := B.pop hgen hp ∅
    omega
  | n + 1, gen, hgen, hn => by
    unfold skipEmpties
    cases hp : peek? gen with
    | none => exact .pure rfl ⟨⟨hgen, by simp [hp]⟩, le_rfl⟩
    | some g =>
      by_cases hm : more g = true
      · simp only [hm, if_true]
        exact .pure rfl ⟨⟨hgen, by simp [hp, hm]⟩, le_rfl⟩
      · simp only [hm, Bool.false_eq_true, if_false]
        have hempty := A.done (B.good hgen hp) (peek?_eq_none (Bool.eq_false_iff.mpr hm))
        refine (B.pop hgen hp).bind fun gen' ⟨hgen', hlt⟩ => ?_
        simp only [hempty, zero_add]
        exact (skipEmpties_keeps hgen' (by omega)).mono fun gen'' ⟨h, hle⟩ => ⟨h, by omega⟩

namespace UnionHeap

/-- What the operations on the way keep. -/
structure Live (u : UnionHeap H fuel lt Gen G) : Prop where
  heap : ∀ g ∈ u.heap, A.Queued g
  window : ∀ g ∈ u.window, A.Queued g
  gen : Ready B u.gen
  fuel : B.size u.gen ≤ fuel

/-- Between the operations, generators wait only behind others. -/
structure Inv (u : UnionHeap H fuel lt Gen G) : Prop extends Live B u where
  gen_done : u.window = [] → peek? u.gen = none
  window_done : u.heap = [] → u.window = []

def stake (u : UnionHeap H fuel lt Gen G) : Stake P E :=
  (u.heap.map A.stake).sum + ((u.window.map A.stake).sum + B.stake u.gen)

def size (u : UnionHeap H fuel lt Gen G) : Nat :=
  (u.heap.map A.size).sum + ((u.window.map A.size).sum + B.size u.gen)

variable {u : UnionHeap H fuel lt Gen G}

omit [Generator (Finset P) G α] in
theorem pushToWindow_done (hp : peek? u.gen = none) : pushToWindow (σ := Finset P) u = pure u := by
  have hskip : ∀ n, skipEmpties (σ := Finset P) n u.gen = pure u.gen := by
    intro n
    cases n with
    | zero => rfl
    | succ n => simp only [skipEmpties, hp]
  simp only [pushToWindow, hp, pure_bind, hskip]

theorem pushToWindow_keeps (hu : Live B u) :
    Keeps worth (pushToWindow u) (stake B u) (stake B) fun u' => Live B u' ∧ size B u' ≤ size B u ∧
      u'.heap = u.heap ∧ (u'.window = [] → peek? u'.gen = none) := by
  cases hp : peek? u.gen with
  | none =>
    rw [pushToWindow_done hp]
    exact .pure rfl ⟨hu, le_rfl, rfl, fun _ => hp⟩
  | some g =>
    have hfuel := hu.fuel
    simp only [pushToWindow, hp, pure_bind]
    -- the heap and the window do not take part
    have hpop := (B.pop hu.gen.1 hp).frame ((u.heap.map A.stake).sum + (u.window.map A.stake).sum)
    have hpop' : Keeps worth (Generator.pop u.gen) (stake B u) (fun gen' => B.stake gen' +
        ((u.heap.map A.stake).sum + (A.stake g + (u.window.map A.stake).sum))) _ :=
      hpop.congr (by rw [stake]; abel) fun _ _ => by abel
    refine hpop'.bind fun gen' ⟨hgen', hlt⟩ => ?_
    refine ((skipEmpties_keeps B hgen' (by omega)).frame _).bind fun gen'' ⟨hgen'', hle⟩ => ?_
    refine .pure ?_ ⟨⟨hu.heap, ?_, hgen'', ?_⟩, ?_, rfl, ?_⟩
    · simp only [stake, H.push_sum]; abel
    · intro x hx
      rcases H.mem_push.mp hx with rfl | hx
      · exact ⟨B.good hu.gen.1 hp, hu.gen.2 x hp⟩
      · exact hu.window x hx
    · simp only; omega
    · simp only [size, H.push_sum]; omega
    · intro h; exact absurd h H.push_ne_nil

theorem refill_keeps : ∀ {n : Nat} {u : UnionHeap H fuel lt Gen G}, Live B u →
    (n = 0 → u.window = [] → peek? u.gen = none) →
    Keeps worth (refill n u) (stake B u) (stake B) fun u' => Live B u' ∧ size B u' ≤ size B u ∧
      u'.heap = u.heap ∧ (u'.window = [] → peek? u'.gen = none)
  | 0, _, hu, h0 => .pure rfl ⟨hu, le_rfl, rfl, h0 rfl⟩
  | n + 1, u, hu, _ => by
    refine (pushToWindow_keeps B hu).bind fun u' ⟨hu', hle, hheap, hdone⟩ => ?_
    refine (refill_keeps hu' fun _ => hdone).mono fun u'' ⟨hu'', hle', hheap', hdone'⟩ => ?_
    exact ⟨hu'', hle'.trans hle, hheap'.trans hheap, hdone'⟩

theorem moveWindow_spec : ∀ {n : Nat} {u : UnionHeap H fuel lt Gen G}, Live B u → u.window.length = n →
    Live B (moveWindow n u) ∧ stake B (moveWindow n u) = stake B u ∧ size B (moveWindow n u) = size B u ∧
    (moveWindow n u).window = [] ∧ ((moveWindow n u).heap = [] → u.heap = [] ∧ u.window = [])
  | 0, u, hu, hn => by
    have hw := length_eq_zero_iff.mp hn
    exact ⟨hu, rfl, rfl, hw, fun hh => ⟨hh, hw⟩⟩
  | n + 1, ⟨gen, heap, window⟩, hu, hn => by
    cases window with
    | nil => cases hn
    | cons g w =>
      have hlive : Live B (⟨gen, H.push (compareCurrent lt) g heap, H.pop (compareCurrent lt) (g :: w)⟩ :
          UnionHeap H fuel lt Gen G) := by
        refine ⟨fun x hx => ?_, fun x hx => ?_, hu.gen, hu.fuel⟩
        · rcases H.mem_push.mp hx with rfl | hx
          · exact hu.window x mem_cons_self
          · exact hu.heap x hx
        · exact hu.window x (mem_cons_of_mem g (H.mem_pop.mp hx))
      have hlen : (H.pop (compareCurrent lt) (g :: w)).length = n := by
        rw [(H.pop_perm _ g w).length_eq]
        simpa using hn
      obtain ⟨h1, h2, h3, h4, h5⟩ := moveWindow_spec hlive hlen
      refine ⟨h1, h2.trans ?_, h3.trans ?_, h4, fun h => ?_⟩
      · simp only [stake, H.push_sum, H.pop_sum, map_cons, sum_cons]; abel
      · simp only [size, H.push_sum, H.pop_sum, map_cons, sum_cons]; omega
      · exact absurd (h5 h).1 H.push_ne_nil

theorem pushToHeap_keeps (hu : Live B u) (hdone : u.window = [] → peek? u.gen = none) :
    Keeps worth (pushToHeap u) (stake B u) (stake B) fun u' => Inv B u' ∧ size B u' ≤ size B u := by
  unfold pushToHeap
  by_cases hw : u.window = []
  · rw [hw]
    exact .pure rfl ⟨⟨hu, hdone, fun _ => hw⟩, le_rfl⟩
  · obtain ⟨hlive, hstake, hsize, -, hheap⟩ := moveWindow_spec B hu rfl
    have hpos : u.window.length ≠ 0 := fun h => hw (length_eq_zero_iff.mp h)
    rw [← hstake, ← hsize]
    refine (refill_keeps B hlive fun h => absurd h hpos).mono fun u' ⟨hu', hle, hh, hd⟩ => ?_
    refine ⟨⟨hu', hd, fun hnil => ?_⟩, hle⟩
    exact absurd (hheap (hh ▸ hnil)).2 hw

theorem init_keeps (H : HeapAlg) (lt : α → α → Bool) {gen : Gen} (hgen : B.Inv gen)
    (hfuel : B.size gen ≤ fuel) {lookahead : Nat} (hl : 1 ≤ lookahead) :
    Keeps worth (init H fuel lt gen lookahead) (B.stake gen) (stake B) fun u => Inv B u ∧ size B u ≤ B.size gen := by
  refine (skipEmpties_keeps B hgen hfuel).bind fun gen' ⟨hgen', hle⟩ => ?_
  have hlive : Live B (⟨gen', [], []⟩ : UnionHeap H fuel lt Gen G) := ⟨by simp, by simp, hgen', hle.trans hfuel⟩
  have hrefill := refill_keeps B (n := lookahead) hlive fun h => absurd h (by omega)
  refine (hrefill.congr ?_ fun _ _ => rfl).bind fun u ⟨hu, hle', _, hdone⟩ => ?_
  · simp [stake]
  refine (pushToHeap_keeps B hu hdone).mono fun u' ⟨hu', hle''⟩ => ⟨hu', ?_⟩
  have hsize : size B (⟨gen', [], []⟩ : UnionHeap H fuel lt Gen G) = B.size gen' := by simp [size]
  omega

theorem increment_keeps (hu : Inv B u) {a : α} (hp : peek? u = some a) :
    Keeps worth (increment u) (stake B u) (fun u' => key a + stake B u') fun u' => Inv B u' ∧ wt a + size B u' < size B u := by
  obtain ⟨gen, heap, window⟩ := u
  cases heap with
  | nil => cases hp
  | cons g q =>
    have hg := (hu.heap g mem_cons_self).1
    have hpop := (A.pop hg hp).frame ((q.map A.stake).sum + ((window.map A.stake).sum + B.stake gen))
    simp only [increment]
    refine (hpop.congr ?_ fun _ _ => rfl).bind fun g' ⟨hg', hlt⟩ => ?_
    · simp only [stake, map_cons, sum_cons]; abel
    -- the heap without `g`, and with what is left of `g`
    obtain ⟨u', hu'⟩ : ∃ u' : UnionHeap H fuel lt Gen G, u' = ⟨gen, if more g' then H.push (compareCurrent lt) g'
      (H.pop (compareCurrent lt) (g :: q)) else H.pop (compareCurrent lt) (g :: q), window⟩ := ⟨_, rfl⟩
    rw [← hu']
    have hlive : Live B u' := by
      subst hu'
      refine ⟨A.requeue_queued H lt hg' fun x hx => ?_, hu.window, hu.gen, hu.fuel⟩
      exact hu.heap x (mem_cons_of_mem g (H.mem_pop.mp hx))
    have hstake : stake B u' = A.stake g' + ((q.map A.stake).sum + ((window.map A.stake).sum + B.stake gen)) := by
      subst hu'
      simp only [stake]
      rw [A.requeue_stake _ hg', H.pop_sum, add_assoc]
    have hsize : wt a + size B u' < size B (⟨gen, g :: q, window⟩ : UnionHeap H fuel lt Gen G) := by
      subst hu'
      have := A.requeue_size H lt (H.pop (compareCurrent lt) (g :: q)) g'
      rw [H.pop_sum] at this
      simp only [size, map_cons, sum_cons]
      omega
    have hdone : u'.window = [] → peek? u'.gen = none := by
      subst hu'
      exact hu.gen_done
    rw [add_assoc, ← hstake]
    split
    · have := (pushToHeap_keeps B hlive hdone).frame (key a)
      refine (this.congr (add_comm _ _) fun _ _ => add_comm _ _).mono fun u'' ⟨h, hle⟩ => ⟨h, by omega⟩
    · rename_i hdue
      refine .pure rfl ⟨⟨hlive, hdone, fun hnil => ?_⟩, hsize⟩
      -- an empty heap makes the window due
      cases hw : u'.window with
      | nil => rfl
      | cons w ws =>
        simp [windowDue, hw, hnil] at hdue

end UnionHeap

def unionHeapAccount : Account worth (UnionHeap H fuel lt Gen G) key wt Good where
  stake := UnionHeap.stake B
  size := UnionHeap.size B
  Inv := UnionHeap.Inv B
  good {u a} hu hp := by
    obtain ⟨g, hg, hp⟩ := Option.bind_eq_some_iff.mp hp
    exact A.good (hu.heap g (mem_of_mem_head? hg)).1 hp
  pop hu hp := UnionHeap.increment_keeps B hu hp
  done {u} hu hp := by
    have hheap : u.heap = [] := peek?_queue hu.heap hp
    have hwindow := hu.window_done hheap
    simp [UnionHeap.stake, hheap, hwindow, B.done hu.gen.1 (hu.gen_done hwindow)]

end UnionHeap

/-! ## Unions of generators that share nothing -/

variable (worth : P → Multiset E)

/-- The account of plain values. -/
def valueAccount : Account worth (List E) (fun e => .goods {e}) (fun _ => 0) fun _ => True :=
  listAccount worth _ _ _

theorem goods_sum (l : List E) : (l.map fun e => (Stake.goods {e} : Stake P E)).sum = .goods l := by
  induction l with
  | nil => rfl
  | cons e l ih => rw [map_cons, sum_cons, ih, ← Stake.goods_add, Multiset.singleton_add, Multiset.cons_coe]

@[simp] theorem valueAccount_stake (l : List E) : (valueAccount worth).stake l = .goods l :=
  goods_sum l

@[simp] theorem valueAccount_size (l : List E) : (valueAccount worth).size l = l.length := by
  show (l.map fun _ => 0 + 1).sum = l.length
  simp

theorem perm_of_alone {worth : Empty → Multiset E} {m : StateM (Finset Empty) (List E)} {l : List E} {Q : List E → Prop}
    (h : Keeps worth m (.goods l) (fun out => (out.map fun e => Stake.goods {e}).sum) Q) : (alone m).Perm l := by
  show ((m ∅).1).Perm l
  obtain ⟨hturn, -⟩ := h ∅
  have hbalance := hturn.balance
  simp only at hbalance
  rw [goods_sum, Finset.eq_empty_of_isEmpty (m ∅).2] at hbalance
  simpa [Stake.goods] using hbalance

theorem stake_flatten (gens : List (List E)) :
    (gens.map (valueAccount worth).stake).sum = .goods gens.flatten := by
  induction gens with
  | nil => rfl
  | cons l gens ih =>
    rw [map_cons, sum_cons, ih, valueAccount_stake, ← Stake.goods_add, flatten_cons, Multiset.coe_add]

/-- **`union_heap_generator` yields what its generators yield**, in some order. -/
theorem unionHeap_perm (H : HeapAlg) (lt : E → E → Bool) (gens : List (List E)) {lookahead : Nat} (hl : 1 ≤ lookahead) :
    (unionHeap H lt gens lookahead).Perm gens.flatten := by
  let worth : Empty → Multiset E := Empty.elim
  let B : Account worth (List (List E)) (valueAccount worth).stake (valueAccount worth).size (valueAccount worth).Inv :=
    listAccount worth _ _ _
  have hstake : B.stake gens = .goods gens.flatten := stake_flatten worth gens
  have hsize : B.size gens = lengthBound gens :=
    congrArg List.sum (map_congr_left fun l _ => by rw [valueAccount_size])
  have hinit := UnionHeap.init_keeps B H lt (fun l (_ : l ∈ gens) _ _ => trivial) hsize.le hl
  rw [hstake] at hinit
  exact perm_of_alone (hinit.bind fun u hu => (unionHeapAccount B).drain_keeps hu.1 (hu.2.trans hsize.le))

/-- **`finite_union_generator` yields what its generators yield**, in some order. -/
theorem finiteUnion_perm (H : HeapAlg) (lt : E → E → Bool) (gens : List (List E)) :
    (finiteUnion H lt gens).Perm gens.flatten := by
  let worth : Empty → Multiset E := Empty.elim
  obtain ⟨hinv, hstake, hsize⟩ := FiniteUnion.make_account (valueAccount worth) H lt
    (fun l (_ : l ∈ gens) _ _ => trivial)
  have hfuel : (gens.map (valueAccount worth).size).sum ≤ lengthBound gens :=
    sum_le_sum fun l _ => by rw [valueAccount_size]; omega
  have hdrain := (finiteUnionAccount (valueAccount worth)).drain_keeps hinv (hsize.trans hfuel)
  rw [hstake, stake_flatten] at hdrain
  exact perm_of_alone hdrain

end Sbmt.Gusc
