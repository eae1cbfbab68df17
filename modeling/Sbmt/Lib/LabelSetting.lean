import Mathlib

/-!
# Distances by settling vertices in order

Every vertex of a network has a label, at first 0 at the source and ⊤ elsewhere.  A vertex whose label is least among
those that are not settled is settled, and then each arc that leaves it lowers the label of its head where it can; the
head remembers the arc.  `Labels` is what holds in between, and has a lemma for each of these steps.  When only
vertices labelled ⊤ are left, the labels are the distances from the source, and the remembered arcs are a tree.
-/

namespace Sbmt.Lib

open List Function

/-- Arcs between vertices, at a cost. -/
structure Network (V A K : Type*) where
  arcs : Set A
  tail : A → V
  head : A → V
  weight : A → WithTop K

namespace Network

variable {V A K : Type*} (N : Network V A K)

/-- The arcs lead from `u` to `v`. -/
def IsPath : V → List A → V → Prop
  | u, [], v => u = v
  | u, a :: p, v => a ∈ N.arcs ∧ N.tail a = u ∧ IsPath (N.head a) p v

variable {N}

theorem isPath_concat {a : A} {p : List A} {u v : V} :
    N.IsPath u (p ++ [a]) v ↔ N.IsPath u p (N.tail a) ∧ a ∈ N.arcs ∧ N.head a = v := by
  induction p generalizing u with
  | nil =>
    constructor
    · rintro ⟨ha, rfl, rfl⟩
      exact ⟨rfl, ha, rfl⟩
    · rintro ⟨rfl, ha, rfl⟩
      exact ⟨ha, rfl, rfl⟩
  | cons b p ih =>
    rw [cons_append, IsPath, IsPath, ih, and_assoc, and_assoc]

variable [AddCommMonoid K]

variable (N) in
def cost (p : List A) : WithTop K := (p.map N.weight).sum

theorem cost_cons (a : A) (p : List A) : N.cost (a :: p) = N.weight a + N.cost p := by
  rfl

theorem cost_concat (a : A) (p : List A) : N.cost (p ++ [a]) = N.cost p + N.weight a := by
  rw [cost, map_append, sum_append, map_singleton, sum_singleton]
  rfl

theorem cost_ne_top (hw : ∀ a ∈ N.arcs, N.weight a ≠ ⊤) {p : List A} {u v : V} (h : N.IsPath u p v) : N.cost p ≠ ⊤ := by
  induction p generalizing u with
  | nil => exact WithTop.zero_ne_top
  | cons a p ih =>
    exact WithTop.add_ne_top.2 ⟨hw a h.1, ih h.2.2⟩

variable [LinearOrder K]

/-- No arc can lower the label of its head. -/
def Feasible (d : V → WithTop K) : Prop := ∀ a ∈ N.arcs, d (N.head a) ≤ d (N.tail a) + N.weight a

theorem Feasible.le_path [IsOrderedAddMonoid K] {d : V → WithTop K} (h : N.Feasible d) {p : List A} {u v : V}
    (hp : N.IsPath u p v) : d v ≤ d u + N.cost p := by
  induction p generalizing u with
  | nil =>
    obtain rfl := hp
    exact (add_zero (d u)).ge
  | cons a p ih =>
    obtain ⟨ha, rfl, hp⟩ := hp
    calc d v ≤ d (N.head a) + N.cost p := ih hp
      _ ≤ d (N.tail a) + N.weight a + N.cost p := add_le_add_left (h a ha) _
      _ = d (N.tail a) + N.cost (a :: p) := by rw [cost_cons, add_assoc]

/-- The settled vertices are `S`, and of the arcs that leave them those in `P` have not been looked at. -/
structure Labels (N : Network V A K) (src : V) (S : Set V) (P : Set A) (d : V → WithTop K) (taken : V → Option A) :
    Prop where
  start : d src = 0
  first : S.Nonempty → src ∈ S
  before : ∀ u ∈ S, ∀ v ∉ S, d u ≤ d v
  finite : ∀ u ∈ S, d u ≠ ⊤
  done : ∀ a ∈ N.arcs, N.tail a ∈ S → a ∈ P ∨ d (N.head a) ≤ d (N.tail a) + N.weight a
  root : taken src = none
  fresh : ∀ v, d v = ⊤ → taken v = none
  reach : ∀ v, d v ≠ ⊤ → v ≠ src → ∃ a, taken v = some a
  link : ∀ v a, taken v = some a →
    a ∈ N.arcs ∧ N.head a = v ∧ N.tail a ∈ S ∧ d (N.tail a) + N.weight a = d v
  rooted : ∀ v ∈ S, ∃ p, N.IsPath src p v ∧ ∀ a ∈ p, N.head a ∈ S ∧ taken (N.head a) = some a

namespace Labels

variable {src : V} {S : Set V} {P P' : Set A} {d : V → WithTop K} {taken : V → Option A}

theorem init [DecidableEq V] : Labels N src ∅ ∅ (update (fun _ => ⊤) src 0) fun _ => none where
  start := update_self ..
  first h := absurd rfl h.ne_empty
  before u hu := absurd hu (Set.notMem_empty u)
  finite u hu := absurd hu (Set.notMem_empty u)
  done a _ ha := absurd ha (Set.notMem_empty _)
  root := rfl
  fresh _ _ := rfl
  reach v hv hne := absurd (update_of_ne hne 0 _) hv
  link v a h := by cases h
  rooted v hv := absurd hv (Set.notMem_empty v)

/-- Settling a vertex. -/
theorem settle {a : V} (h : Labels N src S ∅ d taken) (ha : a ∉ S) (hfin : d a ≠ ⊤) (hmin : ∀ v ∉ S, d a ≤ d v) :
    Labels N src (insert a S) {e | N.tail e = a} d taken where
  start := h.start
  first _ := by
    rcases S.eq_empty_or_nonempty with rfl | hne
    · -- only the source is labelled before it is settled
      by_cases hsrc : a = src
      · exact .inl hsrc.symm
      · obtain ⟨e, he⟩ := h.reach a hfin hsrc
        exact absurd (h.link a e he).2.2.1 (Set.notMem_empty _)
    · exact .inr (h.first hne)
  before := by
    rintro u (rfl | hu) v hv
    · exact hmin v fun hvS => hv (.inr hvS)
    · exact h.before u hu v fun hvS => hv (.inr hvS)
  finite := by
    rintro u (rfl | hu)
    · exact hfin
    · exact h.finite u hu
  done := by
    rintro e he (hea | heS)
    · exact .inl hea
    · exact .inr ((h.done e he heS).resolve_left (Set.notMem_empty e))
  root := h.root
  fresh := h.fresh
  reach := h.reach
  link v e he := by
    obtain ⟨harc, hhead, htail, heq⟩ := h.link v e he
    exact ⟨harc, hhead, .inr htail, heq⟩
  rooted := by
    have hold : ∀ v ∈ S, ∃ p, N.IsPath src p v ∧ ∀ e ∈ p, N.head e ∈ insert a S ∧ taken (N.head e) = some e := by
      intro v hv
      obtain ⟨p, hp, hall⟩ := h.rooted v hv
      exact ⟨p, hp, fun e he => ⟨.inr (hall e he).1, (hall e he).2⟩⟩
    rintro v (rfl | hv)
    · by_cases hsrc : v = src
      · exact ⟨[], hsrc.symm, fun e he => absurd he not_mem_nil⟩
      · obtain ⟨e, he⟩ := h.reach v hfin hsrc
        obtain ⟨harc, hhead, htail, -⟩ := h.link v e he
        obtain ⟨p, hp, hall⟩ := hold _ htail
        refine ⟨p ++ [e], isPath_concat.2 ⟨hp, harc, hhead⟩, ?_⟩
        intro e' he'
        rcases mem_append.1 he' with he' | he'
        · exact hall e' he'
        · obtain rfl := mem_singleton.1 he'
          rw [hhead]
          exact ⟨.inl rfl, he⟩
    · exact hold v hv

/-- Looking at an arc that does not lower a label. -/
theorem pass {e : A} (h : Labels N src S P d taken) (hP : ∀ a ∈ P, a = e ∨ a ∈ P')
    (hle : d (N.head e) ≤ d (N.tail e) + N.weight e) : Labels N src S P' d taken :=
  { h with
    done := by
      intro a ha htail
      rcases h.done a ha htail with haP | hdone
      · rcases hP a haP with rfl | haP'
        · exact .inr hle
        · exact .inl haP'
      · exact .inr hdone }

section

variable [IsOrderedAddMonoid K] {e : A}

/-- An arc of the vertex settled last lowers no settled vertex's label. -/
theorem head_notMem (hmax : ∀ u ∈ S, d u ≤ d (N.tail e)) (hw : 0 ≤ N.weight e)
    (hlt : N.weight e + d (N.tail e) < d (N.head e)) : N.head e ∉ S := by
  intro hhead
  have hle : d (N.head e) ≤ N.weight e + d (N.tail e) := (hmax _ hhead).trans (le_add_of_nonneg_left hw)
  exact absurd hlt hle.not_gt

/-- Looking at an arc that lowers the label of its head. -/
theorem improve [DecidableEq V] (h : Labels N src S P d taken) (hP : ∀ a ∈ P, a = e ∨ a ∈ P') (harc : e ∈ N.arcs)
    (htail : N.tail e ∈ S) (hmax : ∀ u ∈ S, d u ≤ d (N.tail e)) (hw : 0 ≤ N.weight e)
    (hlt : N.weight e + d (N.tail e) < d (N.head e)) :
    Labels N src S P' (update d (N.head e) (N.weight e + d (N.tail e)))
      (update taken (N.head e) (some e)) := by
  have hhead := head_notMem hmax hw hlt
  have hne : ∀ {u}, u ∈ S → u ≠ N.head e := fun hu heq => hhead (heq ▸ hu)
  have hd : ∀ {u} (c : WithTop K), u ∈ S → update d (N.head e) c u = d u := fun c hu =>
    update_of_ne (hne hu) c d
  have hsrc : src ∈ S := h.first ⟨_, htail⟩
  constructor
  · rw [hd _ hsrc]
    exact h.start
  · exact h.first
  · intro u hu v hv
    rw [hd _ hu]
    by_cases hve : v = N.head e
    · rw [hve, update_self]
      exact (hmax u hu).trans (le_add_of_nonneg_left hw)
    · rw [update_of_ne hve]
      exact h.before u hu v hv
  · intro u hu
    rw [hd _ hu]
    exact h.finite u hu
  · intro a ha haS
    rw [hd _ haS]
    by_cases hae : N.head a = N.head e
    · rw [hae, update_self]
      rcases h.done a ha haS with haP | hdone
      · rcases hP a haP with rfl | haP'
        · exact .inr (add_comm _ _).le
        · exact .inl haP'
      · exact .inr (hlt.le.trans (hae ▸ hdone))
    · rw [update_of_ne hae]
      rcases h.done a ha haS with haP | hdone
      · rcases hP a haP with rfl | haP'
        · exact absurd rfl hae
        · exact .inl haP'
      · exact .inr hdone
  · rw [update_of_ne (hne hsrc)]
    exact h.root
  · intro v hv
    by_cases hve : v = N.head e
    · rw [hve, update_self] at hv
      exact absurd hv (ne_top_of_lt hlt)
    · rw [update_of_ne hve] at hv ⊢
      exact h.fresh v hv
  · intro v hv hvs
    by_cases hve : v = N.head e
    · exact ⟨e, by rw [hve, update_self]⟩
    · rw [update_of_ne hve] at hv ⊢
      exact h.reach v hv hvs
  · intro v a hva
    by_cases hve : v = N.head e
    · rw [hve, update_self] at hva
      obtain rfl := Option.some.inj hva
      rw [hd _ htail, hve, update_self]
      exact ⟨harc, rfl, htail, add_comm _ _⟩
    · rw [update_of_ne hve] at hva
      obtain ⟨ha, hav, haS, heq⟩ := h.link v a hva
      rw [hd _ haS, update_of_ne hve]
      exact ⟨ha, hav, haS, heq⟩
  · intro v hv
    obtain ⟨p, hp, hall⟩ := h.rooted v hv
    refine ⟨p, hp, fun a ha => ⟨(hall a ha).1, ?_⟩⟩
    rw [update_of_ne (hne (hall a ha).1)]
    exact (hall a ha).2

end

/-- The arcs remembered on the way to a vertex cost what its label says. -/
theorem cost_eq (h : Labels N src S P d taken) {p : List A} : ∀ {v : V}, N.IsPath src p v →
    (∀ a ∈ p, taken (N.head a) = some a) → N.cost p = d v := by
  induction p using List.reverseRecOn with
  | nil =>
    rintro v rfl -
    exact h.start.symm
  | append_singleton p a ih =>
    intro v hp hall
    obtain ⟨hp', -, rfl⟩ := isPath_concat.1 hp
    rw [cost_concat, ih hp' fun b hb => hall b (mem_append_left _ hb)]
    exact (h.link _ a (hall a mem_concat_self)).2.2.2

/-- There is one way at most to a vertex by remembered arcs. -/
theorem unique (h : Labels N src S P d taken) {p : List A} : ∀ {q : List A} {v : V}, N.IsPath src p v →
    (∀ a ∈ p, taken (N.head a) = some a) → N.IsPath src q v → (∀ a ∈ q, taken (N.head a) = some a) → p = q := by
  induction p using List.reverseRecOn with
  | nil =>
    rintro q v rfl - hq hallq
    rcases eq_nil_or_concat q with rfl | ⟨q, b, rfl⟩
    · rfl
    · rw [concat_eq_append] at hq hallq
      have hb := hallq b mem_concat_self
      rw [(isPath_concat.1 hq).2.2, h.root] at hb
      cases hb
  | append_singleton p a ih =>
    intro q v hp hall hq hallq
    have ha := hall a mem_concat_self
    obtain ⟨hp', -, rfl⟩ := isPath_concat.1 hp
    rcases eq_nil_or_concat q with rfl | ⟨q, b, rfl⟩
    · rw [← show src = N.head a from hq, h.root] at ha
      cases ha
    · rw [concat_eq_append] at hq hallq ⊢
      have hb := hallq b mem_concat_self
      obtain ⟨hq', -, hba⟩ := isPath_concat.1 hq
      rw [hba, ha] at hb
      obtain rfl := Option.some.inj hb
      rw [ih hp' (fun c hc => hall c (mem_append_left _ hc)) hq' fun c hc => hallq c (mem_append_left _ hc)]

variable (h : Labels N src S ∅ d taken)
include h

variable (hrest : ∀ v ∉ S, d v = ⊤)
include hrest

/-- When only vertices labelled ⊤ are left, no label can be lowered. -/
theorem feasible : N.Feasible d := by
  intro a ha
  by_cases haS : N.tail a ∈ S
  · exact (h.done a ha haS).resolve_left (Set.notMem_empty a)
  · rw [hrest _ haS]
    exact le_top

theorem le_cost [IsOrderedAddMonoid K] {p : List A} {v : V} (hp : N.IsPath src p v) : d v ≤ N.cost p := by
  have hle := (h.feasible hrest).le_path hp
  rwa [h.start, zero_add] at hle

/-- The way by remembered arcs. -/
theorem exists_path {v : V} (hv : d v ≠ ⊤) : ∃ p, N.IsPath src p v ∧ ∀ a ∈ p, taken (N.head a) = some a := by
  obtain ⟨p, hp, hall⟩ := h.rooted v (not_imp_comm.1 (hrest v) hv)
  exact ⟨p, hp, fun a ha => (hall a ha).2⟩

end Labels

end Network

end Sbmt.Lib
