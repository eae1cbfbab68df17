import Sbmt.Carmel.DistQueue
import Sbmt.Carmel.Graph
import Sbmt.Lib.LabelSetting

/-!
# The shortest distances from a state (`shared/graph.cc:146-215`)

| here | there |
| --- | --- |
| `DistState` | the local variables of `shortestDistancesFrom`, `taken` pointing to copies of the arcs |
| `distStart` | their values before the loop |
| `relaxArc`, `relaxArcs` | the inner loop (`:197-206`) |
| `distTurn` | the outer one from the pop on (`:193-206`) |
| `distLoop` | the outer loop, with fuel |
| `DistHead`, `DistPoint` | what the variables are at the head of the outer loop, and anywhere between two arcs |

A cost is exact, or infinite.  Without `taken` the function does the same but for noting the arcs.
-/

namespace Sbmt.Carmel

open Sbmt.Lib List Function Option

variable {K : Type} [AddCommMonoid K] [LinearOrder K]

structure DistState (K : Type) where
  heap : DistQueue
  dist : Nat → WithTop K
  taken : Nat → Option (GraphArc (WithTop K))
  nUnknown : Nat

def distStart (nStates src : Nat) : DistState K where
  heap := initialQueue nStates src
  dist := update (fun _ => ⊤) src 0
  taken _ := none
  nUnknown := nStates

def relaxArc (activeState : Nat) (st : DistState K) (a : GraphArc (WithTop K)) : Option (DistState K) :=
  let candidate := a.weight + st.dist activeState
  if candidate < st.dist a.dest then
    let dist := update st.dist a.dest candidate
    (heapAdjustUp distSlots (distLess dist) st.heap (st.heap.stateLocations a.dest + 1)).map fun heap =>
      { st with heap := heap, dist := dist, taken := update st.taken a.dest (some a) }
  else some st

def relaxArcs (activeState : Nat) : List (GraphArc (WithTop K)) → DistState K → Option (DistState K)
  | [], st => some st
  | a :: as, st => (relaxArc activeState st a).bind (relaxArcs activeState as)

def popUnknown (st : DistState K) : Option (DistState K) :=
  (heapPop distSlots (distLess st.dist) st.heap st.nUnknown).map fun heap =>
    { st with heap := heap, nUnknown := st.nUnknown - 1 }

variable (g : Graph (WithTop K))

def distTurn (activeState : Nat) (st : DistState K) : Option (DistState K) :=
  (popUnknown st).bind (relaxArcs activeState (g.arcs activeState))

def distLoop (g : Graph (WithTop K)) : Nat → DistState K → Option (DistState K)
  | 0, _ => none
  | fuel + 1, st => st.heap.queue[0]?.bind fun activeState =>
    if st.dist activeState = ⊤ ∨ st.nUnknown = 0 then some st
    else (distTurn g activeState st).bind (distLoop g fuel)

def shortestDistancesFrom (src : Nat) : Option (DistState K) :=
  distLoop g (g.length + 1) (distStart g.length src)

inductive DistHead (g : Graph (WithTop K)) (src : Nat) : DistState K → Prop
  | start : DistHead g src (distStart g.length src)
  | turn {st st' activeState} : DistHead g src st → st.heap.queue[0]? = some activeState →
      ¬ (st.dist activeState = ⊤ ∨ st.nUnknown = 0) → distTurn g activeState st = some st' → DistHead g src st'

inductive DistPoint (g : Graph (WithTop K)) (src : Nat) : DistState K → Prop
  | head {st} : DistHead g src st → DistPoint g src st
  | arcs {st st₁ st' activeState as} : DistHead g src st → st.heap.queue[0]? = some activeState →
      ¬ (st.dist activeState = ⊤ ∨ st.nUnknown = 0) → popUnknown st = some st₁ → as <+: g.arcs activeState →
      relaxArcs activeState as st₁ = some st' → DistPoint g src st'

/-- Every arc stands at the state it leaves and leads to a state. -/
structure Graph.WellFormed {C : Type*} (g : Graph C) : Prop where
  src_eq : ∀ s, ∀ a ∈ g.arcs s, a.src = s
  dest_lt : ∀ s, ∀ a ∈ g.arcs s, a.dest < g.length

def Graph.network : Network Nat (GraphArc (WithTop K)) K where
  arcs := {a | a ∈ g.arcs a.src}
  tail := GraphArc.src
  head := GraphArc.dest
  weight := GraphArc.weight

/-- The queue knows where each of its states is. -/
def Located (st : DistState K) : Prop :=
  ∀ i < st.nUnknown, ∀ s, st.heap.queue[i]? = some s → st.heap.stateLocations s = i

/-- What holds while the states in `S` are settled, the arcs in `P` have not been looked at and the queue is `L`. -/
structure Searching (g : Graph (WithTop K)) (src : Nat) (S : Set Nat) (P : Set (GraphArc (WithTop K))) (L : List Nat)
    (st : DistState K) : Prop where
  holds : Holds g.length st.heap L
  sifted : Sifted (distLess st.dist) up L
  length : st.nUnknown = L.length
  rest : ∀ s, s ∈ L ↔ s < g.length ∧ s ∉ S
  outside : ∀ s, g.length ≤ s → st.dist s = ⊤
  labels : g.network.Labels src S P st.dist st.taken

variable {g : Graph (WithTop K)} {src : Nat} {S : Set Nat} {P P' : Set (GraphArc (WithTop K))} {L : List Nat}
  {st : DistState K}

theorem Searching.located (h : Searching g src S P L st) : Located st := by
  intro i hi s hs
  rw [h.length] at hi
  have hL := getElem?_eq_getElem hi
  obtain rfl : L[i] = s := Option.some.inj ((h.holds.queue i _ hL).symm.trans hs)
  exact h.holds.located i _ hL

theorem Searching.start (hsrc : src < g.length) :
    Searching g src ∅ ∅ (initialOrder g.length src) (distStart g.length src) where
  holds := initialQueue_holds hsrc
  sifted i hi s hs p hp := by
    have hne : s ≠ src := by
      rintro rfl
      have hzero : (initialOrder g.length s)[0]? = some s := by rw [initialOrder_get (by omega), if_pos rfl]
      exact hi.ne (nodup_at (initialOrder_nodup ..) hzero hs)
    rw [distLess_eq_false]
    show _ ≤ update (fun _ => (⊤ : WithTop K)) src 0 s
    rw [update_of_ne hne]
    exact le_top
  length := by
    rw [initialOrder, length_map, length_range]
    rfl
  rest s := (mem_initialOrder hsrc).trans (and_iff_left (Set.notMem_empty s)).symm
  outside s hs := by
    show update (fun _ => (⊤ : WithTop K)) src 0 s = ⊤
    rw [update_of_ne (hsrc.trans_le hs).ne']
  labels := .init

/-- The first state of the queue is the nearest. -/
theorem Searching.first_le {activeState v : Nat} (h : Searching g src S P (activeState :: L) st) (hv : v ∉ S) :
    st.dist activeState ≤ st.dist v := by
  by_cases hlt : v < g.length
  · obtain ⟨i, hi⟩ := mem_iff_getElem?.1 ((h.rest v).2 ⟨hlt, hv⟩)
    exact distLess_eq_false.1 (h.sifted.le_root (distLess_weak _) up_lt i v hi activeState rfl)
  · rw [h.outside v (Nat.le_of_not_lt hlt)]
    exact le_top

section Steps

/-- The first state of the queue is settled. -/
theorem Searching.pop (h : Searching g src S ∅ (activeState :: L) st)
    (hfin : st.dist activeState ≠ ⊤) :
    ∃ st' L', popUnknown st = some st' ∧
      Searching g src (insert activeState S) {a | a.src = activeState} L' st' ∧ L'.length = L.length ∧
      (∀ u ∈ insert activeState S, st'.dist u ≤ st'.dist activeState) := by
  have hnodup := nodup_cons.1 h.holds.nodup
  have hmem := (h.rest activeState).1 mem_cons_self
  obtain ⟨q', L', hrun, hholds, hperm, hsifted⟩ := h.holds.pop (distLess_weak st.dist) h.sifted
  refine ⟨{ st with heap := q', nUnknown := st.nUnknown - 1 }, L', ?_, ⟨hholds, hsifted, ?_, ?_, h.outside, ?_⟩,
    hperm.length_eq, ?_⟩
  · rw [popUnknown, h.length, length_cons, hrun]
    rfl
  · show st.nUnknown - 1 = L'.length
    rw [h.length, hperm.length_eq, length_cons, Nat.add_sub_cancel]
  · intro s
    have hs := h.rest s
    rw [mem_cons] at hs
    rw [hperm.mem_iff, Set.mem_insert_iff, not_or]
    constructor
    · intro hsL
      obtain ⟨hlt, hsS⟩ := hs.1 (.inr hsL)
      refine ⟨hlt, ?_, hsS⟩
      rintro rfl
      exact hnodup.1 hsL
    · rintro ⟨hlt, hne, hsS⟩
      exact (hs.2 ⟨hlt, hsS⟩).resolve_left hne
  · exact h.labels.settle hmem.2 hfin fun v hv => h.first_le hv
  · rintro u (rfl | hu)
    · exact le_rfl
    · exact h.labels.before u hu activeState hmem.2

variable [IsOrderedAddMonoid K]

variable (P') in
/-- One arc of the state settled last. -/
theorem Searching.relax {e : GraphArc (WithTop K)} (h : Searching g src S P L st) (hP : ∀ a ∈ P, a = e ∨ a ∈ P')
    (harc : e ∈ g.arcs e.src) (hdest : e.dest < g.length) (hw : 0 ≤ e.weight) (hsrc : e.src ∈ S)
    (hmax : ∀ u ∈ S, st.dist u ≤ st.dist e.src) :
    ∃ st' L', relaxArc e.src st e = some st' ∧ Searching g src S P' L' st' ∧ L'.length = L.length ∧
      ∀ u ∈ S, st'.dist u = st.dist u := by
  unfold relaxArc
  dsimp only
  by_cases hlt : e.weight + st.dist e.src < st.dist e.dest
  · rw [if_pos hlt]
    have hdestS : e.dest ∉ S := Network.Labels.head_notMem (N := g.network) hmax hw hlt
    obtain ⟨q', L', hrun, hholds, hperm, hsifted⟩ :=
      h.holds.decrease h.sifted ((h.rest e.dest).2 ⟨hdest, hdestS⟩) hlt
    rw [hrun]
    refine ⟨_, L', rfl, ⟨hholds, hsifted, ?_, ?_, ?_, ?_⟩, hperm.length_eq, ?_⟩
    · rw [hperm.length_eq]
      exact h.length
    · exact fun s => hperm.mem_iff.trans (h.rest s)
    · intro s hs
      show update st.dist e.dest _ s = ⊤
      rw [update_of_ne (by omega)]
      exact h.outside s hs
    · exact h.labels.improve hP harc hsrc hmax hw hlt
    · intro u hu
      apply update_of_ne
      rintro rfl
      exact hdestS hu
  · rw [if_neg hlt]
    refine ⟨st, L, rfl, { h with labels := h.labels.pass hP ?_ }, rfl, fun _ _ => rfl⟩
    exact (not_lt.1 hlt).trans (add_comm _ _).le

variable (P') in
section

variable (hg : g.WellFormed)
include hg

variable (hw : ∀ s, ∀ a ∈ g.arcs s, 0 ≤ a.weight)
include hw

variable {activeState : Nat}

theorem Searching.relaxAll
    (hS : activeState ∈ S) {as : List (GraphArc (WithTop K))} (has : ∀ a ∈ as, a ∈ g.arcs activeState) :
    ∀ {P st L}, Searching g src S P L st → (∀ a ∈ P, a ∈ as ∨ a ∈ P') → (∀ u ∈ S, st.dist u ≤ st.dist activeState) →
      ∃ st' L', relaxArcs activeState as st = some st' ∧ Searching g src S P' L' st' ∧ L'.length = L.length := by
  induction as with
  | nil =>
    intro P st L h hP _
    refine ⟨st, L, rfl, { h with labels := ?_ }, rfl⟩
    exact { h.labels with
      done := fun a ha htail => (h.labels.done a ha htail).imp_left fun haP => (hP a haP).resolve_left not_mem_nil }
  | cons e as ih =>
    intro P st L h hP hmax
    have he := has e mem_cons_self
    obtain rfl := hg.src_eq _ e he
    obtain ⟨st1, L1, hrun1, h1, hlen1, hsame⟩ := h.relax {a | a ∈ as ∨ a ∈ P'}
      (fun a ha => (hP a ha).elim (fun hmem => (mem_cons.1 hmem).imp_right .inl) fun h' => .inr (.inr h'))
      he (hg.dest_lt _ e he) (hw _ e he) hS hmax
    have hmax1 : ∀ u ∈ S, st1.dist u ≤ st1.dist e.src := by
      intro u hu
      rw [hsame u hu, hsame _ hS]
      exact hmax u hu
    obtain ⟨st', L', hrun', h', hlen'⟩ := ih (fun a ha => has a (mem_cons_of_mem e ha)) h1 (fun a ha => ha) hmax1
    refine ⟨st', L', ?_, h', hlen'.trans hlen1⟩
    rw [relaxArcs, hrun1, bind_some, hrun']

/-- One turn of the outer loop. -/
theorem Searching.turn
    (h : Searching g src S ∅ (activeState :: L) st) (hfin : st.dist activeState ≠ ⊤) :
    ∃ st' L', distTurn g activeState st = some st' ∧ Searching g src (insert activeState S) ∅ L' st' ∧
      L'.length = L.length := by
  obtain ⟨st1, L1, hpop, h1, hlen1, hmax⟩ := h.pop hfin
  have hpending : g.network.Labels src (insert activeState S) {a | a ∈ g.arcs activeState} st1.dist st1.taken :=
    { h1.labels with
      done := by
        intro a ha htail
        refine (h1.labels.done a ha htail).imp_left ?_
        rintro rfl
        exact ha }
  obtain ⟨st', L', hrun, h', hlen'⟩ := Searching.relaxAll ∅ hg hw (Set.mem_insert ..) (fun a ha => ha)
    { h1 with labels := hpending } (fun a ha => .inl ha) hmax
  exact ⟨st', L', by rw [distTurn, hpop, bind_some, hrun], h', hlen'.trans hlen1⟩

theorem distLoop_spec (hpos : 0 < g.length) : ∀ {fuel S L st}, Searching g src S ∅ L st → L.length < fuel →
      ∃ st' S' L', distLoop g fuel st = some st' ∧ Searching g src S' ∅ L' st' ∧ ∀ v ∉ S', st'.dist v = ⊤
  | fuel + 1, S, [], st, h, _ => by
    have hqueue : 0 < st.heap.queue.length := by
      rw [h.holds.size]
      exact hpos
    refine ⟨st, S, [], ?_, h, ?_⟩
    · rw [distLoop, getElem?_eq_getElem hqueue, bind_some, if_pos (.inr h.length)]
    · intro v hv
      apply h.outside
      by_contra hlt
      exact not_mem_nil ((h.rest v).2 ⟨Nat.lt_of_not_le hlt, hv⟩)
  | fuel + 1, S, a :: L, st, h, hfuel => by
    rw [distLoop, h.holds.queue 0 a rfl, bind_some]
    by_cases htop : st.dist a = ⊤
    · rw [if_pos (.inl htop)]
      refine ⟨st, S, a :: L, rfl, h, fun v hv => top_le_iff.1 ?_⟩
      rw [← htop]
      exact h.first_le hv
    · have hunknown : st.nUnknown ≠ 0 := by
        rw [h.length]
        exact Nat.succ_ne_zero _
      obtain ⟨st1, L1, hrun, h1, hlen⟩ := h.turn hg hw htop
      rw [if_neg (not_or.2 ⟨htop, hunknown⟩), hrun]
      exact distLoop_spec hpos h1 (by rw [hlen]; exact Nat.lt_of_succ_lt_succ hfuel)

/-- What the loop leaves. -/
theorem shortestDistancesFrom_spec (hsrc : src < g.length) :
    ∃ st S, shortestDistancesFrom g src = some st ∧ g.network.Labels src S ∅ st.dist st.taken ∧
      ∀ v ∉ S, st.dist v = ⊤ := by
  have hlen : (initialOrder g.length src).length < g.length + 1 := by
    rw [initialOrder, length_map, length_range]
    exact Nat.lt_succ_self _
  obtain ⟨st, S, L, hrun, h, hrest⟩ := distLoop_spec hg hw ((Nat.zero_le src).trans_lt hsrc) (.start hsrc) hlen
  exact ⟨st, S, hrun, h.labels, hrest⟩

/-! ## Throughout the loop -/

theorem DistHead.searching (hsrc : src < g.length) (h : DistHead g src st) : ∃ S L, Searching g src S ∅ L st := by
  induction h with
  | start => exact ⟨∅, _, .start hsrc⟩
  | @turn st st' activeState _ hfirst hgo hrun ih =>
    obtain ⟨S, L, h⟩ := ih
    obtain ⟨hfin, hunknown⟩ := not_or.1 hgo
    cases L with
    | nil => exact absurd h.length hunknown
    | cons a L =>
      obtain rfl : a = activeState := Option.some.inj ((h.holds.queue 0 a rfl).symm.trans hfirst)
      obtain ⟨st1, L1, hrun1, h1, -⟩ := h.turn hg hw hfin
      obtain rfl := mem_unique hrun1 hrun
      exact ⟨_, L1, h1⟩

theorem DistPoint.located (hsrc : src < g.length) (h : DistPoint g src st) : Located st := by
  cases h with
  | head h =>
    obtain ⟨S, L, h⟩ := h.searching hg hw hsrc
    exact h.located
  | @arcs st st1 st' activeState as h hfirst hgo hpop hpart hrun =>
    obtain ⟨S, L, h⟩ := h.searching hg hw hsrc
    obtain ⟨hfin, hunknown⟩ := not_or.1 hgo
    cases L with
    | nil => exact absurd h.length hunknown
    | cons a L =>
      obtain rfl : a = activeState := Option.some.inj ((h.holds.queue 0 a rfl).symm.trans hfirst)
      obtain ⟨st2, L2, hpop2, h2, -, hmax⟩ := h.pop hfin
      obtain rfl := mem_unique hpop2 hpop
      obtain ⟨st3, L3, hrun3, h3, -⟩ := Searching.relaxAll {e | e.src = a} hg hw (Set.mem_insert ..)
        (fun e he => hpart.subset he) h2 (fun e he => .inr he) hmax
      obtain rfl := mem_unique hrun3 hrun
      exact h3.located

end

/-! ## What comes out -/

/-- The distances from `src` and a tree of shortest paths. -/
structure ShortestFrom (g : Graph (WithTop K)) (src : Nat) (dist : Nat → WithTop K)
    (taken : Nat → Option (GraphArc (WithTop K))) : Prop where
  le_cost : ∀ v p, g.network.IsPath src p v → dist v ≤ g.network.cost p
  attained : ∀ v, dist v ≠ ⊤ → ∃ p, g.network.IsPath src p v ∧ g.network.cost p = dist v
  top_iff : ∀ v, dist v = ⊤ ↔ ¬ ∃ p, g.network.IsPath src p v
  taken_none : ∀ v, taken v = none ↔ v = src ∨ dist v = ⊤
  taken_arc : ∀ v a, taken v = some a → a ∈ g.arcs a.src ∧ a.dest = v ∧ dist a.src + a.weight = dist v
  tree : ∀ v, dist v ≠ ⊤ → ∃! p, g.network.IsPath src p v ∧ ∀ a ∈ p, taken a.dest = some a

/-- **`shortestDistancesFrom`** returns with the distances and a tree of shortest paths, and all along the queue knows
where its states are. -/
theorem shortestDistancesFrom_correct (hg : g.WellFormed) (hw : ∀ s, ∀ a ∈ g.arcs s, 0 ≤ a.weight ∧ a.weight ≠ ⊤)
    (hsrc : src < g.length) :
    (∃ st, shortestDistancesFrom g src = some st ∧ ShortestFrom g src st.dist st.taken) ∧
      ∀ st, DistPoint g src st → Located st := by
  have hnonneg : ∀ s, ∀ a ∈ g.arcs s, 0 ≤ a.weight := fun s a ha => (hw s a ha).1
  refine ⟨?_, fun st h => h.located hg hnonneg hsrc⟩
  obtain ⟨st, S, hrun, h, hrest⟩ := shortestDistancesFrom_spec hg hnonneg hsrc
  refine ⟨st, hrun, ?_, ?_, ?_, ?_, ?_, ?_⟩
  · exact fun v p hp => h.le_cost hrest hp
  · intro v hv
    obtain ⟨p, hp, hall⟩ := h.exists_path hrest hv
    exact ⟨p, hp, h.cost_eq hp hall⟩
  · intro v
    constructor
    · rintro hv ⟨p, hp⟩
      have hle := h.le_cost hrest hp
      rw [hv, top_le_iff] at hle
      exact Network.cost_ne_top (fun a ha => (hw a.src a ha).2) hp hle
    · intro hno
      by_contra hv
      obtain ⟨p, hp, -⟩ := h.exists_path hrest hv
      exact hno ⟨p, hp⟩
  · intro v
    constructor
    · intro hnone
      by_contra hne
      obtain ⟨hsrc', hfin⟩ := not_or.1 hne
      obtain ⟨a, ha⟩ := h.reach v hfin hsrc'
      rw [hnone] at ha
      cases ha
    · rintro (rfl | hv)
      · exact h.root
      · exact h.fresh v hv
  · intro v a ha
    obtain ⟨harc, hhead, -, heq⟩ := h.link v a ha
    exact ⟨harc, hhead, heq⟩
  · intro v hv
    obtain ⟨p, hp, hall⟩ := h.exists_path hrest hv
    exact ⟨p, ⟨hp, hall⟩, fun q hq => (h.unique hp hall hq.1 hq.2).symm⟩

end Steps

/-- Two ways to a state, the longer one nearer, a loop at no cost and a state that is not reached. -/
def detour : Graph (WithTop Nat) := [[⟨0, 1, ((3 : Nat) : WithTop Nat)⟩, ⟨0, 2, 1⟩], [], [⟨2, 1, 1⟩, ⟨2, 2, 0⟩], []]

theorem detour_arcs (s : Nat) : ∀ a ∈ detour.arcs s, a.src = s ∧ a.dest < detour.length ∧ 0 ≤ a.weight ∧ a.weight ≠ ⊤ := by
  rcases Nat.lt_or_ge s 4 with h | h
  · interval_cases s <;> decide
  · obtain ⟨k, rfl⟩ := Nat.exists_eq_add_of_le' h
    exact fun a ha => absurd ha not_mem_nil

theorem detour_wellFormed : detour.WellFormed :=
  ⟨fun s a ha => (detour_arcs s a ha).1, fun s a ha => (detour_arcs s a ha).2.1⟩

theorem shortestDistancesFrom_correct_detour :
    (∃ st, shortestDistancesFrom detour 0 = some st ∧ ShortestFrom detour 0 st.dist st.taken) ∧
      ∀ st, DistPoint detour 0 st → Located st :=
  shortestDistancesFrom_correct detour_wellFormed (fun s a ha => (detour_arcs s a ha).2.2) (by decide)

example : (shortestDistancesFrom detour 0).map (fun st => (range 4).map st.dist) = some [0, 2, 1, ⊤] := by decide

end Sbmt.Carmel
