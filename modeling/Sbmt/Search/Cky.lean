import Sbmt.Search.Span
import Sbmt.Search.ThreadPool

/-!
# cky_st and cky_mt: the chart does not depend on the schedule

| here | there |
| --- | --- |
| `Chart` | `chart`: a cell of items for each span; a cell is filled by `put_cell` |
| `CellProc` | a `CellProcessor`: `proc(span, partitions, chart)` as a program over the cells |
| `ckyWork` | `cky_work` (`search/lazy/cky.hpp:268-284`), without `ef.finish` and the log |
| `lengths` | the values of the 16-bit `len` in `for (len = 1; len <= n; ++len)` |
| `ckySt` | `cky_st` (`search/lazy/cky.hpp:286-306`), with the spans it processed |
| `ckyMt` | what `cky_mt` (`search/lazy/cky.hpp:308-347`) asks of its `thread_pool` |
| `ckyMtStart` | the state in which `cky_mt` enters its loop with `numthreads` workers |

A processor may be interrupted between any two accesses to the chart.
`SeesShorter` is what the decoder's own processor keeps to: it looks only at the
cells of the partitions it is given, which are shorter in the coordinates of the
generator (`CkyGenerator.shiftSizes_partitions`), and puts its own cell.
-/

namespace Sbmt.Search

open Sbmt.Lib ThreadPool List Function

variable {ε E : Type*}

abbrev Chart (ε : Type*) := Span → List ε

/-- An item of the chart: an edge equivalence by its root and span. -/
structure ChartItem (Tok Info : Type) where
  root : Tok
  span : Span
  info : Info
deriving DecidableEq

abbrev CellProc (ε E : Type*) := Span → List (Span × Span) → CellProg Span (List ε) E

variable (gen : CkyGenerator)

def ckyWork (proc : CellProc ε E) (span : Span) : CellProg Span (List ε) E :=
  proc span (gen.partitions span)

/-- `none`: with `n` at `USHRT_MAX` the counter wraps around and the loop does
not end. -/
def lengths (n : Nat) : Option (List Nat) := if n < ushrtMax then some (range' 1 n) else none

/-- One length of `cky_st`: every shift whose cell is empty is processed. -/
def ckyLength (target : Span) (gen : CkyGenerator) (proc : CellProc ε E) (x : Chart ε × List Span) (len : Nat) :
    Except E (Chart ε × List Span) :=
  (pass List.isEmpty (ckyWork gen proc) (gen.shifts target len) x.1).map fun y => (y.1, x.2 ++ y.2)

/-- `none`: the loop does not end; an error: a processor threw. -/
def ckySt (target : Span) (gen : CkyGenerator) (proc : CellProc ε E) (chart : Chart ε) :
    Option (Except E (Chart ε × List Span)) :=
  (lengths (gen.shiftSizes target)).map fun lens => lens.foldlM (ckyLength target gen proc) (chart, [])

/-- The value of `len` in round `r`. -/
def ckyLen (r : Nat) : Nat := (r + 1) % (ushrtMax + 1)

def ckyMt (target : Span) (gen : CkyGenerator) (proc : CellProc ε E) : Client Span (List ε) E where
  more := fun r => decide (ckyLen r ≤ gen.shiftSizes target)
  jobs := fun r => gen.shifts target (ckyLen r)
  blank := List.isEmpty
  body := ckyWork gen proc
  maxJobs := 2 ^ 64 - 1

/-- `thread_pool pool(numthreads)`, which refuses to be built without threads. -/
def ckyMtStart (numthreads : Nat) (chart : Chart ε) : State Span (List ε) E (Fin numthreads) :=
  { State.start chart with producer := if numthreads = 0 then .refused else .head 0 }

/-- The processor reads only cells of spans that are shorter in the generator's
coordinates and writes only the cell it is given. -/
def SeesShorter (proc : CellProc ε E) : Prop :=
  ∀ span, (ckyWork gen proc span).Confined span fun c => gen.shiftSizes c < gen.shiftSizes span

/-- The shape of the decoder's own processor (`first_experiment_cell_proc`,
`search/lazy/cky.hpp:138-171`): look at the two cells of each partition in turn,
then put the cell built from what was seen. -/
def readParts (build : Span → List (List ε × List ε) → List ε) (span : Span) :
    List (List ε × List ε) → List (Span × Span) → CellProg Span (List ε) E
  | seen, [] => .write span (build span seen) .ret
  | seen, (p, q) :: parts =>
    .read p fun l => .read q fun r => readParts build span (seen ++ [(l, r)]) parts

variable (build : Span → List (List ε × List ε) → List ε)

def cellProc : CellProc ε E :=
  fun span parts => readParts build span [] parts

theorem readParts_confined {build : Span → List (List ε × List ε) → List ε} {span : Span} {R : Span → Prop} :
    ∀ {parts : List (Span × Span)} {seen : List (List ε × List ε)}, (∀ p ∈ parts, R p.1 ∧ R p.2) →
    (readParts build span seen parts : CellProg Span (List ε) E).Confined span R
  | [], _, _ => ⟨rfl, trivial⟩
  | (p, q) :: _, _, h =>
    have hpq := h (p, q) (mem_cons_self ..)
    ⟨hpq.1, fun _ => ⟨hpq.2, fun _ => readParts_confined fun x hx => h x (mem_cons_of_mem _ hx)⟩⟩

theorem cellProc_seesShorter :
    SeesShorter gen (cellProc build : CellProc ε E) := by
  intro span
  exact readParts_confined fun p hp => CkyGenerator.shiftSizes_partitions hp

theorem readParts_exec {build : Span → List (List ε × List ε) → List ε} {span : Span} :
    ∀ {parts : List (Span × Span)} {seen : List (List ε × List ε)} {χ : Chart ε}, (∀ p ∈ parts, p.1 ≠ span ∧ p.2 ≠ span) →
    (readParts build span seen parts : CellProg Span (List ε) E).exec χ =
      .ok (update χ span (build span (seen ++ parts.map fun p => (χ p.1, χ p.2))))
  | [], seen, χ, _ => by simp [readParts, CellProg.exec]
  | (p, q) :: parts, seen, χ, h => by
    simp only [readParts, CellProg.exec]
    rw [readParts_exec fun x hx => h x (mem_cons_of_mem _ hx)]
    simp

section Staged

variable {target : Span} {gen : CkyGenerator} {proc : CellProc ε E}

/-- A round the loop gets to has its own length, unless no round has jobs. -/
theorem ckyLen_of_enters {r : Nat} (h : (ckyMt target gen proc).Enters r) :
    gen.shiftSizes target = ushrtMax ∨ ∀ i ≤ r, ckyLen i = i + 1 := by
  rcases Nat.lt_or_eq_of_le (gen.shiftSizes_le target) with hlt | heq
  · right
    have hr : r < gen.shiftSizes target := by
      by_contra hge
      have hmore := h (gen.shiftSizes target) (Nat.le_of_not_lt hge)
      have hle : ckyLen (gen.shiftSizes target) ≤ gen.shiftSizes target := by simpa [ckyMt] using hmore
      have hlen : ckyLen (gen.shiftSizes target) = gen.shiftSizes target + 1 :=
        Nat.mod_eq_of_lt (Nat.succ_lt_succ hlt)
      omega
    intro i hi
    exact Nat.mod_eq_of_lt (by omega)
  · exact .inl heq

/-- In a run of `cky_mt` the rounds grow in length, so a shorter span is no
longer worked on. -/
theorem below_of_shorter {r : Nat} {span c : Span} (hspan : span ∈ gen.shifts target (ckyLen r))
    (hc : gen.shiftSizes c < gen.shiftSizes span) : (ckyMt target gen proc).Below r c := by
  intro r' hrr' hr' hmem
  have hmem : c ∈ gen.shifts target (ckyLen r') := hmem
  have hlen := CkyGenerator.shiftSizes_of_mem_shifts hmem
  rw [CkyGenerator.shiftSizes_of_mem_shifts hspan] at hc
  rcases ckyLen_of_enters hr' with hfull | hinc
  · simp [CkyGenerator.shifts_eq_nil hfull] at hmem
  · rw [hinc r hrr'] at hc
    rw [hinc r' (Nat.le_refl r')] at hlen
    omega

theorem ckyMt_staged (hproc : SeesShorter gen proc) : (ckyMt target gen proc).Staged where
  nodup := fun r => gen.shifts_nodup target (ckyLen r)
  apart := by
    intro r r' hrr' hr' k hk hk'
    have hk : k ∈ gen.shifts target (ckyLen r) := hk
    have hlen := CkyGenerator.shiftSizes_of_mem_shifts hk
    have hlen' := CkyGenerator.shiftSizes_of_mem_shifts hk'
    rcases ckyLen_of_enters hr' with hfull | hinc
    · simp [CkyGenerator.shifts_eq_nil hfull] at hk
    · rw [hinc r (Nat.le_of_lt hrr')] at hlen
      rw [hinc r' (Nat.le_refl r')] at hlen'
      omega
  confined := by
    intro r _ span hspan
    exact (hproc span).mono fun c hc => below_of_shorter hspan hc

/-- The rounds of `cky_mt` run one job after the other are the lengths of
`cky_st`. -/
theorem rounds_ckyMt (chart : Chart ε) : ∀ r, r ≤ ushrtMax →
    rounds (ckyMt target gen proc) r chart = (range' 1 r).foldlM (ckyLength target gen proc) (chart, []) := by
  intro r
  induction r with
  | zero => intro _; rfl
  | succ r ih =>
    intro hr
    have hlen : ckyLen r = 1 + r := by
      unfold ckyLen
      rw [Nat.mod_eq_of_lt (Nat.lt_succ_of_le hr), Nat.add_comm]
    rw [range'_1_concat, foldlM_append, ← ih (Nat.le_of_succ_le hr)]
    simp only [foldlM_cons, foldlM_nil, bind_pure]
    show (rounds _ r chart >>= _) = _
    congr 1
    funext x
    show (pass List.isEmpty (ckyWork gen proc) (gen.shifts target (ckyLen r)) x.1).map _ = _
    rw [hlen]
    rfl

/-- The loop of `cky_mt` stops where that of `cky_st` does, or not at all. -/
theorem ckyMt_stops {r : Nat} (hmore : ∀ i < r, (ckyMt target gen proc).more i = true)
    (hstop : (ckyMt target gen proc).more r = false) : r = gen.shiftSizes target ∧ r < ushrtMax := by
  have hmore : ∀ i < r, ckyLen i ≤ gen.shiftSizes target := fun i hi => by simpa [ckyMt] using hmore i hi
  have hstop : gen.shiftSizes target < ckyLen r := by simpa [ckyMt] using hstop
  have hlt : gen.shiftSizes target < ushrtMax :=
    Nat.lt_of_lt_of_le hstop (Nat.le_of_lt_succ (Nat.mod_lt _ (Nat.succ_pos _)))
  have hlen : ∀ i ≤ gen.shiftSizes target, ckyLen i = i + 1 := fun i hi => Nat.mod_eq_of_lt (by omega)
  have hle : r ≤ gen.shiftSizes target := by
    by_contra hgt
    have hlast := hmore _ (Nat.lt_of_not_le hgt)
    rw [hlen _ (Nat.le_refl _)] at hlast
    omega
  rw [hlen r hle] at hstop
  omega

/-- The spans the lengths 1 to `n` of the loop come to. -/
theorem mem_ckyMt_rounds {n : Nat} (hn : n < ushrtMax) {chart : Chart ε} {span : Span} :
    span ∈ ((range n).flatMap fun i =>
      ((ckyMt target gen proc).jobs i).filter fun k => (ckyMt target gen proc).blank (chart k)) ↔
    chart span = [] ∧ ∃ len, 1 ≤ len ∧ len ≤ n ∧ span ∈ gen.shifts target len := by
  have hlen : ∀ i < n, ckyLen i = i + 1 := fun i hi => Nat.mod_eq_of_lt (by omega)
  simp only [mem_flatMap, mem_range, mem_filter, ckyMt, List.isEmpty_iff]
  constructor
  · rintro ⟨i, hi, hmem, hempty⟩
    rw [hlen i hi] at hmem
    exact ⟨hempty, i + 1, by omega, hi, hmem⟩
  · rintro ⟨hempty, len, h1, hle, hmem⟩
    refine ⟨len - 1, by omega, ?_, hempty⟩
    rw [hlen (len - 1) (by omega), Nat.sub_add_cancel h1]
    exact hmem

theorem nodup_ckyMt_rounds (hproc : SeesShorter gen proc) {r : Nat}
    (hmore : ∀ i < r, (ckyMt target gen proc).more i = true) {chart : Chart ε} :
    ((range r).flatMap fun i =>
      ((ckyMt target gen proc).jobs i).filter fun k => (ckyMt target gen proc).blank (chart k)).Nodup := by
  have hstaged : (ckyMt target gen proc).Staged := ckyMt_staged hproc
  refine nodup_flatMap.2 ⟨fun i _ => (hstaged.nodup i).filter _, ?_⟩
  refine pairwise_lt_range.imp_of_mem ?_
  intro i j _ hj hij
  have hj : j < r := mem_range.1 hj
  intro k hki hkj
  exact hstaged.apart i j hij (fun l hl => hmore l (by omega)) k (mem_filter.1 hki).1 (mem_filter.1 hkj).1

end Staged

/-- The invariant of the pool holds along every run of `cky_mt`. -/
theorem ckyMt_inv {target : Span} {gen : CkyGenerator} {proc : CellProc ε E} (hproc : SeesShorter gen proc)
    {chart : Chart ε} {numthreads : Nat} {s : State Span (List ε) E (Fin numthreads)}
    (hs : Steps (ckyMt target gen proc) (ckyMtStart numthreads chart) s) :
    Inv (ckyMt target gen proc) chart s := by
  refine Inv.steps (ckyMt_staged hproc) ?_ hs
  have hstart : Inv (ckyMt target gen proc) chart (State.start chart : State Span (List ε) E (Fin numthreads)) :=
    Inv.start _ _
  refine ⟨hstart.count, ?_⟩
  by_cases hn : numthreads = 0
  · simp only [ckyMtStart, hn, if_true]
    exact hstart.phase.1
  · simp only [ckyMtStart, hn, if_false]
    exact hstart.phase

section Results

variable {target : Span} {gen : CkyGenerator} {proc : CellProc ε E} {chart out : Chart ε} {log : List Span}

/-- `cky_st` ends with the rounds of `cky_mt` run one job after the other. -/
theorem rounds_of_ckySt (h : ckySt target gen proc chart = some (.ok (out, log))) :
    gen.shiftSizes target < ushrtMax ∧ (∀ i < gen.shiftSizes target, (ckyMt target gen proc).more i = true) ∧
      rounds (ckyMt target gen proc) (gen.shiftSizes target) chart = .ok (out, log) := by
  unfold ckySt lengths at h
  by_cases hlt : gen.shiftSizes target < ushrtMax
  · rw [if_pos hlt, Option.map_some, Option.some.injEq, ← rounds_ckyMt chart _ (Nat.le_of_lt hlt)] at h
    refine ⟨hlt, fun i hi => ?_, h⟩
    have hlen : ckyLen i = i + 1 := Nat.mod_eq_of_lt (by omega)
    simp only [ckyMt, hlen, decide_eq_true_eq]
    omega
  · simp [hlt] at h

variable (hproc : SeesShorter gen proc)
include hproc

section

variable (h : ckySt target gen proc chart = some (.ok (out, log)))
include h

/-- The spans `cky_st` processes: those of the loop whose cell is empty at the
beginning, each once. -/
theorem ckySt_processed : log.Nodup ∧ ∀ span, span ∈ log ↔ chart span = [] ∧
      ∃ len, 1 ≤ len ∧ len ≤ gen.shiftSizes target ∧ span ∈ gen.shifts target len := by
  obtain ⟨hlt, hmore, hrounds⟩ := rounds_of_ckySt h
  obtain ⟨rfl, -⟩ := rounds_spec (ckyMt_staged hproc) hmore hrounds
  exact ⟨nodup_ckyMt_rounds hproc hmore, fun span => mem_ckyMt_rounds hlt⟩

/-- The other cells stay as they are. -/
theorem ckySt_frame {span : Span} (hspan : span ∉ log) : out span = chart span := by
  obtain ⟨-, hmore, hrounds⟩ := rounds_of_ckySt h
  exact (rounds_spec (ckyMt_staged hproc) hmore hrounds).2.1 span hspan

/-- Each processed cell holds what the processor builds from the chart that
`cky_st` leaves. -/
theorem ckySt_settles {span : Span} (hspan : span ∈ log) :
    (ckyWork gen proc span).exec (update out span (chart span)) = .ok out := by
  obtain ⟨-, hmore, hrounds⟩ := rounds_of_ckySt h
  exact (rounds_spec (ckyMt_staged hproc) hmore hrounds).2.2 span hspan

end

variable {build} in
omit hproc in
/-- For the decoder's processor: the cell is built from the cells of the
partitions as the chart has them in the end. -/
theorem ckySt_cell
    (h : ckySt target gen (cellProc build : CellProc ε E) chart = some (.ok (out, log))) {span : Span}
    (hspan : span ∈ log) : out span = build span ((gen.partitions span).map fun p => (out p.1, out p.2)) := by
  have hne : ∀ p ∈ gen.partitions span, p.1 ≠ span ∧ p.2 ≠ span := by
    intro p hp
    obtain ⟨h1, h2⟩ := CkyGenerator.shiftSizes_partitions hp
    exact ⟨fun heq => Nat.lt_irrefl _ (heq ▸ h1), fun heq => Nat.lt_irrefl _ (heq ▸ h2)⟩
  have hset := ckySt_settles (cellProc_seesShorter gen build) h hspan
  unfold ckyWork cellProc at hset
  rw [readParts_exec hne, Except.ok.injEq] at hset
  have hcell := congrFun hset span
  rw [update_self, nil_append] at hcell
  rw [← hcell]
  congr 1
  refine map_congr_left fun p hp => ?_
  rw [update_of_ne (hne p hp).1, update_of_ne (hne p hp).2]

/-- A run of `cky_mt` that returns leaves the chart of `cky_st`. -/
theorem ckySt_of_returned {numthreads : Nat} {s : State Span (List ε) E (Fin numthreads)}
    (hs : Steps (ckyMt target gen proc) (ckyMtStart numthreads chart) s) (hret : s.producer = .returned) :
    ckySt target gen proc chart = some (.ok (s.pool.store, s.pool.started)) := by
  have hphase := (ckyMt_inv hproc hs).phase
  rw [hret] at hphase
  obtain ⟨r, hstop, -, -, hmore, hrounds⟩ := hphase
  obtain ⟨rfl, hlt⟩ := ckyMt_stops hmore hstop
  rw [rounds_ckyMt chart _ (Nat.le_of_lt hlt)] at hrounds
  unfold ckySt lengths
  rw [if_pos hlt, Option.map_some, hrounds]

end Results

/-- **Every schedule of cky_mt leaves the chart of cky_st.** In a run that
returns, the chart is the one `cky_st` leaves and the spans processed are the
same, in the same order: each span of the loop whose cell was empty, once. In
every state of every run, the cells of all spans shorter than one that is being
processed are final. -/
theorem ckyMt_eq_ckySt (target : Span) (gen : CkyGenerator) (proc : CellProc ε E) (hproc : SeesShorter gen proc)
    (chart : Chart ε) (numthreads : Nat) {s : State Span (List ε) E (Fin numthreads)}
    (hs : Steps (ckyMt target gen proc) (ckyMtStart numthreads chart) s) :
    (s.producer = .returned →
      ckySt target gen proc chart = some (.ok (s.pool.store, s.pool.started)) ∧ s.pool.started.Nodup ∧
        ∀ span, span ∈ s.pool.started ↔ chart span = [] ∧
          ∃ len, 1 ≤ len ∧ len ≤ gen.shiftSizes target ∧ span ∈ gen.shifts target len) ∧
    ∀ w span p, s.job w = some (span, p) → ∀ c, gen.shiftSizes c < gen.shiftSizes span →
      ∀ s', Steps (ckyMt target gen proc) s s' → s'.pool.store c = s.pool.store c := by
  refine ⟨?_, ?_⟩
  · intro hret
    have hst := ckySt_of_returned hproc hs hret
    exact ⟨hst, ckySt_processed hproc hst⟩
  · intro w span p hjob c hc s' hsteps
    have hinv := ckyMt_inv hproc hs
    obtain ⟨r, -, hspan, -, hreached, -⟩ := hinv.phase.running_round hjob
    exact store_final (ckyMt_staged hproc) hinv hreached (below_of_shorter hspan hc) hsteps

theorem two_le_ushrtMax : 2 ≤ ushrtMax := by decide

/-- A sentence of two words. -/
def twoWords : Span := ⟨0, 2, by decide, two_le_ushrtMax⟩

/-- A processor that finds the length of a span over it, from its two parts where it has them. -/
def lengthsOf : CellProc Nat Empty := cellProc fun _ parts =>
  if parts = [] then [1] else parts.flatMap fun p => p.1.zipWith (· + ·) p.2

theorem twoWords_run : ∃ s, Steps (ckyMt twoWords (.plain .full) lengthsOf) (ckyMtStart 2 fun _ => []) s ∧
    s.producer = .returned ∧ s.pool.store twoWords = [2] := by
  have h0 : Steps (ckyMt twoWords (.plain .full) lengthsOf) (ckyMtStart 2 fun _ => []) _ := .refl
  have h1 := h0.tail (.producer (.more rfl))
  have h2 := h1.tail (.producer (.add rfl))
  have h3 := h2.tail (.producer (.addPending rfl (by decide)))
  have h4 := h3.tail (.worker 0 .enter)
  have h5 := h4.tail (.worker 1 .enter)
  have h6 := h5.tail (.worker 1 (.take rfl rfl))
  have h7 := h6.tail (.producer (.add rfl))
  have h8 := h7.tail (.producer (.addPending rfl (by decide)))
  have h9 := h8.tail (.worker 0 (.take rfl rfl))
  have h10 := h9.tail (.producer .wait)
  have h11 := h10.tail (.worker 0 .write)
  have h12 := h11.tail (.worker 1 .write)
  have h13 := h12.tail (.worker 1 .ended)
  have h14 := h13.tail (.worker 1 .store)
  have h15 := h14.tail (.worker 0 .ended)
  have h16 := h15.tail (.worker 0 .store)
  have h17 := h16.tail (.worker 0 (.sleep rfl rfl))
  have h18 := h17.tail (.worker 1 (.sleep rfl rfl))
  have h19 := h18.tail (.producer (.waited rfl rfl rfl))
  have h20 := h19.tail (.producer (.more rfl))
  have h21 := h20.tail (.producer (.add rfl))
  have h22 := h21.tail (.producer (.addPending rfl (by decide)))
  have h23 := h22.tail (.producer .wait)
  have h24 := h23.tail (.worker 0 .wake)
  have h25 := h24.tail (.worker 0 (.take rfl rfl))
  have h26 := h25.tail (.worker 0 .read)
  have h27 := h26.tail (.worker 0 .read)
  have h28 := h27.tail (.worker 0 .write)
  have h29 := h28.tail (.worker 0 .ended)
  have h30 := h29.tail (.worker 0 .store)
  have h31 := h30.tail (.worker 0 (.sleep rfl rfl))
  have h32 := h31.tail (.producer (.waited rfl rfl rfl))
  have h33 := h32.tail (.producer (.noMore rfl))
  have h34 := h33.tail (.producer .join)
  have h35 := h34.tail (.worker 1 .wake)
  have h36 := h35.tail (.worker 1 (.finish rfl rfl))
  have h37 := h36.tail (.worker 0 .wake)
  have h38 := h37.tail (.worker 0 (.finish rfl rfl))
  have h39 := h38.tail (.worker 0 .leave)
  have h40 := h39.tail (.worker 1 .leave)
  have h41 := h40.tail (.producer (.joined (fun w => by match w with | 0 | 1 => rfl) rfl))
  exact ⟨_, h41, rfl, rfl⟩

theorem ckyMt_eq_ckySt_twoWords : ∃ s : State Span (List Nat) Empty (Fin 2),
    Steps (ckyMt twoWords (.plain .full) lengthsOf) (ckyMtStart 2 fun _ => []) s ∧ s.producer = .returned ∧ s.pool.store twoWords = [2] ∧
      ckySt twoWords (.plain .full) lengthsOf (fun _ => []) = some (.ok (s.pool.store, s.pool.started)) := by
  obtain ⟨s, hs, hret, hcell⟩ := twoWords_run
  have h := ckyMt_eq_ckySt twoWords (.plain .full) lengthsOf (cellProc_seesShorter _ _) (fun _ => []) 2 hs
  exact ⟨s, hs, hret, hcell, (h.1 hret).1⟩

end Sbmt.Search
